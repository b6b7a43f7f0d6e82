import SearchRules.Clause.Basic

/-!
# The clauses in a clause

The parts of a clause are the clause itself and every clause in it, at whatever depth. `Clause.Everywhere` asks something of each
of them; for a boolean clause that is to ask it of the clause and everywhere in its scopes: `Clause.everywhere_bool`.
-/

namespace SearchRules

mutual

/-- A clause and every clause in it, from the outside in. -/
def Clause.parts : Clause → List Clause
  | .bool q => .bool q :: q.parts
  | .term t => [.term t]
  | .freeText t => [.freeText t]
  | .nested path c hits => .nested path c hits :: c.parts

/-- Every clause in a boolean query, scope by scope. -/
def BoolQuery.parts : BoolQuery → List Clause
  | ⟨must, should, mustNot, _⟩ => Clause.partsIn must ++ (Clause.partsIn should ++ Clause.partsIn mustNot)

/-- Some clauses and every clause in them. -/
def Clause.partsIn : List Clause → List Clause
  | [] => []
  | c :: cs => c.parts ++ Clause.partsIn cs

end

/-- The clauses directly in a clause. -/
def Clause.children : Clause → List Clause
  | .bool q => q.must ++ (q.should ++ q.mustNot)
  | .term _ => []
  | .freeText _ => []
  | .nested _ c _ => [c]

/-- Whether a condition holds of a clause and of every clause in it. -/
def Clause.Everywhere (P : Clause → Prop) (c : Clause) : Prop :=
  ∀ x ∈ c.parts, P x

theorem Clause.mem_partsIn (x : Clause) (cs : List Clause) : x ∈ partsIn cs ↔ ∃ c ∈ cs, x ∈ c.parts := by
  induction cs with
  | nil => simp [partsIn]
  | cons c cs ih => simp [partsIn, ih]

/-- Something holds of a scope if it holds of one of the three. -/
theorem Scope.exists_iff {P : Scope → Prop} : (∃ s, P s) ↔ P .must ∨ P .should ∨ P .mustNot := by
  constructor
  · rintro ⟨s, h⟩
    cases s
    · exact Or.inl h
    · exact Or.inr (Or.inl h)
    · exact Or.inr (Or.inr h)
  · rintro (h | h | h)
    · exact ⟨.must, h⟩
    · exact ⟨.should, h⟩
    · exact ⟨.mustNot, h⟩

/-- A clause stands in a boolean query if it is a part of a clause of one of the scopes. -/
theorem BoolQuery.mem_parts (x : Clause) (q : BoolQuery) : x ∈ q.parts ↔ ∃ s, ∃ c ∈ q.clauses s, x ∈ c.parts := by
  obtain ⟨must, should, mustNot, m⟩ := q
  rw [parts, List.mem_append, List.mem_append, Clause.mem_partsIn, Clause.mem_partsIn, Clause.mem_partsIn, Scope.exists_iff]
  rfl

namespace Clause

variable {P : Clause → Prop}

/-- The clauses directly in a boolean clause are those of its scopes. -/
theorem mem_children_bool (x : Clause) (q : BoolQuery) : x ∈ (Clause.bool q).children ↔ ∃ s, x ∈ q.clauses s := by
  rw [children, List.mem_append, List.mem_append, Scope.exists_iff]
  rfl

@[simp]
theorem everywhere_term (t : TermObject) : (Clause.term t).Everywhere P ↔ P (.term t) := by
  simp [Everywhere, parts]

@[simp]
theorem everywhere_freeText (t : FreeText) : (Clause.freeText t).Everywhere P ↔ P (.freeText t) := by
  simp [Everywhere, parts]

/-- A condition holds everywhere in a boolean clause when it holds of the clause and everywhere in its scopes. -/
theorem everywhere_bool (q : BoolQuery) :
    (Clause.bool q).Everywhere P ↔ P (.bool q) ∧ ∀ s, ∀ c ∈ q.clauses s, c.Everywhere P := by
  rw [Everywhere, parts, List.forall_mem_cons]
  refine and_congr_right fun _ => ?_
  constructor
  · intro h s c hc x hx
    exact h x ((BoolQuery.mem_parts x q).2 ⟨s, c, hc, hx⟩)
  · intro h x hx
    obtain ⟨s, c, hc, hxc⟩ := (BoolQuery.mem_parts x q).1 hx
    exact h s c hc x hxc

mutual

/-- Every part of a clause but the clause itself stands directly in a part. -/
theorem exists_parent : ∀ (c x : Clause), x ∈ c.parts → x = c ∨ ∃ p ∈ c.parts, x ∈ p.children
  | .term t, x, hx => Or.inl (List.mem_singleton.1 hx)
  | .freeText t, x, hx => Or.inl (List.mem_singleton.1 hx)
  | .nested path c hits, x, hx => by
    rcases List.mem_cons.1 hx with hx | hx
    · exact Or.inl hx
    · rcases exists_parent c x hx with hself | ⟨p, hp, hxp⟩
      · exact Or.inr ⟨_, List.mem_cons_self, List.mem_singleton.2 hself⟩
      · exact Or.inr ⟨p, List.mem_cons_of_mem _ hp, hxp⟩
  | .bool ⟨must, should, mustNot, m⟩, x, hx => by
    rcases List.mem_cons.1 hx with hx | hx
    · exact Or.inl hx
    · refine Or.inr ?_
      have hscope : ∀ cs : List Clause, cs ⊆ (Clause.bool ⟨must, should, mustNot, m⟩).children →
          partsIn cs ⊆ (BoolQuery.mk must should mustNot m).parts → (x ∈ cs ∨ ∃ p ∈ partsIn cs, x ∈ p.children) →
          ∃ p ∈ (Clause.bool ⟨must, should, mustNot, m⟩).parts, x ∈ p.children := by
        rintro cs hcs hparts (hself | ⟨p, hp, hxp⟩)
        · exact ⟨_, List.mem_cons_self, hcs hself⟩
        · exact ⟨p, List.mem_cons_of_mem _ (hparts hp), hxp⟩
      rw [BoolQuery.parts, List.mem_append, List.mem_append] at hx
      rcases hx with hx | hx | hx
      · exact hscope must (by simp [children]) (by simp [BoolQuery.parts]) (exists_parentIn must x hx)
      · exact hscope should (by simp [children]) (by simp [BoolQuery.parts]) (exists_parentIn should x hx)
      · exact hscope mustNot (by simp [children]) (by simp [BoolQuery.parts]) (exists_parentIn mustNot x hx)

theorem exists_parentIn : ∀ (cs : List Clause) (x : Clause), x ∈ partsIn cs → x ∈ cs ∨ ∃ p ∈ partsIn cs, x ∈ p.children
  | [], x, hx => absurd hx List.not_mem_nil
  | c :: cs, x, hx => by
    rcases List.mem_append.1 hx with hx | hx
    · rcases exists_parent c x hx with hself | ⟨p, hp, hxp⟩
      · exact Or.inl (List.mem_cons.2 (Or.inl hself))
      · exact Or.inr ⟨p, List.mem_append_left _ hp, hxp⟩
    · rcases exists_parentIn cs x hx with hmem | ⟨p, hp, hxp⟩
      · exact Or.inl (List.mem_cons_of_mem c hmem)
      · exact Or.inr ⟨p, List.mem_append_right _ hp, hxp⟩

end

end Clause

/-- Every clause in a boolean query stands directly in it or in a clause in it. -/
theorem BoolQuery.exists_parent {q : BoolQuery} {x : Clause} (h : x ∈ q.parts) :
    ∃ p ∈ (Clause.bool q).parts, x ∈ p.children := by
  obtain ⟨s, c, hc, hx⟩ := (mem_parts x q).1 h
  rcases Clause.exists_parent c x hx with rfl | ⟨p, hp, hxp⟩
  · exact ⟨.bool q, List.mem_cons_self, (Clause.mem_children_bool x q).2 ⟨s, hc⟩⟩
  · exact ⟨p, List.mem_cons_of_mem _ ((mem_parts p q).2 ⟨s, c, hc, hp⟩), hxp⟩

/-! ## No clause stands in itself -/

/-- A disjunction that has a query among its clauses is larger than the query. -/
theorem BoolQuery.shouldOf_cons_ne (q : BoolQuery) (cs : List Clause) : shouldOf (.bool q :: cs) ≠ q := by
  intro h
  have hsize := congrArg sizeOf h
  simp only [shouldOf, BoolQuery.mk.sizeOf_spec, List.cons.sizeOf_spec, Clause.bool.sizeOf_spec] at hsize
  omega

mutual

/-- A part of a clause has no more parts than the clause. -/
theorem Clause.length_parts_le : ∀ c x : Clause, x ∈ c.parts → x.parts.length ≤ c.parts.length
  | .term t, x, hx => Nat.le_of_eq (congrArg (·.parts.length) (List.mem_singleton.1 hx))
  | .freeText t, x, hx => Nat.le_of_eq (congrArg (·.parts.length) (List.mem_singleton.1 hx))
  | .nested path c hits, x, hx => by
    rcases List.mem_cons.1 hx with rfl | hx
    · exact Nat.le_refl _
    · exact Nat.le_succ_of_le (Clause.length_parts_le c x hx)
  | .bool q, x, hx => by
    rcases List.mem_cons.1 hx with rfl | hx
    · exact Nat.le_refl _
    · exact Nat.le_succ_of_le (BoolQuery.length_parts_le q x hx)

theorem BoolQuery.length_parts_le : ∀ (q : BoolQuery) (x : Clause), x ∈ q.parts → x.parts.length ≤ q.parts.length
  | ⟨must, should, mustNot, m⟩, x, hx => by
    rw [BoolQuery.parts, List.mem_append, List.mem_append] at hx
    rw [BoolQuery.parts, List.length_append, List.length_append]
    rcases hx with hx | hx | hx
    · have hle := Clause.length_partsIn_le must x hx
      omega
    · have hle := Clause.length_partsIn_le should x hx
      omega
    · have hle := Clause.length_partsIn_le mustNot x hx
      omega

theorem Clause.length_partsIn_le :
    ∀ (cs : List Clause) (x : Clause), x ∈ Clause.partsIn cs → x.parts.length ≤ (Clause.partsIn cs).length
  | [], x, hx => absurd hx List.not_mem_nil
  | c :: cs, x, hx => by
    rw [Clause.partsIn, List.mem_append] at hx
    rw [Clause.partsIn, List.length_append]
    rcases hx with hx | hx
    · exact Nat.le_add_right_of_le (Clause.length_parts_le c x hx)
    · exact Nat.le_add_left_of_le (Clause.length_partsIn_le cs x hx)

end

theorem BoolQuery.bool_notMem_parts (q : BoolQuery) : .bool q ∉ q.parts := by
  intro h
  have hle := length_parts_le q _ h
  rw [Clause.parts, List.length_cons] at hle
  omega

end SearchRules
