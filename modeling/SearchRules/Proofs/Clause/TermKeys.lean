import SearchRules.Clause.Exclusive
import SearchRules.Mapping.Expansion
import SearchRules.Proofs.Clause.Packing
import SearchRules.Proofs.Clause.Parts

/-!
# Term keys changed

A term object carries its key along and nothing looks at it. So it is the same whether keys are changed before or after a pair is
placed (`Clause.place_rekey`), alternatives are made exclusive (`BoolQuery.exclusive_rekey`) or a query is repeated over nested paths
(`BoolQuery.expand_rekey`), and a clause has the same parts, but for their keys (`Clause.parts_rekey`).
-/

namespace SearchRules

/-- The one of the two term keys that a key is not. -/
def TermKey.other : TermKey → TermKey
  | .term => .terms
  | .terms => .term

theorem TermKey.eq_other_of_ne {k k' : TermKey} (h : k' ≠ k) : k' = k.other := by
  cases k <;> cases k' <;> first | rfl | exact absurd rfl h

mutual

/-- A clause with the key of every term object in it changed, at whatever depth. -/
def Clause.rekey (σ : TermKey → TermKey) : Clause → Clause
  | .bool q => .bool (q.rekey σ)
  | .term t => .term { t with key := σ t.key }
  | .freeText t => .freeText t
  | .nested path c hits => .nested path (c.rekey σ) hits

/-- A boolean query with the key of every term object in it changed. -/
def BoolQuery.rekey (σ : TermKey → TermKey) : BoolQuery → BoolQuery
  | ⟨must, should, mustNot, m⟩ => ⟨Clause.rekeyAll σ must, Clause.rekeyAll σ should, Clause.rekeyAll σ mustNot, m⟩

/-- Clauses with the key of every term object in them changed. -/
def Clause.rekeyAll (σ : TermKey → TermKey) : List Clause → List Clause
  | [] => []
  | c :: cs => c.rekey σ :: Clause.rekeyAll σ cs

end

variable (σ : TermKey → TermKey)

theorem Clause.rekeyAll_eq_map (cs : List Clause) : rekeyAll σ cs = cs.map (rekey σ) := by
  induction cs with
  | nil => rfl
  | cons c cs ih => rw [rekeyAll, ih, List.map_cons]

/-- The keys of a query are changed scope by scope. -/
theorem BoolQuery.rekey_eq (q : BoolQuery) : q.rekey σ =
    ⟨q.must.map (Clause.rekey σ), q.should.map (Clause.rekey σ), q.mustNot.map (Clause.rekey σ), q.minimumShouldMatch⟩ := by
  obtain ⟨must, should, mustNot, m⟩ := q
  simp only [rekey, Clause.rekeyAll_eq_map]

namespace Clause

/-- Which fields an object lacks has nothing to do with its key. -/
theorem lacks_rekey (field : String) (c : Clause) : (c.rekey σ).lacks field = c.lacks field := by
  cases c <;> simp only [rekey, lacks, TermObject.has]

/-- A pair goes to the same place whatever the keys are. -/
theorem place_rekey (key : TermKey) (field value : String) (cs : List Clause) :
    place (σ key) field value (cs.map (rekey σ)) = (place key field value cs).map (rekey σ) := by
  induction cs with
  | nil => rfl
  | cons c cs ih =>
    by_cases hl : c.lacks field = true
    · obtain ⟨t, rfl, ht⟩ := exists_of_lacks hl
      rw [place_cons_of_lacks ht, List.map_cons, List.map_cons, rekey, rekey]
      exact place_cons_of_lacks (t := { t with key := σ t.key }) ht _
    · rw [Bool.not_eq_true] at hl
      rw [place_cons_of_not_lacks hl, List.map_cons, List.map_cons,
        place_cons_of_not_lacks ((lacks_rekey σ field c).trans hl), ih]

theorem placeAll_rekey (key : TermKey) (fields values : List String) (cs : List Clause) :
    placeAll (σ key) fields values (cs.map (rekey σ)) = (placeAll key fields values cs).map (rekey σ) := by
  rw [placeAll_eq_foldl, placeAll_eq_foldl]
  exact List.foldl_hom _ fun cs e => place_rekey σ key e.1 e.2 cs

end Clause

namespace BoolQuery

theorem isEmpty_rekey (q : BoolQuery) : (q.rekey σ).isEmpty = q.isEmpty := by
  simp only [rekey_eq, isEmpty, List.isEmpty_map]

/-- What is done to a scope may be done before its keys are changed, if it is the same done after. -/
theorem modify_rekey {f g : List Clause → List Clause} (h : ∀ cs, g (cs.map (Clause.rekey σ)) = (f cs).map (Clause.rekey σ))
    (q : BoolQuery) (s : Scope) : (q.rekey σ).modify s g = (q.modify s f).rekey σ := by
  simp only [rekey_eq]
  cases s <;> simp only [modify, h]

theorem shouldOf_rekey (cs : List Clause) : shouldOf (cs.map (Clause.rekey σ)) = (shouldOf cs).rekey σ := by
  rw [rekey_eq]
  rfl

theorem allOf_rekey (cs : List Clause) : allOf (cs.map (Clause.rekey σ)) = (allOf cs).rekey σ := by
  rw [rekey_eq, allOf, allOf, List.length_map]
  rfl

/-- Both copies that are made of exclusive alternatives have their keys changed. -/
theorem someNotAll_rekey (cs : List Clause) : someNotAll (cs.map (Clause.rekey σ)) = (someNotAll cs).rekey σ := by
  cases cs with
  | nil => rfl
  | cons c cs =>
    have hall : Clause.bool (allOf ((c :: cs).map (Clause.rekey σ))) = (Clause.bool (allOf (c :: cs))).rekey σ := by
      rw [allOf_rekey, Clause.rekey]
    rw [rekey_eq]
    simp only [someNotAll, List.map_cons, List.map_nil] at hall ⊢
    rw [hall]

/-- Alternatives are made exclusive in the same way whatever the keys are. -/
theorem exclusive_rekey (strategy : XorStrategy) (q : BoolQuery) : (q.rekey σ).exclusive strategy = (q.exclusive strategy).rekey σ := by
  cases strategy with
  | minimumShouldMatch =>
    rw [rekey_eq, rekey_eq]
    rfl
  | emulate =>
    have hshould : someNotAll (q.rekey σ).should = (someNotAll q.should).rekey σ := by
      rw [← someNotAll_rekey, rekey_eq]
    have hmust : (q.rekey σ).must.isEmpty = q.must.isEmpty := by
      rw [rekey_eq, List.isEmpty_map]
    rw [exclusive, exclusive, hshould, hmust, isEmpty_rekey]
    split
    · simp only [rekey_eq, List.map_append]
    · split
      · rfl
      · simp only [rekey_eq, List.map_append, List.map_cons, List.map_nil, Clause.rekey]

end BoolQuery

theorem Clause.anyOf_rekey (cs : List Clause) : anyOf (cs.map (rekey σ)) = (anyOf cs).map (rekey σ) := by
  match cs with
  | [] => rfl
  | [c] => rfl
  | c₁ :: c₂ :: cs =>
    have hor : Clause.bool (.shouldOf ((c₁ :: c₂ :: cs).map (rekey σ))) = (Clause.bool (.shouldOf (c₁ :: c₂ :: cs))).rekey σ := by
      rw [rekey, BoolQuery.shouldOf_rekey]
    exact congrArg some hor

/-! ## Nested paths -/

mutual

theorem PathNode.fanOut_rekey (hits : Option HighlightSpec) (root : Clause) :
    ∀ n : PathNode, n.fanOut hits (root.rekey σ) = (n.fanOut hits root).rekey σ
  | .leaf path => by rw [fanOut, fanOut, Clause.rekey]
  | .branch path children => by
    rw [fanOut, fanOut, Clause.rekey, Clause.rekey, fanOutAll_rekey hits root children, ← BoolQuery.shouldOf_rekey, List.map_cons]

/-- What is repeated at the nodes of a forest has its keys changed at each of them. -/
theorem PathNode.fanOutAll_rekey (hits : Option HighlightSpec) (root : Clause) :
    ∀ ns : List PathNode, fanOutAll hits (root.rekey σ) ns = (fanOutAll hits root ns).map (Clause.rekey σ)
  | [] => rfl
  | n :: ns => by rw [fanOutAll, fanOutAll, fanOut_rekey hits root n, fanOutAll_rekey hits root ns, List.map_cons]

end

theorem BoolQuery.expand_rekey (mapping : List PathNode) (hits : Option HighlightSpec) (q : BoolQuery) :
    (q.rekey σ).expand mapping hits = (q.expand mapping hits).rekey σ := by
  have hroot : Clause.bool (q.rekey σ) = (Clause.bool q).rekey σ := by rw [Clause.rekey]
  rw [expand, expand, isEmpty_rekey, hroot]
  split
  · rw [← shouldOf_rekey, List.map_singleton]
  · rw [← shouldOf_rekey, PathNode.fanOutAll_rekey, List.map_cons]

/-! ## Parts -/

mutual

/-- The parts of a clause have their keys changed, each in its place. -/
theorem Clause.parts_rekey : ∀ c : Clause, (c.rekey σ).parts = c.parts.map (Clause.rekey σ)
  | .bool q => by rw [Clause.rekey, Clause.parts, Clause.parts, List.map_cons, BoolQuery.parts_rekey q, Clause.rekey]
  | .term t => by rw [Clause.rekey, Clause.parts, Clause.parts, List.map_singleton, Clause.rekey]
  | .freeText t => by rw [Clause.rekey, Clause.parts, List.map_singleton, Clause.rekey]
  | .nested path c hits => by
    rw [Clause.rekey, Clause.parts, Clause.parts, List.map_cons, Clause.parts_rekey c, Clause.rekey]

theorem BoolQuery.parts_rekey : ∀ q : BoolQuery, (q.rekey σ).parts = q.parts.map (Clause.rekey σ)
  | ⟨must, should, mustNot, m⟩ => by
    rw [BoolQuery.rekey, BoolQuery.parts, BoolQuery.parts, Clause.partsIn_rekeyAll must, Clause.partsIn_rekeyAll should,
      Clause.partsIn_rekeyAll mustNot, List.map_append, List.map_append]

theorem Clause.partsIn_rekeyAll : ∀ cs : List Clause, Clause.partsIn (Clause.rekeyAll σ cs) = (Clause.partsIn cs).map (Clause.rekey σ)
  | [] => rfl
  | c :: cs => by
    rw [Clause.rekeyAll, Clause.partsIn, Clause.partsIn, List.map_append, Clause.parts_rekey c, Clause.partsIn_rekeyAll cs]

end

/-- Where every key is changed to one, there is no other. -/
theorem Clause.key_of_mem_parts_rekey {k : TermKey} {c : Clause} {t : TermObject} (h : .term t ∈ (c.rekey fun _ => k).parts) :
    t.key = k := by
  rw [Clause.parts_rekey, List.mem_map] at h
  obtain ⟨x, -, hx⟩ := h
  cases x with
  | term u =>
    rw [Clause.rekey, Clause.term.injEq] at hx
    rw [← hx]
  | bool q => rw [Clause.rekey] at hx; cases hx
  | freeText u => rw [Clause.rekey] at hx; cases hx
  | nested path x hits => rw [Clause.rekey] at hx; cases hx

end SearchRules
