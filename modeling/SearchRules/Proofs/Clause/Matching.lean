import SearchRules.Clause.Exclusive

/-!
# Which documents a clause matches

The engine's reading of clauses. A boolean query asks for all of `must`, none of `mustNot` and enough of `should`; a term object
asks for all of its pairs at once; a nested clause asks for one sub-document under its path. `required` says how many clauses of
`should` are enough. `verdict` is the same reading of one boolean query, given of each clause in it whether it matches.
-/

namespace SearchRules

/-- A document as clauses see it: which values its fields have, which free texts find it, and its sub-documents under each
nested path. -/
structure Document where
  has : String → String → Bool
  answers : FreeText → Bool
  under : String → List Document

/-- How many clauses of `should` have to match. A negative number counts from their total. Without a number it is one if `should`
is all that can match, and none otherwise. -/
def BoolQuery.required (q : BoolQuery) : Nat :=
  match q.minimumShouldMatch with
  | some m => (if m < 0 then q.should.length + m else m).toNat
  | none => if q.must.isEmpty && !q.should.isEmpty then 1 else 0

mutual

/-- Whether a clause matches a document. -/
def Clause.matches : Clause → Document → Bool
  | .bool q, d => q.matches d
  | .term t, d => t.entries.all fun e => d.has e.1 e.2
  | .freeText t, d => d.answers t
  | .nested path c _, d => (d.under path).any fun s => c.matches s

/-- Whether a boolean query matches a document. -/
def BoolQuery.matches : BoolQuery → Document → Bool
  | ⟨must, should, mustNot, m⟩, d =>
    (Clause.verdicts must d).all id && !(Clause.verdicts mustNot d).any id &&
      decide (BoolQuery.required ⟨must, should, mustNot, m⟩ ≤ (Clause.verdicts should d).countP id)

/-- For each clause of a list, whether it matches a document. -/
def Clause.verdicts : List Clause → Document → List Bool
  | [], _ => []
  | c :: cs, d => c.matches d :: Clause.verdicts cs d

end

/-! ## Helpers: verdicts and counts -/

theorem Clause.verdicts_eq_map (cs : List Clause) (d : Document) : Clause.verdicts cs d = cs.map (·.matches d) := by
  induction cs with
  | nil => rfl
  | cons c cs ih => rw [Clause.verdicts, List.map_cons, ih]

@[simp]
theorem Clause.matches_bool (q : BoolQuery) (d : Document) : (Clause.bool q).matches d = q.matches d := rfl

@[simp]
theorem Clause.matches_term (t : TermObject) (d : Document) :
    (Clause.term t).matches d = t.entries.all fun e => d.has e.1 e.2 := rfl

@[simp]
theorem Clause.matches_freeText (t : FreeText) (d : Document) : (Clause.freeText t).matches d = d.answers t := rfl

/-- The reading of a boolean query, clause by clause. -/
theorem BoolQuery.matches_eq (q : BoolQuery) (d : Document) :
    q.matches d = (q.must.all (·.matches d) && !q.mustNot.any (·.matches d) &&
      decide (q.required ≤ q.should.countP (·.matches d))) := by
  obtain ⟨must, should, mustNot, m⟩ := q
  simp only [BoolQuery.matches, Clause.verdicts_eq_map, List.all_map, List.any_map, List.countP_map]
  rfl

/-- At least one of a list satisfies a test. -/
theorem decide_one_le_countP {α : Type} (p : α → Bool) (l : List α) : decide (1 ≤ l.countP p) = l.any p := by
  rw [Bool.eq_iff_iff, decide_eq_true_iff, List.any_eq_true]
  exact List.countP_pos_iff

/-- As many as there are satisfy a test: all of them do. -/
theorem decide_length_le_countP {α : Type} (p : α → Bool) (l : List α) : decide (l.length ≤ l.countP p) = l.all p := by
  rw [Bool.eq_iff_iff, decide_eq_true_iff, List.all_eq_true, ← List.countP_eq_length]
  exact ⟨fun h => Nat.le_antisymm List.countP_le_length h, fun h => Nat.le_of_eq h.symm⟩

/-- Whether a boolean query matches, given of each clause whether it does. -/
def BoolQuery.verdict (truth : Clause → Bool) (q : BoolQuery) : Bool :=
  q.must.all truth && !q.mustNot.any truth && decide (q.required ≤ q.should.countP truth)

/-- The engine's reading of a boolean query rests on that of the clauses in it. -/
theorem BoolQuery.matches_eq_verdict (q : BoolQuery) (d : Document) : q.matches d = q.verdict (·.matches d) :=
  q.matches_eq d

/-- A query without a number of its own asks for one of `should` where nothing has to match, and for none otherwise. -/
theorem BoolQuery.verdict_of_unset (q : BoolQuery) (truth : Clause → Bool) (h : q.minimumShouldMatch = none) :
    q.verdict truth = (q.must.all truth && !q.mustNot.any truth &&
      (!q.must.isEmpty || q.should.isEmpty || q.should.any truth)) := by
  rw [BoolQuery.verdict, BoolQuery.required, h]
  cases q.must.isEmpty <;> cases q.should.isEmpty <;> simp [← decide_one_le_countP]

theorem BoolQuery.matches_of_unset (q : BoolQuery) (d : Document) (h : q.minimumShouldMatch = none) :
    q.matches d = (q.must.all (·.matches d) && !q.mustNot.any (·.matches d) &&
      (!q.must.isEmpty || q.should.isEmpty || q.should.any (·.matches d))) :=
  (q.matches_eq_verdict d).trans (q.verdict_of_unset _ h)

/-! ## Disjunctions -/

/-- A disjunction of at least one clause matches where one of the clauses does. -/
theorem BoolQuery.matches_shouldOf (cs : List Clause) (d : Document) (h : cs ≠ []) :
    (BoolQuery.shouldOf cs).matches d = cs.any (·.matches d) := by
  rw [BoolQuery.matches_of_unset _ _ rfl]
  simp [BoolQuery.shouldOf, h]

/-- Any one of some clauses matches where one of them does; of no clauses there is none to choose from. -/
theorem Clause.map_matches_anyOf (cs : List Clause) (d : Document) :
    (Clause.anyOf cs).toList.map (·.matches d) = if cs.isEmpty then [] else [cs.any (·.matches d)] := by
  match cs with
  | [] => rfl
  | [c] => simp [Clause.anyOf]
  | c₁ :: c₂ :: cs => simp [Clause.anyOf, BoolQuery.matches_shouldOf]

end SearchRules
