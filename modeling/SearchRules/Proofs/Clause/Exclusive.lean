import Mathlib.Logic.Function.Iterate
import SearchRules.Proofs.Clause.Matching

/-!
# Exclusive alternatives

The exclusive rewrite means what it says, whichever of its two shapes it takes (`exclusive_emulate`): the rewritten query matches
where all of `must` does, none of `mustNot`, and some but not all of the alternatives (`exclusive_some_not_all`).

That is shown for any truth of the clauses in the query, whatever they are, as long as the queries that the rewrite makes of the
alternatives are read as the engine reads them (`Reads`). Every assignment of truth can be had so, by changing nothing but the truth
of these queries (`exists_reads`), and the truth of clauses in a document is one that is (`reads_matches`).

A query rewritten again matches what it matched before, since at most it asks once more for what it asks for already
(`exclusive_again`).
-/

namespace SearchRules

namespace BoolQuery

/-- Some, but not all, of some clauses are true. -/
def SomeNotAll (truth : Clause → Bool) (cs : List Clause) : Prop :=
  (∃ x ∈ cs, truth x = true) ∧ ∃ x ∈ cs, truth x = false

/-- The queries that the rewrite makes of exclusive alternatives, if there are any. -/
def made : List Clause → List BoolQuery
  | [] => []
  | c :: cs => [allOf (c :: cs), someNotAll (c :: cs)]

/-- The queries made of some alternatives are read as the engine does. -/
def Reads (truth : Clause → Bool) (cs : List Clause) : Prop :=
  ∀ q ∈ made cs, truth (.bool q) = q.verdict truth

variable {truth : Clause → Bool} {cs : List Clause}

/-- The exclusive rewrite in its two shapes: the alternatives are not all to match, or some but not all of them have to. -/
theorem exclusive_emulate (q : BoolQuery) : q.exclusive .emulate =
    if q.should = [] then q
    else if q.must = [] then { q with mustNot := q.mustNot ++ [.bool (.allOf q.should)] }
    else { q with must := q.must ++ [.bool { should := q.should, mustNot := [.bool (.allOf q.should)] }], should := [] } := by
  obtain ⟨must, should, mustNot, m⟩ := q
  cases should with
  | nil => cases must <;> simp [exclusive, someNotAll, isEmpty]
  | cons x should => cases must <;> simp [exclusive, someNotAll, isEmpty]

/-- The exclusive rewrite leaves a query empty that is, and no other. -/
theorem isEmpty_exclusive (q : BoolQuery) (s : XorStrategy) : (q.exclusive s).isEmpty = q.isEmpty := by
  obtain ⟨must, should, mustNot, m⟩ := q
  cases s <;> cases must <;> cases should <;> simp [exclusive, someNotAll, isEmpty]

theorem someNotAll_of_ne_nil (h : cs ≠ []) : someNotAll cs = { should := cs, mustNot := [.bool (allOf cs)] } := by
  obtain ⟨c, cs, rfl⟩ := List.exists_cons_of_ne_nil h
  rfl

/-! ## The queries that are made -/

theorem mem_made (h : cs ≠ []) (q : BoolQuery) : q ∈ made cs ↔ q = allOf cs ∨ q = someNotAll cs := by
  obtain ⟨c, cs, rfl⟩ := List.exists_cons_of_ne_nil h
  simp [made]

/-- The query for every one of some alternatives asks for as many as there are. -/
theorem required_allOf (cs : List Clause) : (allOf cs).required = cs.length := by
  have h : ¬ (cs.length : Int) < 0 := by omega
  simp only [allOf, required, if_neg h, Int.toNat_natCast]

/-- The query for every one of some alternatives matches where all of them do, however often each of them stands there. -/
theorem verdict_allOf (truth : Clause → Bool) (cs : List Clause) : (allOf cs).verdict truth = cs.all truth := by
  rw [verdict, required_allOf]
  exact decide_length_le_countP _ _

/-- The query for some but not all of them matches where one does and the query for every one of them does not. -/
theorem verdict_someNotAll (hne : cs ≠ []) (hall : truth (.bool (allOf cs)) = cs.all truth) :
    (someNotAll cs).verdict truth = (cs.any truth && !cs.all truth) := by
  have hempty : cs.isEmpty = false := List.isEmpty_eq_false_iff.2 hne
  rw [someNotAll_of_ne_nil hne, verdict_of_unset _ _ rfl]
  simp [hall, hempty, Bool.and_comm]

theorem Reads.allOf_eq (h : Reads truth cs) (hne : cs ≠ []) : truth (.bool (allOf cs)) = cs.all truth := by
  rw [h _ ((mem_made hne _).2 (Or.inl rfl)), verdict_allOf]

theorem Reads.someNotAll_eq (h : Reads truth cs) (hne : cs ≠ []) :
    truth (.bool (someNotAll cs)) = (cs.any truth && !cs.all truth) := by
  rw [h _ ((mem_made hne _).2 (Or.inr rfl)), verdict_someNotAll hne (h.allOf_eq hne)]

/-- The exclusive rewrite keeps what must match and what must not, and asks for some but not all of the alternatives, if there
are any. -/
theorem verdict_exclusive (q : BoolQuery) (hunset : q.minimumShouldMatch = none) (h : Reads truth q.should) :
    (q.exclusive .emulate).verdict truth = (q.must.all truth && !q.mustNot.any truth &&
      (q.should.isEmpty || (q.should.any truth && !q.should.all truth))) := by
  rw [exclusive_emulate]
  by_cases hshould : q.should = []
  · rw [if_pos hshould, verdict_of_unset q truth hunset]
    simp [hshould]
  · have hempty : q.should.isEmpty = false := List.isEmpty_eq_false_iff.2 hshould
    rw [if_neg hshould]
    by_cases hmust : q.must = []
    · -- the alternatives stay, since one of them is asked for already
      have hall := h.allOf_eq hshould
      rw [if_pos hmust, verdict_of_unset _ truth (by exact hunset)]
      simp only [List.any_append, List.any_cons, List.any_nil, Bool.or_false, Bool.not_or, hall, hmust, hempty, List.isEmpty_nil,
        Bool.not_true, Bool.false_or, List.all_nil, Bool.true_and]
      rw [Bool.and_assoc, Bool.and_comm (!q.should.all truth)]
    · -- the alternatives become one more clause that must match
      have hsome := h.someNotAll_eq hshould
      rw [someNotAll_of_ne_nil hshould] at hsome
      rw [if_neg hmust, verdict_of_unset _ truth (by exact hunset)]
      simp only [List.all_append, List.all_cons, List.all_nil, Bool.and_true, hsome, hempty, List.isEmpty_nil, Bool.or_true,
        Bool.true_or, Bool.false_or]
      rw [Bool.and_right_comm]

/-- Some but not all of a list satisfy a test. -/
theorem someNotAll_iff (truth : Clause → Bool) (cs : List Clause) :
    (cs.any truth && !cs.all truth) = true ↔ SomeNotAll truth cs := by
  simp [SomeNotAll, List.any_eq_true]

/-! ## Assignments of truth -/

/-- The engine reads the queries that are made as it reads any. -/
theorem reads_matches (d : Document) (cs : List Clause) : Reads (·.matches d) cs :=
  fun q _ => q.matches_eq_verdict d

/-- In a document too the rewritten query asks for some but not all of the alternatives. -/
theorem matches_exclusive (q : BoolQuery) (d : Document) (h : q.minimumShouldMatch = none) :
    (q.exclusive .emulate).matches d = (q.must.all (·.matches d) && !q.mustNot.any (·.matches d) &&
      (q.should.isEmpty || (q.should.any (·.matches d) && !q.should.all (·.matches d)))) := by
  rw [matches_eq_verdict]
  exact verdict_exclusive q h (reads_matches d q.should)

/-- A query made of some alternatives is none of them, since it is larger. -/
theorem ne_of_mem_made {q : BoolQuery} (hq : q ∈ made cs) {x : Clause} (hx : x ∈ cs) : x ≠ .bool q := by
  have hsize := List.sizeOf_lt_of_mem hx
  have hne : cs ≠ [] := List.ne_nil_of_mem hx
  rintro rfl
  rcases (mem_made hne q).1 hq with rfl | rfl
  · simp only [allOf, Clause.bool.sizeOf_spec, BoolQuery.mk.sizeOf_spec] at hsize
    omega
  · rw [someNotAll_of_ne_nil hne] at hsize
    simp only [Clause.bool.sizeOf_spec, BoolQuery.mk.sizeOf_spec] at hsize
    omega

open Classical in
/-- Whatever truth clauses are given, that of the queries made of some alternatives can be changed so that they are read as the engine
does. That of all other clauses stays, the alternatives included. -/
theorem exists_reads (truth : Clause → Bool) (cs : List Clause) :
    ∃ truth', Reads truth' cs ∧ (∀ x ∈ cs, truth' x = truth x) ∧ ∀ x, (∀ q ∈ made cs, x ≠ .bool q) → truth' x = truth x := by
  by_cases hne : cs = []
  · subst hne
    exact ⟨truth, fun q hq => absurd hq List.not_mem_nil, fun _ _ => rfl, fun _ _ => rfl⟩
  · let truth' : Clause → Bool := fun x =>
      if x = .bool (allOf cs) then cs.all truth
      else if x = .bool (someNotAll cs) then cs.any truth && !cs.all truth
      else truth x
    have hkept : ∀ x, (∀ q ∈ made cs, x ≠ .bool q) → truth' x = truth x := by
      intro x hx
      have hall := hx _ ((mem_made hne _).2 (Or.inl rfl))
      have hsome := hx _ ((mem_made hne _).2 (Or.inr rfl))
      simp only [truth', if_neg hall, if_neg hsome]
    have hcs : ∀ x ∈ cs, truth' x = truth x := fun x hx => hkept x fun q hq => ne_of_mem_made hq hx
    have hany : cs.any truth' = cs.any truth := by
      rw [Bool.eq_iff_iff, List.any_eq_true, List.any_eq_true]
      exact exists_congr fun x => and_congr_right fun hx => by rw [hcs x hx]
    have hall : cs.all truth' = cs.all truth := by
      rw [Bool.eq_iff_iff, List.all_eq_true, List.all_eq_true]
      exact forall₂_congr fun x hx => by rw [hcs x hx]
    have hdiff : Clause.bool (someNotAll cs) ≠ .bool (allOf cs) := by
      rw [someNotAll_of_ne_nil hne]
      simp [allOf]
    have hreadAll : truth' (.bool (allOf cs)) = cs.all truth := if_pos rfl
    have hreadSome : truth' (.bool (someNotAll cs)) = (cs.any truth && !cs.all truth) := by
      simp only [truth', if_neg hdiff, if_true]
    refine ⟨truth', ?_, hcs, hkept⟩
    intro q hq
    rcases (mem_made hne q).1 hq with rfl | rfl
    · rw [hreadAll, verdict_allOf, hall]
    · rw [hreadSome, verdict_someNotAll hne (hreadAll.trans hall.symm), hany, hall]

/-! ## What the rewrite means -/

/-- Take any query without a number of its own, and any truth of clauses that reads the queries made of its alternatives as the engine
does. Rewritten, it matches exactly where all of `must` does, none of `mustNot`, and, if there are alternatives, some but not all of
them; if there are none it stays as it is. The query made of some alternatives by themselves matches exactly where some but not all
of them do, so never for one. And no truth is left out, since any assignment can be made to read those queries so. -/
theorem exclusive_some_not_all (q : BoolQuery) (hunset : q.minimumShouldMatch = none) :
    (∀ truth : Clause → Bool, Reads truth q.should → ((q.exclusive .emulate).verdict truth = true ↔
      (∀ x ∈ q.must, truth x = true) ∧ (∀ x ∈ q.mustNot, truth x = false) ∧
        (q.should ≠ [] → SomeNotAll truth q.should))) ∧
    (q.should = [] → q.exclusive .emulate = q) ∧
    (∀ (cs : List Clause) (truth : Clause → Bool), cs ≠ [] → Reads truth cs →
      ((someNotAll cs).verdict truth = true ↔ SomeNotAll truth cs)) ∧
    (∀ (x : Clause) (truth : Clause → Bool), Reads truth [x] → (someNotAll [x]).verdict truth = false) ∧
    ∀ (truth : Clause → Bool) (cs : List Clause), ∃ truth', Reads truth' cs ∧ (∀ x ∈ cs, truth' x = truth x) ∧
      ∀ x, (∀ inner ∈ made cs, x ≠ .bool inner) → truth' x = truth x := by
  refine ⟨?_, ?_, ?_, ?_, exists_reads⟩
  · intro truth h
    rw [verdict_exclusive q hunset h, Bool.and_eq_true, Bool.and_eq_true, Bool.or_eq_true, someNotAll_iff, List.isEmpty_iff,
      List.all_eq_true, Bool.not_eq_true', List.any_eq_false, and_assoc]
    simp only [Bool.not_eq_true, ne_eq, Classical.or_iff_not_imp_left]
  · intro hshould
    rw [exclusive_emulate, if_pos hshould]
  · intro cs truth hne h
    rw [verdict_someNotAll hne (h.allOf_eq hne), someNotAll_iff]
  · intro x truth h
    rw [verdict_someNotAll (List.cons_ne_nil x []) (h.allOf_eq (List.cons_ne_nil x []))]
    simp

/-- The truth of a nested query may be another than the engine would read: the empty one counts as false here, and so does one that
must not match. An alternative that stands there twice is one that matches. -/
theorem exclusive_some_not_all_nested_false :
    ∃ (q : BoolQuery) (truth : Clause → Bool), q.minimumShouldMatch = none ∧ Reads truth q.should ∧
      q.must = [.freeText ⟨"a", ["*"]⟩] ∧ q.should = [.freeText ⟨"b", ["*"]⟩, .bool {}, .freeText ⟨"b", ["*"]⟩] ∧
      q.mustNot = [.bool (shouldOf [.freeText ⟨"a", ["*"]⟩])] ∧ truth (.bool {}) = false ∧
      (q.exclusive .emulate).verdict truth = true := by
  let q : BoolQuery := {
    must := [.freeText ⟨"a", ["*"]⟩]
    should := [.freeText ⟨"b", ["*"]⟩, .bool {}, .freeText ⟨"b", ["*"]⟩]
    mustNot := [.bool (shouldOf [.freeText ⟨"a", ["*"]⟩])] }
  obtain ⟨hexclusive, -, -, -, hreads⟩ := exclusive_some_not_all q rfl
  obtain ⟨truth, h, hcs, hkept⟩ := hreads (fun x => match x with | .bool _ => false | _ => true) q.should
  have ha : truth (.freeText ⟨"a", ["*"]⟩) = true := hkept _ (by simp)
  have hb : truth (.freeText ⟨"b", ["*"]⟩) = true := hcs _ (by simp [q])
  have hempty : truth (.bool {}) = false := hcs _ (by simp [q])
  have hnot : truth (.bool (shouldOf [.freeText ⟨"a", ["*"]⟩])) = false :=
    hkept _ (by simp [q, made, allOf, someNotAll, shouldOf])
  refine ⟨q, truth, rfl, h, rfl, rfl, rfl, hempty, (hexclusive truth h).2 ⟨?_, ?_, fun _ => ⟨?_, ?_⟩⟩⟩
  · simpa [q] using ha
  · simpa [q] using hnot
  · exact ⟨_, List.mem_cons_self, hb⟩
  · exact ⟨.bool {}, by simp [q], hempty⟩

/-! ## Rewriting again -/

/-- A clause that must not match may be named once more. -/
theorem verdict_mustNot_append (truth : Clause → Bool) (q : BoolQuery) {again : List Clause} (h : again ⊆ q.mustNot) :
    ({ q with mustNot := q.mustNot ++ again } : BoolQuery).verdict truth = q.verdict truth := by
  have hany : (q.mustNot ++ again).any truth = q.mustNot.any truth := by
    rw [Bool.eq_iff_iff, List.any_eq_true, List.any_eq_true]
    constructor
    · rintro ⟨x, hx, htrue⟩
      rcases List.mem_append.1 hx with hx | hx
      · exact ⟨x, hx, htrue⟩
      · exact ⟨x, h hx, htrue⟩
    · rintro ⟨x, hx, htrue⟩
      exact ⟨x, List.mem_append_left again hx, htrue⟩
  rw [verdict, verdict, hany]
  rfl

/-- A query that asks for all but one of its alternatives, one whose alternatives have become a clause that must match, and one without
alternatives are left as they are when they are rewritten again. -/
theorem exclusive_exclusive {q : BoolQuery} {s : XorStrategy} (h : s = .minimumShouldMatch ∨ q.must ≠ [] ∨ q.should = []) :
    (q.exclusive s).exclusive s = q.exclusive s := by
  cases s with
  | minimumShouldMatch => rfl
  | emulate =>
    by_cases hshould : q.should = []
    · have hself : q.exclusive .emulate = q := by rw [exclusive_emulate, if_pos hshould]
      rw [hself, hself]
    · rcases h with h | hmust | h
      · cases h
      · rw [exclusive_emulate q, if_neg hshould, if_neg hmust, exclusive_emulate, if_pos rfl]
      · exact absurd h hshould

/-- Where nothing else must match, the alternatives stay, and the case that all of them match is negated once more each time. -/
theorem iterate_exclusive_emulate {q : BoolQuery} (hmust : q.must = []) (hshould : q.should ≠ []) (n : Nat) :
    (·.exclusive .emulate)^[n] q = { q with mustNot := q.mustNot ++ List.replicate n (.bool (allOf q.should)) } := by
  induction n with
  | zero =>
    obtain ⟨must, should, mustNot, m⟩ := q
    rw [List.replicate_zero, List.append_nil]
    rfl
  | succ n ih =>
    rw [Function.iterate_succ_apply', ih, exclusive_emulate, if_neg hshould, if_pos hmust, List.append_assoc,
      ← List.replicate_succ']

/-- Whatever a query is and whichever strategy it is rewritten under, rewritten `n + 1` times it matches what it matches rewritten once,
for any truth of the clauses in it and in every document. It is the same query, except where alternatives are emulated and nothing else
must match. Then the query that asks for all of the alternatives, which the first rewrite put at the end of what must not match, stands
there `n` times more, and nothing else differs. -/
theorem exclusive_again (q : BoolQuery) (s : XorStrategy) (n : Nat) :
    (∀ truth : Clause → Bool, ((·.exclusive s)^[n + 1] q).verdict truth = (q.exclusive s).verdict truth) ∧
      (∀ d : Document, ((·.exclusive s)^[n + 1] q).matches d = (q.exclusive s).matches d) ∧
      (s = .minimumShouldMatch ∨ q.must ≠ [] ∨ q.should = [] → (·.exclusive s)^[n + 1] q = q.exclusive s) ∧
      (s = .emulate ∧ q.must = [] ∧ q.should ≠ [] →
        (q.exclusive s).mustNot = q.mustNot ++ [.bool (allOf q.should)] ∧
          (·.exclusive s)^[n + 1] q =
            { q.exclusive s with mustNot := (q.exclusive s).mustNot ++ List.replicate n (.bool (allOf q.should)) }) := by
  have hfixed : s = .minimumShouldMatch ∨ q.must ≠ [] ∨ q.should = [] → (·.exclusive s)^[n + 1] q = q.exclusive s := by
    intro h
    rw [Function.iterate_succ_apply]
    exact Function.iterate_fixed (exclusive_exclusive h) n
  have hadded : s = .emulate ∧ q.must = [] ∧ q.should ≠ [] →
      (q.exclusive s).mustNot = q.mustNot ++ [.bool (allOf q.should)] ∧
        (·.exclusive s)^[n + 1] q =
          { q.exclusive s with mustNot := (q.exclusive s).mustNot ++ List.replicate n (.bool (allOf q.should)) } := by
    rintro ⟨rfl, hmust, hshould⟩
    have hone : q.exclusive .emulate = { q with mustNot := q.mustNot ++ [.bool (allOf q.should)] } := by
      rw [exclusive_emulate, if_neg hshould, if_pos hmust]
    rw [iterate_exclusive_emulate hmust hshould, hone, List.append_assoc, List.singleton_append, ← List.replicate_succ]
    exact ⟨rfl, rfl⟩
  have hverdict : ∀ truth : Clause → Bool, ((·.exclusive s)^[n + 1] q).verdict truth = (q.exclusive s).verdict truth := by
    intro truth
    by_cases h : s = .minimumShouldMatch ∨ q.must ≠ [] ∨ q.should = []
    · rw [hfixed h]
    · have hs : s = .emulate := by
        cases s with
        | minimumShouldMatch => exact absurd (Or.inl rfl) h
        | emulate => rfl
      obtain ⟨hnot, hiterate⟩ := hadded ⟨hs, by_contra fun hm => h (Or.inr (Or.inl hm)), fun hsh => h (Or.inr (Or.inr hsh))⟩
      rw [hiterate, verdict_mustNot_append]
      intro x hx
      rw [hnot, (List.mem_replicate.1 hx).2]
      exact List.mem_append_right _ (List.mem_singleton_self _)
  refine ⟨hverdict, fun d => ?_, hfixed, hadded⟩
  rw [matches_eq_verdict, matches_eq_verdict, hverdict]

end BoolQuery

end SearchRules
