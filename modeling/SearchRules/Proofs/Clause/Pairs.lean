import Mathlib.Data.List.Nodup
import SearchRules.Proofs.Clause.Exclusive
import SearchRules.Proofs.Clause.Packing

/-!
# When packed pairs keep their meaning

Pairs of a field and a value stand in the three scopes of a query, in term objects. An object is read as the conjunction of its
pairs, which is what `must` asks for; in the other scopes packing several fields in an object changes what is asked for. It does
no harm exactly under `Pairs.Harmless`: `Pairs.harmless_of_matches_eq` and `Pairs.Harmless.matches_eq`. Alternatives alone, and
pairs alone that must not match, have to be about one field.

What a query asks to match grows with the document, so each part of the condition is about the least document that matches one of
the two queries.
-/

namespace SearchRules

/-- A document whose fields have the given values and no others. -/
def Document.ofPairs (es : List (String × String)) : Document where
  has field value := es.contains (field, value)
  answers _ := false
  under _ := []

/-- Whether the fields of a document have all of some values. -/
def Document.HasAll (d : Document) (es : List (String × String)) : Prop :=
  ∀ e ∈ es, d.has e.1 e.2 = true

theorem Document.hasAll_ofPairs (es os : List (String × String)) : (Document.ofPairs es).HasAll os ↔ os ⊆ es := by
  simp [Document.HasAll, Document.ofPairs, List.subset_def]

theorem Clause.matches_term_iff (t : TermObject) (d : Document) :
    (Clause.term t).matches d = true ↔ d.HasAll t.entries := by
  rw [Clause.matches_term, List.all_eq_true]
  exact Iff.rfl

/-- The pairs that rules put in each scope, and whether the alternatives are exclusive. -/
structure Pairs where
  must : List (String × String) := []
  should : List (String × String) := []
  mustNot : List (String × String) := []
  exclusive : Bool := false

namespace Pairs

/-- Each pair on its own. -/
def singles (es : List (String × String)) : List (List (String × String)) :=
  es.map fun e => [e]

/-- The query for pairs that are put in term objects in a given way. -/
def query (key : TermKey) (strategy : XorStrategy) (group : List (String × String) → List (List (String × String)))
    (p : Pairs) : BoolQuery :=
  let q : BoolQuery := {
    must := (group p.must).map fun o => .term ⟨key, o⟩
    should := (group p.should).map fun o => .term ⟨key, o⟩
    mustNot := (group p.mustNot).map fun o => .term ⟨key, o⟩ }
  if p.exclusive then q.exclusive strategy else q

/-- Whether one of the alternatives is asked for. -/
def Asked (p : Pairs) : Prop :=
  p.should ≠ [] ∧ (p.exclusive = true ∨ p.must = [])

/-- The condition under which packing the pairs keeps their meaning. Where an alternative is asked for, each one, with what must
match, is refused or makes an object of alternatives match. And each pair that must not match makes an object of such pairs match,
with what must match and an object of the alternatives, if one is asked for, unless all of the exclusive alternatives match. -/
structure Harmless (p : Pairs) : Prop where
  alternatives : p.Asked → ∀ e ∈ p.should, (∃ n ∈ p.mustNot, n ∈ e :: p.must) ∨
    ∃ o ∈ Packing.objects p.should, o ⊆ e :: p.must
  exclusions (e : String × String) (he : e ∈ p.mustNot) (w : List (String × String))
    (hw : p.Asked → w ∈ Packing.objects p.should) (hn : ¬ p.Asked → w = []) :
    (∃ o ∈ Packing.objects p.mustNot, o ⊆ e :: (w ++ p.must)) ∨ (p.exclusive = true ∧ p.should ⊆ e :: (w ++ p.must))

/-! ## What a query for pairs asks -/

/-- A way of putting pairs in objects: each pair is in one, and none is empty. -/
structure Grouping (group : List (String × String) → List (List (String × String))) : Prop where
  mem (es : List (String × String)) (e : String × String) : e ∈ es ↔ ∃ o ∈ group es, e ∈ o
  ne_nil (es o : List (String × String)) : o ∈ group es → o ≠ []

theorem grouping_objects : Grouping Packing.objects where
  mem es e := Packing.mem_objects e es
  ne_nil _ _ h := Packing.ne_nil_of_mem_objects h

theorem grouping_singles : Grouping singles where
  mem es e := by
    constructor
    · intro h
      exact ⟨[e], List.mem_map.2 ⟨e, h, rfl⟩, List.mem_singleton_self e⟩
    · rintro ⟨o, ho, he⟩
      obtain ⟨a, ha, rfl⟩ := List.mem_map.1 ho
      exact List.mem_singleton.1 he ▸ ha
  ne_nil es o h := by
    obtain ⟨e, -, rfl⟩ := List.mem_map.1 h
    exact List.cons_ne_nil e []

namespace Grouping

variable {group : List (String × String) → List (List (String × String))} (h : Grouping group)
include h

theorem eq_nil_iff (es : List (String × String)) : group es = [] ↔ es = [] := by
  constructor
  · intro hg
    rw [List.eq_nil_iff_forall_not_mem]
    intro e he
    obtain ⟨o, ho, -⟩ := (h.mem es e).1 he
    rw [hg] at ho
    exact List.not_mem_nil ho
  · rintro rfl
    rw [List.eq_nil_iff_forall_not_mem]
    intro o ho
    obtain ⟨e, he⟩ := List.exists_mem_of_ne_nil o (h.ne_nil [] o ho)
    exact List.not_mem_nil ((h.mem [] e).2 ⟨o, ho, he⟩)

/-- All objects match when all pairs do. -/
theorem all_matches_iff (key : TermKey) (es : List (String × String)) (d : Document) :
    ((group es).map fun o => Clause.term ⟨key, o⟩).all (·.matches d) = true ↔ d.HasAll es := by
  rw [List.all_map, List.all_eq_true]
  simp only [Function.comp_apply, Clause.matches_term_iff]
  constructor
  · intro hall e he
    obtain ⟨o, ho, heo⟩ := (h.mem es e).1 he
    exact hall o ho e heo
  · intro hall o ho e heo
    exact hall e ((h.mem es e).2 ⟨o, ho, heo⟩)

omit h in
theorem any_matches_iff (key : TermKey) (es : List (String × String)) (d : Document) :
    ((group es).map fun o => Clause.term ⟨key, o⟩).any (·.matches d) = true ↔ ∃ o ∈ group es, d.HasAll o := by
  rw [List.any_map, List.any_eq_true]
  simp only [Function.comp_apply, Clause.matches_term_iff]

/-- The query asks for all pairs of `must`, for no object of `mustNot`, and for an object of `should` where one is asked for, but
not for all pairs there if they are exclusive. -/
theorem matches_query_iff (p : Pairs) (hx : p.exclusive = true → p.should ≠ []) (key : TermKey) (d : Document) :
    (p.query key .emulate group).matches d = true ↔ d.HasAll p.must ∧ (¬ ∃ o ∈ group p.mustNot, d.HasAll o) ∧
      (p.Asked → ∃ o ∈ group p.should, d.HasAll o) ∧ (p.exclusive = true → ¬ d.HasAll p.should) := by
  have hm : ((group p.must).map fun o => Clause.term ⟨key, o⟩) = [] ↔ p.must = [] := by
    rw [List.map_eq_nil_iff, h.eq_nil_iff]
  have hs : ((group p.should).map fun o => Clause.term ⟨key, o⟩) = [] ↔ p.should = [] := by
    rw [List.map_eq_nil_iff, h.eq_nil_iff]
  rw [query, Asked]
  cases he : p.exclusive with
  | true =>
    simp only [if_true]
    rw [BoolQuery.matches_exclusive _ _ rfl]
    simp only [Bool.and_eq_true, Bool.or_eq_true, Bool.not_eq_true', ← Bool.not_eq_true, h.all_matches_iff, any_matches_iff,
      List.isEmpty_iff, hs, hx he, ne_eq, not_false_iff, true_and, true_or, false_or, forall_const, and_assoc]
  | false =>
    simp only [Bool.false_eq_true, if_false]
    rw [BoolQuery.matches_of_unset _ _ rfl]
    simp only [Bool.and_eq_true, Bool.or_eq_true, Bool.not_eq_true', ← Bool.not_eq_true, h.all_matches_iff, any_matches_iff,
      List.isEmpty_iff, hm, hs, false_or, false_imp_iff, and_true, and_assoc]
    refine and_congr_right fun _ => and_congr_right fun _ => ?_
    by_cases hmust : p.must = [] <;> by_cases hshould : p.should = [] <;> simp [hmust, hshould]

end Grouping

/-! ## Packed and single pairs -/

theorem exists_singles_iff (es : List (String × String)) (d : Document) :
    (∃ o ∈ singles es, d.HasAll o) ↔ ∃ e ∈ es, d.has e.1 e.2 = true := by
  simp [singles, Document.HasAll]

/-- Packing is harmless where the packed query matches what the query for single pairs does. Each part of the condition is seen
in the least document that matches one of the two. -/
theorem harmless_of_matches_eq {p : Pairs} (hx : p.exclusive = true → p.should ≠ []) {key : TermKey}
    (h : ∀ d, (p.query key .emulate Packing.objects).matches d = (p.query key .emulate singles).matches d) :
    p.Harmless := by
  have hiff : ∀ d, _ ↔ _ := fun d => Bool.eq_iff_iff.1 (h d)
  simp only [grouping_objects.matches_query_iff p hx, grouping_singles.matches_query_iff p hx, exists_singles_iff] at hiff
  constructor
  · -- a document in which one alternative matches, and nothing that need not
    intro hasked e he
    by_contra hcon
    rw [not_or, not_exists, not_exists] at hcon
    obtain ⟨hn, ho⟩ := hcon
    have hd := (hiff (.ofPairs (e :: p.must))).2 ?_
    · obtain ⟨o, hobj, hall⟩ := hd.2.2.1 hasked
      exact ho o ⟨hobj, (Document.hasAll_ofPairs _ _).1 hall⟩
    · refine ⟨(Document.hasAll_ofPairs _ _).2 (List.subset_cons_self e p.must), ?_, ?_, ?_⟩
      · rintro ⟨n, hnot, hhas⟩
        exact hn n ⟨hnot, by simpa [Document.ofPairs] using hhas⟩
      · exact fun _ => ⟨e, he, by simp [Document.ofPairs]⟩
      · intro _ hall
        rw [Document.hasAll_ofPairs] at hall
        obtain ⟨o, hobj, -⟩ := (Packing.mem_objects e p.should).1 he
        exact ho o ⟨hobj, fun a ha => hall ((Packing.mem_objects a p.should).2 ⟨o, hobj, ha⟩)⟩
  · -- a document in which a pair matches that must not, and otherwise only what has to
    intro e he w hw hnil
    by_contra hcon
    rw [not_or, not_exists, not_and] at hcon
    obtain ⟨ho, hexcl⟩ := hcon
    have hd := (hiff (.ofPairs (e :: (w ++ p.must)))).1 ?_
    · exact hd.2.1 ⟨e, he, by simp [Document.ofPairs]⟩
    · refine ⟨(Document.hasAll_ofPairs _ _).2 ?_, ?_, ?_, ?_⟩
      · exact fun a ha => List.mem_cons_of_mem e (List.mem_append_right w ha)
      · rintro ⟨o, hobj, hall⟩
        exact ho o ⟨hobj, (Document.hasAll_ofPairs _ _).1 hall⟩
      · intro hasked
        exact ⟨w, hw hasked, (Document.hasAll_ofPairs _ _).2 fun a ha => List.mem_cons_of_mem e (List.mem_append_left _ ha)⟩
      · intro hex hall
        exact hexcl hex ((Document.hasAll_ofPairs _ _).1 hall)

/-- Where packing is harmless, a packed query matches what the query for single pairs does. -/
theorem Harmless.matches_eq {p : Pairs} (h : p.Harmless) (hx : p.exclusive = true → p.should ≠ []) (key : TermKey)
    (d : Document) : (p.query key .emulate Packing.objects).matches d = (p.query key .emulate singles).matches d := by
  rw [Bool.eq_iff_iff, grouping_objects.matches_query_iff p hx, grouping_singles.matches_query_iff p hx]
  simp only [exists_singles_iff]
  refine and_congr_right fun hm => ?_
  have hsub : ∀ {e : String × String} {os w : List (String × String)}, d.has e.1 e.2 = true → d.HasAll w →
      os ⊆ e :: (w ++ p.must) → d.HasAll os := by
    intro e os w he hw hos a ha
    rcases List.mem_cons.1 (hos ha) with rfl | hmem
    · exact he
    · exact (List.mem_append.1 hmem).elim (hw a) (hm a)
  constructor
  · rintro ⟨hn, ha, hall⟩
    refine ⟨?_, ?_, hall⟩
    · rintro ⟨e, he, hhas⟩
      have hw : ∃ w, d.HasAll w ∧ (p.Asked → w ∈ Packing.objects p.should) ∧ (¬ p.Asked → w = []) := by
        by_cases hasked : p.Asked
        · obtain ⟨o, hobj, ho⟩ := ha hasked
          exact ⟨o, ho, fun _ => hobj, fun hnot => absurd hasked hnot⟩
        · exact ⟨[], fun a hmem => absurd hmem List.not_mem_nil, fun hyes => absurd hyes hasked, fun _ => rfl⟩
      obtain ⟨w, hwall, hw, hnil⟩ := hw
      rcases h.exclusions e he w hw hnil with ⟨o, hobj, ho⟩ | ⟨hex, hs⟩
      · exact hn ⟨o, hobj, hsub hhas hwall ho⟩
      · exact hall hex (hsub hhas hwall hs)
    · intro hasked
      obtain ⟨o, hobj, ho⟩ := ha hasked
      obtain ⟨e, he⟩ := List.exists_mem_of_ne_nil o (grouping_objects.ne_nil _ o hobj)
      exact ⟨e, (grouping_objects.mem _ e).2 ⟨o, hobj, he⟩, ho e he⟩
  · rintro ⟨hn, ha, hall⟩
    refine ⟨?_, ?_, hall⟩
    · rintro ⟨o, hobj, ho⟩
      obtain ⟨e, he⟩ := List.exists_mem_of_ne_nil o (grouping_objects.ne_nil _ o hobj)
      exact hn ⟨e, (grouping_objects.mem _ e).2 ⟨o, hobj, he⟩, ho e he⟩
    · intro hasked
      obtain ⟨e, he, hhas⟩ := ha hasked
      rcases h.alternatives hasked e he with ⟨n, hnot, hmem⟩ | ⟨o, hobj, ho⟩
      · refine absurd ⟨n, hnot, ?_⟩ hn
        rcases List.mem_cons.1 hmem with rfl | hmust
        · exact hhas
        · exact hm n hmust
      · exact ⟨o, hobj, hsub (w := []) hhas (fun a hnil => absurd hnil List.not_mem_nil) ho⟩

/-! ## Pairs of one scope -/

/-- Whether pairs are about one field. -/
def OneField (es : List (String × String)) : Prop :=
  ∀ e ∈ es, ∀ a ∈ es, e.1 = a.1

/-- Each pair makes an object match on its own when the pairs are about one field, and otherwise not. -/
theorem forall_exists_object_iff (es : List (String × String)) :
    (∀ e ∈ es, ∃ o ∈ Packing.objects es, o ⊆ [e]) ↔ OneField es := by
  constructor
  · intro h
    have hlt : ∀ e ∈ es, ∀ field, field ≠ e.1 → Packing.rank es field < Packing.rank es e.1 := by
      intro e he field hf
      obtain ⟨o, hobj, ho⟩ := h e he
      obtain ⟨a, ha⟩ := List.exists_mem_of_ne_nil o (Packing.ne_nil_of_mem_objects hobj)
      have hae : a = e := List.mem_singleton.1 (ho ha)
      exact Packing.rank_lt_of_mem_objects hobj (hae ▸ ha) fun b hb => List.mem_singleton.1 (ho hb) ▸ hf.symm
    intro e he a ha
    by_contra hne
    have h₁ := hlt e he a.1 (Ne.symm hne)
    have h₂ := hlt a ha e.1 hne
    omega
  · intro h e he
    obtain ⟨o, hobj, heo⟩ := (Packing.mem_objects e es).1 he
    refine ⟨o, hobj, fun a ha => List.mem_singleton.2 ?_⟩
    have hfield := h a ((Packing.mem_objects a es).2 ⟨o, hobj, ha⟩) e he
    exact List.inj_on_of_nodup_map (Packing.nodup_fields_of_mem_objects hobj) ha heo hfield

/-- What must match is packed without harm. -/
theorem harmless_of_must {p : Pairs} (hs : p.should = []) (hn : p.mustNot = []) : p.Harmless where
  alternatives hasked := absurd hs hasked.1
  exclusions e he := by
    rw [hn] at he
    exact absurd he List.not_mem_nil

/-- Alternatives alone are packed without harm if they are about one field. -/
theorem harmless_iff_of_should {p : Pairs} (hm : p.must = []) (hn : p.mustNot = []) :
    p.Harmless ↔ OneField p.should := by
  rw [← forall_exists_object_iff]
  constructor
  · intro h e he
    have hasked : p.Asked := ⟨List.ne_nil_of_mem he, Or.inr hm⟩
    rcases h.alternatives hasked e he with ⟨n, hnot, -⟩ | ho
    · rw [hn] at hnot
      exact absurd hnot List.not_mem_nil
    · rwa [hm] at ho
  · intro h
    refine ⟨fun _ e he => Or.inr ?_, fun e he => ?_⟩
    · rw [hm]
      exact h e he
    · rw [hn] at he
      exact absurd he List.not_mem_nil

/-- What must not match, alone, is packed without harm if it is about one field. -/
theorem harmless_iff_of_mustNot {p : Pairs} (hm : p.must = []) (hs : p.should = [])
    (hx : p.exclusive = true → p.should ≠ []) : p.Harmless ↔ OneField p.mustNot := by
  rw [← forall_exists_object_iff]
  have hasked : ¬ p.Asked := fun h => h.1 hs
  constructor
  · intro h e he
    rcases h.exclusions e he [] (fun h => absurd h hasked) (fun _ => rfl) with ho | ⟨hex, -⟩
    · rwa [hm] at ho
    · exact absurd hs (hx hex)
  · intro h
    refine ⟨fun h => absurd h hasked, fun e he w _ hw => Or.inl ?_⟩
    rw [hw hasked, hm]
    exact h e he

end Pairs

end SearchRules
