import SearchRules.Proofs.Clause.Exclusive
import SearchRules.Proofs.Composition.Pieces
import SearchRules.Proofs.Composition.Run
import SearchRules.Proofs.Rule.Reading

/-!
# Composition keeps the meaning of rules

With literals searched for as free text and exclusive alternatives emulated, the composed query matches exactly the documents of
which the rules hold: `compose_matches_eq_hold`. Groups without a literal at any depth are left out on both sides; counted as
true they would make a difference, `hold_counting_empty_groups_ne`.

The proof follows a draft. A rule adds to its scope, up to order, clauses that match what the rule asks of it (`Folded`), and this
is an invariant of composition.
-/

namespace SearchRules

namespace Composer

/-- The fields that the literals of a rule are searched in as free text: those of the rule, or those of the composer if it names
none. -/
def textFields (c : Composer) (r : Rule) : List String :=
  if (r.names c.config.keywordSuffix).isEmpty then c.freeTextFields else c.config.queryStyle.patterns r.field r.isKeyword

/-- A literal of a rule as a free text. -/
def text (c : Composer) (r : Rule) (literal : String) : FreeText where
  query := String.ofList (c.config.queryStyle.queryChars literal.toList)
  fields := c.textFields r

/-- Whether a literal of a rule, as free text, finds a document. -/
def truth (c : Composer) (doc : Document) (r : Rule) (literal : String) : Bool :=
  doc.answers (c.text r literal)

theorem literalForm_queryString {c : Composer} (h : c.config.clauseStyle = .queryString) (r : Rule) :
    c.literalForm r = .freeText (c.textFields r) := by
  rw [literalForm, textFields, h]
  cases r.names c.config.keywordSuffix <;> rfl

end Composer

namespace Draft

/-- What rules do to a draft, for a document: each scope gains clauses that match what the rules ask of it, up to order. -/
structure Folded (c : Composer) (doc : Document) (d : Draft) (rs : List Rule) (d' : Draft) : Prop where
  unset : d.query.minimumShouldMatch = none → d'.query.minimumShouldMatch = none
  truths (s : Scope) : ((d'.query.clauses s).map (·.matches doc)).Perm ((d.query.clauses s).map (·.matches doc) ++
    (Rule.judgeAll (c.truth doc) Rule.anyLiteralIn rs).flatMap (Judgement.truths s))
  exclusive : d'.exclusive = (d.exclusive || (Rule.judgeAll (c.truth doc) Rule.anyLiteralIn rs).any Judgement.exclusive)

/-- Clauses that match what is asked, up to order: they match together, any of them does, and there are any, as is asked. -/
theorem all_any_of_perm {cs : List Clause} {doc : Document} {asked : List Bool}
    (h : (cs.map (·.matches doc)).Perm asked) :
    cs.all (·.matches doc) = asked.all id ∧ cs.any (·.matches doc) = asked.any id ∧ cs.isEmpty = asked.isEmpty := by
  refine ⟨?_, ?_, ?_⟩
  · rw [Bool.eq_iff_iff, List.all_eq_true, List.all_eq_true]
    simp [← h.mem_iff]
  · rw [Bool.eq_iff_iff, List.any_eq_true, List.any_eq_true]
    simp [← h.mem_iff]
  · rw [← h.isEmpty_eq, List.isEmpty_map]

/-- A draft that rules made of nothing is a query that matches what the rules hold of, and that is empty if they hold no
literal. -/
theorem Folded.finish {c : Composer} {doc : Document} {rs : List Rule} {d : Draft} {fields : List String}
    (h : Folded c doc { fields } rs d) :
    (d.finish .emulate).query.matches doc = Rule.hold (c.truth doc) Rule.anyLiteralIn rs ∧
      (d.finish .emulate).query.isEmpty = !Rule.anyLiteralIn rs := by
  have hu : d.query.minimumShouldMatch = none := h.unset rfl
  obtain ⟨hm, -, hme⟩ := all_any_of_perm (h.truths .must)
  obtain ⟨hs, hs', hse⟩ := all_any_of_perm (h.truths .should)
  obtain ⟨-, hn, -⟩ := all_any_of_perm (h.truths .mustNot)
  have hx := h.exclusive
  simp only [BoolQuery.clauses, List.map_nil, List.nil_append, Bool.false_or] at hm hme hs hs' hse hn hx
  constructor
  · rw [Rule.hold, Judgement.hold_eq, Draft.finish, ← hx]
    cases d.exclusive with
    | true =>
      simp only [if_true]
      rw [BoolQuery.matches_exclusive _ _ hu, hm, hn, hs, hs', hse]
    | false =>
      simp only [Bool.false_eq_true, if_false]
      rw [BoolQuery.matches_of_unset _ _ hu, hm, hn, hs', hse, hme]
      ac_rfl
  · have he : (d.finish .emulate).query.isEmpty = d.query.isEmpty := by
      rw [Draft.finish]
      cases d.exclusive <;> simp [BoolQuery.isEmpty_exclusive]
    rw [he, Bool.eq_iff_iff, BoolQuery.isEmpty_iff, Bool.not_eq_true', ← Bool.not_eq_true,
      Rule.anyLiteralIn_iff (c.truth doc), not_exists]
    refine forall_congr' fun s => ?_
    rw [not_not, ← List.isEmpty_iff, ← List.isEmpty_iff, (all_any_of_perm (h.truths s)).2.2]
    cases s <;> exact Iff.rfl

end Draft

namespace Composer

/-- What values become, for a document: a clause for each literal, one for each group that holds a literal, each of which matches
what is said by it. -/
structure Cut (c : Composer) (doc : Document) (form : LiteralForm) (vs : List Value) (pieces : List Piece) : Prop where
  texts (names : List String) : form = .freeText names → (pieces.filterMap Piece.textClause?).map (·.matches doc) =
    (vs.filterMap Value.literal?).map fun l =>
      doc.answers ⟨String.ofList (c.config.queryStyle.queryChars l.toList), names⟩
  groups : (pieces.filterMap Piece.groupClause?).map (·.matches doc) = Value.judgeAll (c.truth doc) Rule.anyLiteralIn vs

/-- A rule asks of its scope what the clauses it adds there match. -/
theorem landAll_truths {c : Composer} {doc : Document} {r : Rule} {pieces : List Piece}
    (hform : c.literalForm r = .freeText (c.textFields r)) (h : c.Cut doc (c.literalForm r) r.values pieces) (cs : List Clause) :
    ((c.landAll r pieces cs).map (·.matches doc)).Perm (cs.map (·.matches doc) ++
      Judgement.truths r.scope ⟨r, r.literals.map (c.truth doc r), Value.judgeAll (c.truth doc) Rule.anyLiteralIn r.values⟩) := by
  have ht : (pieces.filterMap Piece.textClause?).map (·.matches doc) = r.literals.map (c.truth doc r) :=
    h.texts _ hform
  rw [landAll, hform, Judgement.truths, if_pos rfl]
  cases ho : r.operator with
  | some op =>
    refine ((Piece.foldl_land_perm _ pieces cs).map _).trans (List.Perm.of_eq ?_)
    rw [List.map_append, List.map_append, ht, h.groups]
    rfl
  | none =>
    refine (List.Perm.map _ (List.Perm.append_left cs (Piece.disjunction_perm pieces))).trans (List.Perm.of_eq ?_)
    rw [List.map_append, List.map_append, Clause.map_matches_anyOf, h.groups, ← ht, List.isEmpty_map, List.any_map]
    rfl

/-- A literal is no group. -/
theorem groupClause?_of_literalPiece {c : Composer} {form : LiteralForm} {literal : String} {piece : Piece}
    (h : c.literalPiece form literal = .ok piece) : piece.groupClause? = none := by
  cases form with
  | terms names =>
    rw [literalPiece, Except.ok.injEq] at h
    subst h
    rfl
  | freeText names =>
    obtain ⟨-, rfl⟩ := literalPiece_freeText_eq_ok.1 h
    rfl

/-- Folding and cutting go together through every step of a composition. -/
theorem folded_invariant {c : Composer} (hstyle : c.config.clauseStyle = .queryString)
    (hxor : c.config.xorStrategy = .emulate) (doc : Document) :
    c.Invariant (Draft.Folded c doc) fun form _ vs pieces _ => c.Cut doc form vs pieces where
  nil d := ⟨id, fun s => by simp [Rule.judgeAll], by simp [Rule.judgeAll]⟩
  skip d d' r rs hv ih := by
    have hp : Judgement.parts ⟨r, r.literals.map (c.truth doc r), Value.judgeAll (c.truth doc) Rule.anyLiteralIn r.values⟩ = [] := by
      simp [Judgement.parts, Rule.literals, hv, Value.judgeAll]
    refine ⟨ih.unset, fun s => ?_, ?_⟩
    · rw [Rule.judgeAll, Rule.judge_eq, List.flatMap_cons, Judgement.truths_eq_nil hp, List.nil_append]
      exact ih.truths s
    · rw [Rule.judgeAll, Rule.judge_eq, List.any_cons, ih.exclusive]
      simp [Judgement.exclusive, hv]
  fold d d' r rs pieces fields hv hcut ih := by
    refine ⟨fun h => ih.unset (by simp [addRule, h]), fun s => ?_, ?_⟩
    · refine (ih.truths s).trans ?_
      rw [Rule.judgeAll, Rule.judge_eq, List.flatMap_cons, ← List.append_assoc, addRule, BoolQuery.clauses_modify]
      refine List.Perm.append_right _ ?_
      by_cases hs : r.scope = s
      · rw [if_pos hs, ← hs]
        exact landAll_truths (literalForm_queryString hstyle r) hcut _
      · rw [if_neg hs, Judgement.truths_of_ne hs, List.append_nil]
    · have hvs : r.values.isEmpty = false := List.isEmpty_eq_false_iff.2 hv
      rw [Rule.judgeAll, Rule.judge_eq, List.any_cons, ih.exclusive, addRule, Bool.or_assoc]
      simp [Judgement.exclusive, hvs]
  none form fields := ⟨fun _ _ => rfl, rfl⟩
  literal form l vs piece pieces fields fields' hp ih := by
    refine ⟨fun names hform => ?_, ?_⟩
    · subst hform
      obtain ⟨-, rfl⟩ := literalPiece_freeText_eq_ok.1 hp
      simp only [List.filterMap_cons, Piece.textClause?, Value.literal?, List.map_cons, Clause.matches_freeText]
      rw [ih.texts names rfl]
    · rw [List.filterMap_cons, groupClause?_of_literalPiece hp, Value.judgeAll, Value.judge]
      exact ih.groups
  group form rs vs d pieces fields fields' hd ih := by
    obtain ⟨hmatch, hempty⟩ := hd.finish
    rw [hxor]
    refine ⟨fun names hform => ?_, ?_⟩
    · simp only [List.filterMap_cons, Piece.textClause?, Value.literal?]
      exact ih.texts names hform
    · rw [Value.judgeAll, Value.judge, ← ih.groups, List.filterMap_cons, Piece.groupClause?, hempty]
      cases Rule.anyLiteralIn rs with
      | true => simp [hmatch, Rule.hold]
      | false => simp

/-- Composition keeps the meaning of rules: with literals searched for as free text and exclusive alternatives emulated, the
composed query matches exactly the documents of which the rules hold, groups without a literal left out. -/
theorem compose_matches_eq_hold {c : Composer} {rs : List Rule} {done : Composition}
    (hstyle : c.config.clauseStyle = .queryString) (hxor : c.config.xorStrategy = .emulate) (h : c.compose rs = .ok done)
    (doc : Document) : done.query.matches doc = Rule.hold (c.truth doc) Rule.anyLiteralIn rs := by
  obtain ⟨d, hd, rfl⟩ := (folded_invariant hstyle hxor doc).compose h
  rw [hxor]
  exact hd.finish.1

/-- A rule without an operator, next to an exclusive one with a group and a NOT rule whose group is empty. -/
theorem compose_matches_exclusive_group :
    ∃ done, ({ clauseStyle := .queryString } : Config).composer.compose [
        ⟨none, none, [.group [⟨none, some .or, [.literal "a", .literal "b"], false⟩], .literal "c", .literal "d"], false⟩,
        ⟨some (.one "tag"), some .xor, [.literal "a", .group [⟨none, some .not, [.literal "c"], false⟩]], true⟩,
        ⟨none, some .not, [.group []], false⟩] = .ok done ∧
      done.query.matches ⟨fun _ _ => false, fun t => t.query == "b" || t.query == "d", fun _ => []⟩ = true := by
  obtain ⟨done, h⟩ := exists_eq_ok_of_isOk (x := ({ clauseStyle := .queryString } : Config).composer.compose [
    ⟨none, none, [.group [⟨none, some .or, [.literal "a", .literal "b"], false⟩], .literal "c", .literal "d"], false⟩,
    ⟨some (.one "tag"), some .xor, [.literal "a", .group [⟨none, some .not, [.literal "c"], false⟩]], true⟩,
    ⟨none, some .not, [.group []], false⟩]) (by decide)
  refine ⟨done, h, ?_⟩
  rw [compose_matches_eq_hold rfl rfl h]
  decide

/-- Groups without a literal must be left out: a NOT rule whose only group is empty is composed to nothing, which matches, while
an empty list of rules, counted as a group, holds and so is denied. -/
theorem hold_counting_empty_groups_ne :
    ({ clauseStyle := .queryString } : Config).composer.compose [⟨none, some .not, [.group []], false⟩] = .ok {} ∧
      ({} : BoolQuery).matches ⟨fun _ _ => false, fun _ => false, fun _ => []⟩ = true ∧
      Rule.hold (({ clauseStyle := .queryString } : Config).composer.truth ⟨fun _ _ => false, fun _ => false, fun _ => []⟩)
        (fun _ => true) [⟨none, some .not, [.group []], false⟩] = false :=
  ⟨rfl, by decide, by decide⟩

end Composer

end SearchRules
