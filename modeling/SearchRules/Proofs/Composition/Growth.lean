import SearchRules.Proofs.Clause.Growth
import SearchRules.Proofs.Composition.FieldNames
import SearchRules.Proofs.Composition.Siblings

/-!
# Compositions that grow

Rules that come later leave what is composed from the rules before them. Whatever a rule is, its clauses come in behind those of its
scope or go into gaps of the term objects there (`grown_landAll`), so a scope grows rule by rule (`grown_fill`). The same holds of the
names of a composition, each of which is remembered where it came up first.
-/

namespace SearchRules

namespace Composer

variable {c : Composer}

/-- A piece comes in behind the clauses of a scope, or into gaps among them. -/
theorem grown_land (key : TermKey) (names : List String) (cs : List Clause) (p : Piece) :
    Clause.Grown cs (Piece.land key names cs p) := by
  cases p with
  | term literal =>
    rw [Piece.land, Clause.placeAll_eq_foldl]
    exact Clause.grown_foldl_place key _ cs
  | freeText x => exact Clause.grown_append cs [x]
  | group q => exact Clause.grown_append cs _

theorem grown_foldl_land (key : TermKey) (names : List String) (pieces : List Piece) (cs : List Clause) :
    Clause.Grown cs (pieces.foldl (Piece.land key names) cs) := by
  induction pieces generalizing cs with
  | nil => exact Clause.Grown.refl cs
  | cons p pieces ih => exact (grown_land key names cs p).trans (ih _)

/-- A scope grows by the pieces of a rule, whatever its operator and however its literals are searched for. -/
theorem grown_landAll (c : Composer) (r : Rule) (pieces : List Piece) (cs : List Clause) :
    Clause.Grown cs (c.landAll r pieces cs) := by
  rw [landAll]
  cases c.literalForm r with
  | terms names => exact grown_foldl_land _ names pieces cs
  | freeText fields =>
    cases r.operator with
    | some op => exact grown_foldl_land _ [] pieces cs
    | none => exact Clause.grown_append cs _

/-- A scope grows by the rules that are folded in. -/
theorem grown_fill (c : Composer) (s : Scope) (rs : List Rule) (cs : List Clause) : Clause.Grown cs (c.fill s rs cs) := by
  induction rs generalizing cs with
  | nil => exact Clause.Grown.refl cs
  | cons r rs ih =>
    rw [fill_cons]
    by_cases h : r.scope = s
    · rw [if_pos h]
      exact (c.grown_landAll r (c.pieces r) cs).trans (ih _)
    · rw [if_neg h]
      exact ih cs

/-- Names that come up in later rules follow those that came up before. -/
theorem eraseDups_fieldNamesIn_isPrefix (suffix : String) (rs rs' : List Rule) :
    (Rule.fieldNamesIn suffix rs).eraseDups <+: (Rule.fieldNamesIn suffix (rs ++ rs')).eraseDups := by
  rw [Rule.fieldNamesIn_eq_flatMap, Rule.fieldNamesIn_eq_flatMap, List.flatMap_append, List.eraseDups_append]
  exact List.prefix_append _ _

/-- Let rules be composed, none of them an exclusive or. Then any of them from the first on are composed by themselves. In each scope
of the whole query, which is no shorter, what stood at a place stands there: a clause that is no term object as it was, a term object
with its key and its pairs, behind which others may have come. And the names are those of the first rules, and then others. -/
theorem compose_append_grows {rs rs' : List Rule} {done' : Composition} (hxor : ∀ r ∈ rs ++ rs', r.operator ≠ some .xor)
    (h : c.compose (rs ++ rs') = .ok done') :
    ∃ done, c.compose rs = .ok done ∧
      (∀ s, (done.query.clauses s).length ≤ (done'.query.clauses s).length ∧
        ∀ (i : Nat) (x : Clause), (done.query.clauses s)[i]? = some x → ∃ x', (done'.query.clauses s)[i]? = some x' ∧ x.Grows x') ∧
      done.fields <+: done'.fields := by
  obtain ⟨haccepts, -⟩ := (exists_compose_iff c (rs ++ rs') _).1 ⟨done', h, rfl⟩
  obtain ⟨done, hdone, -⟩ := (exists_compose_iff c rs _).2 ⟨haccepts.mono (List.subset_append_left rs rs'), rfl⟩
  refine ⟨done, hdone, fun s => ?_, ?_⟩
  · have hgrown : Clause.Grown (done.query.clauses s) (done'.query.clauses s) := by
      rw [clauses_compose hxor h s, clauses_compose (fun r hr => hxor r (List.mem_append_left rs' hr)) hdone s, fill_append]
      exact c.grown_fill s rs' _
    exact ⟨hgrown.length_le, hgrown.exists_getElem?⟩
  · rw [fields_compose hdone, fields_compose h]
    exact eraseDups_fieldNamesIn_isPrefix _ rs rs'

/-- A later rule fills the gap of the first of two objects, between which the disjunction of a free text and a group stand; another one
brings a group in behind them. -/
theorem compose_append_grows_gap :
    ∃ done done', ({} : Config).composer.compose [
        ⟨some (.many ["city", "area"]), some .and, [.literal "Paris", .group [⟨some (.one "kind"), some .not, [.literal "page"], true⟩]],
          false⟩,
        ⟨none, none, [.literal "x", .literal "y"], false⟩,
        ⟨some (.one "city"), some .and, [.literal "Rome"], false⟩] = .ok done ∧
      ({} : Config).composer.compose ([
        ⟨some (.many ["city", "area"]), some .and, [.literal "Paris", .group [⟨some (.one "kind"), some .not, [.literal "page"], true⟩]],
          false⟩,
        ⟨none, none, [.literal "x", .literal "y"], false⟩,
        ⟨some (.one "city"), some .and, [.literal "Rome"], false⟩] ++ [
        ⟨some (.one "zip"), none, [.literal "1"], false⟩,
        ⟨some (.one "lang"), some .and, [.group [⟨none, some .or, [.literal "z"], false⟩]], false⟩]) = .ok done' ∧
      (done.query.clauses .must)[3]? = some (.term ⟨.term, [("city", "Rome")]⟩) ∧
      (∃ x', (done'.query.clauses .must)[3]? = some x' ∧ (Clause.term ⟨.term, [("city", "Rome")]⟩).Grows x') ∧
      done.fields <+: done'.fields := by
  obtain ⟨done', h⟩ := exists_eq_ok_of_isOk (x := ({} : Config).composer.compose ([
    ⟨some (.many ["city", "area"]), some .and, [.literal "Paris", .group [⟨some (.one "kind"), some .not, [.literal "page"], true⟩]],
      false⟩,
    ⟨none, none, [.literal "x", .literal "y"], false⟩,
    ⟨some (.one "city"), some .and, [.literal "Rome"], false⟩] ++ [
    ⟨some (.one "zip"), none, [.literal "1"], false⟩,
    ⟨some (.one "lang"), some .and, [.group [⟨none, some .or, [.literal "z"], false⟩]], false⟩])) (by decide)
  obtain ⟨done, hdone, hscopes, hfields⟩ := compose_append_grows (by decide) h
  have hrome : (done.query.clauses .must)[3]? = some (.term ⟨.term, [("city", "Rome")]⟩) := by
    cases hdone
    rfl
  exact ⟨done, done', hdone, h, hrome, (hscopes .must).2 3 _ hrome, hfields⟩

end Composer

end SearchRules
