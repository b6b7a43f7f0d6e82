import Mathlib.Logic.Relation
import SearchRules.Proofs.Composition.FieldNames
import SearchRules.Proofs.Composition.Siblings

/-!
# Rules written in other ways

The same can be asked for by other rules: a rule with many values by a rule for each of them (`Rule.TakenApart`), or by a rule that
is spelled otherwise (`Rule.SpelledAlike`). Such a step may be made anywhere, among the rules of a list or of a group at whatever
depth (`Rule.Rewritten`), and as often as one likes.

What rules are composed to is settled by four things: their free-text literals in order, what they fill each scope with, whether
some of them are exclusive, and the field names that come up in them (`compose_eq`). Rules of which the first three agree may stand
for each other beside any rules and in any group (`Alike.beside`, `Alike.inside`), so that a step is looked at where it is made and
nowhere else. Spelling rules in another way then leaves every composition as it is, `compose_eq_of_spelledAlike`; taking rules apart
may change the order in which names come up, and nothing else, `compose_of_takenApart`.
-/

namespace SearchRules

/-! ## Steps, at every depth -/

/-- Lists of rules that differ by one step: some rules that stand beside each other, at whatever depth, become others. -/
inductive Rule.Rewritten (Step : List Rule → List Rule → Prop) : List Rule → List Rule → Prop where
  | beside {before after rs rs' : List Rule} : Step rs rs' → Rewritten Step (before ++ (rs ++ after)) (before ++ (rs' ++ after))
  | inside {before after : List Rule} {r : Rule} {vs ws : List Value} {rs rs' : List Rule} : Rewritten Step rs rs' →
      Rewritten Step (before ++ { r with values := vs ++ .group rs :: ws } :: after)
        (before ++ { r with values := vs ++ .group rs' :: ws } :: after)

/-- A rule, and the rules that have one of its values each, in order. The rule has an operator, or its literals are not searched for
as free text. -/
def Rule.TakenApart (style : ClauseStyle) (rs rs' : List Rule) : Prop :=
  ∃ r : Rule, (r.operator ≠ none ∨ r.isFreeText style = false) ∧ rs = [r] ∧
    rs' = r.values.map fun v => { r with values := [v] }

/-- A rule, and how it may be spelled otherwise. -/
inductive Rule.SpelledAlike (style : ClauseStyle) : List Rule → List Rule → Prop where
  /-- A rule without values is left out. -/
  | valueless {r : Rule} : r.values = [] → SpelledAlike style [r] []
  /-- The one field is the only one of a list. -/
  | listed (r : Rule) (name : String) :
      SpelledAlike style [{ r with field := some (.one name) }] [{ r with field := some (.many [name]) }]
  /-- A list of no fields is left out. -/
  | fieldless (r : Rule) : SpelledAlike style [{ r with field := some (.many []) }] [{ r with field := none }]
  /-- A rule about fields that has no operator asks for every value. -/
  | anded {r : Rule} : style = .term → r.operator = none → r.field.elim [] FieldRef.names ≠ [] →
      SpelledAlike style [r] [{ r with operator := some .and }]

/-! ## Names that come up -/

/-- The names of a group come up among those of the rules around it, whatever they are. -/
theorem Rule.fieldNamesIn_inside (suffix : String) (before after : List Rule) (r : Rule) (vs ws : List Value) :
    ∃ xs ys, ∀ g, Rule.fieldNamesIn suffix (before ++ { r with values := vs ++ .group g :: ws } :: after) =
      xs ++ (Rule.fieldNamesIn suffix g ++ ys) := by
  refine ⟨Rule.fieldNamesIn suffix before ++ Value.fieldNamesIn suffix vs,
    Value.fieldNamesIn suffix ws ++ (r.names suffix ++ Rule.fieldNamesIn suffix after), fun g => ?_⟩
  have hrule : Rule.fieldNames suffix { r with values := vs ++ .group g :: ws } =
      Value.fieldNamesIn suffix (vs ++ .group g :: ws) ++ r.names suffix := by
    rw [fieldNames_eq, if_neg (by simp)]
    rfl
  have hgroup : Value.fieldNames suffix (.group g) = Rule.fieldNamesIn suffix g := by rw [Value.fieldNames]
  simp only [fieldNamesIn_eq_flatMap suffix (_ ++ _), List.flatMap_append, List.flatMap_cons, hrule,
    Value.fieldNamesIn_eq_flatMap, hgroup, ← fieldNamesIn_eq_flatMap, List.append_assoc]

/-- What a step does to the names that come up it does anywhere, as often as it is made, if lists of names that are so related may
stand for each other between any names. -/
theorem Rule.fieldNamesIn_of_rewritten {Step : List Rule → List Rule → Prop} {suffix : String}
    {N : List String → List String → Prop} (hN : Equivalence N)
    (haround : ∀ xs ys as bs, N as bs → N (xs ++ (as ++ ys)) (xs ++ (bs ++ ys)))
    (hstep : ∀ rs rs', Step rs rs' → N (Rule.fieldNamesIn suffix rs) (Rule.fieldNamesIn suffix rs')) {rs rs' : List Rule}
    (h : Relation.EqvGen (Rewritten Step) rs rs') : N (Rule.fieldNamesIn suffix rs) (Rule.fieldNamesIn suffix rs') := by
  induction h with
  | refl rs => exact hN.refl _
  | symm rs rs' _ ih => exact hN.symm ih
  | trans rs rs' rs'' _ _ ih ih' => exact hN.trans ih ih'
  | rel rs rs' hrel =>
    induction hrel with
    | beside h =>
      simp only [fieldNamesIn_eq_flatMap, List.flatMap_append]
      simp only [← fieldNamesIn_eq_flatMap]
      exact haround _ _ _ _ (hstep _ _ h)
    | @inside before after r vs ws g g' _ ih =>
      obtain ⟨xs, ys, hnames⟩ := fieldNamesIn_inside suffix before after r vs ws
      rw [hnames, hnames]
      exact haround _ _ _ _ ih

namespace Composer

variable {c : Composer} {rs rs' rs'' : List Rule}

/-! ## What settles a composition -/

/-- A composition fails with the first refusal among the free-text literals of its rules; otherwise it is the query of their scopes
with the names that come up in them. -/
theorem compose_eq (c : Composer) (rs : List Rule) :
    c.compose rs = match firstRefusal (Rule.freeLiteralsIn c.config.clauseStyle rs) with
      | some e => .error e
      | none => .ok ⟨c.composedQuery rs, (Rule.fieldNamesIn c.config.keywordSuffix rs).eraseDups⟩ := by
  rw [← error?_compose]
  cases h : c.compose rs with
  | error e => rfl
  | ok done => simp only [error?, ← query_compose h, ← fields_compose h]

/-- Rules that may stand for each other, but for the names that come up in them. -/
structure Alike (c : Composer) (rs rs' : List Rule) : Prop where
  literals : Rule.freeLiteralsIn c.config.clauseStyle rs' = Rule.freeLiteralsIn c.config.clauseStyle rs
  fill (s : Scope) (cs : List Clause) : c.fill s rs' cs = c.fill s rs cs
  exclusive : Rule.anyExclusive rs' = Rule.anyExclusive rs

namespace Alike

theorem refl (c : Composer) (rs : List Rule) : c.Alike rs rs :=
  ⟨rfl, fun _ _ => rfl, rfl⟩

theorem symm (h : c.Alike rs rs') : c.Alike rs' rs :=
  ⟨h.literals.symm, fun s cs => (h.fill s cs).symm, h.exclusive.symm⟩

theorem trans (h : c.Alike rs rs') (h' : c.Alike rs' rs'') : c.Alike rs rs'' :=
  ⟨h'.literals.trans h.literals, fun s cs => (h'.fill s cs).trans (h.fill s cs), h'.exclusive.trans h.exclusive⟩

theorem composedQuery_eq (h : c.Alike rs rs') : c.composedQuery rs' = c.composedQuery rs := by
  simp only [composedQuery, plainQuery, h.fill, h.exclusive]

theorem groupQuery_eq (h : c.Alike rs rs') : c.groupQuery rs' = c.groupQuery rs := by
  rw [groupQuery, groupQuery, compose_eq, compose_eq, h.literals]
  cases firstRefusal (Rule.freeLiteralsIn c.config.clauseStyle rs) with
  | some e => rfl
  | none => exact h.composedQuery_eq

/-- They may do so beside any rules. -/
theorem beside (h : c.Alike rs rs') (before after : List Rule) :
    c.Alike (before ++ (rs ++ after)) (before ++ (rs' ++ after)) := by
  refine ⟨?_, fun s cs => ?_, ?_⟩
  · simp only [Rule.freeLiteralsIn_eq_flatMap, List.flatMap_append]
    simp only [← Rule.freeLiteralsIn_eq_flatMap, h.literals]
  · simp only [fill_append, h.fill]
  · have hany := h.exclusive
    rw [Rule.anyExclusive, Rule.anyExclusive] at hany
    simp only [Rule.anyExclusive, List.any_append, hany]

/-- They may do so in any group. -/
theorem inside (h : c.Alike rs rs') (before after : List Rule) (r : Rule) (vs ws : List Value) :
    c.Alike (before ++ { r with values := vs ++ .group rs :: ws } :: after)
      (before ++ { r with values := vs ++ .group rs' :: ws } :: after) := by
  obtain ⟨xs, ys, hliterals⟩ := Rule.freeLiteralsIn_inside c.config.clauseStyle before after r vs ws
  exact ⟨by rw [hliterals, hliterals, h.literals], fill_inside h.groupQuery_eq,
    Rule.anyExclusive_inside before after r vs ws rs' rs⟩

/-- Rules may stand for each other after any steps that lead to such rules where they are made. -/
theorem of_rewritten {Step : List Rule → List Rule → Prop} (hstep : ∀ rs rs', Step rs rs' → c.Alike rs rs')
    (h : Relation.EqvGen (Rule.Rewritten Step) rs rs') : c.Alike rs rs' := by
  induction h with
  | refl rs => exact refl c rs
  | symm rs rs' _ ih => exact ih.symm
  | trans rs rs' rs'' _ _ ih ih' => exact ih.trans ih'
  | rel rs rs' hrel =>
    induction hrel with
    | beside h => exact (hstep _ _ h).beside _ _
    | inside _ ih => exact ih.inside _ _ _ _ _

end Alike

/-! ## Rules taken apart -/

/-- What has an operator or is not searched for as free text is folded in piece by piece. -/
theorem landAll_eq_foldl {r : Rule} (h : r.operator ≠ none ∨ r.isFreeText c.config.clauseStyle = false) (pieces : List Piece)
    (cs : List Clause) :
    c.landAll r pieces cs = pieces.foldl (Piece.land c.config.termKey (c.literalForm r).names) cs := by
  rw [← isFreeText_literalForm] at h
  rw [landAll]
  cases hform : c.literalForm r with
  | terms names => rfl
  | freeText fields =>
    cases ho : r.operator with
    | some op => rfl
    | none => simp [hform, ho, LiteralForm.isFreeText] at h

/-- Rules that have one of some values each fill a scope as one rule that has all of them. -/
theorem fill_map_values {r : Rule} (h : r.operator ≠ none ∨ r.isFreeText c.config.clauseStyle = false) (s : Scope)
    (vs : List Value) (cs : List Clause) :
    c.fill s (vs.map fun v => { r with values := [v] }) cs = if r.scope = s then
      (vs.map (c.piece (c.literalForm r))).foldl (Piece.land c.config.termKey (c.literalForm r).names) cs else cs := by
  induction vs generalizing cs with
  | nil => exact (ite_self cs).symm
  | cons v vs ih =>
    have hscope : Rule.scope { r with values := [v] } = r.scope := rfl
    have hpieces : c.pieces { r with values := [v] } = [c.piece (c.literalForm r) v] := rfl
    have hland : ∀ pieces cs, c.landAll { r with values := [v] } pieces cs = c.landAll r pieces cs := fun _ _ => rfl
    rw [List.map_cons, fill_cons, ih, hscope, hpieces, hland, landAll_eq_foldl h]
    by_cases hs : r.scope = s
    · simp only [if_pos hs, List.map_cons, List.foldl_cons, List.foldl_nil]
    · simp only [if_neg hs]

theorem alike_of_takenApart (h : Rule.TakenApart c.config.clauseStyle rs rs') : c.Alike rs rs' := by
  obtain ⟨r, hr, rfl, rfl⟩ := h
  refine ⟨?_, fun s cs => ?_, ?_⟩
  · have hone : ∀ v, Rule.freeLiterals c.config.clauseStyle { r with values := [v] } =
        Value.freeLiterals c.config.clauseStyle (r.isFreeText c.config.clauseStyle) v := by
      intro v
      rw [Rule.freeLiterals, Value.freeLiteralsIn, Value.freeLiteralsIn, List.append_nil]
      rfl
    rw [Rule.freeLiteralsIn_eq_flatMap, Rule.freeLiteralsIn_eq_flatMap, List.flatMap_singleton, Rule.freeLiterals_eq,
      Value.freeLiteralsIn_eq_flatMap, List.flatMap_map]
    simp only [hone]
  · rw [fill_map_values hr, fill_cons, landAll_eq_foldl hr]
    rfl
  · cases hv : r.values with
    | nil => simp [Rule.anyExclusive, hv]
    | cons v vs => simp [Rule.anyExclusive, hv]

/-- The names of a rule come up when they come up in one of the rules it is taken apart to. -/
theorem mem_fieldNamesIn_of_takenApart {style : ClauseStyle} (suffix : String) (h : Rule.TakenApart style rs rs')
    (name : String) : name ∈ Rule.fieldNamesIn suffix rs' ↔ name ∈ Rule.fieldNamesIn suffix rs := by
  obtain ⟨r, -, rfl, rfl⟩ := h
  have hone : ∀ v, Rule.fieldNames suffix { r with values := [v] } = v.fieldNames suffix ++ r.names suffix := by
    intro v
    rw [Rule.fieldNames, Value.fieldNamesIn, Value.fieldNamesIn, List.append_nil]
    rfl
  rw [Rule.fieldNamesIn_eq_flatMap, Rule.fieldNamesIn_eq_flatMap, List.flatMap_singleton, Rule.fieldNames_eq,
    Value.fieldNamesIn_eq_flatMap, List.flatMap_map]
  simp only [hone, List.mem_flatMap, List.mem_append]
  cases hv : r.values with
  | nil => simp
  | cons v vs =>
    rw [if_neg (by simp), List.mem_append, List.mem_flatMap]
    constructor
    · rintro ⟨w, hw, hinside | hown⟩
      · exact Or.inl ⟨w, hw, hinside⟩
      · exact Or.inr hown
    · rintro (⟨w, hw, hinside⟩ | hown)
      · exact ⟨w, hw, Or.inl hinside⟩
      · exact ⟨v, List.mem_cons_self, Or.inr hown⟩

/-- Rules some of which, at whatever depth, are taken apart into rules with one value each are refused for the same literal and the
same token, or composed to the same query with the same names. Only a rule that has an operator, or whose literals are not searched
for as free text, is taken apart; the names may come up in another order. -/
theorem compose_of_takenApart (h : Relation.EqvGen (Rule.Rewritten (Rule.TakenApart c.config.clauseStyle)) rs rs') :
    (∀ e, c.compose rs = .error e ↔ c.compose rs' = .error e) ∧
      ∀ done, c.compose rs = .ok done → ∃ done', c.compose rs' = .ok done' ∧ done'.query = done.query ∧
        done'.fields.Perm done.fields := by
  have halike : c.Alike rs rs' := .of_rewritten (fun _ _ => alike_of_takenApart) h
  have hnames : ∀ name, name ∈ Rule.fieldNamesIn c.config.keywordSuffix rs ↔
      name ∈ Rule.fieldNamesIn c.config.keywordSuffix rs' := by
    refine Rule.fieldNamesIn_of_rewritten (N := fun as bs => ∀ name, name ∈ as ↔ name ∈ bs) ⟨fun _ _ => Iff.rfl,
      fun h name => (h name).symm, fun h h' name => (h name).trans (h' name)⟩ ?_ ?_ h
    · intro xs ys as bs h name
      simp only [List.mem_append, h name]
    · intro rs rs' h name
      exact (mem_fieldNamesIn_of_takenApart _ h name).symm
  have hfails : error? (c.compose rs') = error? (c.compose rs) := by
    rw [error?_compose, error?_compose, halike.literals]
  constructor
  · intro e
    rw [← error?_eq_some_iff, ← error?_eq_some_iff, hfails]
  · intro done hdone
    rw [hdone] at hfails
    cases hdone' : c.compose rs' with
    | error e => rw [hdone'] at hfails; cases hfails
    | ok done' =>
      refine ⟨done', rfl, ?_, ?_⟩
      · rw [query_compose hdone, query_compose hdone', halike.composedQuery_eq]
      · rw [List.perm_ext_iff_of_nodup (nodup_fields_compose hdone') (nodup_fields_compose hdone)]
        intro name
        rw [fields_compose hdone, fields_compose hdone', List.mem_eraseDups, List.mem_eraseDups, hnames]

/-- Exclusive alternatives about two fields, one of them a group whose rule is taken apart as well; the names of the group come up
behind those of the first alternative. -/
theorem compose_of_takenApart_in_xor :
    ∃ done done', ({} : Config).composer.compose [
        ⟨some (.many ["city", "zip"]), some .xor, [.literal "Paris",
          .group [⟨some (.one "kind"), none, [.literal "page", .literal "post"], false⟩]], false⟩] = .ok done ∧
      ({} : Config).composer.compose [
        ⟨some (.many ["city", "zip"]), some .xor, [.literal "Paris"], false⟩,
        ⟨some (.many ["city", "zip"]), some .xor, [
          .group [⟨some (.one "kind"), none, [.literal "page"], false⟩, ⟨some (.one "kind"), none, [.literal "post"], false⟩]],
          false⟩] = .ok done' ∧
      done'.query = done.query ∧ done'.fields.Perm done.fields ∧ done.fields = ["kind", "city", "zip"] ∧
      done'.fields = ["city", "zip", "kind"] := by
  have hgroup := @Rule.Rewritten.inside (Rule.TakenApart .term) [] [] ⟨some (.many ["city", "zip"]), some .xor, [], false⟩
    [.literal "Paris"] [] _ _ (@Rule.Rewritten.beside (Rule.TakenApart .term) [] [] _ _
      ⟨⟨some (.one "kind"), none, [.literal "page", .literal "post"], false⟩, Or.inr rfl, rfl, rfl⟩)
  have htop := @Rule.Rewritten.beside (Rule.TakenApart .term) [] [] _ _
    ⟨⟨some (.many ["city", "zip"]), some .xor, [.literal "Paris",
      .group [⟨some (.one "kind"), none, [.literal "page"], false⟩, ⟨some (.one "kind"), none, [.literal "post"], false⟩]], false⟩,
      Or.inl nofun, rfl, rfl⟩
  obtain ⟨done, hdone⟩ := exists_eq_ok_of_isOk (x := ({} : Config).composer.compose [
    ⟨some (.many ["city", "zip"]), some .xor, [.literal "Paris",
      .group [⟨some (.one "kind"), none, [.literal "page", .literal "post"], false⟩]], false⟩]) (by decide)
  obtain ⟨done', hdone', hquery, hperm⟩ :=
    (compose_of_takenApart (c := ({} : Config).composer) (.trans _ _ _ (.rel _ _ hgroup) (.rel _ _ htop))).2 done hdone
  exact ⟨done, done', hdone, hdone', hquery, hperm, (fields_compose hdone).trans (by decide),
    (fields_compose hdone').trans (by decide)⟩

/-! ## Rules spelled otherwise -/

/-- A rule may stand for another one with the same values if their literals are searched for in the same way and what they become is
folded in in the same way. -/
theorem alike_singleton {r r' : Rule} (hvalues : r'.values = r.values) (hform : c.literalForm r' = c.literalForm r)
    (hscope : r'.scope = r.scope) (hland : ∀ pieces cs, c.landAll r' pieces cs = c.landAll r pieces cs)
    (hxor : (r'.operator == some .xor) = (r.operator == some .xor)) : c.Alike [r] [r'] := by
  have hpieces : c.pieces r' = c.pieces r := by rw [pieces, pieces, hvalues, hform]
  refine ⟨?_, fun s cs => ?_, ?_⟩
  · rw [Rule.freeLiteralsIn_eq_flatMap, Rule.freeLiteralsIn_eq_flatMap, List.flatMap_singleton, List.flatMap_singleton,
      Rule.freeLiterals_eq, Rule.freeLiterals_eq, hvalues, ← isFreeText_literalForm, ← isFreeText_literalForm, hform]
  · rw [fill_cons, fill_cons, hscope, hpieces, hland]
  · simp only [Rule.anyExclusive, List.any_cons, List.any_nil, hxor, hvalues]

theorem alike_of_spelledAlike (h : Rule.SpelledAlike c.config.clauseStyle rs rs') : c.Alike rs rs' := by
  cases h with
  | @valueless r hv =>
    have hpieces : c.pieces r = [] := by rw [pieces, hv, List.map_nil]
    refine ⟨?_, fun s cs => ?_, ?_⟩
    · rw [Rule.freeLiteralsIn_eq_flatMap, Rule.freeLiteralsIn_eq_flatMap, List.flatMap_singleton, Rule.freeLiterals_eq, hv]
      rfl
    · rw [fill_cons, hpieces, landAll_nil, ite_self]
    · simp [Rule.anyExclusive, hv]
  | listed r name => exact alike_singleton rfl rfl rfl (fun _ _ => rfl) rfl
  | fieldless r => exact alike_singleton rfl rfl rfl (fun _ _ => rfl) rfl
  | @anded r hstyle ho hnames =>
    have hpairs : r.isFreeText c.config.clauseStyle = false := by
      rw [Rule.isFreeText, hstyle, List.isEmpty_eq_false_iff.2 hnames]
      rfl
    refine alike_singleton rfl rfl ?_ (fun pieces cs => ?_) ?_
    · rw [Rule.scope, Rule.scope, ho]
      rfl
    · rw [landAll_eq_foldl (Or.inl (Option.some_ne_none _)), landAll_eq_foldl (Or.inr hpairs)]
      rfl
    · rw [ho]
      rfl

theorem fieldNamesIn_of_spelledAlike {style : ClauseStyle} (suffix : String) (h : Rule.SpelledAlike style rs rs') :
    Rule.fieldNamesIn suffix rs' = Rule.fieldNamesIn suffix rs := by
  cases h with
  | @valueless r hv =>
    rw [Rule.fieldNamesIn_eq_flatMap _ [r], List.flatMap_singleton, Rule.fieldNames_eq, hv]
    rfl
  | listed r name => rfl
  | fieldless r => rfl
  | @anded r _ _ _ =>
    rw [Rule.fieldNamesIn_eq_flatMap _ [r], List.flatMap_singleton, Rule.fieldNamesIn_eq_flatMap, List.flatMap_singleton,
      Rule.fieldNames_eq, Rule.fieldNames_eq]
    rfl

/-- Rules that are spelled otherwise, at whatever depth and in whichever of the ways, are composed to the same query with the same
names in the same order, or refused for the same literal and the same token. -/
theorem compose_eq_of_spelledAlike (h : Relation.EqvGen (Rule.Rewritten (Rule.SpelledAlike c.config.clauseStyle)) rs rs') :
    c.compose rs = c.compose rs' := by
  have halike : c.Alike rs rs' := .of_rewritten (fun _ _ => alike_of_spelledAlike) h
  have hnames : Rule.fieldNamesIn c.config.keywordSuffix rs = Rule.fieldNamesIn c.config.keywordSuffix rs' := by
    refine Rule.fieldNamesIn_of_rewritten eq_equivalence ?_ ?_ h
    · rintro xs ys as _ rfl
      rfl
    · intro rs rs' h
      exact (fieldNamesIn_of_spelledAlike _ h).symm
  rw [compose_eq, compose_eq, halike.literals, halike.composedQuery_eq, hnames]

/-- An exclusive rule without values, a list of no fields in a group, one field that is not in a list, and no operator, each spelled in
the other way. -/
theorem compose_eq_of_spelledAlike_all_ways :
    ({} : Config).composer.compose [
        ⟨some (.one "tag"), some .xor, [], false⟩,
        ⟨some (.one "city"), none, [.literal "Paris", .group [⟨some (.many []), some .not, [.literal "rust"], false⟩]], true⟩,
        ⟨none, some .or, [.literal "lean"], false⟩] =
      ({} : Config).composer.compose [
        ⟨some (.many ["city"]), some .and, [.literal "Paris", .group [⟨none, some .not, [.literal "rust"], false⟩]], true⟩,
        ⟨none, some .or, [.literal "lean"], false⟩] := by
  have hvalueless := @Rule.Rewritten.beside (Rule.SpelledAlike .term) []
    [⟨some (.one "city"), none, [.literal "Paris", .group [⟨some (.many []), some .not, [.literal "rust"], false⟩]], true⟩,
      ⟨none, some .or, [.literal "lean"], false⟩] _ _ (.valueless (r := ⟨some (.one "tag"), some .xor, [], false⟩) rfl)
  have hgroup := @Rule.Rewritten.inside (Rule.SpelledAlike .term) [] [⟨none, some .or, [.literal "lean"], false⟩]
    ⟨some (.one "city"), none, [], true⟩ [.literal "Paris"] [] _ _
    (@Rule.Rewritten.beside (Rule.SpelledAlike .term) [] [] _ _ (.fieldless ⟨none, some .not, [.literal "rust"], false⟩))
  have hlisted := @Rule.Rewritten.beside (Rule.SpelledAlike .term) [] [⟨none, some .or, [.literal "lean"], false⟩] _ _
    (.listed ⟨none, none, [.literal "Paris", .group [⟨none, some .not, [.literal "rust"], false⟩]], true⟩ "city")
  have handed := @Rule.Rewritten.beside (Rule.SpelledAlike .term) [] [⟨none, some .or, [.literal "lean"], false⟩] _ _
    (@Rule.SpelledAlike.anded .term ⟨some (.many ["city"]), none, [.literal "Paris",
      .group [⟨none, some .not, [.literal "rust"], false⟩]], true⟩ rfl rfl (List.cons_ne_nil _ _))
  exact compose_eq_of_spelledAlike (c := ({} : Config).composer) (.trans _ _ _ (.rel _ _ hvalueless)
    (.trans _ _ _ (.rel _ _ hgroup) (.trans _ _ _ (.rel _ _ hlisted) (.rel _ _ handed))))

end Composer

end SearchRules
