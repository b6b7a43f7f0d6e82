import SearchRules.Clause.Data
import SearchRules.Proofs.Composition.Shape
import SearchRules.Proofs.Composition.Siblings
import SearchRules.Proofs.Composition.Wildcards
import SearchRules.Proofs.Rule.Reading

/-!
# Rules that say nothing

Rules without a literal at any depth, whatever their operators and however their groups stand in each other, are composed to a query
without a clause, and any other rules to one with a clause: `compose_empty_iff`. That query is the empty one, except where exclusive
alternatives are expressed as a number: the number is set whether there are alternatives or not.

A query is empty when it has no atoms, since every clause in a composed query is fit and so has some (`atoms_ne_nil`), and rules have
no atoms when they have no literal (`ruleAtomsIn_eq_nil_iff`).
-/

namespace SearchRules

namespace Composer

variable {c : Composer}

/-! ## Clauses without atoms -/

mutual

/-- A clause that is fit, and so is every clause in it, has atoms. -/
theorem atoms_ne_nil : ∀ x : Clause, x.Everywhere c.Fit → x.atoms ≠ []
  | .term t, h => by
    obtain ⟨hne, -, -⟩ := (Clause.everywhere_term t).1 h
    rw [Clause.atoms]
    exact List.map_eq_nil_iff.not.2 hne
  | .freeText t, _ => by
    rw [Clause.atoms]
    exact List.cons_ne_nil _ _
  | .nested path x hits, h => (h (.nested path x hits) List.mem_cons_self).elim
  | .bool ⟨must, should, mustNot, m⟩, h => by
    obtain ⟨⟨hne, -⟩, hscopes⟩ := (Clause.everywhere_bool _).1 h
    have hm := atomsIn_eq_nil must (hscopes .must)
    have hs := atomsIn_eq_nil should (hscopes .should)
    have hn := atomsIn_eq_nil mustNot (hscopes .mustNot)
    rw [Clause.atoms, BoolQuery.atoms, ne_eq, List.append_eq_nil_iff, List.append_eq_nil_iff]
    rintro ⟨hmust, hshould, hmustNot⟩
    rw [hm hmust, hs hshould, hn hmustNot] at hne
    exact absurd hne nofun

/-- Fit clauses have atoms if there are any. -/
theorem atomsIn_eq_nil : ∀ xs : List Clause, (∀ x ∈ xs, x.Everywhere c.Fit) → Clause.atomsIn xs = [] → xs = []
  | [], _, _ => rfl
  | x :: xs, h, hnil => by
    rw [Clause.atomsIn, List.append_eq_nil_iff] at hnil
    exact absurd hnil.1 (atoms_ne_nil x (h x List.mem_cons_self))

end

/-- A finished query without atoms is empty. -/
theorem Finished.isEmpty_iff {q : BoolQuery} (h : c.Finished q) : q.isEmpty = true ↔ q.atoms = [] := by
  refine ⟨BoolQuery.atoms_of_isEmpty, fun hnil => ?_⟩
  rw [BoolQuery.atoms_eq, List.append_eq_nil_iff, List.append_eq_nil_iff] at hnil
  obtain ⟨hmust, hshould, hmustNot⟩ := hnil
  rw [BoolQuery.isEmpty_iff]
  intro s
  cases s with
  | must => exact atomsIn_eq_nil _ (h.fit .must) hmust
  | should => exact atomsIn_eq_nil _ (h.fit .should) hshould
  | mustNot => exact atomsIn_eq_nil _ (h.fit .mustNot) hmustNot

/-! ## Rules without literals -/

/-- A literal of a rule has atoms: where literals become pairs, there is a field. -/
theorem atoms_literalForm_ne_nil (c : Composer) (r : Rule) (style : QueryStyle) (literal : String) :
    (c.literalForm r).atoms style literal ≠ [] := by
  rw [literalForm]
  cases r.names c.config.keywordSuffix with
  | nil => exact List.cons_ne_nil _ _
  | cons name names => cases c.config.clauseStyle <;> exact List.cons_ne_nil _ _

mutual

/-- Rules have no atoms when there is no literal anywhere in them. -/
theorem ruleAtomsIn_eq_nil_iff (c : Composer) : ∀ rs : List Rule, c.ruleAtomsIn rs = [] ↔ Rule.anyLiteralIn rs = false
  | [] => iff_of_true rfl rfl
  | ⟨field, operator, vs, isKeyword⟩ :: rs => by
    have hvs := valueAtomsIn_eq_nil_iff c vs _ (c.atoms_literalForm_ne_nil ⟨field, operator, vs, isKeyword⟩ _)
    rw [ruleAtomsIn, ruleAtoms, List.append_eq_nil_iff, hvs, ruleAtomsIn_eq_nil_iff c rs, Rule.anyLiteralIn, Rule.anyLiteral,
      Bool.or_eq_false_iff]

/-- Values have no atoms when there is no literal anywhere in them. -/
theorem valueAtomsIn_eq_nil_iff (c : Composer) : ∀ (vs : List Value) (form : LiteralForm),
    (∀ literal, form.atoms c.config.queryStyle literal ≠ []) → (c.valueAtomsIn form vs = [] ↔ Value.anyLiteralIn vs = false)
  | [], form, _ => iff_of_true rfl rfl
  | .literal text :: vs, form, hform => by
    rw [valueAtomsIn, valueAtoms, List.append_eq_nil_iff, Value.anyLiteralIn, Value.anyLiteral]
    exact iff_of_false (fun h => hform text h.1) nofun
  | .group rs :: vs, form, hform => by
    rw [valueAtomsIn, valueAtoms, List.append_eq_nil_iff, ruleAtomsIn_eq_nil_iff c rs, valueAtomsIn_eq_nil_iff c vs form hform,
      Value.anyLiteralIn, Value.anyLiteral, Bool.or_eq_false_iff]

end

/-- A composed query is empty when there is no literal anywhere in its rules. -/
theorem isEmpty_compose (hfields : c.freeTextFields ≠ []) {rs : List Rule} {done : Composition}
    (h : c.compose rs = .ok done) : done.query.isEmpty = !Rule.anyLiteralIn rs := by
  have hatoms : done.query.atoms = [] ↔ c.ruleAtomsIn rs = [] := by
    simp only [List.eq_nil_iff_forall_not_mem, mem_atoms_compose h]
  rw [Bool.eq_iff_iff, (finished_compose hfields h).isEmpty_iff, hatoms, ruleAtomsIn_eq_nil_iff, Bool.not_eq_true']

/-- Rules without a literal are accepted: there is nothing to refuse. -/
theorem accepts_of_anyLiteralIn {rs : List Rule} (h : Rule.anyLiteralIn rs = false) : c.Accepts rs := by
  have htexts := filterMap_query?_ruleAtomsIn c rs
  rw [(ruleAtomsIn_eq_nil_iff c rs).2 h] at htexts
  intro literal hl
  rw [List.map_eq_nil_iff.1 htexts.symm] at hl
  exact absurd hl List.not_mem_nil

/-- An empty query that rules are composed to has a number only if exclusive alternatives are expressed as one. -/
theorem composedQuery_of_isEmpty {rs : List Rule} (h : (c.composedQuery rs).isEmpty = true) :
    c.composedQuery rs = { minimumShouldMatch :=
      if c.config.xorStrategy = .minimumShouldMatch ∧ Rule.anyExclusive rs = true then some (-1) else none } := by
  have hplain : (c.plainQuery rs).isEmpty = true := by
    rw [composedQuery] at h
    split at h
    · rwa [BoolQuery.isEmpty_exclusive] at h
    · exact h
  have hnil : c.plainQuery rs = {} := by
    refine BoolQuery.eq_of_clauses (fun s => ?_) rfl
    rw [(BoolQuery.isEmpty_iff _).1 hplain s]
    cases s <;> rfl
  rw [composedQuery, hnil]
  cases Rule.anyExclusive rs with
  | false => simp
  | true => cases c.config.xorStrategy <;> simp [BoolQuery.exclusive, BoolQuery.someNotAll]

end Composer

/-- Rules with a literal somewhere in them are composed to a query that is not empty, if they are at all. Without one they are
composed, and to a query that is empty: the one that is written as an empty record, unless exclusive alternatives are expressed as a
number and some rule with values is an exclusive or, which leaves a number in it. -/
theorem compose_empty_iff (config : Config) (override : List String) (rs : List Rule) :
    if Rule.anyLiteralIn rs then ∀ done, (config.composer override).compose rs = .ok done → done.query.isEmpty = false
    else ∃ done, (config.composer override).compose rs = .ok done ∧ done.query.isEmpty = true ∧
      if config.xorStrategy = .minimumShouldMatch ∧ (∃ r ∈ rs, r.operator = some .xor ∧ r.values ≠ [])
      then (Clause.bool done.query).toData = .record [("bool", .record [("minimum_should_match", .int (-1))])]
      else done.query = {} ∧ (Clause.bool done.query).toData = .record [("bool", .record [])] := by
  have hfields := config.freeTextFields_composer_ne_nil override
  have hany : Rule.anyExclusive rs = true ↔ ∃ r ∈ rs, r.operator = some .xor ∧ r.values ≠ [] := by
    rw [Rule.anyExclusive, List.any_eq_true]
    simp
  cases hliteral : Rule.anyLiteralIn rs with
  | true =>
    rw [if_pos rfl]
    intro done hdone
    rw [Composer.isEmpty_compose hfields hdone, hliteral]
    rfl
  | false =>
    rw [if_neg Bool.false_ne_true]
    obtain ⟨done, hdone, hquery⟩ :=
      (Composer.exists_compose_iff (config.composer override) rs _).2 ⟨Composer.accepts_of_anyLiteralIn hliteral, rfl⟩
    have hempty : done.query.isEmpty = true := by
      rw [Composer.isEmpty_compose hfields hdone, hliteral]
      rfl
    have hconfig : (config.composer override).config = config := rfl
    rw [Composer.composedQuery_of_isEmpty (hquery ▸ hempty), hconfig] at hquery
    refine ⟨done, hdone, hempty, ?_⟩
    rw [hquery]
    by_cases hset : config.xorStrategy = .minimumShouldMatch ∧ Rule.anyExclusive rs = true
    · rw [if_pos hset, if_pos ⟨hset.1, hany.1 hset.2⟩]
      rfl
    · rw [if_neg hset, if_neg fun h => hset ⟨h.1, hany.2 h.2⟩]
      exact ⟨rfl, rfl⟩

/-- Groups of groups without a literal, under every operator, with their exclusive alternatives in a group. -/
theorem compose_empty_groups :
    ∃ done, (({ xorStrategy := .minimumShouldMatch, clauseStyle := .queryString } : Config).composer ["title"]).compose [
        ⟨none, some .not, [.group [⟨some (.one "tag"), some .xor, [.group []], true⟩]], false⟩,
        ⟨some (.one "kind"), some .or, [.group [⟨none, none, [], false⟩], .group []], false⟩,
        ⟨none, some .xor, [], false⟩] = .ok done ∧
      done.query.isEmpty = true ∧ done.query = {} ∧ (Clause.bool done.query).toData = .record [("bool", .record [])] := by
  have h := compose_empty_iff { xorStrategy := .minimumShouldMatch, clauseStyle := .queryString } ["title"] [
    ⟨none, some .not, [.group [⟨some (.one "tag"), some .xor, [.group []], true⟩]], false⟩,
    ⟨some (.one "kind"), some .or, [.group [⟨none, none, [], false⟩], .group []], false⟩,
    ⟨none, some .xor, [], false⟩]
  rw [if_neg (by decide)] at h
  obtain ⟨done, hdone, hempty, hwritten⟩ := h
  rw [if_neg (by simp)] at hwritten
  exact ⟨done, hdone, hempty, hwritten⟩

/-- An exclusive rule of which nothing is left sets the number of a query that is empty. -/
theorem compose_empty_group_sets_number :
    Rule.anyLiteralIn [⟨none, some .xor, [.group []], false⟩] = false ∧
      (({ xorStrategy := .minimumShouldMatch } : Config).composer).compose [⟨none, some .xor, [.group []], false⟩] =
        .ok { query := { minimumShouldMatch := some (-1) } } ∧
      (Clause.bool { minimumShouldMatch := some (-1) }).toData ≠ .record [("bool", .record [])] :=
  ⟨rfl, rfl, nofun⟩

end SearchRules
