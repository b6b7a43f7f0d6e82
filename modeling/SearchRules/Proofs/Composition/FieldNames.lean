import Mathlib.Data.List.Nodup
import SearchRules.Proofs.Composition.Atoms
import SearchRules.Proofs.Rule.Reading

/-!
# The field names of a composition

A composition tells which fields its rules refer to. The names are those of the rules with values, at every depth: the names that
come up in the groups of a rule before its own, each where it comes up first (`fields_compose`). They are gathered beside the query
and not from it, so that the two agree has to be proved: every field of a term object in the query is among the names, and a name of
a rule that has a literal is a field of a term object or stands behind the star of a pattern of a free text
(`compose_fields_exact`).
-/

namespace SearchRules

/-! ## Names and rules, at every depth -/

mutual

/-- The field names that come up in a value. -/
def Value.fieldNames (suffix : String) : Value → List String
  | .literal _ => []
  | .group rs => Rule.fieldNamesIn suffix rs

/-- The field names that come up in values. -/
def Value.fieldNamesIn (suffix : String) : List Value → List String
  | [] => []
  | v :: vs => v.fieldNames suffix ++ Value.fieldNamesIn suffix vs

/-- The field names that come up in a rule: those of its groups and then its own, unless it has no values. -/
def Rule.fieldNames (suffix : String) : Rule → List String
  | ⟨field, operator, values, isKeyword⟩ =>
    if values.isEmpty then []
    else Value.fieldNamesIn suffix values ++ Rule.names suffix ⟨field, operator, values, isKeyword⟩

/-- The field names that come up in a list of rules. -/
def Rule.fieldNamesIn (suffix : String) : List Rule → List String
  | [] => []
  | r :: rs => r.fieldNames suffix ++ Rule.fieldNamesIn suffix rs

end

mutual

/-- Every rule in a value. -/
def Value.parts : Value → List Rule
  | .literal _ => []
  | .group rs => Rule.partsIn rs

/-- Every rule in some values. -/
def Value.partsIn : List Value → List Rule
  | [] => []
  | v :: vs => v.parts ++ Value.partsIn vs

/-- A rule and every rule in its groups. -/
def Rule.parts : Rule → List Rule
  | ⟨field, operator, values, isKeyword⟩ => ⟨field, operator, values, isKeyword⟩ :: Value.partsIn values

/-- Some rules and every rule in their groups. -/
def Rule.partsIn : List Rule → List Rule
  | [] => []
  | r :: rs => r.parts ++ Rule.partsIn rs

end

theorem Rule.fieldNames_eq (suffix : String) (r : Rule) :
    r.fieldNames suffix = if r.values.isEmpty then [] else Value.fieldNamesIn suffix r.values ++ r.names suffix := by
  obtain ⟨field, operator, values, isKeyword⟩ := r
  rw [fieldNames]

theorem Value.fieldNamesIn_eq_flatMap (suffix : String) (vs : List Value) :
    Value.fieldNamesIn suffix vs = vs.flatMap (Value.fieldNames suffix) := by
  induction vs with
  | nil => rfl
  | cons v vs ih => rw [fieldNamesIn, ih, List.flatMap_cons]

theorem Rule.fieldNamesIn_eq_flatMap (suffix : String) (rs : List Rule) :
    Rule.fieldNamesIn suffix rs = rs.flatMap (Rule.fieldNames suffix) := by
  induction rs with
  | nil => rfl
  | cons r rs ih => rw [fieldNamesIn, ih, List.flatMap_cons]

/-! ## Names that are remembered -/

namespace Draft

theorem remember_append (fields xs ys : List String) : remember fields (xs ++ ys) = remember (remember fields xs) ys :=
  List.foldl_append

/-- Names are remembered where they come up first. -/
theorem remember_eraseDups (seen names : List String) : remember seen.eraseDups names = (seen ++ names).eraseDups := by
  induction names generalizing seen with
  | nil => rw [List.append_nil, remember, List.foldl_nil]
  | cons name names ih =>
    have hfirst : remember seen.eraseDups [name] = (seen ++ [name]).eraseDups := by
      rw [List.eraseDups_append]
      by_cases h : name ∈ seen
      · simp [remember, List.removeAll, h]
      · simp [remember, List.removeAll, h, List.eraseDups_cons]
    rw [← List.singleton_append, remember_append, hfirst, ih, List.append_assoc]

/-- A name that is remembered is not remembered twice. -/
theorem nodup_remember (names : List String) : ∀ fields : List String, fields.Nodup → (remember fields names).Nodup := by
  induction names with
  | nil => intro fields h; exact h
  | cons name names ih =>
    intro fields h
    rw [remember, List.foldl_cons]
    refine ih _ ?_
    split
    · exact h
    · rename_i hnew
      rw [List.contains_iff_mem] at hnew
      rw [← List.concat_eq_append]
      exact h.concat hnew

end Draft

namespace Composer

variable {c : Composer} {rs : List Rule} {done : Composition}

/-- Every step of a composition remembers the names that come up in what it folds in. -/
theorem fields_invariant (c : Composer) :
    c.Invariant (fun d rs d' => d'.fields = Draft.remember d.fields (Rule.fieldNamesIn c.config.keywordSuffix rs))
      fun _ fields vs _ fields' => fields' = Draft.remember fields (Value.fieldNamesIn c.config.keywordSuffix vs) where
  nil d := rfl
  skip d d' r rs hv ih := by
    rw [ih, Rule.fieldNamesIn, Rule.fieldNames_eq, hv]
    rfl
  fold d d' r rs pieces fields hv hvs ih := by
    rw [ih, addRule, hvs, Rule.fieldNamesIn, Rule.fieldNames_eq, if_neg (by simpa using hv), Draft.remember_append,
      Draft.remember_append]
  none form fields := rfl
  literal form text vs p pieces fields fields' _ ih := by
    rw [ih, Value.fieldNamesIn, Value.fieldNames, List.nil_append]
  group form rs vs d pieces fields fields' hd ih := by
    rw [ih, hd, Value.fieldNamesIn, Value.fieldNames, Draft.remember_append]

/-- The names of a composition are those that come up in its rules, each where it comes up first. -/
theorem fields_compose (h : c.compose rs = .ok done) :
    done.fields = (Rule.fieldNamesIn c.config.keywordSuffix rs).eraseDups := by
  obtain ⟨d, hd, rfl⟩ := c.fields_invariant.compose h
  exact hd.trans (Draft.remember_eraseDups [] _)

/-- A composition names each field once. -/
theorem nodup_fields_compose (h : c.compose rs = .ok done) : done.fields.Nodup := by
  obtain ⟨d, hd, rfl⟩ := c.fields_invariant.compose h
  have hnodup := Draft.nodup_remember (Rule.fieldNamesIn c.config.keywordSuffix rs) _ List.nodup_nil
  rw [Draft.finish, hd]
  exact hnodup

/-! ## Names and atoms -/

/-- The names under which the literals of a rule become pairs are its own. -/
theorem names_literalForm_subset (c : Composer) (r : Rule) : (c.literalForm r).names ⊆ r.names c.config.keywordSuffix := by
  rw [literalForm]
  cases r.names c.config.keywordSuffix with
  | nil => exact List.nil_subset _
  | cons name names =>
    cases c.config.clauseStyle with
    | term => exact List.Subset.refl _
    | queryString => exact List.nil_subset _

/-- The patterns of a rule with field names are these names, each behind a star. -/
theorem patterns_eq_map_names (c : Composer) {r : Rule} (h : r.names c.config.keywordSuffix ≠ []) :
    c.config.queryStyle.patterns r.field r.isKeyword = (r.names c.config.keywordSuffix).map ("*" ++ ·) := by
  obtain ⟨field, operator, values, isKeyword⟩ := r
  cases field with
  | none => exact absurd rfl h
  | some ref =>
    have hne : ref.names ≠ [] := fun hnil => h (by simp [Rule.names, hnil])
    simp only [QueryStyle.patterns, Rule.names, Option.map_some, Option.getD_some, List.map_map]
    cases hnames : ref.names with
    | nil => exact absurd hnames hne
    | cons name names =>
      refine List.map_congr_left fun n _ => ?_
      cases isKeyword with
      | true => exact String.append_assoc
      | false => exact String.append_empty

/-- A pair is under a name of the rule its literal stands in. -/
theorem name_mem_of_pair_mem_atoms {form : LiteralForm} {style : QueryStyle} {literal field value : String}
    (h : .pair field value ∈ form.atoms style literal) : field ∈ form.names := by
  cases form with
  | terms names =>
    obtain ⟨name, hname, heq⟩ := List.mem_map.1 h
    cases heq
    exact hname
  | freeText fields => simp [LiteralForm.atoms] at h

mutual

/-- The pairs of rules are under names that come up in them. -/
theorem name_mem_of_pair_mem_ruleAtomsIn {field value : String} :
    ∀ rs : List Rule, .pair field value ∈ c.ruleAtomsIn rs → field ∈ Rule.fieldNamesIn c.config.keywordSuffix rs
  | [], h => absurd h List.not_mem_nil
  | ⟨f, o, vs, k⟩ :: rs, h => by
    rw [ruleAtomsIn, ruleAtoms, List.mem_append] at h
    rw [Rule.fieldNamesIn, Rule.fieldNames_eq, List.mem_append]
    rcases h with h | h
    · have hne : vs ≠ [] := by
        rintro rfl
        exact List.not_mem_nil h
      rw [if_neg (by simpa using hne), List.mem_append]
      rcases name_mem_of_pair_mem_valueAtomsIn vs h with hinside | hown
      · exact Or.inl (Or.inl hinside)
      · exact Or.inl (Or.inr (names_literalForm_subset c _ hown))
    · exact Or.inr (name_mem_of_pair_mem_ruleAtomsIn rs h)

/-- The pairs of values are under names that come up in them or under those of the rule the values are of. -/
theorem name_mem_of_pair_mem_valueAtomsIn {form : LiteralForm} {field value : String} :
    ∀ vs : List Value, .pair field value ∈ c.valueAtomsIn form vs →
      field ∈ Value.fieldNamesIn c.config.keywordSuffix vs ∨ field ∈ form.names
  | [], h => absurd h List.not_mem_nil
  | .literal text :: vs, h => by
    rw [valueAtomsIn, valueAtoms, List.mem_append] at h
    rcases h with h | h
    · exact Or.inr (name_mem_of_pair_mem_atoms h)
    · exact name_mem_of_pair_mem_valueAtomsIn vs h
  | .group rs :: vs, h => by
    rw [valueAtomsIn, valueAtoms, List.mem_append] at h
    rw [Value.fieldNamesIn, Value.fieldNames, List.mem_append]
    rcases h with h | h
    · exact Or.inl (Or.inl (name_mem_of_pair_mem_ruleAtomsIn rs h))
    · exact (name_mem_of_pair_mem_valueAtomsIn vs h).imp_left Or.inr

end

mutual

/-- The atoms of a rule at any depth are among those of the rules around it. -/
theorem ruleAtoms_subset {r : Rule} : ∀ rs : List Rule, r ∈ Rule.partsIn rs → c.ruleAtoms r ⊆ c.ruleAtomsIn rs
  | [], h => absurd h List.not_mem_nil
  | ⟨f, o, vs, k⟩ :: rs, h => by
    rw [Rule.partsIn, Rule.parts, List.cons_append, List.mem_cons, List.mem_append] at h
    rw [ruleAtomsIn]
    rcases h with rfl | h | h
    · exact List.subset_append_left _ _
    · refine List.subset_append_of_subset_left _ ?_
      exact ruleAtoms_eq c ⟨f, o, vs, k⟩ ▸ ruleAtoms_subset_valueAtomsIn vs h
    · exact List.subset_append_of_subset_right _ (ruleAtoms_subset rs h)

theorem ruleAtoms_subset_valueAtomsIn {r : Rule} {form : LiteralForm} :
    ∀ vs : List Value, r ∈ Value.partsIn vs → c.ruleAtoms r ⊆ c.valueAtomsIn form vs
  | [], h => absurd h List.not_mem_nil
  | .literal text :: vs, h => by
    rw [Value.partsIn, Value.parts, List.nil_append] at h
    rw [valueAtomsIn]
    exact List.subset_append_of_subset_right _ (ruleAtoms_subset_valueAtomsIn vs h)
  | .group rs :: vs, h => by
    rw [Value.partsIn, Value.parts, List.mem_append] at h
    rw [valueAtomsIn, valueAtoms]
    rcases h with h | h
    · exact List.subset_append_of_subset_left _ (ruleAtoms_subset rs h)
    · exact List.subset_append_of_subset_right _ (ruleAtoms_subset_valueAtomsIn vs h)

end

/-- The atoms of a value are among those of the values it is one of. -/
theorem valueAtoms_subset {form : LiteralForm} {v : Value} {vs : List Value} (h : v ∈ vs) :
    c.valueAtoms form v ⊆ c.valueAtomsIn form vs := by
  induction vs with
  | nil => exact absurd h List.not_mem_nil
  | cons w vs ih =>
    rw [valueAtomsIn]
    rcases List.mem_cons.1 h with rfl | h
    · exact List.subset_append_left _ _
    · exact List.subset_append_of_subset_right _ (ih h)

/-- The atoms of a literal of a rule are among those of the rule. -/
theorem literal_atoms_subset {r : Rule} {literal : String} (h : literal ∈ r.literals) :
    (c.literalForm r).atoms c.config.queryStyle literal ⊆ c.ruleAtoms r := by
  obtain ⟨v, hv, htext⟩ := List.mem_filterMap.1 h
  cases v with
  | group rs => cases htext
  | literal text =>
    cases htext
    have hsub : c.valueAtoms (c.literalForm r) (.literal literal) ⊆ c.valueAtomsIn (c.literalForm r) r.values :=
      valueAtoms_subset hv
    rw [valueAtoms] at hsub
    rw [ruleAtoms_eq]
    exact hsub

/-- Where literals become pairs, a literal becomes a pair under each name of its rule. -/
theorem pair_mem_atoms_literalForm (hstyle : c.config.clauseStyle = .term) {r : Rule} {name : String}
    (hname : name ∈ r.names c.config.keywordSuffix) (literal : String) :
    .pair name literal ∈ (c.literalForm r).atoms c.config.queryStyle literal := by
  rw [literalForm, hstyle]
  cases hnames : r.names c.config.keywordSuffix with
  | nil => exact absurd (hnames ▸ hname) List.not_mem_nil
  | cons first others => exact List.mem_map_of_mem (hnames ▸ hname)

/-- Where they do not, a literal becomes a text with a pattern for each name of its rule. -/
theorem text_mem_atoms_literalForm (hstyle : c.config.clauseStyle = .queryString) {r : Rule} {name : String}
    (hname : name ∈ r.names c.config.keywordSuffix) (literal : String) :
    ∃ t : FreeText, "*" ++ name ∈ t.fields ∧ .text t ∈ (c.literalForm r).atoms c.config.queryStyle literal := by
  have hne : r.names c.config.keywordSuffix ≠ [] := List.ne_nil_of_mem hname
  have hform : c.literalForm r = .freeText (c.config.queryStyle.patterns r.field r.isKeyword) := by
    rw [literalForm, hstyle]
    cases hnames : r.names c.config.keywordSuffix with
    | nil => exact absurd hnames hne
    | cons first others => rfl
  rw [hform, patterns_eq_map_names c hne]
  exact ⟨_, List.mem_map_of_mem hname, List.mem_singleton_self _⟩

/-- The names of a composition are exact. None comes twice, and they are the names that come up in the rules, each where it comes up
first. Every field of a term object in the query, at whatever depth, is one of them. And for every name of a rule that has a
literal, at whatever depth, the query has a term object with that field where literals become pairs, and a free text with a pattern
for it where they do not. -/
theorem compose_fields_exact (h : c.compose rs = .ok done) :
    done.fields.Nodup ∧
      done.fields = (Rule.fieldNamesIn c.config.keywordSuffix rs).eraseDups ∧
      (∀ t, .term t ∈ done.query.parts → ∀ e ∈ t.entries, e.1 ∈ done.fields) ∧
      ∀ r ∈ Rule.partsIn rs, r.literals ≠ [] → ∀ name ∈ r.names c.config.keywordSuffix,
        (c.config.clauseStyle = .term → ∃ t, .term t ∈ done.query.parts ∧ t.has name = true) ∧
        (c.config.clauseStyle = .queryString → ∃ t, .freeText t ∈ done.query.parts ∧ "*" ++ name ∈ t.fields) := by
  have hfields := fields_compose h
  refine ⟨nodup_fields_compose h, hfields, fun t ht e he => ?_, fun r hr hliterals name hname => ?_⟩
  · have hatom : .pair e.1 e.2 ∈ done.query.atoms := (BoolQuery.pair_mem_atoms_iff _ _ _).2 ⟨t, ht, he⟩
    rw [mem_atoms_compose h] at hatom
    rw [hfields, List.mem_eraseDups]
    exact name_mem_of_pair_mem_ruleAtomsIn rs hatom
  · obtain ⟨literal, hliteral⟩ := List.exists_mem_of_ne_nil _ hliterals
    have hatoms : ∀ a ∈ (c.literalForm r).atoms c.config.queryStyle literal, a ∈ done.query.atoms := by
      intro a ha
      rw [mem_atoms_compose h]
      exact ruleAtoms_subset rs hr (literal_atoms_subset hliteral ha)
    constructor
    · intro hstyle
      have hpair := hatoms _ (pair_mem_atoms_literalForm hstyle hname literal)
      obtain ⟨t, ht, he⟩ := (BoolQuery.pair_mem_atoms_iff _ _ _).1 hpair
      exact ⟨t, ht, List.any_eq_true.2 ⟨_, he, beq_self_eq_true name⟩⟩
    · intro hstyle
      obtain ⟨t, hpattern, htext⟩ := text_mem_atoms_literalForm hstyle hname literal
      exact ⟨t, (BoolQuery.text_mem_atoms_iff _ t).1 (hatoms _ htext), hpattern⟩

/-- The names of a group come before those of the rule it is in; a rule of which nothing is left in the query is remembered, and one
without values is not. -/
theorem compose_fields_exact_group :
    ∃ done, ({} : Config).composer.compose [
        ⟨some (.many ["city", "zip"]), some .xor, [.literal "Paris", .group [
          ⟨some (.one "kind"), some .not, [.literal "page"], true⟩, ⟨some (.one "lang"), none, [.group []], false⟩]], false⟩,
        ⟨some (.one "tag"), some .and, [], false⟩,
        ⟨some (.many ["kind.keyword", "name"]), none, [.literal "x"], false⟩] = .ok done ∧
      done.fields = ["kind.keyword", "lang", "city", "zip", "name"] ∧
      (∀ t, .term t ∈ done.query.parts → ∀ e ∈ t.entries, e.1 ∈ done.fields) ∧
      ∃ t, .term t ∈ done.query.parts ∧ t.has "kind.keyword" = true := by
  obtain ⟨done, h⟩ := exists_eq_ok_of_isOk (x := ({} : Config).composer.compose [
    ⟨some (.many ["city", "zip"]), some .xor, [.literal "Paris", .group [
      ⟨some (.one "kind"), some .not, [.literal "page"], true⟩, ⟨some (.one "lang"), none, [.group []], false⟩]], false⟩,
    ⟨some (.one "tag"), some .and, [], false⟩,
    ⟨some (.many ["kind.keyword", "name"]), none, [.literal "x"], false⟩]) (by decide)
  obtain ⟨-, hfields, hobjects, hnames⟩ := compose_fields_exact h
  have hpart : (⟨some (.one "kind"), some .not, [.literal "page"], true⟩ : Rule) ∈ Rule.partsIn [
      ⟨some (.many ["city", "zip"]), some .xor, [.literal "Paris", .group [
        ⟨some (.one "kind"), some .not, [.literal "page"], true⟩, ⟨some (.one "lang"), none, [.group []], false⟩]], false⟩,
      ⟨some (.one "tag"), some .and, [], false⟩,
      ⟨some (.many ["kind.keyword", "name"]), none, [.literal "x"], false⟩] :=
    List.mem_cons_of_mem _ List.mem_cons_self
  refine ⟨done, h, hfields.trans (by decide), hobjects, ?_⟩
  exact (hnames _ hpart (List.cons_ne_nil _ _) "kind.keyword" (by decide)).1 rfl

end Composer

end SearchRules
