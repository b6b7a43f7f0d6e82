import SearchRules.Proofs.Composition.Atoms
import SearchRules.Proofs.Composition.Refusal

/-!
# Bare wildcards in query documents

The free texts of a query document are the query texts of the free-text literals of its request. None of these literals has a token
made only of wildcards, or the request would have been refused, but a star put behind a literal that ends with a blank character is
such a token: `compile_bareWildcard_iff`.
-/

namespace SearchRules

/-- The query text of a literal. -/
def Config.queryText (c : Config) (literal : String) : String :=
  String.ofList (c.queryStyle.queryChars literal.toList)

namespace Composer

theorem filterMap_query?_atoms (c : Composer) (form : LiteralForm) (literal : String) :
    (form.atoms c.config.queryStyle literal).filterMap Atom.query? =
      (if form.isFreeText then [literal] else []).map c.config.queryText := by
  cases form with
  | terms names =>
    rw [LiteralForm.atoms, LiteralForm.isFreeText, if_neg Bool.false_ne_true, List.filterMap_map, List.map_nil,
      List.filterMap_eq_nil_iff]
    exact fun _ _ => rfl
  | freeText fields => rfl

mutual

/-- The free texts among the atoms of rules are the query texts of their free-text literals, in order. -/
theorem filterMap_query?_ruleAtomsIn (c : Composer) : ∀ rs : List Rule,
    (c.ruleAtomsIn rs).filterMap Atom.query? = (Rule.freeLiteralsIn c.config.clauseStyle rs).map c.config.queryText
  | [] => rfl
  | ⟨field, operator, vs, isKeyword⟩ :: rs => by
    rw [ruleAtomsIn, ruleAtoms, List.filterMap_append, filterMap_query?_valueAtomsIn c vs, filterMap_query?_ruleAtomsIn c rs,
      isFreeText_literalForm, Rule.freeLiteralsIn, Rule.freeLiterals, List.map_append]

/-- The free texts among the atoms of values are the query texts of their free-text literals, in order. -/
theorem filterMap_query?_valueAtomsIn (c : Composer) : ∀ (vs : List Value) (form : LiteralForm),
    (c.valueAtomsIn form vs).filterMap Atom.query? =
      (Value.freeLiteralsIn c.config.clauseStyle form.isFreeText vs).map c.config.queryText
  | [], form => rfl
  | .literal text :: vs, form => by
    rw [valueAtomsIn, valueAtoms, List.filterMap_append, filterMap_query?_atoms, filterMap_query?_valueAtomsIn c vs,
      Value.freeLiteralsIn, Value.freeLiterals, List.map_append]
  | .group rs :: vs, form => by
    rw [valueAtomsIn, valueAtoms, List.filterMap_append, filterMap_query?_ruleAtomsIn c rs, filterMap_query?_valueAtomsIn c vs,
      Value.freeLiteralsIn, Value.freeLiterals, List.map_append]

end

end Composer

variable {c : Config} {r : SearchRequest} {doc : QueryDocument}

/-- A request that is compiled has no free-text literal with a bare wildcard. -/
theorem hasBareWildcard_of_compile (h : compile c r = .ok doc) {literal : String}
    (hl : literal ∈ Rule.freeLiteralsIn c.clauseStyle r.rules) : hasBareWildcard literal.toList = false := by
  rw [← Bool.not_eq_true]
  intro hbare
  obtain ⟨e, he⟩ := (exists_firstRefusal_iff _).2 ⟨literal, hl, hbare⟩
  rw [← error?_compile, h] at he
  exact absurd he nofun

/-- The free texts of a query document are the query texts of the free-text literals of its request. -/
theorem exists_text_compile_iff (h : compile c r = .ok doc) (p : String → Prop) :
    (∃ t, .text t ∈ doc.query.atoms ∧ p t.query) ↔ ∃ literal ∈ Rule.freeLiteralsIn c.clauseStyle r.rules,
      p (c.queryText literal) := by
  have htexts : ((c.composer (r.params.usedFields.getD [])).ruleAtomsIn r.rules).filterMap Atom.query? =
      (Rule.freeLiteralsIn c.clauseStyle r.rules).map c.queryText :=
    Composer.filterMap_query?_ruleAtomsIn _ r.rules
  have hmem : ∀ query, (∃ t, .text t ∈ doc.query.atoms ∧ t.query = query) ↔
      query ∈ (Rule.freeLiteralsIn c.clauseStyle r.rules).map c.queryText := by
    intro query
    rw [← htexts, List.mem_filterMap]
    constructor
    · rintro ⟨t, ht, rfl⟩
      exact ⟨.text t, (mem_atoms_compile h _).1 ht, rfl⟩
    · rintro ⟨a, ha, hq⟩
      cases a with
      | pair field value => exact absurd hq nofun
      | text t => exact ⟨t, (mem_atoms_compile h _).2 ha, Option.some.inj hq⟩
  constructor
  · rintro ⟨t, ht, hp⟩
    obtain ⟨literal, hl, hq⟩ := List.mem_map.1 ((hmem t.query).1 ⟨t, ht, rfl⟩)
    exact ⟨literal, hl, hq ▸ hp⟩
  · rintro ⟨literal, hl, hp⟩
    obtain ⟨t, ht, hq⟩ := (hmem _).2 (List.mem_map_of_mem hl)
    exact ⟨t, ht, hq ▸ hp⟩

/-- A query document searches for a bare wildcard exactly when query texts are open-ended and a free-text literal of its request
ends with a blank character. -/
theorem compile_bareWildcard_iff (h : compile c r = .ok doc) :
    (∃ t, .text t ∈ doc.query.atoms ∧ ∃ token ∈ tokens t.query.toList, token.all isWildcard = true) ↔
      c.openEnded = true ∧ ∃ literal ∈ Rule.freeLiteralsIn c.clauseStyle r.rules, endsBlank literal.toList = true := by
  have hbare : ∀ text : String, (∃ token ∈ tokens text.toList, token.all isWildcard = true) ↔
      hasBareWildcard text.toList = true := fun text => List.any_eq_true.symm
  simp only [hbare]
  rw [exists_text_compile_iff h fun query => hasBareWildcard query.toList = true]
  simp only [Config.queryText, String.toList_ofList]
  constructor
  · rintro ⟨literal, hl, hq⟩
    rw [hasBareWildcard_queryChars _ (hasBareWildcard_of_compile h hl), Bool.and_eq_true] at hq
    exact ⟨hq.1, literal, hl, hq.2⟩
  · rintro ⟨hopen, literal, hl, hblank⟩
    refine ⟨literal, hl, ?_⟩
    rw [hasBareWildcard_queryChars _ (hasBareWildcard_of_compile h hl), Bool.and_eq_true]
    exact ⟨hopen, hblank⟩

/-- Literals of an exclusive rule, of a group and of nested paths, none of which ends with a blank character. -/
theorem compile_no_bareWildcard :
    ∃ doc, compile { openEnded := true, mapping := [.branch "author" [.leaf "author.city"]] }
        { query := { rules := some [
          ⟨none, some .xor, [.literal " rust", .literal "go*"], false⟩,
          ⟨none, none, [.group [⟨none, some .not, [.literal "a ?b"], false⟩], .literal ""], false⟩] } } = .ok doc ∧
      ¬ ∃ t, .text t ∈ doc.query.atoms ∧ ∃ token ∈ tokens t.query.toList, token.all isWildcard = true := by
  obtain ⟨doc, h⟩ := exists_eq_ok_of_isOk
    (x := compile { openEnded := true, mapping := [.branch "author" [.leaf "author.city"]] }
      { query := { rules := some [
        ⟨none, some .xor, [.literal " rust", .literal "go*"], false⟩,
        ⟨none, none, [.group [⟨none, some .not, [.literal "a ?b"], false⟩], .literal ""], false⟩] } }) (by decide)
  refine ⟨doc, h, ?_⟩
  rw [compile_bareWildcard_iff h]
  decide

/-- A literal that ends with a space, searched for with a star put behind it, makes the star a token of its own. -/
theorem compile_star_behind_blank :
    ∃ doc, compile { openEnded := true } { query := { rules := some [⟨none, none, [.literal "rust "], false⟩] } } = .ok doc ∧
      .text ⟨"rust *", ["*"]⟩ ∈ doc.query.atoms ∧ ['*'] ∈ tokens "rust *".toList ∧ ['*'].all isWildcard = true := by
  obtain ⟨doc, h⟩ := exists_eq_ok_of_isOk
    (x := compile { openEnded := true } { query := { rules := some [⟨none, none, [.literal "rust "], false⟩] } }) (by decide)
  refine ⟨doc, h, ?_, by decide, by decide⟩
  rw [mem_atoms_compile h]
  decide

end SearchRules
