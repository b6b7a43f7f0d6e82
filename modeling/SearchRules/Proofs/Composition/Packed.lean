import SearchRules.Proofs.Clause.Pairs
import SearchRules.Proofs.Composition.Run
import SearchRules.Proofs.Rule.Reading

/-!
# The term objects of rules about fields

Rules that name fields and list literals put a pair of a field and a value in the scope of their operator for each literal under
each field name. Composed to term objects, they become the query for these pairs, packed scope by scope, and `Pairs.Harmless`
decides whether it means what the query with an object for each pair means: `compose_matches_iff_harmless`. Two NOT rules
about two fields are harmed: `compose_not_rules_matches_refused`.
-/

namespace SearchRules

namespace Composer

/-- The pairs of a rule: each of its literals under each of its field names, literal by literal. -/
def pairs (c : Composer) (r : Rule) : List (String × String) :=
  r.literals.flatMap fun literal => (r.names c.config.keywordSuffix).map fun field => (field, literal)

/-- The pairs that rules put in a scope. -/
def pairsIn (c : Composer) (s : Scope) (rs : List Rule) : List (String × String) :=
  (rs.filter fun r => r.scope == s).flatMap c.pairs

/-- The pairs that rules put in each scope. -/
def pairsOf (c : Composer) (rs : List Rule) : Pairs where
  must := c.pairsIn .must rs
  should := c.pairsIn .should rs
  mustNot := c.pairsIn .mustNot rs
  exclusive := rs.any fun r => r.operator == some .xor

/-- A rule that names a field and lists values, all of them literals. -/
structure AboutFields (c : Composer) (r : Rule) : Prop where
  names : r.names c.config.keywordSuffix ≠ []
  values : r.values ≠ []
  literals : ∀ v ∈ r.values, ∃ text, v = .literal text

variable {c : Composer} {r : Rule} {rs : List Rule}

/-! ## Composing pairs -/

theorem literalForm_term (hstyle : c.config.clauseStyle = .term) (h : r.names c.config.keywordSuffix ≠ []) :
    c.literalForm r = .terms (r.names c.config.keywordSuffix) := by
  obtain ⟨name, names, hn⟩ := List.exists_cons_of_ne_nil h
  rw [literalForm, hstyle, hn]

/-- Literals of term objects become pieces as they are. -/
theorem values_terms {names fields : List String} {vs : List Value} (h : ∀ v ∈ vs, ∃ text, v = .literal text) :
    c.values (.terms names) fields vs = .ok ((vs.filterMap Value.literal?).map .term, fields) := by
  induction vs with
  | nil => rw [values]; rfl
  | cons v vs ih =>
    obtain ⟨text, rfl⟩ := h v List.mem_cons_self
    exact values_cons_eq_ok.2 ⟨.term text, fields, _, by rw [value_literal]; rfl,
      ih fun v hv => h v (List.mem_cons_of_mem _ hv), rfl⟩

/-- The literals of a rule are placed pair by pair. -/
theorem landAll_terms (hform : c.literalForm r = .terms (r.names c.config.keywordSuffix)) (cs : List Clause) :
    c.landAll r (r.literals.map .term) cs =
      (c.pairs r).foldl (fun cs e => Clause.place c.config.termKey e.1 e.2 cs) cs := by
  have hland : ∀ (cs : List Clause) (literal : String),
      Piece.land c.config.termKey (r.names c.config.keywordSuffix) cs (.term literal) =
        ((r.names c.config.keywordSuffix).map fun field => (field, literal)).foldl
          (fun cs e => Clause.place c.config.termKey e.1 e.2 cs) cs := by
    intro cs literal
    rw [Piece.land, Clause.placeAll_eq_foldl, List.flatMap_singleton]
  simp only [landAll, hform, pairs, List.foldl_map, List.foldl_flatMap, hland]

theorem rule_aboutFields (hstyle : c.config.clauseStyle = .term) (h : c.AboutFields r) (d : Draft) :
    c.rule d r = .ok (c.addRule r d (r.literals.map .term) d.fields) := by
  rw [rule_eq, if_neg (by simpa using h.values), literalForm_term hstyle h.names, values_terms h.literals]
  rfl

/-- Rules about fields place their pairs in the scopes of a draft. -/
theorem rules_aboutFields (hstyle : c.config.clauseStyle = .term) (h : ∀ r ∈ rs, c.AboutFields r) (d : Draft) :
    ∃ d', c.rules d rs = .ok d' ∧ d'.query.minimumShouldMatch = d.query.minimumShouldMatch ∧
      d'.exclusive = (d.exclusive || (c.pairsOf rs).exclusive) ∧
      ∀ s, d'.query.clauses s =
        (c.pairsIn s rs).foldl (fun cs e => Clause.place c.config.termKey e.1 e.2 cs) (d.query.clauses s) := by
  induction rs generalizing d with
  | nil =>
    refine ⟨d, by rw [rules], rfl, ?_, fun s => rfl⟩
    simp [pairsOf]
  | cons r rs ih =>
    have hr := h r List.mem_cons_self
    obtain ⟨d', hd, hm, hx, hs⟩ := ih (fun r' hr' => h r' (List.mem_cons_of_mem r hr'))
      (c.addRule r d (r.literals.map .term) d.fields)
    refine ⟨d', ?_, ?_, ?_, ?_⟩
    · rw [rules_cons, rule_aboutFields hstyle hr]
      exact hd
    · rw [hm, addRule, BoolQuery.minimumShouldMatch_modify]
    · rw [hx, addRule, pairsOf, pairsOf, List.any_cons, Bool.or_assoc]
    · intro s
      rw [hs, addRule, BoolQuery.clauses_modify, pairsIn, pairsIn, List.filter_cons]
      by_cases hscope : r.scope = s
      · rw [if_pos hscope, if_pos (beq_iff_eq.2 hscope), List.flatMap_cons, List.foldl_append,
          landAll_terms (literalForm_term hstyle hr.names)]
      · rw [if_neg hscope, if_neg (by simpa using hscope)]

/-- Rules about fields are composed to the query for their pairs, packed. -/
theorem compose_aboutFields (hstyle : c.config.clauseStyle = .term) (h : ∀ r ∈ rs, c.AboutFields r) :
    ∃ done, c.compose rs = .ok done ∧
      done.query = (c.pairsOf rs).query c.config.termKey c.config.xorStrategy Packing.objects := by
  obtain ⟨d, hd, hm, hx, hs⟩ := rules_aboutFields hstyle h {}
  refine ⟨d.finish c.config.xorStrategy, by rw [compose, hd]; rfl, ?_⟩
  have hq : d.query = {
      must := (Packing.objects (c.pairsOf rs).must).map fun o => .term ⟨c.config.termKey, o⟩
      should := (Packing.objects (c.pairsOf rs).should).map fun o => .term ⟨c.config.termKey, o⟩
      mustNot := (Packing.objects (c.pairsOf rs).mustNot).map fun o => .term ⟨c.config.termKey, o⟩ } := by
    have hmust := hs .must
    have hshould := hs .should
    have hnot := hs .mustNot
    obtain ⟨⟨must, should, mustNot, m⟩, fields, exclusive⟩ := d
    simp only [BoolQuery.clauses, Packing.foldl_place_nil] at hmust hshould hnot hm
    rw [hmust, hshould, hnot, hm]
    rfl
  rw [Draft.finish, Pairs.query, hx, hq, Bool.false_or]

/-! ## Rules of one operator -/

/-- Rules of one scope put their pairs there and nowhere else. -/
theorem pairsIn_of_scope {s : Scope} (h : ∀ r ∈ rs, r.scope = s) (s' : Scope) :
    c.pairsIn s' rs = if s = s' then rs.flatMap c.pairs else [] := by
  by_cases hs : s = s'
  · rw [if_pos hs, pairsIn, List.filter_eq_self.2 fun r hr => beq_iff_eq.2 ((h r hr).trans hs)]
  · rw [if_neg hs, pairsIn, List.filter_eq_nil_iff.2 fun r hr => by simpa [h r hr] using hs]
    rfl

theorem pairs_ne_nil (h : c.AboutFields r) : c.pairs r ≠ [] := by
  obtain ⟨v, vs, hv⟩ := List.exists_cons_of_ne_nil h.values
  obtain ⟨name, names, hn⟩ := List.exists_cons_of_ne_nil h.names
  obtain ⟨text, rfl⟩ := h.literals v (hv ▸ List.mem_cons_self)
  simp [pairs, Rule.literals, hv, hn, Value.literal?]

/-- Exclusive rules have alternatives. -/
theorem should_ne_nil_of_exclusive (h : ∀ r ∈ rs, c.AboutFields r) (hx : (c.pairsOf rs).exclusive = true) :
    (c.pairsOf rs).should ≠ [] := by
  obtain ⟨r, hr, hop⟩ := List.any_eq_true.1 hx
  rw [beq_iff_eq] at hop
  have hscope : r.scope = .should := by rw [Rule.scope, hop]; rfl
  obtain ⟨e, he⟩ := List.exists_mem_of_ne_nil _ (pairs_ne_nil (h r hr))
  exact List.ne_nil_of_mem
    (List.mem_flatMap.2 ⟨r, List.mem_filter.2 ⟨hr, beq_iff_eq.2 hscope⟩, he⟩)

/-- Rules of one scope are packed without harm if it is `must`, or if they are about one field. -/
theorem harmless_iff_of_scope (h : ∀ r ∈ rs, c.AboutFields r) {s : Scope} (hs : ∀ r ∈ rs, r.scope = s) :
    (c.pairsOf rs).Harmless ↔ s = .must ∨ Pairs.OneField (rs.flatMap c.pairs) := by
  have hin := pairsIn_of_scope (c := c) hs
  cases s with
  | must =>
    have hharmless : (c.pairsOf rs).Harmless := Pairs.harmless_of_must (hin .should) (hin .mustNot)
    simp [hharmless]
  | should =>
    have hshould : (c.pairsOf rs).should = rs.flatMap c.pairs := hin .should
    rw [Pairs.harmless_iff_of_should (hin .must) (hin .mustNot), hshould]
    simp
  | mustNot =>
    have hnot : (c.pairsOf rs).mustNot = rs.flatMap c.pairs := hin .mustNot
    rw [Pairs.harmless_iff_of_mustNot (hin .must) (hin .should) (should_ne_nil_of_exclusive h), hnot]
    simp

/-- Rules of one operator are packed without harm if it is AND, or none, or if they are about one field. -/
theorem harmless_iff_of_operator (h : ∀ r ∈ rs, c.AboutFields r) {op : Option Operator}
    (hop : ∀ r ∈ rs, r.operator = op) : (c.pairsOf rs).Harmless ↔
      (op = none ∨ op = some .and) ∨ Pairs.OneField (rs.flatMap c.pairs) := by
  have hmust : Rule.scope { operator := op } = .must ↔ op = none ∨ op = some .and := by
    rcases op with _ | op
    · simp [Rule.scope]
    · cases op <;> simp [Rule.scope, Operator.scope]
  rw [harmless_iff_of_scope h (s := Rule.scope { operator := op }) fun r hr => by rw [Rule.scope, hop r hr, Rule.scope],
    hmust]

/-- Rules about fields are composed to the query for their pairs, packed; it matches what the query with an object for each pair
does exactly where packing is harmless. For rules of one operator it is if the operator is AND, or none, and for OR, NOT and XOR
only if they are about one field. -/
theorem compose_matches_iff_harmless (hstyle : c.config.clauseStyle = .term) (hxor : c.config.xorStrategy = .emulate)
    (h : ∀ r ∈ rs, c.AboutFields r) : ∃ done, c.compose rs = .ok done ∧
      done.query = (c.pairsOf rs).query c.config.termKey .emulate Packing.objects ∧
      ((∀ doc, done.query.matches doc =
        ((c.pairsOf rs).query c.config.termKey .emulate Pairs.singles).matches doc) ↔ (c.pairsOf rs).Harmless) ∧
      ∀ op, (∀ r ∈ rs, r.operator = op) → ((c.pairsOf rs).Harmless ↔
        (op = none ∨ op = some .and) ∨ Pairs.OneField (rs.flatMap c.pairs)) := by
  obtain ⟨done, hdone, hq⟩ := compose_aboutFields hstyle h
  rw [hxor] at hq
  have hx := should_ne_nil_of_exclusive h
  refine ⟨done, hdone, hq, ?_, fun op hop => harmless_iff_of_operator h hop⟩
  rw [hq]
  exact ⟨Pairs.harmless_of_matches_eq hx, fun hh doc => hh.matches_eq hx c.config.termKey doc⟩

/-- NOT rules about one field refuse each of their values, though it takes two objects to hold them. -/
theorem compose_not_rules_of_one_field :
    ∃ done, ({ clauseStyle := .term } : Config).composer.compose [
        ⟨some (.one "status"), some .not, [.literal "draft"], false⟩,
        ⟨some (.many ["status"]), some .not, [.literal "deleted"], false⟩] = .ok done ∧
      ∀ doc, done.query.matches doc = (Pairs.query .term .emulate Pairs.singles
        { mustNot := [("status", "draft"), ("status", "deleted")] }).matches doc := by
  have h : ∀ r ∈ ([⟨some (.one "status"), some .not, [.literal "draft"], false⟩,
      ⟨some (.many ["status"]), some .not, [.literal "deleted"], false⟩] : List Rule),
      ({ clauseStyle := .term } : Config).composer.AboutFields r := by
    intro r hr
    rcases List.mem_pair.1 hr with rfl | rfl
    · exact ⟨by decide, nofun, by simp⟩
    · exact ⟨by decide, nofun, by simp⟩
  obtain ⟨done, hdone, -, hiff, hop⟩ := compose_matches_iff_harmless rfl rfl h
  refine ⟨done, hdone, hiff.2 ((hop (some .not) ?_).2 (Or.inr ?_))⟩
  · simp
  · rintro e he a ha
    have hall : ∀ e ∈ [("status", "draft"), ("status", "deleted")], e.1 = "status" := by decide
    exact (hall e he).trans (hall a ha).symm

/-- Two NOT rules about two fields let through a document that one of them refuses: their pairs share an object. -/
theorem compose_not_rules_matches_refused :
    ∃ done, ({ clauseStyle := .term } : Config).composer.compose [
        ⟨some (.one "status"), some .not, [.literal "draft"], false⟩,
        ⟨some (.one "kind"), some .not, [.literal "page"], false⟩] = .ok done ∧
      done.query.matches (.ofPairs [("status", "draft")]) = true ∧
      (Pairs.query .term .emulate Pairs.singles { mustNot := [("status", "draft"), ("kind", "page")] }).matches
        (.ofPairs [("status", "draft")]) = false :=
  ⟨⟨{ mustNot := [.term ⟨.term, [("status", "draft"), ("kind", "page")]⟩] }, ["status", "kind"]⟩,
    rfl, by decide, by decide⟩

end Composer

end SearchRules
