import SearchRules.Compile
import SearchRules.Proofs.Clause.TermKeys
import SearchRules.Proofs.Composition.Run

/-!
# Documents under the other term key

Two compositions that are given configurations with different term keys, and nothing else different, stay in step: what one makes at
any step is what the other makes, with the keys changed. A piece that lands keeps them in step (`Piece.land_rekey`), a rule that is
added does (`addRule_rekey`), and so does a whole list of rules with all its groups (`rules_rekey`). The query document of a request
is then the same but for the keys: `compile_rekey`.
-/

namespace SearchRules

/-- A piece with the key of every term object in it changed. -/
def Piece.rekey (σ : TermKey → TermKey) : Piece → Piece
  | .term literal => .term literal
  | .freeText c => .freeText (c.rekey σ)
  | .group q => .group (q.rekey σ)

/-- A draft with the key of every term object in it changed. -/
def Draft.rekey (σ : TermKey → TermKey) (d : Draft) : Draft :=
  { d with query := d.query.rekey σ }

/-- A composition with the key of every term object in it changed. -/
def Composition.rekey (σ : TermKey → TermKey) (done : Composition) : Composition :=
  { done with query := done.query.rekey σ }

/-- A query document with the key of every term object in its query changed. -/
def QueryDocument.rekey (σ : TermKey → TermKey) (d : QueryDocument) : QueryDocument :=
  { d with query := d.query.rekey σ }

/-- A configuration with another term key. -/
def Config.rekey (σ : TermKey → TermKey) (c : Config) : Config :=
  { c with termKey := σ c.termKey }

/-- A composer with another term key. -/
def Composer.rekey (σ : TermKey → TermKey) (c : Composer) : Composer :=
  { c with config := c.config.rekey σ }

variable (σ : TermKey → TermKey)

/-! ## Pieces -/

namespace Piece

theorem groupClause?_rekey (p : Piece) : (p.rekey σ).groupClause? = p.groupClause?.map (Clause.rekey σ) := by
  cases p with
  | term literal => rfl
  | freeText c => rfl
  | group q =>
    rw [rekey, groupClause?, groupClause?, BoolQuery.isEmpty_rekey]
    split
    · rfl
    · rw [Option.map_some, Clause.rekey]

theorem textClause?_rekey (p : Piece) : (p.rekey σ).textClause? = p.textClause?.map (Clause.rekey σ) := by
  cases p <;> rfl

theorem isGroup_rekey (p : Piece) : (p.rekey σ).isGroup = p.isGroup := by
  cases p <;> rfl

/-- A piece lands in the same place whatever the keys are. -/
theorem land_rekey (key : TermKey) (names : List String) (cs : List Clause) (p : Piece) :
    land (σ key) names (cs.map (Clause.rekey σ)) (p.rekey σ) = (land key names cs p).map (Clause.rekey σ) := by
  cases p with
  | term literal => exact Clause.placeAll_rekey σ key names [literal] cs
  | freeText c => rw [rekey, land, land, List.map_append, List.map_singleton]
  | group q =>
    have hclause := groupClause?_rekey σ (.group q)
    rw [rekey] at hclause ⊢
    rw [land, land, hclause, List.map_append, Option.toList_map]

theorem foldl_land_rekey (key : TermKey) (names : List String) (pieces : List Piece) (cs : List Clause) :
    (pieces.map (rekey σ)).foldl (land (σ key) names) (cs.map (Clause.rekey σ)) =
      (pieces.foldl (land key names) cs).map (Clause.rekey σ) := by
  rw [List.foldl_map]
  exact List.foldl_hom _ fun cs p => land_rekey σ key names cs p

theorem filterMap_rekey {f : Piece → Option Clause} (h : ∀ p, f (p.rekey σ) = (f p).map (Clause.rekey σ)) (pieces : List Piece) :
    (pieces.map (rekey σ)).filterMap f = (pieces.filterMap f).map (Clause.rekey σ) := by
  rw [List.filterMap_map, List.map_filterMap]
  exact congrArg (List.filterMap · pieces) (funext h)

/-- The disjunction of texts stands in the same place among the groups. -/
theorem disjunction_rekey (pieces : List Piece) :
    disjunction (pieces.map (rekey σ)) = (disjunction pieces).map (Clause.rekey σ) := by
  have hgroup : isGroup ∘ rekey σ = isGroup := funext (isGroup_rekey σ)
  simp only [disjunction, List.takeWhile_map, List.dropWhile_map, hgroup, filterMap_rekey σ (groupClause?_rekey σ),
    filterMap_rekey σ (textClause?_rekey σ), Clause.anyOf_rekey, Option.toList_map, List.map_append]

end Piece

/-! ## Rules -/

namespace Composer

variable (c : Composer)

/-- How literals are searched for has nothing to do with the key. -/
theorem literalForm_rekey (r : Rule) : (c.rekey σ).literalForm r = c.literalForm r := rfl

theorem literalPiece_rekey (form : LiteralForm) (literal : String) :
    (c.rekey σ).literalPiece form literal = (c.literalPiece form literal).map (Piece.rekey σ) := by
  cases form with
  | terms names => rfl
  | freeText fields =>
    have hstyle : (c.rekey σ).config.queryStyle = c.config.queryStyle := rfl
    rw [literalPiece, literalPiece, hstyle, QueryStyle.clause]
    cases checkLiteral literal with
    | error e => rfl
    | ok u => rfl

theorem landAll_rekey (r : Rule) (pieces : List Piece) (cs : List Clause) :
    (c.rekey σ).landAll r (pieces.map (Piece.rekey σ)) (cs.map (Clause.rekey σ)) =
      (c.landAll r pieces cs).map (Clause.rekey σ) := by
  have hkey : (c.rekey σ).config.termKey = σ c.config.termKey := rfl
  rw [landAll, landAll, literalForm_rekey, hkey]
  cases c.literalForm r with
  | terms names => exact Piece.foldl_land_rekey σ c.config.termKey names pieces cs
  | freeText fields =>
    cases r.operator with
    | some op => exact Piece.foldl_land_rekey σ c.config.termKey [] pieces cs
    | none =>
      show _ ++ _ = List.map _ (_ ++ _)
      rw [Piece.disjunction_rekey, List.map_append]

/-- A rule is added to two drafts that differ in their keys so that they differ in nothing else again. -/
theorem addRule_rekey (r : Rule) (d : Draft) (pieces : List Piece) (fields : List String) :
    (c.rekey σ).addRule r (d.rekey σ) (pieces.map (Piece.rekey σ)) fields = (c.addRule r d pieces fields).rekey σ := by
  rw [addRule, addRule, Draft.rekey, Draft.rekey]
  simp only [BoolQuery.modify_rekey σ (c.landAll_rekey σ r pieces)]
  rfl

theorem finish_rekey (strategy : XorStrategy) (d : Draft) : (d.rekey σ).finish strategy = (d.finish strategy).rekey σ := by
  rw [Draft.finish, Draft.finish, Draft.rekey, Composition.rekey]
  cases d.exclusive with
  | false => rfl
  | true => simp only [if_true, BoolQuery.exclusive_rekey]

mutual

/-- Two compositions of the same rules, from drafts that differ in their keys, fail alike or lead to drafts that differ in their
keys. -/
theorem rules_rekey : ∀ (rs : List Rule) (d : Draft), (c.rekey σ).rules (d.rekey σ) rs = (c.rules d rs).map (Draft.rekey σ)
  | [], d => by
    rw [rules, rules]
    rfl
  | ⟨field, operator, vs, isKeyword⟩ :: rs, d => by
    rw [rules_cons, rules_cons, rule_eq, rule_eq]
    by_cases hv : vs.isEmpty = true
    · rw [if_pos hv, if_pos hv]
      exact rules_rekey rs d
    · rw [if_neg hv, if_neg hv, literalForm_rekey, Draft.rekey, values_rekey vs]
      cases c.values (c.literalForm ⟨field, operator, vs, isKeyword⟩) d.fields vs with
      | error e => rfl
      | ok x =>
        have hadd := c.addRule_rekey σ ⟨field, operator, vs, isKeyword⟩ d x.1 x.2
        show (c.rekey σ).rules ((c.rekey σ).addRule _ (d.rekey σ) (x.1.map (Piece.rekey σ)) x.2) rs = _
        rw [hadd, rules_rekey rs]
        rfl

/-- The same values become pieces that differ in their keys. -/
theorem values_rekey : ∀ (vs : List Value) (form : LiteralForm) (fields : List String),
    (c.rekey σ).values form fields vs = (c.values form fields vs).map fun x => (x.1.map (Piece.rekey σ), x.2)
  | [], form, fields => by
    rw [values, values]
    rfl
  | v :: vs, form, fields => by
    rw [values_cons, values_cons, value_rekey v]
    cases c.value form fields v with
    | error e => rfl
    | ok x =>
      show ((c.rekey σ).values form x.2 vs >>= fun y => .ok (x.1.rekey σ :: y.1, y.2)) = _
      rw [values_rekey vs]
      show _ = Except.map _ (c.values form x.2 vs >>= fun y => .ok (x.1 :: y.1, y.2))
      cases c.values form x.2 vs with
      | error e => rfl
      | ok y => rfl

theorem value_rekey : ∀ (v : Value) (form : LiteralForm) (fields : List String),
    (c.rekey σ).value form fields v = (c.value form fields v).map fun x => (x.1.rekey σ, x.2)
  | .literal text, form, fields => by
    rw [value_literal, value_literal, literalPiece_rekey]
    cases c.literalPiece form text with
    | error e => rfl
    | ok piece => rfl
  | .group rs, form, fields => by
    have hgroup : (c.rekey σ).rules { fields } rs = (c.rules { fields } rs).map (Draft.rekey σ) := rules_rekey rs { fields }
    have hstrategy : (c.rekey σ).config.xorStrategy = c.config.xorStrategy := rfl
    rw [value_group, value_group, hgroup, hstrategy]
    cases c.rules { fields } rs with
    | error e => rfl
    | ok d =>
      show Except.ok (Piece.group ((d.rekey σ).finish c.config.xorStrategy).query, d.fields) = _
      rw [finish_rekey]
      rfl

end

theorem compose_rekey (rs : List Rule) : (c.rekey σ).compose rs = (c.compose rs).map (Composition.rekey σ) := by
  have hrules : (c.rekey σ).rules {} rs = (c.rules {} rs).map (Draft.rekey σ) := rules_rekey σ c rs {}
  have hstrategy : (c.rekey σ).config.xorStrategy = c.config.xorStrategy := rfl
  rw [compose, compose, hrules, hstrategy]
  cases c.rules {} rs with
  | error e => rfl
  | ok d => exact congrArg Except.ok (finish_rekey σ c.config.xorStrategy d)

end Composer

/-! ## Documents -/

theorem Config.queryClause_rekey (c : Config) (q : BoolQuery) :
    (c.rekey σ).queryClause (q.rekey σ) = (c.queryClause q).rekey σ := by
  have hmapping : (c.rekey σ).mapping = c.mapping := rfl
  have hhits : (c.rekey σ).innerHits = c.innerHits := rfl
  have hhighlight : (c.rekey σ).highlight = c.highlight := rfl
  rw [queryClause, queryClause, hmapping, hhits, hhighlight]
  split
  · rw [Clause.rekey]
  · rw [BoolQuery.expand_rekey, Clause.rekey]

/-- Under another key a request is refused as before, or its document is the one it was but for the keys. -/
theorem compile_rekey (c : Config) (r : SearchRequest) : compile (c.rekey σ) r = (compile c r).map (QueryDocument.rekey σ) := by
  have hcomposer : (c.rekey σ).composer (r.params.usedFields.getD []) = (c.composer (r.params.usedFields.getD [])).rekey σ := rfl
  rw [compile, compile, hcomposer, Composer.compose_rekey]
  cases (c.composer (r.params.usedFields.getD [])).compose r.rules with
  | error e => rfl
  | ok done =>
    show Except.ok (QueryDocument.mk _ ((c.rekey σ).queryClause (done.query.rekey σ)) _ _) = _
    rw [Config.queryClause_rekey]
    rfl

/-- Every term object in the query of a document has the key of the configuration. -/
theorem key_of_mem_parts_compile {c : Config} {r : SearchRequest} {d : QueryDocument} (h : compile c r = .ok d) :
    ∀ t, .term t ∈ d.query.parts → t.key = c.termKey := by
  intro t ht
  -- a key changed to the configured one is the same configuration, so nothing in the document changes either
  have hsame := compile_rekey (fun _ => c.termKey) c r
  rw [show c.rekey (fun _ => c.termKey) = c from rfl, h] at hsame
  have hd : d = d.rekey fun _ => c.termKey := Except.ok.inj hsame
  rw [hd] at ht
  exact Clause.key_of_mem_parts_rekey ht

/-- Let two configurations differ in the term key and in nothing else. They refuse the same requests, for the same literal and the
same token. For any other request each makes a document: every term object in the query of either, at whatever depth, has the key of
its configuration, and with the keys changed to the other one the one query is the other. The highlight specification, the sorts, the
index, the size and the offset are the same. -/
theorem compile_other_key {c c' : Config} (hkey : c'.termKey ≠ c.termKey) (hsame : c' = { c with termKey := c'.termKey })
    (r : SearchRequest) :
    (∀ e, compile c r = .error e ↔ compile c' r = .error e) ∧
      ∀ d, compile c r = .ok d → ∃ d', compile c' r = .ok d' ∧
        (∀ t, .term t ∈ d.query.parts → t.key = c.termKey) ∧ (∀ t, .term t ∈ d'.query.parts → t.key = c'.termKey) ∧
        d'.query = d.query.rekey TermKey.other ∧ d'.highlight = d.highlight ∧ d'.sorts = d.sorts ∧ d'.paging = d.paging := by
  have hother : c' = c.rekey TermKey.other := by
    rw [hsame, TermKey.eq_other_of_ne hkey]
    rfl
  have hcompile := compile_rekey TermKey.other c r
  rw [← hother] at hcompile
  constructor
  · intro e
    rw [hcompile]
    cases compile c r <;> simp [Except.map]
  · intro d hd
    have hd' : compile c' r = .ok (d.rekey TermKey.other) := by
      rw [hcompile, hd]
      rfl
    exact ⟨_, hd', key_of_mem_parts_compile hd, key_of_mem_parts_compile hd', rfl, rfl, rfl, rfl⟩

/-- Alternatives of which one is a group, under two nested paths. Three copies of the query have five term objects each: one that has to
match, and those of the two alternatives, which stand a second time behind the negation. -/
theorem compile_other_key_exclusive_group :
    let c : Config := { mapping := [.branch "sites" [.leaf "sites.contacts"]] }
    let c' : Config := { c with termKey := .terms }
    let r : SearchRequest := { query := { rules := some [
      ⟨some (.one "city"), some .xor, [.literal "Paris", .group [⟨some (.one "kind"), some .not, [.literal "page"], true⟩]], false⟩,
      ⟨some (.one "lang"), none, [.literal "fr"], false⟩] } }
    ∃ d d', compile c r = .ok d ∧ compile c' r = .ok d' ∧ d.query.parts.countP Clause.isTerm = 15 ∧
      (∀ t, .term t ∈ d.query.parts → t.key = .term) ∧ (∀ t, .term t ∈ d'.query.parts → t.key = .terms) ∧
      d'.query = d.query.rekey TermKey.other ∧ d'.highlight = d.highlight ∧ d'.sorts = d.sorts ∧ d'.paging = d.paging := by
  intro c c' r
  have hkey : c'.termKey ≠ c.termKey := nofun
  obtain ⟨d, hd⟩ := exists_eq_ok_of_isOk (x := compile c r) (by decide)
  obtain ⟨d', hd', h⟩ := (compile_other_key hkey rfl r).2 d hd
  have hcount : d.query.parts.countP Clause.isTerm = 15 := by
    cases hd
    decide
  exact ⟨d, d', hd, hd', hcount, h⟩

end SearchRules
