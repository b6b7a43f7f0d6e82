import SearchRules.Proofs.Composition.Atoms
import SearchRules.Proofs.Composition.Packed
import SearchRules.Proofs.Composition.Scopes

/-!
# The scopes of a composed query, clause by clause

With literals of named fields composed to term objects, a scope holds the tiers of its pairs, each in one object, and besides them
the other clauses of its rules, in the order of the rules: `compose_scope_eq_tiers`.

A rule places its pairs as if its scope held term objects only, and adds its other clauses as if it held none (`Clause.Gains`). So
the two kinds are followed apart, however they come to stand among each other.
-/

namespace SearchRules

namespace Clause

/-- What a scope gains: some pairs, placed among its term objects, and some other clauses, behind those it has. -/
structure Gains (key : TermKey) (pairs : List (String × String)) (others cs cs' : List Clause) : Prop where
  terms : cs'.filter isTerm = pairs.foldl (fun cs e => place key e.1 e.2 cs) (cs.filter isTerm)
  others : cs'.filter (!·.isTerm) = cs.filter (!·.isTerm) ++ others

namespace Gains

variable {key : TermKey} {pairs pairs' : List (String × String)} {others others' cs cs' cs'' : List Clause}

theorem refl (key : TermKey) (cs : List Clause) : Gains key [] [] cs cs :=
  ⟨rfl, (List.append_nil _).symm⟩

theorem trans (h : Gains key pairs others cs cs') (h' : Gains key pairs' others' cs' cs'') :
    Gains key (pairs ++ pairs') (others ++ others') cs cs'' := by
  constructor
  · rw [h'.terms, h.terms, List.foldl_append]
  · rw [h'.others, h.others, List.append_assoc]

theorem place (key : TermKey) (e : String × String) (cs : List Clause) : Gains key [e] [] cs (place key e.1 e.2 cs) := by
  constructor
  · exact filter_isTerm_place key e.1 e.2 cs
  · rw [filter_not_isTerm_place, List.append_nil]

theorem places (key : TermKey) (pairs : List (String × String)) (cs : List Clause) :
    Gains key pairs [] cs (pairs.foldl (fun cs e => Clause.place key e.1 e.2 cs) cs) := by
  induction pairs generalizing cs with
  | nil => exact refl key cs
  | cons e pairs ih => exact (place key e cs).trans (ih _)

/-- Clauses that are no term objects are gained as they are. -/
theorem append (key : TermKey) (cs : List Clause) (h : ∀ x ∈ others, x.isTerm = false) : Gains key [] others cs (cs ++ others) := by
  have hterms : others.filter isTerm = [] := by
    rw [List.filter_eq_nil_iff]
    intro x hx
    simp [h x hx]
  have hothers : others.filter (!·.isTerm) = others := by
    rw [List.filter_eq_self]
    intro x hx
    simp [h x hx]
  constructor
  · rw [List.filter_append, hterms, List.append_nil]
    rfl
  · rw [List.filter_append, hothers]

end Gains

end Clause

/-- Whether a value is a group. -/
def Value.isGroup : Value → Bool
  | .literal _ => false
  | .group _ => true

namespace Composer

/-- The clause of a value that is a group, unless the group is composed to nothing. -/
def groupClause? (c : Composer) : Value → Option Clause
  | .literal _ => none
  | .group rs => if (c.groupQuery rs).isEmpty then none else some (.bool (c.groupQuery rs))

/-- The clause of a value that has one of its own: a literal that becomes a free text, or a group. -/
def valueClause? (c : Composer) (form : LiteralForm) : Value → Option Clause
  | .literal text =>
    match form with
    | .terms _ => none
    | .freeText fields => some (c.textClause fields text)
  | .group rs => c.groupClause? (.group rs)

/-- The clauses of values of which any one text is asked for: it stands where the first text does, among the groups. -/
def disjunctionOf (c : Composer) (fields : List String) (vs : List Value) : List Clause :=
  (vs.takeWhile Value.isGroup).filterMap c.groupClause? ++
    (Clause.anyOf ((vs.filterMap Value.literal?).map (c.textClause fields))).toList ++
    (vs.dropWhile Value.isGroup).filterMap c.groupClause?

/-- The clauses of a rule that are no term objects, in the order of its values. Of a rule without an operator any one of the
free texts is asked for. -/
def others (c : Composer) (r : Rule) : List Clause :=
  match c.literalForm r, r.operator with
  | .freeText fields, none => c.disjunctionOf fields r.values
  | form, _ => r.values.filterMap (c.valueClause? form)

variable {c : Composer}

/-! ## The clauses of values -/

theorem groupClause?_piece (c : Composer) (form : LiteralForm) (v : Value) :
    (c.piece form v).groupClause? = c.groupClause? v := by
  cases v with
  | literal text => cases form <;> rfl
  | group rs => rfl

theorem isGroup_piece (c : Composer) (form : LiteralForm) (v : Value) : (c.piece form v).isGroup = v.isGroup := by
  cases v with
  | literal text => cases form <;> rfl
  | group rs => rfl

theorem textClause?_piece (c : Composer) (fields : List String) (v : Value) :
    (c.piece (.freeText fields) v).textClause? = v.literal?.map (c.textClause fields) := by
  cases v with
  | literal text => rfl
  | group rs => rfl

/-- The pieces of a rule without an operator become the disjunction of its values. -/
theorem disjunction_pieces (c : Composer) (fields : List String) (vs : List Value) :
    Piece.disjunction (vs.map (c.piece (.freeText fields))) = c.disjunctionOf fields vs := by
  have hgroup : Piece.isGroup ∘ c.piece (.freeText fields) = Value.isGroup := funext (isGroup_piece c _)
  have hclause : Piece.groupClause? ∘ c.piece (.freeText fields) = c.groupClause? := funext (groupClause?_piece c _)
  have htext : Piece.textClause? ∘ c.piece (.freeText fields) = fun v => v.literal?.map (c.textClause fields) :=
    funext (textClause?_piece c fields)
  rw [Piece.disjunction, Piece.filterMap_textClause?_dropWhile, List.takeWhile_map, List.dropWhile_map, hgroup,
    List.filterMap_map, List.filterMap_map, List.filterMap_map, hclause, htext, disjunctionOf, List.map_filterMap]

/-- The clause of a group is a boolean one. -/
theorem isTerm_of_groupClause? {v : Value} {x : Clause} (h : c.groupClause? v = some x) : x.isTerm = false := by
  rw [← groupClause?_piece c (.terms []) v] at h
  obtain ⟨q, -, -, rfl⟩ := Piece.groupClause?_eq_some_iff.1 h
  rfl

/-- Any one of some free texts is no term object. -/
theorem isTerm_of_mem_anyOf {fields literals : List String} {x : Clause}
    (h : x ∈ (Clause.anyOf (literals.map (c.textClause fields))).toList) : x.isTerm = false := by
  match literals with
  | [] => exact absurd h List.not_mem_nil
  | [text] =>
    have hx : x = c.textClause fields text := List.mem_singleton.1 h
    rw [hx]
    rfl
  | text :: text' :: literals =>
    have hx : x = .bool (.shouldOf ((text :: text' :: literals).map (c.textClause fields))) := List.mem_singleton.1 h
    rw [hx]
    rfl

theorem isTerm_of_mem_disjunctionOf {fields : List String} {vs : List Value} {x : Clause}
    (h : x ∈ c.disjunctionOf fields vs) : x.isTerm = false := by
  have hgroups : ∀ vs : List Value, x ∈ vs.filterMap c.groupClause? → x.isTerm = false := by
    intro vs hx
    obtain ⟨v, -, hv⟩ := List.mem_filterMap.1 hx
    exact isTerm_of_groupClause? hv
  rcases List.mem_append.1 h with h | h
  · rcases List.mem_append.1 h with h | h
    · exact hgroups _ h
    · exact isTerm_of_mem_anyOf h
  · exact hgroups _ h

/-! ## One value, one rule, all rules -/

/-- A value adds its pairs if it is a literal of named fields, and otherwise the clause it has of its own. -/
theorem gains_land (c : Composer) (key : TermKey) (form : LiteralForm) (v : Value) (cs : List Clause) :
    Clause.Gains key (v.literal?.toList.flatMap fun literal => form.names.map fun field => (field, literal))
      (c.valueClause? form v).toList cs (Piece.land key form.names cs (c.piece form v)) := by
  cases v with
  | group rs =>
    refine Clause.Gains.append key cs fun x hx => ?_
    exact isTerm_of_groupClause? (v := .group rs) (Option.mem_toList.1 hx)
  | literal text =>
    cases form with
    | terms names =>
      have hland : Piece.land key names cs (c.piece (.terms names) (.literal text)) =
          (names.map fun field => (field, text)).foldl (fun cs e => Clause.place key e.1 e.2 cs) cs := by
        rw [piece, Piece.land, Clause.placeAll_eq_foldl, List.flatMap_singleton]
      have hpairs := Clause.Gains.places key (names.map fun field => (field, text)) cs
      rw [← hland] at hpairs
      simpa [LiteralForm.names, Value.literal?, valueClause?] using hpairs
    | freeText fields =>
      refine Clause.Gains.append key cs fun x hx => ?_
      have hx : x = c.textClause fields text := List.mem_singleton.1 hx
      rw [hx]
      rfl

/-- Values folded in one after the other add what each of them does. -/
theorem gains_foldl_land (c : Composer) (key : TermKey) (form : LiteralForm) (vs : List Value) (cs : List Clause) :
    Clause.Gains key ((vs.filterMap Value.literal?).flatMap fun literal => form.names.map fun field => (field, literal))
      (vs.filterMap (c.valueClause? form)) cs ((vs.map (c.piece form)).foldl (Piece.land key form.names) cs) := by
  induction vs generalizing cs with
  | nil => exact Clause.Gains.refl key cs
  | cons v vs ih =>
    have h := (gains_land c key form v cs).trans (ih _)
    rw [← List.flatMap_append] at h
    have hliterals : (v :: vs).filterMap Value.literal? = v.literal?.toList ++ vs.filterMap Value.literal? := by
      rw [List.filterMap_cons]
      cases v.literal? <;> rfl
    have hclauses : (v :: vs).filterMap (c.valueClause? form) =
        (c.valueClause? form v).toList ++ vs.filterMap (c.valueClause? form) := by
      rw [List.filterMap_cons]
      cases c.valueClause? form v <;> rfl
    rw [hliterals, hclauses, List.map_cons, List.foldl_cons]
    exact h

theorem names_literalForm (hstyle : c.config.clauseStyle = .term) (r : Rule) :
    (c.literalForm r).names = r.names c.config.keywordSuffix := by
  rw [literalForm, hstyle]
  cases r.names c.config.keywordSuffix <;> rfl

/-- A rule adds its pairs and its other clauses. -/
theorem gains_landAll (hstyle : c.config.clauseStyle = .term) (r : Rule) (cs : List Clause) :
    Clause.Gains c.config.termKey (c.pairs r) (c.others r) cs (c.landAll r (c.pieces r) cs) := by
  have hnames := names_literalForm hstyle r
  have hfold := gains_foldl_land c c.config.termKey (c.literalForm r) r.values cs
  rw [landAll, others, pieces, pairs, ← hnames]
  cases hform : c.literalForm r with
  | terms names =>
    rw [hform] at hfold
    exact hfold
  | freeText fields =>
    cases ho : r.operator with
    | some op =>
      rw [hform] at hfold
      exact hfold
    | none =>
      have hpairs : (r.literals.flatMap fun literal =>
          (LiteralForm.freeText fields).names.map fun field => (field, literal)) = [] := by
        simp [LiteralForm.names]
      rw [hpairs]
      simp only [disjunction_pieces]
      exact Clause.Gains.append c.config.termKey cs fun x hx => isTerm_of_mem_disjunctionOf hx

/-- A scope gains the pairs of its rules and their other clauses, rule by rule. -/
theorem gains_fill (hstyle : c.config.clauseStyle = .term) (s : Scope) (rs : List Rule) (cs : List Clause) :
    Clause.Gains c.config.termKey (c.pairsIn s rs) ((rs.filter fun r => r.scope == s).flatMap c.others) cs (c.fill s rs cs) := by
  rw [fill, pairsIn]
  induction rs.filter fun r => r.scope == s generalizing cs with
  | nil => exact Clause.Gains.refl _ cs
  | cons r rs ih => exact (gains_landAll hstyle r cs).trans (ih _)

/-- Let `P` be the pairs that rules put in a scope. Composed without an exclusive or, the scope has one term object for each tier of
`P`: the first holds the first pair of each field, the next the second, and so on, in the order of `P`. So there are as many as the
field that comes most often has pairs, they hold each pair as often as it comes, and no fewer objects with one value a field do.
The other clauses of the scope are those of its rules, in order. -/
theorem compose_scope_eq_tiers {rs : List Rule} {done : Composition} (hstyle : c.config.clauseStyle = .term)
    (hxor : ∀ r ∈ rs, r.operator ≠ some .xor) (h : c.compose rs = .ok done) (s : Scope) :
    (done.query.clauses s).filter Clause.isTerm = ((List.range (Packing.height (c.pairsIn s rs))).map fun k =>
        .term ⟨c.config.termKey, Packing.tier k (c.pairsIn s rs)⟩) ∧
      (∀ n, Packing.height (c.pairsIn s rs) ≤ n ↔ ∀ field, Packing.rank (c.pairsIn s rs) field ≤ n) ∧
      ((List.range (Packing.height (c.pairsIn s rs))).flatMap fun k => Packing.tier k (c.pairsIn s rs)).Perm (c.pairsIn s rs) ∧
      (∀ os : List (List (String × String)), os.flatten.Perm (c.pairsIn s rs) → (∀ o ∈ os, (o.map Prod.fst).Nodup) →
        Packing.height (c.pairsIn s rs) ≤ os.length) ∧
      (done.query.clauses s).filter (!·.isTerm) = (rs.filter fun r => r.scope == s).flatMap c.others := by
  have hgains := gains_fill hstyle s rs []
  rw [← clauses_compose hxor h s] at hgains
  refine ⟨?_, fun n => ⟨fun hn field => ?_, fun hn => ?_⟩, Packing.flatMap_tier_perm (Nat.le_refl _),
    fun os hperm hnodup => Packing.height_le_length hperm hnodup, ?_⟩
  · rw [hgains.terms, List.filter_nil, Packing.foldl_place_nil, Packing.objects, List.map_map]
    rfl
  · exact Nat.le_trans (Packing.rank_le_height _ field) hn
  · exact (Packing.height_le_iff _ n).2 fun e _ => hn e.1
  · rw [hgains.others]
    rfl

/-- Of the five pairs of two rules the first of each field share an object, whatever the groups between them; the texts of the rule
without an operator are asked for where the first of them stands, between its groups. -/
theorem compose_scope_eq_tiers_among_groups :
    ∃ done, ({} : Config).composer.compose [
        ⟨some (.many ["city", "area"]), some .and, [.literal "Paris",
          .group [⟨some (.one "kind"), some .not, [.literal "page"], false⟩], .literal "Rome"], false⟩,
        ⟨none, none, [.group [⟨some (.one "kind"), some .or, [.literal "post"], false⟩], .group [], .literal "x",
          .group [⟨none, some .and, [.literal "z"], false⟩], .literal "y"], false⟩,
        ⟨some (.one "zip"), none, [.literal "1"], false⟩] = .ok done ∧
      (done.query.clauses .must).filter Clause.isTerm = [
        .term ⟨.term, [("city", "Paris"), ("area", "Paris"), ("zip", "1")]⟩,
        .term ⟨.term, [("city", "Rome"), ("area", "Rome")]⟩] ∧
      (done.query.clauses .must).filter (!·.isTerm) = [
        .bool { mustNot := [.term ⟨.term, [("kind", "page")]⟩] },
        .bool { should := [.term ⟨.term, [("kind", "post")]⟩] },
        .bool { should := [.freeText ⟨"x", ["*"]⟩, .freeText ⟨"y", ["*"]⟩] },
        .bool { must := [.freeText ⟨"z", ["*"]⟩] }] := by
  obtain ⟨done, hdone⟩ := exists_eq_ok_of_isOk (x := ({} : Config).composer.compose [
    ⟨some (.many ["city", "area"]), some .and, [.literal "Paris",
      .group [⟨some (.one "kind"), some .not, [.literal "page"], false⟩], .literal "Rome"], false⟩,
    ⟨none, none, [.group [⟨some (.one "kind"), some .or, [.literal "post"], false⟩], .group [], .literal "x",
      .group [⟨none, some .and, [.literal "z"], false⟩], .literal "y"], false⟩,
    ⟨some (.one "zip"), none, [.literal "1"], false⟩]) (by decide)
  obtain ⟨hterms, -, -, -, hothers⟩ := compose_scope_eq_tiers rfl (by simp) hdone .must
  refine ⟨done, hdone, ?_, ?_⟩
  · rw [hterms]
    rfl
  · rw [hothers]
    rfl

end Composer

end SearchRules
