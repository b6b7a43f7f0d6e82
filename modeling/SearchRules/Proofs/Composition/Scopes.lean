import SearchRules.Proofs.Composition.Run

/-!
# What a successful composition puts in each scope

A scope is filled by the rules of that scope and by no others, in order, each with the pieces of its values: `clauses_compose`.
The piece of a group is the query its rules are composed to on their own, whatever fields came up before, so the pieces of a
rule are known from the rule alone: `Composer.pieces`.
-/

namespace SearchRules

namespace Composer

/-- The query of a group: what its rules are composed to on their own. It is empty if one of their literals is refused. -/
def groupQuery (c : Composer) (rs : List Rule) : BoolQuery :=
  match c.compose rs with
  | .ok done => done.query
  | .error _ => {}

/-- The free-text clause of a literal that is not refused. -/
def textClause (c : Composer) (fields : List String) (literal : String) : Clause :=
  .freeText ⟨String.ofList (c.config.queryStyle.queryChars literal.toList), fields⟩

/-- The piece of a value none of whose literals is refused. -/
def piece (c : Composer) (form : LiteralForm) : Value → Piece
  | .literal text =>
    match form with
    | .terms _ => .term text
    | .freeText fields => .freeText (c.textClause fields text)
  | .group rs => .group (c.groupQuery rs)

/-- The pieces of a rule none of whose literals is refused. -/
def pieces (c : Composer) (r : Rule) : List Piece :=
  r.values.map (c.piece (c.literalForm r))

/-- The clauses of a scope with rules folded in: those of the scope, each with its pieces. -/
def fill (c : Composer) (s : Scope) (rs : List Rule) (cs : List Clause) : List Clause :=
  (rs.filter fun r => r.scope == s).foldl (fun cs r => c.landAll r (c.pieces r) cs) cs

variable {c : Composer}

/-! ## Helpers: one rule, one value -/

/-- A rule without values adds nothing to its scope. -/
theorem landAll_nil (c : Composer) (r : Rule) (cs : List Clause) : c.landAll r [] cs = cs := by
  rw [landAll]
  cases c.literalForm r with
  | terms names => rfl
  | freeText fields =>
    cases r.operator with
    | some op => rfl
    | none => exact List.append_nil cs

theorem fill_cons (c : Composer) (s : Scope) (r : Rule) (rs : List Rule) (cs : List Clause) :
    c.fill s (r :: rs) cs = c.fill s rs (if r.scope = s then c.landAll r (c.pieces r) cs else cs) := by
  by_cases h : r.scope = s
  · rw [fill, List.filter_cons_of_pos (by simpa using h), List.foldl_cons, if_pos h]
    rfl
  · rw [fill, List.filter_cons_of_neg (by simpa using h), if_neg h]
    rfl

/-- The piece of a literal that is not refused. -/
theorem piece_of_literalPiece {form : LiteralForm} {literal : String} {p : Piece}
    (h : c.literalPiece form literal = .ok p) : p = c.piece form (.literal literal) := by
  cases form with
  | terms names =>
    rw [literalPiece, Except.ok.injEq] at h
    exact h.symm
  | freeText fields =>
    obtain ⟨-, hp⟩ := literalPiece_freeText_eq_ok.1 h
    exact hp

/-! ## Every rule -/

/-- What rules do to a draft, and that they do so whatever fields came up before. -/
structure Filled (c : Composer) (d : Draft) (rs : List Rule) (d' : Draft) : Prop where
  refield (fields : List String) : ∃ fields', c.rules { d with fields } rs = .ok { d' with fields := fields' }
  clauses (s : Scope) : d'.query.clauses s = c.fill s rs (d.query.clauses s)
  unset : d'.query.minimumShouldMatch = d.query.minimumShouldMatch
  exclusive : d'.exclusive = (d.exclusive || rs.any fun r => r.operator == some .xor && !r.values.isEmpty)

/-- What values become, and that they do so whatever fields came up before. -/
structure Pieced (c : Composer) (form : LiteralForm) (vs : List Value) (pieces : List Piece) : Prop where
  refield (fields : List String) : ∃ fields', c.values form fields vs = .ok (pieces, fields')
  pieces : pieces = vs.map (c.piece form)

/-- A group that led to a draft is composed on its own to the query of that draft. -/
theorem Filled.groupQuery_eq {rs : List Rule} {d : Draft} {fields : List String} (h : c.Filled { fields } rs d) :
    c.groupQuery rs = (d.finish c.config.xorStrategy).query := by
  obtain ⟨fields', hd⟩ := h.refield []
  have hrules : c.rules {} rs = .ok { d with fields := fields' } := hd
  rw [groupQuery, compose, hrules]
  rfl

theorem filled_invariant (c : Composer) : c.Invariant c.Filled fun form _ vs pieces _ => c.Pieced form vs pieces where
  nil d :=
    { refield := fun fields => ⟨fields, by rw [rules]⟩
      clauses := fun s => rfl
      unset := rfl
      exclusive := (Bool.or_false _).symm }
  skip d d' r rs hv ih := by
    have hrule : ∀ d : Draft, c.rule d r = .ok d := by
      intro d
      rw [rule_eq, hv]
      rfl
    refine ⟨fun fields => ?_, fun s => ?_, ih.unset, ?_⟩
    · obtain ⟨fields', hrs⟩ := ih.refield fields
      exact ⟨fields', by rw [rules_cons, hrule]; exact hrs⟩
    · have hpieces : c.pieces r = [] := by rw [pieces, hv, List.map_nil]
      rw [ih.clauses s, fill_cons, hpieces, landAll_nil, ite_self]
    · rw [ih.exclusive, List.any_cons, hv]
      simp
  fold d d' r rs ps fields hv hvs ih := by
    have hne : r.values.isEmpty = false := List.isEmpty_eq_false_iff.2 hv
    have hps : ps = c.pieces r := hvs.pieces
    refine ⟨fun given => ?_, fun s => ?_, ?_, ?_⟩
    · obtain ⟨mid, hmid⟩ := hvs.refield given
      obtain ⟨fields', hrs⟩ := ih.refield (Draft.remember mid (r.names c.config.keywordSuffix))
      refine ⟨fields', ?_⟩
      rw [rules_cons, rule_eq, hne, if_neg Bool.false_ne_true, hmid]
      exact hrs
    · rw [ih.clauses s, addRule, BoolQuery.clauses_modify, fill_cons, hps]
    · rw [ih.unset, addRule, BoolQuery.minimumShouldMatch_modify]
    · rw [ih.exclusive, addRule, List.any_cons, Bool.or_assoc, hne, Bool.not_false, Bool.and_true]
  none form fields := ⟨fun given => ⟨given, by rw [values]⟩, rfl⟩
  literal form text vs p ps fields fields' hp ih := by
    refine ⟨fun given => ?_, ?_⟩
    · obtain ⟨last, hvs⟩ := ih.refield given
      refine ⟨last, values_cons_eq_ok.2 ⟨p, given, ps, ?_, hvs, rfl⟩⟩
      rw [value_literal, hp]
      rfl
    · rw [List.map_cons, ← ih.pieces, piece_of_literalPiece hp]
  group form rs vs d ps fields fields' hd ih := by
    refine ⟨fun given => ?_, ?_⟩
    · obtain ⟨mid, hmid⟩ := hd.refield given
      obtain ⟨last, hvs⟩ := ih.refield mid
      refine ⟨last, values_cons_eq_ok.2 ⟨_, mid, ps, ?_, hvs, rfl⟩⟩
      rw [value_group]
      have hrules : c.rules { fields := given } rs = .ok { d with fields := mid } := hmid
      rw [hrules]
      rfl
    · rw [List.map_cons, ← ih.pieces, piece, hd.groupQuery_eq]

/-- A composition that succeeds fills each scope with the rules of that scope, and makes the alternatives exclusive if one of the
rules is an exclusive or with values. -/
theorem filled_of_compose {rs : List Rule} {done : Composition} (h : c.compose rs = .ok done) :
    ∃ d, c.Filled {} rs d ∧ done = d.finish c.config.xorStrategy :=
  (filled_invariant c).compose h

/-- Without an exclusive or, the scopes of a composed query are the filled ones. -/
theorem clauses_compose {rs : List Rule} {done : Composition} (hxor : ∀ r ∈ rs, r.operator ≠ some .xor)
    (h : c.compose rs = .ok done) (s : Scope) : done.query.clauses s = c.fill s rs [] := by
  obtain ⟨d, hd, rfl⟩ := filled_of_compose h
  have hexclusive : d.exclusive = false := by
    rw [hd.exclusive, Bool.false_or, List.any_eq_false]
    intro r hr
    simp [hxor r hr]
  have hnil : ({} : BoolQuery).clauses s = [] := by cases s <;> rfl
  rw [Draft.finish, hexclusive, ← hnil]
  exact hd.clauses s

end Composer

end SearchRules
