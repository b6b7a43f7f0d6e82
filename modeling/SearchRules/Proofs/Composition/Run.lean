import SearchRules.Composition

/-!
# What a successful composition does, step by step

`Composer.Invariant` says once what each step of a composition can do: which drafts a list of rules leads through, and which
pieces a list of values becomes. A relation kept by every step is kept by a whole composition, whatever the depth of the groups:
`Invariant.rules` and `Invariant.values`.
-/

namespace SearchRules

/-- A sequence succeeds when each of its steps does. -/
theorem bind_eq_ok {ε α β : Type} {x : Except ε α} {f : α → Except ε β} {b : β} :
    (x >>= f) = .ok b ↔ ∃ a, x = .ok a ∧ f a = .ok b := by
  cases x <;> simp [bind, Except.bind]

theorem bind_eq_error {ε α β : Type} {x : Except ε α} {f : α → Except ε β} {e : ε} :
    (x >>= f) = .error e ↔ x = .error e ∨ ∃ a, x = .ok a ∧ f a = .error e := by
  cases x <;> simp [bind, Except.bind]

/-- Two checks in sequence are passed if both are. -/
theorem bind_eq_ok_unit {ε : Type} {x y : Except ε Unit} : (x >>= fun _ => y) = .ok () ↔ x = .ok () ∧ y = .ok () := by
  rw [bind_eq_ok]
  constructor
  · rintro ⟨⟨⟩, hx, hy⟩
    exact ⟨hx, hy⟩
  · rintro ⟨hx, hy⟩
    exact ⟨(), hx, hy⟩

/-- What succeeds has a result. -/
theorem exists_eq_ok_of_isOk {ε α : Type} {x : Except ε α} (h : x.isOk = true) : ∃ a, x = .ok a := by
  cases x with
  | error e => cases h
  | ok a => exact ⟨a, rfl⟩

namespace BoolQuery

/-- Changing a scope changes its clauses and no others. -/
theorem clauses_modify (q : BoolQuery) (s s' : Scope) (f : List Clause → List Clause) :
    (q.modify s f).clauses s' = if s = s' then f (q.clauses s') else q.clauses s' := by
  cases s <;> cases s' <;> rfl

@[simp]
theorem minimumShouldMatch_modify (q : BoolQuery) (s : Scope) (f : List Clause → List Clause) :
    (q.modify s f).minimumShouldMatch = q.minimumShouldMatch := by
  cases s <;> rfl

/-- A clause pushed on a scope joins the clauses of that scope. -/
theorem mem_clauses_push (q : BoolQuery) (s s' : Scope) (x y : Clause) :
    x ∈ (q.push s y).clauses s' ↔ x ∈ q.clauses s' ∨ s' = s ∧ x = y := by
  rw [push, clauses_modify]
  by_cases h : s = s'
  · rw [if_pos h, List.mem_append, List.mem_singleton, h]
    simp
  · rw [if_neg h]
    exact ⟨Or.inl, fun hx => hx.resolve_right fun hs => h hs.1.symm⟩

/-- A query is empty when each of its scopes is. -/
theorem isEmpty_iff (q : BoolQuery) : q.isEmpty = true ↔ ∀ s, q.clauses s = [] := by
  simp only [isEmpty, Bool.and_eq_true, List.isEmpty_iff]
  constructor
  · rintro ⟨⟨hm, hs⟩, hn⟩ s
    cases s
    · exact hm
    · exact hs
    · exact hn
  · intro h
    exact ⟨⟨h .must, h .should⟩, h .mustNot⟩

end BoolQuery

namespace Composer

variable {c : Composer}

/-- A rule is folded in with the pieces of its values; without values it counts for nothing. -/
theorem rule_eq (c : Composer) (d : Draft) (r : Rule) :
    c.rule d r = if r.values.isEmpty then .ok d
      else c.values (c.literalForm r) d.fields r.values >>= fun x => .ok (c.addRule r d x.1 x.2) := by
  obtain ⟨field, operator, values, isKeyword⟩ := r
  rw [rule]

theorem rules_cons (c : Composer) (d : Draft) (r : Rule) (rs : List Rule) :
    c.rules d (r :: rs) = c.rule d r >>= fun d' => c.rules d' rs := by
  rw [rules]

theorem values_cons (c : Composer) (form : LiteralForm) (fields : List String) (v : Value) (vs : List Value) :
    c.values form fields (v :: vs) = c.value form fields v >>= fun x =>
      c.values form x.2 vs >>= fun y => .ok (x.1 :: y.1, y.2) := by
  rw [values]

theorem value_literal (c : Composer) (form : LiteralForm) (fields : List String) (text : String) :
    c.value form fields (.literal text) = c.literalPiece form text >>= fun piece => .ok (piece, fields) := by
  rw [value]

theorem value_group (c : Composer) (form : LiteralForm) (fields : List String) (rs : List Rule) :
    c.value form fields (.group rs) = c.rules { fields } rs >>= fun d =>
      .ok (.group (d.finish c.config.xorStrategy).query, d.fields) := by
  rw [value]
  rfl

/-- A literal searched for as free text becomes the clause of its text, once it has passed the check. -/
theorem literalPiece_freeText_eq_ok {fields : List String} {literal : String} {piece : Piece} :
    c.literalPiece (.freeText fields) literal = .ok piece ↔ checkLiteral literal = .ok () ∧
      piece = .freeText (.freeText ⟨String.ofList (c.config.queryStyle.queryChars literal.toList), fields⟩) := by
  rw [literalPiece, QueryStyle.clause]
  cases checkLiteral literal with
  | error e => simp [bind, Except.bind, Except.map]
  | ok u => simp [bind, Except.bind, Except.map, eq_comm]

/-- Values become pieces one after the other, the fields that come up passed along. -/
theorem values_cons_eq_ok {form : LiteralForm} {fields fields' : List String} {v : Value} {vs : List Value}
    {pieces : List Piece} :
    c.values form fields (v :: vs) = .ok (pieces, fields') ↔ ∃ piece mid rest, c.value form fields v = .ok (piece, mid) ∧
      c.values form mid vs = .ok (rest, fields') ∧ pieces = piece :: rest := by
  rw [values_cons, bind_eq_ok]
  constructor
  · rintro ⟨⟨piece, mid⟩, hv, h⟩
    obtain ⟨⟨rest, last⟩, hvs, h⟩ := bind_eq_ok.1 h
    cases h
    exact ⟨piece, mid, rest, hv, hvs, rfl⟩
  · rintro ⟨piece, mid, rest, hv, hvs, rfl⟩
    exact ⟨(piece, mid), hv, bind_eq_ok.2 ⟨(rest, fields'), hvs, rfl⟩⟩

/-- What every step of a composition keeps: `R` relates a draft, the rules folded into it and the draft they lead to; `V` relates
how literals are searched for, the fields that came up before, some values, their pieces and the fields that came up since. -/
structure Invariant (c : Composer) (R : Draft → List Rule → Draft → Prop)
    (V : LiteralForm → List String → List Value → List Piece → List String → Prop) : Prop where
  nil (d : Draft) : R d [] d
  skip (d d' : Draft) (r : Rule) (rs : List Rule) : r.values = [] → R d rs d' → R d (r :: rs) d'
  fold (d d' : Draft) (r : Rule) (rs : List Rule) (pieces : List Piece) (fields : List String) :
    r.values ≠ [] → V (c.literalForm r) d.fields r.values pieces fields → R (c.addRule r d pieces fields) rs d' →
      R d (r :: rs) d'
  none (form : LiteralForm) (fields : List String) : V form fields [] [] fields
  literal (form : LiteralForm) (text : String) (vs : List Value) (piece : Piece) (pieces : List Piece)
    (fields fields' : List String) : c.literalPiece form text = .ok piece → V form fields vs pieces fields' →
      V form fields (.literal text :: vs) (piece :: pieces) fields'
  group (form : LiteralForm) (rs : List Rule) (vs : List Value) (d : Draft) (pieces : List Piece)
    (fields fields' : List String) : R { fields } rs d → V form d.fields vs pieces fields' →
      V form fields (.group rs :: vs) (.group (d.finish c.config.xorStrategy).query :: pieces) fields'

namespace Invariant

variable {R : Draft → List Rule → Draft → Prop}
  {V : LiteralForm → List String → List Value → List Piece → List String → Prop}

mutual

/-- Folding in a list of rules keeps an invariant. -/
theorem rules (h : Invariant c R V) :
    ∀ (rs : List Rule) (d d' : Draft), c.rules d rs = .ok d' → R d rs d'
  | [], d, d', hc => by
    rw [Composer.rules, Except.ok.injEq] at hc
    exact hc ▸ h.nil d
  | ⟨field, operator, vs, isKeyword⟩ :: rs, d, d', hc => by
    rw [rules_cons, bind_eq_ok] at hc
    obtain ⟨d₁, hr, hrs⟩ := hc
    have ih := rules h rs d₁ d' hrs
    rw [rule_eq] at hr
    by_cases hv : vs = []
    · rw [if_pos (by simp [hv]), Except.ok.injEq] at hr
      subst hr
      exact h.skip d d' _ rs hv ih
    · rw [if_neg (by simp [hv]), bind_eq_ok] at hr
      obtain ⟨⟨pieces, fields⟩, hvs, hd⟩ := hr
      rw [Except.ok.injEq] at hd
      subst hd
      exact h.fold d d' _ rs pieces fields hv (values h vs _ _ pieces fields hvs) ih

/-- Turning a list of values into pieces keeps an invariant. -/
theorem values (h : Invariant c R V) :
    ∀ (vs : List Value) (form : LiteralForm) (fields : List String) (pieces : List Piece) (fields' : List String),
      c.values form fields vs = .ok (pieces, fields') → V form fields vs pieces fields'
  | [], form, fields, pieces, fields', hc => by
    rw [Composer.values, Except.ok.injEq, Prod.mk.injEq] at hc
    obtain ⟨rfl, rfl⟩ := hc
    exact h.none form fields
  | .literal text :: vs, form, fields, pieces, fields', hc => by
    obtain ⟨piece, mid, rest, hv, hvs, rfl⟩ := values_cons_eq_ok.1 hc
    obtain ⟨piece', hp, hv⟩ := bind_eq_ok.1 (value_literal c form fields text ▸ hv)
    cases hv
    exact h.literal form text vs piece rest fields fields' hp (values h vs form fields rest fields' hvs)
  | .group rs :: vs, form, fields, pieces, fields', hc => by
    obtain ⟨piece, mid, rest, hv, hvs, rfl⟩ := values_cons_eq_ok.1 hc
    obtain ⟨d, hd, hv⟩ := bind_eq_ok.1 (value_group c form fields rs ▸ hv)
    cases hv
    exact h.group form rs vs d rest fields fields' (rules h rs _ d hd) (values h vs form d.fields rest fields' hvs)

end

/-- A composition that succeeds finishes a draft that the rules lead to from an empty one. -/
theorem compose (h : Invariant c R V) {rs : List Rule} {done : Composition} (hc : c.compose rs = .ok done) :
    ∃ d, R {} rs d ∧ done = d.finish c.config.xorStrategy := by
  rw [Composer.compose, bind_eq_ok] at hc
  obtain ⟨d, hd, hdone⟩ := hc
  rw [Except.ok.injEq] at hdone
  exact ⟨d, h.rules rs {} d hd, hdone.symm⟩

end Invariant

end Composer

end SearchRules
