import SearchRules.Compile
import SearchRules.Proofs.Composition.Run
import SearchRules.Proofs.Text.BareWildcards

/-!
# What is refused

The literals that are searched for as free text, in the order in which they stand in a tree of rules, decide alone whether a request
is compiled: the first of them with a token made only of wildcards is refused, for the first such token
(`compile_error_exact`).

Composition visits the literals in that order, whatever it does with them: `Composer.error?_rules`.
-/

namespace SearchRules

/-! ## Free-text literals -/

/-- Whether the literals of a rule are searched for as free text. -/
def Rule.isFreeText (style : ClauseStyle) (r : Rule) : Bool :=
  style == .queryString || (r.field.elim [] FieldRef.names).isEmpty

mutual

/-- The free-text literals of a value, given whether its rule is searched for as free text. -/
def Value.freeLiterals (style : ClauseStyle) (free : Bool) : Value → List String
  | .literal text => if free then [text] else []
  | .group rs => Rule.freeLiteralsIn style rs

/-- The free-text literals of values, in order. -/
def Value.freeLiteralsIn (style : ClauseStyle) (free : Bool) : List Value → List String
  | [] => []
  | v :: vs => v.freeLiterals style free ++ Value.freeLiteralsIn style free vs

/-- The free-text literals of a rule, those of its groups where the groups stand. -/
def Rule.freeLiterals (style : ClauseStyle) : Rule → List String
  | ⟨field, operator, values, isKeyword⟩ =>
    Value.freeLiteralsIn style (Rule.isFreeText style ⟨field, operator, values, isKeyword⟩) values

/-- The free-text literals of a list of rules, in order. -/
def Rule.freeLiteralsIn (style : ClauseStyle) : List Rule → List String
  | [] => []
  | r :: rs => r.freeLiterals style ++ Rule.freeLiteralsIn style rs

end

/-- The first refusal of a literal. -/
def firstRefusal (literals : List String) : Option WildcardOnly :=
  literals.findSome? fun literal => (wildcardToken? literal).map fun token => ⟨token, literal⟩

theorem wildcardToken?_eq_none_iff (literal : String) :
    wildcardToken? literal = none ↔ hasBareWildcard literal.toList = false := by
  rw [wildcardToken?, Option.map_eq_none_iff, List.find?_eq_none, hasBareWildcard, List.any_eq_false]

/-- The token a literal is refused for is the first of its tokens made only of wildcards. -/
theorem wildcardToken?_eq_some_iff (literal token : String) :
    wildcardToken? literal = some token ↔ ∃ earlier later, tokens literal.toList = earlier ++ token.toList :: later ∧
      token.toList.all isWildcard = true ∧ ∀ t ∈ earlier, t.all isWildcard = false := by
  rw [wildcardToken?, Option.map_eq_some_iff]
  simp only [List.find?_eq_some_iff_append, Bool.not_eq_true']
  constructor
  · rintro ⟨t, ⟨hall, earlier, later, heq, hnone⟩, rfl⟩
    rw [String.toList_ofList]
    exact ⟨earlier, later, heq, hall, hnone⟩
  · rintro ⟨earlier, later, heq, hall, hnone⟩
    exact ⟨token.toList, ⟨hall, earlier, later, heq, hnone⟩, String.ofList_toList⟩

theorem firstRefusal_append (xs ys : List String) : firstRefusal (xs ++ ys) = (firstRefusal xs).or (firstRefusal ys) := by
  rw [firstRefusal, List.findSome?_append]
  rfl

/-- The first refusal is that of the first literal with a token made only of wildcards, for the first such token. -/
theorem firstRefusal_eq_some_iff (literals : List String) (e : WildcardOnly) :
    firstRefusal literals = some e ↔ ∃ before after, literals = before ++ e.value :: after ∧
      wildcardToken? e.value = some e.token ∧ ∀ literal ∈ before, hasBareWildcard literal.toList = false := by
  rw [firstRefusal, List.findSome?_eq_some_iff]
  simp only [Option.map_eq_some_iff, Option.map_eq_none_iff, wildcardToken?_eq_none_iff]
  constructor
  · rintro ⟨before, literal, after, heq, ⟨token, htoken, rfl⟩, hnone⟩
    exact ⟨before, after, heq, htoken, hnone⟩
  · rintro ⟨before, after, heq, htoken, hnone⟩
    exact ⟨before, e.value, after, heq, ⟨e.token, htoken, rfl⟩, hnone⟩

/-- There is a refusal if some literal has a token made only of wildcards. -/
theorem exists_firstRefusal_iff (literals : List String) :
    (∃ e, firstRefusal literals = some e) ↔ ∃ literal ∈ literals, hasBareWildcard literal.toList = true := by
  rw [← Option.isSome_iff_exists, firstRefusal, List.isSome_findSome?, List.any_eq_true]
  refine exists_congr fun literal => and_congr_right fun _ => ?_
  rw [Option.isSome_map, Option.isSome_iff_ne_none, ne_eq, wildcardToken?_eq_none_iff, Bool.not_eq_false]

/-! ## Errors of compositions -/

/-- The error of an outcome. -/
def error? {ε α : Type} : Except ε α → Option ε
  | .error e => some e
  | .ok _ => none

theorem error?_eq_some_iff {ε α : Type} {x : Except ε α} {e : ε} : error? x = some e ↔ x = .error e := by
  cases x <;> simp [error?]

/-- A sequence fails where its first step does, and otherwise where the rest does. -/
theorem error?_bind {ε α β : Type} {x : Except ε α} {f : α → Except ε β} {rest : Option ε}
    (h : ∀ a, error? (f a) = rest) : error? (x >>= f) = (error? x).or rest := by
  cases x with
  | error e => rfl
  | ok a => exact h a

theorem error?_bind_ok {ε α β : Type} (x : Except ε α) (g : α → β) : error? (x >>= fun a => .ok (g a)) = error? x := by
  cases x <;> rfl

/-- Whether literals of a form are searched for as free text. -/
def LiteralForm.isFreeText : LiteralForm → Bool
  | .terms _ => false
  | .freeText _ => true

namespace Composer

variable {c : Composer}

theorem isFreeText_literalForm (c : Composer) (r : Rule) :
    (c.literalForm r).isFreeText = r.isFreeText c.config.clauseStyle := by
  have hn : r.names c.config.keywordSuffix = [] ↔ r.field.elim [] FieldRef.names = [] := by
    rw [Rule.names]
    cases r.field <;> simp
  rw [literalForm, Rule.isFreeText]
  cases hnames : r.names c.config.keywordSuffix with
  | nil =>
    rw [hn.1 hnames]
    simp [LiteralForm.isFreeText]
  | cons name names =>
    have hne : (r.field.elim [] FieldRef.names).isEmpty = false := by
      rw [List.isEmpty_eq_false_iff, ne_eq, ← hn, hnames]
      exact List.cons_ne_nil name names
    rw [hne]
    cases c.config.clauseStyle <;> rfl

/-- A literal is refused only as free text. -/
theorem error?_literalPiece (c : Composer) (form : LiteralForm) (literal : String) :
    error? (c.literalPiece form literal) = firstRefusal (if form.isFreeText then [literal] else []) := by
  cases form with
  | terms names => rfl
  | freeText fields =>
    rw [literalPiece, QueryStyle.clause, checkLiteral, LiteralForm.isFreeText, if_pos rfl, firstRefusal,
      List.findSome?_cons]
    cases wildcardToken? literal <;> rfl

/-- Values fail where the first of them does, and otherwise where the rest do. -/
theorem error?_values_cons {form : LiteralForm} {fields : List String} {v : Value} {vs : List Value}
    {rest : Option WildcardOnly} (h : ∀ fields, error? (c.values form fields vs) = rest) :
    error? (c.values form fields (v :: vs)) = (error? (c.value form fields v)).or rest := by
  rw [values_cons]
  refine error?_bind fun x => ?_
  rw [error?_bind_ok, h]

mutual

/-- Composing a list of rules fails with the first refusal among their free-text literals. -/
theorem error?_rules (c : Composer) :
    ∀ (rs : List Rule) (d : Draft), error? (c.rules d rs) = firstRefusal (Rule.freeLiteralsIn c.config.clauseStyle rs)
  | [], d => by
    rw [rules]
    rfl
  | ⟨field, operator, vs, isKeyword⟩ :: rs, d => by
    rw [rules_cons, error?_bind (error?_rules c rs), rule_eq, Rule.freeLiteralsIn, Rule.freeLiterals, firstRefusal_append,
      ← isFreeText_literalForm c ⟨field, operator, vs, isKeyword⟩]
    congr 1
    by_cases hv : vs = []
    · subst hv
      rfl
    · rw [if_neg (by simpa using hv), error?_bind_ok, error?_values c vs]

/-- Turning values into pieces fails with the first refusal among their free-text literals. -/
theorem error?_values (c : Composer) :
    ∀ (vs : List Value) (form : LiteralForm) (fields : List String), error? (c.values form fields vs) =
      firstRefusal (Value.freeLiteralsIn c.config.clauseStyle form.isFreeText vs)
  | [], form, fields => by
    rw [values]
    rfl
  | .literal text :: vs, form, fields => by
    rw [error?_values_cons (error?_values c vs form), value_literal, error?_bind_ok, error?_literalPiece, ← firstRefusal_append]
    rfl
  | .group rs :: vs, form, fields => by
    rw [error?_values_cons (error?_values c vs form), value_group, error?_bind_ok, error?_rules c rs, ← firstRefusal_append]
    rfl

end

/-- A composition fails with the first refusal among the free-text literals of its rules. -/
theorem error?_compose (c : Composer) (rs : List Rule) :
    error? (c.compose rs) = firstRefusal (Rule.freeLiteralsIn c.config.clauseStyle rs) := by
  rw [compose, error?_bind_ok, error?_rules]

end Composer

/-- Compiling a request fails with the first refusal among the free-text literals of its rules. -/
theorem error?_compile (c : Config) (r : SearchRequest) :
    error? (compile c r) = firstRefusal (Rule.freeLiteralsIn c.clauseStyle r.rules) := by
  rw [compile, error?_bind_ok, Composer.error?_compose]
  rfl

/-- Compiling a request fails exactly where one of its free-text literals has a token made only of wildcards. It fails with the
first such literal and the first such token of it, and nothing but the rules and the clause style has any part in that. -/
theorem compile_error_exact (c : Config) (r : SearchRequest) :
    ((∃ e, compile c r = .error e) ↔
      ∃ literal ∈ Rule.freeLiteralsIn c.clauseStyle r.rules, ∃ t ∈ tokens literal.toList, t.all isWildcard = true) ∧
    (∀ e, compile c r = .error e ↔
      ∃ before after, Rule.freeLiteralsIn c.clauseStyle r.rules = before ++ e.value :: after ∧
        (∀ literal ∈ before, ∀ t ∈ tokens literal.toList, t.all isWildcard = false) ∧
        ∃ earlier later, tokens e.value.toList = earlier ++ e.token.toList :: later ∧
          e.token.toList.all isWildcard = true ∧ ∀ t ∈ earlier, t.all isWildcard = false) ∧
    ∀ (c' : Config) (r' : SearchRequest), c'.clauseStyle = c.clauseStyle → r'.rules = r.rules →
      ∀ e, compile c' r' = .error e ↔ compile c r = .error e := by
  refine ⟨?_, fun e => ?_, fun c' r' hstyle hrules e => ?_⟩
  · simp only [← error?_eq_some_iff, error?_compile, exists_firstRefusal_iff, hasBareWildcard, List.any_eq_true]
  · rw [← error?_eq_some_iff, error?_compile, firstRefusal_eq_some_iff]
    simp only [wildcardToken?_eq_some_iff, hasBareWildcard, List.any_eq_false, Bool.not_eq_true]
    refine exists_congr fun before => exists_congr fun after => and_congr_right fun _ => ?_
    exact And.comm
  · rw [← error?_eq_some_iff, ← error?_eq_some_iff, error?_compile, error?_compile, hstyle, hrules]

/-- The value of a field may be a wildcard; the second literal of the group is refused, whatever stands around the rules. -/
theorem compile_error_second_of_group :
    compile {} { query := { rules := some [
        ⟨some (.one "kind"), some .and, [.literal "*", .group [⟨none, some .not, [.literal "a", .literal "b ** ?"], false⟩]], false⟩,
        ⟨some (.many []), none, [.literal "?"], false⟩] } } = .error ⟨"**", "b ** ?"⟩ ∧
      compile { termKey := .terms, openEnded := true, escape := .custom ['*'] } {
        params := { page := some 2 }
        query := { rules := some [
          ⟨some (.one "kind"), some .and, [.literal "*", .group [⟨none, some .not, [.literal "a", .literal "b ** ?"], false⟩]],
            false⟩,
          ⟨some (.many []), none, [.literal "?"], false⟩] } } = .error ⟨"**", "b ** ?"⟩ := by
  have h := ((compile_error_exact {} { query := { rules := some [
    ⟨some (.one "kind"), some .and, [.literal "*", .group [⟨none, some .not, [.literal "a", .literal "b ** ?"], false⟩]], false⟩,
    ⟨some (.many []), none, [.literal "?"], false⟩] } }).2.1 ⟨"**", "b ** ?"⟩).2
    ⟨["a"], ["?"], by decide, by decide, [['b']], [['?']], by decide, by decide, by decide⟩
  exact ⟨h, ((compile_error_exact {} _).2.2 _ _ rfl rfl ⟨"**", "b ** ?"⟩).2 h⟩

end SearchRules
