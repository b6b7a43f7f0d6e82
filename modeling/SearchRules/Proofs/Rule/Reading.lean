import Mathlib.Logic.Basic
import SearchRules.Rule.Basic

/-!
# What a list of rules says

A list of rules is read without composing it. Each rule is judged by the truth of its literals and of its groups, a group being
read like the list it holds; `Judgement.hold` says when rules judged in this way hold together. Which groups count is left open:
`Rule.anyLiteralIn` picks out those that say something at all.
-/

namespace SearchRules

/-- The text of a value that is a literal. -/
def Value.literal? : Value → Option String
  | .literal text => some text
  | .group _ => none

/-- The literals of a rule, in order. -/
def Rule.literals (r : Rule) : List String :=
  r.values.filterMap Value.literal?

mutual

/-- Whether a value is a literal or a group with a literal somewhere in it. -/
def Value.anyLiteral : Value → Bool
  | .literal _ => true
  | .group rs => Rule.anyLiteralIn rs

/-- Whether there is a literal among values or anywhere in their groups. -/
def Value.anyLiteralIn : List Value → Bool
  | [] => false
  | v :: vs => v.anyLiteral || Value.anyLiteralIn vs

/-- Whether there is a literal anywhere in a rule. -/
def Rule.anyLiteral : Rule → Bool
  | ⟨_, _, values, _⟩ => Value.anyLiteralIn values

/-- Whether there is a literal anywhere in a list of rules. -/
def Rule.anyLiteralIn : List Rule → Bool
  | [] => false
  | r :: rs => r.anyLiteral || Rule.anyLiteralIn rs

end

/-- A rule with the truth of each of its literals and of each of its groups that counts. -/
structure Judgement where
  rule : Rule
  literals : List Bool
  groups : List Bool

namespace Judgement

/-- All that is judged of a rule. -/
def parts (j : Judgement) : List Bool :=
  j.literals ++ j.groups

/-- Whether a rule holds on its own: AND asks for everything, NOT for nothing, and a rule without an operator for one of its
literals and for every group. OR and XOR ask nothing on their own. -/
def met (j : Judgement) : Bool :=
  match j.rule.operator with
  | some .and => j.parts.all id
  | some .not => !j.parts.any id
  | none => (j.literals.isEmpty || j.literals.any id) && j.groups.all id
  | some .or | some .xor => true

/-- What an OR or XOR rule adds to the alternatives of its list. -/
def alternatives (j : Judgement) : List Bool :=
  match j.rule.operator with
  | some .or | some .xor => j.parts
  | _ => []

/-- Whether a rule makes the alternatives of its list exclusive. -/
def exclusive (j : Judgement) : Bool :=
  j.rule.operator == some .xor && !j.rule.values.isEmpty

/-- Whether something must match because of a rule. -/
def demanding (j : Judgement) : Bool :=
  j.rule.scope == .must && !j.parts.isEmpty

/-- Whether rules hold together: each on its own, and of the alternatives, if there are any, some but not all where a rule makes
them exclusive, and one where nothing must match. Where something must match the alternatives are left to chance. -/
def hold (js : List Judgement) : Bool :=
  let alternatives := js.flatMap alternatives
  js.all met && (alternatives.isEmpty ||
    if js.any exclusive then alternatives.any id && !alternatives.all id
    else js.any demanding || alternatives.any id)

end Judgement

mutual

/-- The truth of a value that is a group that counts. -/
def Value.judge (truth : Rule → String → Bool) (counts : List Rule → Bool) : Value → Option Bool
  | .literal _ => none
  | .group rs => if counts rs then some (Judgement.hold (Rule.judgeAll truth counts rs)) else none

/-- The truth of each group that counts among values. -/
def Value.judgeAll (truth : Rule → String → Bool) (counts : List Rule → Bool) : List Value → List Bool
  | [] => []
  | v :: vs => (v.judge truth counts).toList ++ Value.judgeAll truth counts vs

/-- The judgement of a rule, given the truth of each literal of a rule and which groups count. -/
def Rule.judge (truth : Rule → String → Bool) (counts : List Rule → Bool) : Rule → Judgement
  | ⟨field, operator, values, isKeyword⟩ =>
    let r : Rule := ⟨field, operator, values, isKeyword⟩
    ⟨r, r.literals.map (truth r), Value.judgeAll truth counts values⟩

/-- The judgements of a list of rules. -/
def Rule.judgeAll (truth : Rule → String → Bool) (counts : List Rule → Bool) : List Rule → List Judgement
  | [] => []
  | r :: rs => r.judge truth counts :: Rule.judgeAll truth counts rs

end

/-- Whether a list of rules holds, given the truth of each literal of a rule and which groups count. -/
def Rule.hold (truth : Rule → String → Bool) (counts : List Rule → Bool) (rs : List Rule) : Bool :=
  Judgement.hold (Rule.judgeAll truth counts rs)

theorem Rule.judge_eq (truth : Rule → String → Bool) (counts : List Rule → Bool) (r : Rule) :
    r.judge truth counts = ⟨r, r.literals.map (truth r), Value.judgeAll truth counts r.values⟩ := by
  obtain ⟨field, operator, values, isKeyword⟩ := r
  rw [Rule.judge]

/-! ## Scope by scope -/

namespace Judgement

/-- What a rule asks of a scope, as truths: the literals of a rule without an operator count as one. -/
def truths (s : Scope) (j : Judgement) : List Bool :=
  if j.rule.scope = s then
    match j.rule.operator with
    | none => (if j.literals.isEmpty then [] else [j.literals.any id]) ++ j.groups
    | some _ => j.parts
  else []

/-- A rule is met when all it asks to match does and nothing it asks not to. -/
theorem met_eq (j : Judgement) : j.met = ((j.truths .must).all id && !(j.truths .mustNot).any id) := by
  obtain ⟨⟨field, operator, values, isKeyword⟩, literals, groups⟩ := j
  match operator with
  | none => cases literals <;> simp [met, truths, Rule.scope]
  | some .and => simp [met, truths, Rule.scope, Operator.scope]
  | some .or => simp [met, truths, Rule.scope, Operator.scope]
  | some .not => simp [met, truths, Rule.scope, Operator.scope]
  | some .xor => simp [met, truths, Rule.scope, Operator.scope]

theorem alternatives_eq (j : Judgement) : j.alternatives = j.truths .should := by
  obtain ⟨⟨field, operator, values, isKeyword⟩, literals, groups⟩ := j
  match operator with
  | none => simp [alternatives, truths, Rule.scope]
  | some .and => simp [alternatives, truths, Rule.scope, Operator.scope]
  | some .or => simp [alternatives, truths, Rule.scope, Operator.scope]
  | some .not => simp [alternatives, truths, Rule.scope, Operator.scope]
  | some .xor => simp [alternatives, truths, Rule.scope, Operator.scope]

/-- A rule asks something of its own scope when there is something to judge of it. -/
theorem truths_scope_eq_nil_iff (j : Judgement) : j.truths j.rule.scope = [] ↔ j.parts = [] := by
  obtain ⟨⟨field, operator, values, isKeyword⟩, literals, groups⟩ := j
  cases operator <;> cases literals <;> simp [truths, parts]

theorem truths_of_ne {j : Judgement} {s : Scope} (h : j.rule.scope ≠ s) : j.truths s = [] := by
  rw [truths, if_neg h]

theorem demanding_eq (j : Judgement) : j.demanding = !(j.truths .must).isEmpty := by
  by_cases h : j.rule.scope = .must
  · have hp := truths_scope_eq_nil_iff j
    rw [h] at hp
    rw [demanding, h, Bool.eq_iff_iff]
    simp [hp]
  · rw [demanding, truths_of_ne h]
    simp [h]

/-- A rule asks something of some scope when there is something to judge of it. -/
theorem exists_truths_ne_nil_iff (j : Judgement) : (∃ s, j.truths s ≠ []) ↔ j.parts ≠ [] := by
  constructor
  · rintro ⟨s, hs⟩ hp
    by_cases h : j.rule.scope = s
    · exact hs (h ▸ (truths_scope_eq_nil_iff j).2 hp)
    · exact hs (truths_of_ne h)
  · intro hp
    exact ⟨j.rule.scope, fun h => hp ((truths_scope_eq_nil_iff j).1 h)⟩

/-- A rule of which there is nothing to judge asks nothing of any scope. -/
theorem truths_eq_nil {j : Judgement} (h : j.parts = []) (s : Scope) : j.truths s = [] := by
  by_cases hs : j.truths s = []
  · exact hs
  · exact absurd h ((exists_truths_ne_nil_iff j).1 ⟨s, hs⟩)

theorem all_met_eq (js : List Judgement) :
    js.all met = ((js.flatMap (truths .must)).all id && !(js.flatMap (truths .mustNot)).any id) := by
  induction js with
  | nil => rfl
  | cons j js ih =>
    rw [List.all_cons, ih, met_eq]
    simp only [List.flatMap_cons, List.all_append, List.any_append, Bool.not_or]
    ac_rfl

theorem any_demanding_eq (js : List Judgement) : js.any demanding = !(js.flatMap (truths .must)).isEmpty := by
  induction js with
  | nil => rfl
  | cons j js ih =>
    rw [List.any_cons, ih, demanding_eq, List.flatMap_cons]
    cases j.truths .must <;> simp

/-- Rules hold together when what they ask of each scope is true of it. -/
theorem hold_eq (js : List Judgement) :
    hold js = ((js.flatMap (truths .must)).all id && !(js.flatMap (truths .mustNot)).any id &&
      ((js.flatMap (truths .should)).isEmpty ||
        if js.any exclusive then (js.flatMap (truths .should)).any id && !(js.flatMap (truths .should)).all id
        else !(js.flatMap (truths .must)).isEmpty || (js.flatMap (truths .should)).any id)) := by
  rw [hold, funext alternatives_eq, all_met_eq, any_demanding_eq]

end Judgement

/-- A list of values holds a literal when there is something to judge of it, groups that say nothing left out. -/
theorem Value.anyLiteralIn_eq (truth : Rule → String → Bool) (vs : List Value) :
    Value.anyLiteralIn vs =
      (!(vs.filterMap Value.literal?).isEmpty || !(Value.judgeAll truth Rule.anyLiteralIn vs).isEmpty) := by
  induction vs with
  | nil => rfl
  | cons v vs ih =>
    cases v with
    | literal text => simp [Value.anyLiteralIn, Value.anyLiteral, Value.literal?]
    | group rs =>
      rw [Value.anyLiteralIn, Value.anyLiteral, ih, Value.judgeAll, Value.judge]
      cases Rule.anyLiteralIn rs <;> simp [Value.literal?, List.filterMap_cons]

/-- A list of rules holds a literal when some scope is asked for something. -/
theorem Rule.anyLiteralIn_iff (truth : Rule → String → Bool) (rs : List Rule) :
    Rule.anyLiteralIn rs = true ↔
      ∃ s, (Rule.judgeAll truth Rule.anyLiteralIn rs).flatMap (Judgement.truths s) ≠ [] := by
  induction rs with
  | nil => simp [Rule.anyLiteralIn, Rule.judgeAll]
  | cons r rs ih =>
    simp only [Rule.judgeAll, List.flatMap_cons, ne_eq, List.append_eq_nil_iff, not_and_or, exists_or]
    rw [Rule.anyLiteralIn, Bool.or_eq_true, ih]
    refine or_congr ?_ Iff.rfl
    rw [Judgement.exists_truths_ne_nil_iff, Rule.judge_eq]
    obtain ⟨field, operator, values, isKeyword⟩ := r
    rw [Rule.anyLiteral, Value.anyLiteralIn_eq truth]
    simp only [Judgement.parts, Rule.literals, ne_eq, List.append_eq_nil_iff, List.map_eq_nil_iff, not_and_or,
      Bool.or_eq_true, Bool.not_eq_true', List.isEmpty_eq_false_iff]

end SearchRules
