import SearchRules.Data.Decode
import SearchRules.Json.Printer
import SearchRules.Rule.Basic

/-!
# Rules as data

What a front end writes for a rule is lenient. Every field may be missing or null, null entries of the values are dropped, a
number or a truth value stands for its text, and a single rule stands for the group that holds it. A rule is written as a
record, or as the list of its fields in their order. A list among the values is a group of rules if each of its items is a
rule, and a single rule otherwise.

The values of a rule are read whole before they are taken apart, so nothing inside them is skipped: a part without a value is
refused wherever it stands.
-/

namespace SearchRules

/-- The names of the operators. -/
def Operator.constants : List (String × Operator) :=
  [("AND", .and), ("OR", .or), ("NOT", .not), ("XOR", .xor)]

/-- An operator as it is written. -/
def Operator.name : Operator → String
  | .and => "AND"
  | .or => "OR"
  | .not => "NOT"
  | .xor => "XOR"

/-- The operator data stands for. -/
def Operator.ofData? : Data → Option Operator :=
  Data.constant? .json Operator.constants

/-- A field reference as data. -/
def FieldRef.toData : FieldRef → Data
  | .one name => .string name
  | .many names => Data.strings names

/-- The field reference data stands for. -/
def FieldRef.ofData? : Data → Option FieldRef
  | .string name => some (.one name)
  | .list items => (items.mapM Data.string?).map .many
  | _ => none

mutual

/-- A value as data. -/
def Value.toData : Value → Data
  | .literal text => .string text
  | .group rules => .list (Rule.listData rules)

/-- A rule as data. -/
def Rule.toData : Rule → Data
  | ⟨field, operator, values, isKeyword⟩ =>
    .record (Data.optional "field" FieldRef.toData field ++
      Data.optional "operator" (fun op => .string op.name) operator ++
      [("values", .list (Value.listData values)), ("isKeyword", .bool isKeyword)])

/-- The items of a list of values. -/
def Value.listData : List Value → List Data
  | [] => []
  | v :: vs => v.toData :: Value.listData vs

/-- The items of a list of rules. -/
def Rule.listData : List Rule → List Data
  | [] => []
  | r :: rs => r.toData :: Rule.listData rs

end

/-- The fields of a rule read so far, none for one that has not occurred. -/
structure Rule.Fields where
  field : Option (Option FieldRef) := none
  operator : Option (Option Operator) := none
  values : Option (List Value) := none
  isKeyword : Option Bool := none

/-- The rule with the fields read, and the default of every other field. -/
def Rule.Fields.rule (f : Rule.Fields) : Rule where
  field := f.field.getD none
  operator := f.operator.getD none
  values := f.values.getD []
  isKeyword := f.isKeyword.getD false

/-- A truth value, false when it is null. -/
def Rule.flag? (d : Data) : Option Bool :=
  (Data.nullable? Data.bool? d).map (·.getD false)

/-- The text a number stands for as a literal. -/
def Value.numberText : Data → Option String
  | .int i => some (String.ofList (intText i))
  | .float x => some (String.ofList (Json.floatText x))
  | _ => none

mutual

/-- The rule data stands for. -/
def Rule.ofData? : Data → Option Rule
  | .record members => (Rule.ofMembers? {} members).map Rule.Fields.rule
  | .list items => Rule.ofItems? items
  | _ => none

/-- The fields of a rule, from the members of a record: a field that occurs again is refused. -/
def Rule.ofMembers? (seen : Rule.Fields) : List (String × Data) → Option Rule.Fields
  | [] => some seen
  | (key, d) :: ms =>
    if key = "field" then
      if seen.field.isSome then none
      else do Rule.ofMembers? { seen with field := some (← Data.nullable? FieldRef.ofData? d) } ms
    else if key = "operator" then
      if seen.operator.isSome then none
      else do Rule.ofMembers? { seen with operator := some (← Data.nullable? Operator.ofData? d) } ms
    else if key = "values" then
      if seen.values.isSome then none
      else do Rule.ofMembers? { seen with values := some (← Value.ofField? d) } ms
    else if key = "isKeyword" then
      if seen.isKeyword.isSome then none
      else do Rule.ofMembers? { seen with isKeyword := some (← Rule.flag? d) } ms
    else Rule.ofMembers? seen ms

/-- The rule a list of its fields stands for. -/
def Rule.ofItems? : List Data → Option Rule
  | [] => some {}
  | [f] => do some { field := ← Data.nullable? FieldRef.ofData? f }
  | [f, o] => do some { field := ← Data.nullable? FieldRef.ofData? f, operator := ← Data.nullable? Operator.ofData? o }
  | [f, o, v] => do
    some {
      field := ← Data.nullable? FieldRef.ofData? f
      operator := ← Data.nullable? Operator.ofData? o
      values := ← Value.ofField? v }
  | [f, o, v, k] => do
    some {
      field := ← Data.nullable? FieldRef.ofData? f
      operator := ← Data.nullable? Operator.ofData? o
      values := ← Value.ofField? v
      isKeyword := ← Rule.flag? k }
  | _ => none

/-- The values of a rule: none when they are null. -/
def Value.ofField? : Data → Option (List Value)
  | .null => some []
  | .list items => Value.ofItems? items
  | _ => none

/-- The values a list holds, its null entries dropped. -/
def Value.ofItems? : List Data → Option (List Value)
  | [] => some []
  | .null :: ds => Value.ofItems? ds
  | d :: ds =>
    if d.readable then do
      let v ← Value.ofData? d
      let vs ← Value.ofItems? ds
      some (v :: vs)
    else none

/-- The value data stands for. -/
def Value.ofData? : Data → Option Value
  | .string s => some (.literal s)
  | .int i => (Value.numberText (.int i)).map .literal
  | .float x => (Value.numberText (.float x)).map .literal
  | .bool b => some (.literal (if b then "true" else "false"))
  | .list items =>
    match Rule.ofList? items with
    | some rules => some (.group rules)
    | none => (Rule.ofItems? items).map fun r => .group [r]
  | .record members => (Rule.ofMembers? {} members).map fun f => .group [f.rule]
  | _ => none

/-- The rules a list holds. -/
def Rule.ofList? : List Data → Option (List Rule)
  | [] => some []
  | d :: ds => do
    let r ← Rule.ofData? d
    let rs ← Rule.ofList? ds
    some (r :: rs)

end

end SearchRules
