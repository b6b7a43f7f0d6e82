import SearchRules.Data.Basic

/-!
# Reading typed values from data

A reader takes a tree of data to a typed value, or refuses it. A record type is read from a record, each of whose known keys
occurs at most once and whose other keys are skipped, or from a list of its fields in their order. Trailing fields of such a
list may be missing; surplus items, where the notation allows them, are not looked at. A named constant is read from its name,
or from a record that holds an empty payload under its name.
-/

namespace SearchRules.Data

/-- What parts the two notations when typed values are read from their data. -/
structure Convention where
  /-- Whether a tree may stand as the empty payload of a named constant. -/
  emptyPayload : Data → Bool
  /-- Whether a list may hold more items than the record type it stands for has fields. -/
  surplusItems : Bool

/-- Data written in JSON: the empty payload is null. -/
def Convention.json : Convention where
  emptyPayload
    | .null => true
    | _ => false
  surplusItems := false

/-- Data written in TOML, which has no null: the empty payload is an empty list or an empty record. -/
def Convention.toml : Convention where
  emptyPayload
    | .list [] => true
    | .record [] => true
    | _ => false
  surplusItems := true

/-- A string. -/
def string? : Data → Option String
  | .string s => some s
  | _ => none

/-- A string of one character. -/
def char? : Data → Option Char
  | .string s =>
    match s.toList with
    | [c] => some c
    | _ => none
  | _ => none

/-- A truth value. -/
def bool? : Data → Option Bool
  | .bool b => some b
  | _ => none

/-- A natural number below a bound. -/
def nat? (bound : Nat) : Data → Option Nat
  | .int i => if 0 ≤ i ∧ i < bound then some i.toNat else none
  | _ => none

/-- A natural number that fits 64 bits. -/
def uint64? (d : Data) : Option UInt64 :=
  (d.nat? UInt64.size).map UInt64.ofNat

/-- A natural number that fits 32 bits. -/
def uint32? (d : Data) : Option UInt32 :=
  (d.nat? UInt32.size).map UInt32.ofNat

/-- A binary64 number; an integer is rounded to the nearest one. -/
def float? : Data → Option Binary64
  | .float x => some x
  | .int i => some (Binary64.ofInt i)
  | _ => none

/-- A list, each item of which is read the same way. -/
def list? (read : Data → Option α) : Data → Option (List α)
  | .list items => items.mapM read
  | _ => none

/-- A value that null leaves out. -/
def nullable? (read : Data → Option α) : Data → Option (Option α)
  | .null => some none
  | d => (read d).map some

/-- One of a list of named constants. -/
def constant? (convention : Convention) (constants : List (String × α)) : Data → Option α
  | .string s => constants.lookup s
  | .record [(key, payload)] => if convention.emptyPayload payload then constants.lookup key else none
  | _ => none

/-- Whether no key occurs twice. -/
def distinctKeys : List (String × Data) → Bool
  | [] => true
  | (k, _) :: ms => !(ms.map (·.1)).contains k && distinctKeys ms

/-- The known members of a record type with the given keys, if the others may be skipped. -/
def members? (convention : Convention) (keys : List String) : Data → Option (List (String × Data))
  | .record ms =>
    let (known, others) := ms.partition fun m => keys.contains m.1
    if distinctKeys known && others.all (·.2.skippable) then some known else none
  | .list items =>
    if items.length ≤ keys.length || convention.surplusItems then some (keys.zip items) else none
  | _ => none

/-- The field under a key, or its default when there is no such member. -/
def field? (key : String) (default : α) (read : Data → Option α) (members : List (String × Data)) : Option α :=
  match members.lookup key with
  | none => some default
  | some d => read d

end SearchRules.Data
