import SearchRules.Data.Basic
import SearchRules.Decimal.Shortest
import SearchRules.Text.Digits

/-!
# Writing JSON

Two layouts of one tree: compact, without any blank, and pretty, with one item a line and two blanks of indentation a level.
Characters are written as they are, except the quote, the backslash and the control characters below the blank.
-/

namespace SearchRules.Json

/-- Numbers stay positional from `0.00001` up to sixteen places before the point. -/
def floatLayout : FloatLayout where
  positional lead := -5 ≤ lead && lead < 16
  tie := .even

/-- The lower-case hexadecimal digit of a number below sixteen. -/
def hexDigit (n : Nat) : Char :=
  Nat.digitChar n

/-- A character inside a quoted string. -/
def charText (c : Char) : List Char :=
  if c = '"' then ['\\', '"']
  else if c = '\\' then ['\\', '\\']
  else if c.toNat = 0x08 then ['\\', 'b']
  else if c.toNat = 0x0C then ['\\', 'f']
  else if c = '\n' then ['\\', 'n']
  else if c = '\r' then ['\\', 'r']
  else if c = '\t' then ['\\', 't']
  else if c.toNat < 0x20 then ['\\', 'u', '0', '0', hexDigit (c.toNat / 16), hexDigit (c.toNat % 16)]
  else [c]

/-- A quoted string. -/
def quoted (s : String) : List Char :=
  '"' :: (s.toList.flatMap charText ++ ['"'])

/-- A number. What is not finite has no text of its own and is written as null. -/
def floatText : Binary64 → List Char
  | .finite x => floatLayout.text x
  | _ => ['n', 'u', 'l', 'l']

mutual

/-- A tree without blanks. -/
def compactText : Data → List Char
  | .null | .unreadable | .invalid => ['n', 'u', 'l', 'l']
  | .bool true => ['t', 'r', 'u', 'e']
  | .bool false => ['f', 'a', 'l', 's', 'e']
  | .int i => intText i
  | .float x => floatText x
  | .string s => quoted s
  | .list [] => ['[', ']']
  | .list (d :: ds) => '[' :: (compactText d ++ compactItems ds)
  | .record [] => ['{', '}']
  | .record ((k, d) :: ms) => '{' :: (quoted k ++ ':' :: (compactText d ++ compactMembers ms))

/-- The items of a list after its first one, and the end of the list. -/
def compactItems : List Data → List Char
  | [] => [']']
  | d :: ds => ',' :: (compactText d ++ compactItems ds)

/-- The members of a record after its first one, and the end of the record. -/
def compactMembers : List (String × Data) → List Char
  | [] => ['}']
  | (k, d) :: ms => ',' :: (quoted k ++ ':' :: (compactText d ++ compactMembers ms))

end

/-- The start of a line at a level. -/
def newLine (level : Nat) : List Char :=
  '\n' :: List.replicate (2 * level) ' '

mutual

/-- A tree in the pretty layout, begun at a level. -/
def prettyText (level : Nat) : Data → List Char
  | .list [] => ['[', ']']
  | .list (d :: ds) => '[' :: (newLine (level + 1) ++ prettyText (level + 1) d ++ prettyItems level ds)
  | .record [] => ['{', '}']
  | .record ((k, d) :: ms) =>
    '{' :: (newLine (level + 1) ++ quoted k ++ ':' :: ' ' :: (prettyText (level + 1) d ++ prettyMembers level ms))
  | d => compactText d

/-- The items of a list after its first one, and the end of the list. -/
def prettyItems (level : Nat) : List Data → List Char
  | [] => newLine level ++ [']']
  | d :: ds => ',' :: (newLine (level + 1) ++ prettyText (level + 1) d ++ prettyItems level ds)

/-- The members of a record after its first one, and the end of the record. -/
def prettyMembers (level : Nat) : List (String × Data) → List Char
  | [] => newLine level ++ ['}']
  | (k, d) :: ms =>
    ',' :: (newLine (level + 1) ++ quoted k ++ ':' :: ' ' :: (prettyText (level + 1) d ++ prettyMembers level ms))

end

/-- A tree as compact JSON. -/
def compact (d : Data) : String :=
  String.ofList (compactText d)

/-- A tree as pretty JSON. -/
def pretty (d : Data) : String :=
  String.ofList (prettyText 0 d)

end SearchRules.Json
