import SearchRules.Toml.Scalar
import SearchRules.Toml.Table

/-!
# Reading TOML

A document is a sequence of lines: keys with their values, headers that say which table the keys below them belong to, blank
lines and comments. Lists and inline tables may run over several lines and may end in a comma. How deep a document may go is
bounded: a key has so many parts, and so many lists and inline tables stand inside one another.
-/

namespace SearchRules.Toml

/-- A character of a key without quotes. -/
def isBareChar (c : Char) : Bool :=
  c.isAlphanum || c == '-' || c == '_'

/-- One part of a key: bare, or a string on one line. -/
def keyPart : List Char → Option (String × List Char)
  | '"' :: r => (basicTail r).map fun (s, rest) => (String.ofList s, rest)
  | '\'' :: r => (literalTail r).map fun (s, rest) => (String.ofList s, rest)
  | cs =>
    let part := cs.takeWhile isBareChar
    if part.isEmpty then none else some (String.ofList part, cs.dropWhile isBareChar)

/-- The parts of a key, of which there are at most `room`, parted by points, and the text after the blanks behind it. -/
def keyParts : (room : Nat) → List Char → Option (List String × List Char)
  | 0, _ => none
  | room + 1, cs => do
    let (part, r) ← keyPart (skipSpace cs)
    match skipSpace r with
    | '.' :: r => do
      let (parts, r) ← keyParts room r
      some (part :: parts, r)
    | r => some ([part], r)

/-- How many parts a key may have, and how many lists and inline tables may stand inside one another. -/
def maxDepth : Nat := 80

/-- A key: the path that leads to it, the key itself, and the text after the blanks behind it. -/
def key (cs : List Char) : Option ((List String × String) × List Char) := do
  let (parts, r) ← keyParts maxDepth cs
  some ((parts.dropLast, ← parts.getLast?), r)

mutual

/-- A value, with `room` lists and inline tables still allowed. -/
def value (fuel room : Nat) (cs : List Char) : Option (Data × List Char) :=
  match fuel with
  | 0 => none
  | fuel + 1 =>
    match cs with
    | '"' :: _ | '\'' :: _ => (stringLiteral cs).map fun (s, rest) => (.string (String.ofList s), rest)
    | '[' :: r =>
      if room = 0 then none
      else (items fuel (room - 1) r).map fun (ds, rest) => (.list ds, rest)
    | '{' :: r =>
      if room = 0 then none
      else (pairs fuel (room - 1) [] r).map fun (t, rest) => (.record (Table.toMembers t), rest)
    | cs => scalar cs

/-- The items of a list that are left, and the end of the list. -/
def items (fuel room : Nat) (cs : List Char) : Option (List Data × List Char) :=
  match fuel with
  | 0 => none
  | fuel + 1 => do
    match ← skipLines cs with
    | ']' :: r => some ([], r)
    | r => do
      let (d, r) ← value fuel room r
      match ← skipLines r with
      | ',' :: r => (items fuel room r).map fun (ds, rest) => (d :: ds, rest)
      | ']' :: r => some ([d], r)
      | _ => none

/-- An inline table with the pairs that are left, and the end of the table. Line ends may stand on either side of the sign
between a key and its value. -/
def pairs (fuel room : Nat) (t : Table) (cs : List Char) : Option (Table × List Char) :=
  match fuel with
  | 0 => none
  | fuel + 1 => do
    match ← skipLines cs with
    | '}' :: r => some (t, r)
    | r => do
      let ((path, k), r) ← key r
      match ← skipLines r with
      | '=' :: r => do
        let (d, r) ← value fuel room (← skipLines r)
        let t ← t.assign path k d
        match ← skipLines r with
        | ',' :: r => pairs fuel room t r
        | '}' :: r => some (t, r)
        | _ => none
      | _ => none

end

/-- A document in the making: the header the next keys belong to, and the table so far. -/
structure Draft where
  header : List String := []
  table : Table := []

/-- The document with a header read, of which the opening bracket is read. -/
def Draft.header? (d : Draft) (cs : List Char) : Option (Draft × List Char) := do
  let ((path, k), r) ← key cs
  match r with
  | ']' :: r => some (⟨path ++ [k], ← d.table.openTable path k⟩, ← lineEnd r)
  | _ => none

/-- The document with a header in double brackets read, of which the opening brackets are read. -/
def Draft.listHeader? (d : Draft) (cs : List Char) : Option (Draft × List Char) := do
  let ((path, k), r) ← key cs
  match r with
  | ']' :: ']' :: r => some (⟨path ++ [k], ← d.table.addTable path k⟩, ← lineEnd r)
  | _ => none

/-- The document with a key and its value read. -/
def Draft.pair? (d : Draft) (cs : List Char) : Option (Draft × List Char) := do
  let ((path, k), r) ← key cs
  match r with
  | '=' :: r => do
    let (v, r) ← value (2 * r.length + 2) maxDepth (skipSpace r)
    some ({ d with table := ← d.table.assignBelow d.header path k v }, ← lineEnd r)
  | _ => none

/-- The document with the lines that are left. -/
def Draft.lines? (d : Draft) (fuel : Nat) (cs : List Char) : Option Draft :=
  match fuel with
  | 0 => none
  | fuel + 1 => do
    match ← skipLines cs with
    | [] => some d
    | '[' :: '[' :: r => do
      let (d, r) ← d.listHeader? r
      d.lines? fuel r
    | '[' :: r => do
      let (d, r) ← d.header? r
      d.lines? fuel r
    | r => do
      let (d, r) ← d.pair? r
      d.lines? fuel r

/-- A text without a byte-order mark in front. -/
def skipMark : List Char → List Char
  | c :: r => if c.toNat = 0xFEFF then r else c :: r
  | [] => []

/-- The tree a TOML document stands for. Every line has a character, so the length of the text is fuel enough. -/
def read? (text : String) : Option Data :=
  let cs := skipMark text.toList
  (Draft.lines? {} (cs.length + 1) cs).map fun d => .record (Table.toMembers d.table)

end SearchRules.Toml
