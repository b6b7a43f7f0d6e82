import SearchRules.Json.Number

/-!
# Reading JSON

A text is one value between blanks, and nothing else. The grammar is the strict one: no commas to spare, no control characters
inside strings. What the grammar admits but no tree holds is read as unreadable: half of a surrogate pair in a string, a
number out of range, a container with 127 containers around it.
-/

namespace SearchRules.Json

/-- The blanks between tokens. -/
def isSpace (c : Char) : Bool :=
  c == ' ' || c == '\t' || c == '\n' || c == '\r'

/-- A text without the blanks in front. -/
def skipSpace (cs : List Char) : List Char :=
  cs.dropWhile isSpace

/-- The value of four hexadecimal digits. -/
def hexUnit? (a b c d : Char) : Option Nat := do
  some ((((← hexValue? a) * 16 + (← hexValue? b)) * 16 + (← hexValue? c)) * 16 + (← hexValue? d))

/-- The character of an escape other than `\u`. -/
def escaped? (c : Char) : Option Char :=
  if c = '"' ∨ c = '\\' ∨ c = '/' then some c
  else if c = 'b' then some (Char.ofNat 0x08)
  else if c = 'f' then some (Char.ofNat 0x0C)
  else if c = 'n' then some '\n'
  else if c = 'r' then some '\r'
  else if c = 't' then some '\t'
  else none

/-- Whether a UTF-16 unit is the first half of a surrogate pair. -/
def isHighSurrogate (n : Nat) : Bool :=
  0xD800 ≤ n && n < 0xDC00

/-- Whether a UTF-16 unit is the second half of a surrogate pair. -/
def isLowSurrogate (n : Nat) : Bool :=
  0xDC00 ≤ n && n < 0xE000

/-- The character of a surrogate pair. -/
def ofSurrogates (high low : Nat) : Char :=
  Char.ofNat (0x10000 + (high - 0xD800) * 0x400 + (low - 0xDC00))

/-- The outcome of reading a string with a character put in front. A string whose halves do not pair has no characters. -/
def withChar (paired : Bool) (c : Char) : Option (List Char) × List Char → Option (List Char) × List Char
  | (s, rest) => (if paired then s.map (c :: ·) else none, rest)

/-- What is left of a string, up to its closing quote, and the text after it, where `half` is the first half of a surrogate
pair just read. A string that holds half of a surrogate pair is read to its end and has no characters. -/
def stringTail (half : Option Nat) : List Char → Option (Option (List Char) × List Char)
  | [] => none
  | '"' :: r => some (if half.isNone then some [] else none, r)
  | '\\' :: 'u' :: a :: b :: c :: d :: r =>
    match hexUnit? a b c d with
    | none => none
    | some unit =>
      if isHighSurrogate unit then
        (stringTail (some unit) r).map fun (s, rest) => (if half.isNone then s else none, rest)
      else if isLowSurrogate unit then
        (stringTail none r).map (withChar half.isSome (ofSurrogates (half.getD 0) unit))
      else (stringTail none r).map (withChar half.isNone (Char.ofNat unit))
  | '\\' :: c :: r =>
    match escaped? c with
    | none => none
    | some e => (stringTail none r).map (withChar half.isNone e)
  | c :: r => if c.toNat < 0x20 then none else (stringTail none r).map (withChar half.isNone c)

/-- A string with the characters read, if they are characters throughout. -/
def stringValue : Option (List Char) → Data
  | none => .unreadable
  | some cs => .string (String.ofList cs)

/-- The record of a list of members, unless one of the keys has no characters. -/
def recordValue (members : List (Option String × Data)) : Data :=
  match members.mapM fun (k, d) => k.map fun k => (k, d) with
  | none => .unreadable
  | some members => .record members

/-- A container, unless there is no room for one more around its content. -/
def container (room : Nat) (d : Data) : Data :=
  if room = 0 then .unreadable else d

mutual

/-- A value, with `room` containers still allowed. -/
def value (fuel room : Nat) (cs : List Char) : Option (Data × List Char) :=
  match fuel with
  | 0 => none
  | fuel + 1 =>
    match skipSpace cs with
    | 'n' :: 'u' :: 'l' :: 'l' :: r => some (.null, r)
    | 't' :: 'r' :: 'u' :: 'e' :: r => some (.bool true, r)
    | 'f' :: 'a' :: 'l' :: 's' :: 'e' :: r => some (.bool false, r)
    | '"' :: r => (stringTail none r).map fun (s, rest) => (stringValue s, rest)
    | '[' :: r =>
      match skipSpace r with
      | ']' :: r => some (container room (.list []), r)
      | r => do
        let (d, r) ← value fuel (room - 1) r
        let (ds, r) ← moreItems fuel (room - 1) r
        some (container room (.list (d :: ds)), r)
    | '{' :: r =>
      match skipSpace r with
      | '}' :: r => some (container room (.record []), r)
      | r => do
        let (m, r) ← member fuel (room - 1) r
        let (ms, r) ← moreMembers fuel (room - 1) r
        some (container room (recordValue (m :: ms)), r)
    | r => (numberLiteral r).map fun (l, rest) => (l.value, rest)

/-- The items of a list after its first one, and the end of the list. -/
def moreItems (fuel room : Nat) (cs : List Char) : Option (List Data × List Char) :=
  match fuel with
  | 0 => none
  | fuel + 1 =>
    match skipSpace cs with
    | ']' :: r => some ([], r)
    | ',' :: r => do
      let (d, r) ← value fuel room r
      let (ds, r) ← moreItems fuel room r
      some (d :: ds, r)
    | _ => none

/-- A member of a record. Its key is `none` when it has no characters. -/
def member (fuel room : Nat) (cs : List Char) : Option ((Option String × Data) × List Char) :=
  match fuel with
  | 0 => none
  | fuel + 1 =>
    match skipSpace cs with
    | '"' :: r => do
      let (k, r) ← stringTail none r
      match skipSpace r with
      | ':' :: r => do
        let (d, r) ← value fuel room r
        some ((k.map String.ofList, d), r)
      | _ => none
    | _ => none

/-- The members of a record after its first one, and the end of the record. -/
def moreMembers (fuel room : Nat) (cs : List Char) : Option (List (Option String × Data) × List Char) :=
  match fuel with
  | 0 => none
  | fuel + 1 =>
    match skipSpace cs with
    | '}' :: r => some ([], r)
    | ',' :: r => do
      let (m, r) ← member fuel room r
      let (ms, r) ← moreMembers fuel room r
      some (m :: ms, r)
    | _ => none

end

/-- How many containers may stand inside one another. -/
def maxDepth : Nat := 127

/-- The tree a JSON text stands for. Every call reads a character before it calls again, so twice the length of the text is
fuel enough. -/
def read? (text : String) : Option Data :=
  let cs := text.toList
  match value (2 * cs.length + 2) maxDepth cs with
  | some (d, r) => if (skipSpace r).isEmpty then some d else none
  | none => none

end SearchRules.Json
