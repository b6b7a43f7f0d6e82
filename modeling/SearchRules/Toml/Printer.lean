import SearchRules.Data.Basic
import SearchRules.Decimal.Shortest
import SearchRules.Toml.Lexical

/-!
# Writing TOML

A record becomes a table: first a line for each member that is no table, then the members that are tables, each under a header
after a blank line. A member is a table if it is a record, and a list of tables if it is a list of records and not empty. A list
of two or more items has a line for each of them. Keys are taken to need no quotes.

A string is written in the first form that holds it without an escape, and with escapes if none does.
-/

namespace SearchRules.Toml

/-- Numbers are always written out. -/
def floatLayout : FloatLayout where
  positional _ := true
  tie := .up

/-- A number. -/
def floatText : Binary64 → List Char
  | .finite x => floatLayout.text x
  | .infinite negative => (if negative then ['-'] else []) ++ ['i', 'n', 'f']
  | .nan => ['n', 'a', 'n']

/-- A control character that no form without escapes holds. -/
def needsEscape (c : Char) : Bool :=
  isControl c && c != '\n'

/-- Whether a text holds a run of three or more of a character. -/
def hasTriple (q : Char) : List Char → Bool
  | a :: b :: c :: r => (a == q && b == q && c == q) || hasTriple q (b :: c :: r)
  | _ => false

/-- The upper-case hexadecimal digit of a number below sixteen. -/
def hexDigit (n : Nat) : Char :=
  (Nat.digitChar n).toUpper

/-- A character of a basic string that is neither a quote nor a line end. -/
def charText (c : Char) : List Char :=
  if c = '\\' then ['\\', '\\']
  else if c.toNat = 0x08 then ['\\', 'b']
  else if c = '\t' then ['\\', 't']
  else if c.toNat = 0x0C then ['\\', 'f']
  else if c = '\r' then ['\\', 'r']
  else if isControl c then ['\\', 'u', '0', '0', hexDigit (c.toNat / 16), hexDigit (c.toNat % 16)]
  else [c]

/-- A character of a basic string on one line. -/
def basicChar (c : Char) : List Char :=
  if c = '"' then ['\\', '"'] else if c = '\n' then ['\\', 'n'] else charText c

/-- The characters of a basic string on several lines, where `quotes` quotes stand in front: every third quote of a run is
escaped. -/
def basicLines (quotes : Nat) : List Char → List Char
  | [] => []
  | c :: r =>
    if c = '"' then
      if quotes = 2 then '\\' :: '"' :: basicLines 0 r else '"' :: basicLines (quotes + 1) r
    else if c = '\n' then '\n' :: basicLines 0 r
    else charText c ++ basicLines 0 r

/-- The line end put behind the opening quotes of a string on several lines, so that none of its own is lost. -/
def opening (cs : List Char) : List Char :=
  if cs.contains '\n' then ['\n'] else []

/-- The forms of a string: basic or literal, on one line or on several. -/
inductive StringForm where
  | basic | literal | basicLines | literalLines
  deriving DecidableEq, Repr

/-- The form a string is written in. -/
def formOf (cs : List Char) : StringForm :=
  let plain := !cs.any needsEscape
  let oneLine := !cs.contains '\n'
  if plain && oneLine && !cs.contains '\\' && !cs.contains '"' then .basic
  else if plain && oneLine && !cs.contains '\'' then .literal
  else if plain && !cs.contains '\\' && !hasTriple '"' cs then .basicLines
  else if plain && !hasTriple '\'' cs then .literalLines
  else if oneLine then .basic
  else .basicLines

/-- A quoted string. -/
def quoted (s : String) : List Char :=
  let cs := s.toList
  match formOf cs with
  | .basic => '"' :: (cs.flatMap basicChar ++ ['"'])
  | .literal => '\'' :: (cs ++ ['\''])
  | .basicLines => ['"', '"', '"'] ++ opening cs ++ basicLines 0 cs ++ ['"', '"', '"']
  | .literalLines => ['\'', '\'', '\''] ++ opening cs ++ cs ++ ['\'', '\'', '\'']

mutual

/-- A value on the right of a key. -/
def valueText : Data → List Char
  | .null | .unreadable | .invalid => ['"', '"']
  | .bool true => ['t', 'r', 'u', 'e']
  | .bool false => ['f', 'a', 'l', 's', 'e']
  | .int i => intText i
  | .float x => floatText x
  | .string s => quoted s
  | .list [] => ['[', ']']
  | .list [d] => '[' :: (valueText d ++ [']'])
  | .list ds => '[' :: '\n' :: itemLines ds
  | .record [] => ['{', '}']
  | .record ((k, d) :: ms) => '{' :: ' ' :: (k.toList ++ ' ' :: '=' :: ' ' :: (valueText d ++ inlineMembers ms))

/-- The lines of the items of a list, and the end of the list. -/
def itemLines : List Data → List Char
  | [] => [']']
  | d :: ds => List.replicate 4 ' ' ++ valueText d ++ ',' :: '\n' :: itemLines ds

/-- The members of an inline table after its first one, and the end of the table. -/
def inlineMembers : List (String × Data) → List Char
  | [] => [' ', '}']
  | (k, d) :: ms => ',' :: ' ' :: (k.toList ++ ' ' :: '=' :: ' ' :: (valueText d ++ inlineMembers ms))

end

/-- Whether a tree is a record. -/
def isRecord : Data → Bool
  | .record _ => true
  | _ => false

/-- Whether a member is written as a table or a list of tables. -/
def isSection : Data → Bool
  | .record _ => true
  | .list items => !items.isEmpty && items.all isRecord
  | _ => false

/-- The lines of the members that are no tables. -/
def plainLines : List (String × Data) → List Char
  | [] => []
  | (k, d) :: ms =>
    (if isSection d then [] else k.toList ++ ' ' :: '=' :: ' ' :: (valueText d ++ ['\n'])) ++ plainLines ms

/-- The path of a table, its parts parted by points. -/
def pathText (path : List String) : List Char :=
  (String.intercalate "." path).toList

mutual

/-- The members that are tables, in a table of the given path. -/
def sections (path : List String) : List (String × Data) → List Char
  | [] => []
  | (k, .record inner) :: ms =>
    '\n' :: '[' :: (pathText (path ++ [k]) ++ ']' :: '\n' :: (plainLines inner ++ sections (path ++ [k]) inner)) ++
      sections path ms
  | (k, .list items) :: ms =>
    (if isSection (.list items) then tables (path ++ [k]) items else []) ++ sections path ms
  | _ :: ms => sections path ms

/-- The tables of a list of tables of the given path. -/
def tables (path : List String) : List Data → List Char
  | [] => []
  | .record inner :: ds =>
    '\n' :: '[' :: '[' :: (pathText path ++ ']' :: ']' :: '\n' :: (plainLines inner ++ sections path inner)) ++
      tables path ds
  | _ :: ds => tables path ds

end

/-- The document of a record. -/
def document : Data → List Char
  | .record members => plainLines members ++ sections [] members
  | _ => []

/-- A record as a TOML document. -/
def print (d : Data) : String :=
  String.ofList (document d)

end SearchRules.Toml
