import SearchRules.Text.Digits

/-!
# Blanks, comments and strings of TOML

Strings come in four forms: basic and literal, each on one line or on several. A basic string has escapes, a literal string is
taken as it stands. In the forms on several lines a line end right after the opening quotes does not count, and in the basic
one a backslash at the end of a line takes the line end and the blanks after it away.
-/

namespace SearchRules.Toml

/-- A blank inside a line. -/
def isSpace (c : Char) : Bool :=
  c == ' ' || c == '\t'

/-- A text without the blanks in front. -/
def skipSpace (cs : List Char) : List Char :=
  cs.dropWhile isSpace

/-- A control character, the tab left out. -/
def isControl (c : Char) : Bool :=
  (c.toNat < 0x20 && c != '\t') || c.toNat == 0x7F

mutual

/-- A text without the blanks, line ends and comments in front, unless a comment holds a control character. -/
def skipLines : List Char → Option (List Char)
  | '\r' :: '\n' :: r => skipLines r
  | '#' :: r => skipCommentThen r
  | c :: r => if c = '\n' ∨ isSpace c then skipLines r else some (c :: r)
  | [] => some []

/-- The same, inside a comment. -/
def skipCommentThen : List Char → Option (List Char)
  | '\n' :: r => skipLines r
  | '\r' :: '\n' :: r => skipLines r
  | c :: r => if isControl c then none else skipCommentThen r
  | [] => some []

end

/-- What follows a comment, up to and with the end of its line. -/
def commentEnd : List Char → Option (List Char)
  | '\n' :: r => some r
  | '\r' :: '\n' :: r => some r
  | c :: r => if isControl c then none else commentEnd r
  | [] => some []

/-- What follows the end of a line, of which only blanks and a comment may be left. -/
def lineEnd (cs : List Char) : Option (List Char) :=
  match skipSpace cs with
  | [] => some []
  | '\n' :: r => some r
  | '\r' :: '\n' :: r => some r
  | '#' :: r => commentEnd r
  | _ => none

/-- The character whose number is written by hexadecimal digits, if there is one of that number. -/
def hexChar? (digits : List Char) : Option Char := do
  let n ← digits.foldlM (fun n c => (hexValue? c).map (16 * n + ·)) 0
  if n.isValidChar then some (Char.ofNat n) else none

/-- The character of an escape of one letter. -/
def escaped? (c : Char) : Option Char :=
  if c = '"' ∨ c = '\\' then some c
  else if c = 'b' then some (Char.ofNat 0x08)
  else if c = 't' then some '\t'
  else if c = 'n' then some '\n'
  else if c = 'f' then some (Char.ofNat 0x0C)
  else if c = 'r' then some '\r'
  else if c = 'e' then some (Char.ofNat 0x1B)
  else none

/-- The outcome of reading a string with characters put in front. -/
def withChars (cs : List Char) : List Char × List Char → List Char × List Char
  | (s, rest) => (cs ++ s, rest)

/-- What is left of a basic string on one line, up to its closing quote, and the text after it. -/
def basicTail : List Char → Option (List Char × List Char)
  | [] => none
  | '"' :: r => some ([], r)
  | '\\' :: 'x' :: a :: b :: r =>
    match hexChar? [a, b] with
    | some c => (basicTail r).map (withChars [c])
    | none => none
  | '\\' :: 'u' :: a :: b :: c :: d :: r =>
    match hexChar? [a, b, c, d] with
    | some c => (basicTail r).map (withChars [c])
    | none => none
  | '\\' :: 'U' :: a :: b :: c :: d :: e :: f :: g :: h :: r =>
    match hexChar? [a, b, c, d, e, f, g, h] with
    | some c => (basicTail r).map (withChars [c])
    | none => none
  | '\\' :: c :: r =>
    match escaped? c with
    | some c => (basicTail r).map (withChars [c])
    | none => none
  | c :: r => if isControl c then none else (basicTail r).map (withChars [c])

/-- What is left of a literal string on one line, up to its closing quote, and the text after it. -/
def literalTail : List Char → Option (List Char × List Char)
  | [] => none
  | '\'' :: r => some ([], r)
  | c :: r => if isControl c then none else (literalTail r).map (withChars [c])

/-- The end of a string on several lines, after three of its closing quotes: one or two quotes more belong to the string. -/
def closing (quote : Char) (r : List Char) : Option (List Char × List Char) :=
  let more := r.takeWhile (· == quote)
  if more.length ≤ 2 then some (more, r.drop more.length) else none

/-- Where a string on several lines stands: in its text, behind a backslash that awaits the end of the line, or behind that
line end. -/
inductive Fold where
  | text | awaited | folded
  deriving DecidableEq

/-- What is left of a basic string on several lines, and the text after it. -/
def basicLinesTail (fold : Fold) : List Char → Option (List Char × List Char)
  | [] => none
  | '"' :: '"' :: '"' :: r => if fold = .awaited then none else closing '"' r
  | '\r' :: '\n' :: r =>
    if fold = .text then (basicLinesTail .text r).map (withChars ['\r', '\n']) else basicLinesTail .folded r
  | '\\' :: 'x' :: a :: b :: r =>
    match fold, hexChar? [a, b] with
    | .awaited, _ | _, none => none
    | _, some c => (basicLinesTail .text r).map (withChars [c])
  | '\\' :: 'u' :: a :: b :: c :: d :: r =>
    match fold, hexChar? [a, b, c, d] with
    | .awaited, _ | _, none => none
    | _, some c => (basicLinesTail .text r).map (withChars [c])
  | '\\' :: 'U' :: a :: b :: c :: d :: e :: f :: g :: h :: r =>
    match fold, hexChar? [a, b, c, d, e, f, g, h] with
    | .awaited, _ | _, none => none
    | _, some c => (basicLinesTail .text r).map (withChars [c])
  | '\\' :: '\r' :: '\n' :: r => if fold = .awaited then none else basicLinesTail .folded r
  | '\\' :: c :: r =>
    if fold = .awaited then none
    else if c = '\n' then basicLinesTail .folded r
    else if isSpace c then basicLinesTail .awaited r
    else
      match escaped? c with
      | some c => (basicLinesTail .text r).map (withChars [c])
      | none => none
  | c :: r =>
    if c = '\n' then
      if fold = .text then (basicLinesTail .text r).map (withChars ['\n']) else basicLinesTail .folded r
    else if isSpace c && fold != .text then basicLinesTail fold r
    else if fold = .awaited || isControl c then none
    else (basicLinesTail .text r).map (withChars [c])

/-- What is left of a literal string on several lines, and the text after it. -/
def literalLinesTail : List Char → Option (List Char × List Char)
  | [] => none
  | '\'' :: '\'' :: '\'' :: r => closing '\'' r
  | '\r' :: '\n' :: r => (literalLinesTail r).map (withChars ['\r', '\n'])
  | c :: r => if isControl c && c != '\n' then none else (literalLinesTail r).map (withChars [c])

/-- A text without the line end in front, if it begins with one. -/
def skipLineEnd : List Char → List Char
  | '\n' :: r => r
  | '\r' :: '\n' :: r => r
  | r => r

/-- A string in any of the four forms, if one stands here. -/
def stringLiteral : List Char → Option (List Char × List Char)
  | '"' :: '"' :: '"' :: r => basicLinesTail .text (skipLineEnd r)
  | '"' :: r => basicTail r
  | '\'' :: '\'' :: '\'' :: r => literalLinesTail (skipLineEnd r)
  | '\'' :: r => literalTail r
  | _ => none

end SearchRules.Toml
