/-!
# Escaping query texts

The engine's query syntax gives some characters a meaning. A literal is searched for as it stands, so each character of the
escape set is written with a backslash in front.
-/

namespace SearchRules

/-- The characters that are escaped: one of two usual sets, or a list of one's own. -/
inductive EscapeSet where
  | broad | narrow
  | custom (chars : List Char)
  deriving DecidableEq, Repr

namespace EscapeSet

/-- The characters of a set, in order. -/
def chars : EscapeSet → List Char
  | .broad => ['\\', '(', ')', '{', '}', '[', ']', '~', '^', '"', '-', '\'', '_', '+', '!', ':', '/']
  | .narrow => ['(', ')', '~', '^', '"']
  | .custom cs => cs

/-- Whether a character is escaped. -/
def contains (e : EscapeSet) (c : Char) : Bool :=
  e.chars.contains c

/-- The characters of a text with a backslash in front of each that is escaped. -/
def escapeChars (e : EscapeSet) (cs : List Char) : List Char :=
  cs.flatMap fun c => if e.contains c then ['\\', c] else [c]

/-- A text with a backslash in front of each character that is escaped. -/
def escape (e : EscapeSet) (s : String) : String :=
  String.ofList (e.escapeChars s.toList)

end EscapeSet

end SearchRules
