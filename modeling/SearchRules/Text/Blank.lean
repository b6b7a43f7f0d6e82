/-!
# Blank characters and tokens

A text is cut into tokens at its blank characters. Blank means the Unicode property White_Space, so the no-break space and
the ideographic space part two tokens just as a tab does.
-/

namespace SearchRules

/-- The 25 characters with the Unicode property White_Space. -/
def isBlank (c : Char) : Bool :=
  let n := c.toNat
  (0x09 ≤ n && n ≤ 0x0D) || n == 0x20 || n == 0x85 || n == 0xA0 || n == 0x1680 || (0x2000 ≤ n && n ≤ 0x200A) ||
    n == 0x2028 || n == 0x2029 || n == 0x202F || n == 0x205F || n == 0x3000

/-- The tokens of a text that follows the characters `run` of a token already begun. -/
def tokensFrom (run : List Char) : List Char → List (List Char)
  | [] => if run.isEmpty then [] else [run]
  | c :: cs =>
    if isBlank c then
      if run.isEmpty then tokensFrom [] cs else run :: tokensFrom [] cs
    else tokensFrom (run ++ [c]) cs

/-- The tokens of a text: its longest runs of characters that are not blank, in order. -/
def tokens (cs : List Char) : List (List Char) :=
  tokensFrom [] cs

/-- A text without tokens: empty, or blank throughout. -/
def isBlankText (s : String) : Bool :=
  s.toList.all isBlank

end SearchRules
