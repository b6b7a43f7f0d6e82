import SearchRules.Decimal.Binary64

/-!
# Shortest decimals

The decimals that read back as a given binary64 number fill an interval around it, up to half the gap to each neighbour. The
shortest of them lies on the coarsest decimal grid that has a point in the interval; such a grid has one at the grid point
just below the number or at the one just above it, and of the two the nearer is taken. Lengths are compared as natural
numbers, in quarters of a `2 ^ -1074 · 10 ^ -324`th part.
-/

namespace SearchRules

/-- The decimal `digits · 10 ^ exponent`. -/
structure Decimal where
  digits : Nat
  exponent : Int
  deriving DecidableEq

namespace Decimal

/-- Which of two equally near decimals is taken. -/
inductive Tie where
  | even | up
  deriving DecidableEq

/-- The exponent of the finest grid: half the least gap is wider than `10 ^ -324`. -/
def finest : Nat := 324

/-- The number of the coarsest grid that can matter, `10 ^ 308`, counted from the finest one. -/
def coarsest : Nat := 632

/-- The magnitude of a word, the reach of its interval below it and above it. The reach below is halved where the word starts
a new scale, since the gap below is then half the gap above. -/
def interval (word : Nat) : Nat × Nat × Nat :=
  let gap := Binary64.gapAbove word * Nat.pow 10 finest
  let below := if word % Binary64.binade = 0 && 2 * Binary64.binade ≤ word then gap else 2 * gap
  (4 * Binary64.unitsOf word * Nat.pow 10 finest, below, 2 * gap)

/-- Whether a point at a given distance is still in the interval. The ends belong to it when the word is even, since a tie is
rounded to the even word. -/
def within (word distance reach : Nat) : Bool :=
  if word % 2 = 0 then distance ≤ reach else distance < reach

/-- The multiple of `10 ^ (grid - 324)` to write for a word, if one of the two around its magnitude is in the interval. -/
def onGrid (tie : Tie) (word grid : Nat) : Option Nat :=
  let (middle, below, above) := interval word
  let unit := 4 * Nat.pow 10 grid * Binary64.unitsPerOne
  let d := middle / unit
  let down := middle % unit
  let up := unit - down
  match within word down below, within word up above with
  | false, false => none
  | true, false => some d
  | false, true => some (d + 1)
  | true, true =>
    if down < up then some d
    else if up < down then some (d + 1)
    else match tie with
      | .up => some (d + 1)
      | .even => some (if d % 2 = 0 then d else d + 1)

/-- The decimal on the coarsest grid not above `grid` that has a point in the interval of a word. -/
def search (tie : Tie) (word : Nat) : Nat → Decimal
  | 0 => ⟨(onGrid tie word 0).getD 0, -(finest : Int)⟩
  | grid + 1 =>
    match onGrid tie word (grid + 1) with
    | some d => ⟨d, (grid + 1 : Int) - finest⟩
    | none => search tie word grid

/-- The shortest decimal that reads back as a number that is not zero, its sign left out. -/
def shortest (tie : Tie) (x : Binary64.Finite) : Decimal :=
  search tie x.word coarsest

end Decimal

/-- How a notation writes a finite number: which leading exponents are written out in positional form, and which of two
equally short and near decimals is taken. -/
structure FloatLayout where
  positional : Int → Bool
  tie : Decimal.Tie

namespace FloatLayout

/-- A decimal in positional form, with at least one place after the point. -/
def positionalText (digits : List Char) (exponent : Int) : List Char :=
  if 0 ≤ exponent then digits ++ List.replicate exponent.toNat '0' ++ ['.', '0']
  else
    let places := (-exponent).toNat
    if places < digits.length then
      digits.take (digits.length - places) ++ '.' :: digits.drop (digits.length - places)
    else ['0', '.'] ++ List.replicate (places - digits.length) '0' ++ digits

/-- A decimal in exponent form: one digit before the point, no point for a single digit, the sign of the exponent always. -/
def exponentText (digits : List Char) (lead : Int) : List Char :=
  let mark := if lead < 0 then ['e', '-'] else ['e', '+']
  let fraction := if digits.length ≤ 1 then [] else '.' :: digits.drop 1
  digits.take 1 ++ fraction ++ mark ++ Nat.toDigits 10 lead.natAbs

/-- The text of a magnitude that is not zero. -/
def magnitudeText (layout : FloatLayout) (d : Decimal) : List Char :=
  let digits := Nat.toDigits 10 d.digits
  let lead := d.exponent + digits.length - 1
  if layout.positional lead then positionalText digits d.exponent else exponentText digits lead

/-- The text of a finite number. -/
def text (layout : FloatLayout) (x : Binary64.Finite) : List Char :=
  let sign := if x.negative then ['-'] else []
  sign ++ if x.isZero then ['0', '.', '0'] else layout.magnitudeText (Decimal.shortest layout.tie x)

end FloatLayout

end SearchRules
