/-!
# Binary64 numbers

A finite binary64 number is a sign and a magnitude. The magnitude is kept as its word, the bits of the number without the
sign: words are ordered as the magnitudes are, two neighbouring words are two neighbouring magnitudes, and the first word
past the largest one is infinity. Every magnitude is a whole number of units of `2 ^ -1074`, so rounding, products and
quotients are exact arithmetic on natural numbers followed by one rounding to the nearest word, a tie going to the even one.
-/

namespace SearchRules

namespace Binary64

/-- How many words share a scale. -/
def binade : Nat := Nat.pow 2 52

/-- The word of infinity, the first one that is no finite magnitude. -/
def infinityWord : Nat := 2047 * binade

/-- How many units of `2 ^ -1074` make one. -/
def unitsPerOne : Nat := Nat.pow 2 1074

/-- A finite binary64 number. Zero has two signs. -/
structure Finite where
  negative : Bool
  word : Nat
  word_lt : word < infinityWord
  deriving DecidableEq

/-- The quotient of two natural numbers, rounded to the nearest one; a tie goes to the even one. -/
def roundHalfEven (num den : Nat) : Nat :=
  let q := num / den
  let r := num % den
  if 2 * r < den then q
  else if den < 2 * r then q + 1
  else if q % 2 = 0 then q
  else q + 1

/-- The word nearest to `num / den` units. The scale is the least one at which the significand has at most 53 bits; rounding
up to the 54th bit carries into the scale by itself. -/
def nearestWord (num den : Nat) : Nat :=
  let q := num / den
  let scale := if q < 2 * binade then 0 else q.log2 - 52
  scale * binade + roundHalfEven num (den * Nat.pow 2 scale)

/-- The gap from a magnitude to the next larger one, in units. -/
def gapAbove (word : Nat) : Nat :=
  Nat.pow 2 (word / binade - 1)

/-- The magnitude of a word, in units. -/
def unitsOf (word : Nat) : Nat :=
  if word < binade then word else (binade + word % binade) * gapAbove word

namespace Finite

/-- The magnitude of a number, in units. -/
def units (x : Finite) : Nat :=
  unitsOf x.word

/-- The number with a given sign and word, if the word is one of a finite magnitude. -/
def ofWord? (negative : Bool) (word : Nat) : Option Finite :=
  if h : word < infinityWord then some ⟨negative, word, h⟩ else none

/-- Zero of either sign. -/
def zero (negative : Bool) : Finite :=
  ⟨negative, 0, by decide⟩

/-- The number nearest to `num / den`, unless that is infinity. -/
def ofRatio? (negative : Bool) (num den : Nat) : Option Finite :=
  ofWord? negative (nearestWord (num * unitsPerOne) den)

/-- The number nearest to a natural number, unless that is infinity. -/
def ofNat? (negative : Bool) (n : Nat) : Option Finite :=
  ofRatio? negative n 1

/-- The product, rounded once. -/
def mul? (x y : Finite) : Option Finite :=
  ofWord? (x.negative != y.negative) (nearestWord (x.units * y.units) unitsPerOne)

/-- The quotient, rounded once. -/
def div? (x y : Finite) : Option Finite :=
  ofWord? (x.negative != y.negative) (nearestWord (x.units * unitsPerOne) y.units)

/-- Whether the number is a zero. -/
def isZero (x : Finite) : Bool :=
  x.word == 0

/-- The number nearest to `digits · 10 ^ exponent`, unless that is infinity. Exponents far outside the range are settled
without computing the power. -/
def ofDecimal? (negative : Bool) (digits : Nat) (exponent : Int) : Option Finite :=
  if digits = 0 then some (zero negative)
  else if 0 ≤ exponent then
    if 400 < exponent then none else ofRatio? negative (digits * Nat.pow 10 exponent.toNat) 1
  else
    let places := (-exponent).toNat
    if digits.log2 + 400 < places then some (zero negative) else ofRatio? negative digits (Nat.pow 10 places)

end Finite

end Binary64

/-- A binary64 number: finite, an infinity of either sign, or not a number. -/
inductive Binary64 where
  | finite (x : Binary64.Finite)
  | infinite (negative : Bool)
  | nan
  deriving DecidableEq

namespace Binary64

/-- The number nearest to an integer. -/
def ofInt (i : Int) : Binary64 :=
  match Finite.ofNat? (decide (i < 0)) i.natAbs with
  | some x => .finite x
  | none => .infinite (decide (i < 0))

/-- Whether the number is finite. -/
def isFinite : Binary64 → Bool
  | .finite _ => true
  | _ => false

/-- Whether the number is below zero. A negative zero is not, and neither is what is not a number. -/
def isBelowZero : Binary64 → Bool
  | .finite x => x.negative && !x.isZero
  | .infinite negative => negative
  | .nan => false

end Binary64

end SearchRules
