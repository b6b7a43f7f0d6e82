import SearchRules.Data.Basic
import SearchRules.Text.Digits

/-!
# Reading JSON numbers

An integer literal that fits 64 bits, with or without a sign, is an integer. Every other number, the literal `-0` included, is
a binary64 number: the leading digits that make up a number of 64 bits, rounded to the nearest binary64 number and then scaled
by a power of ten in binary64 arithmetic. A number too large for that has no value; a number too small is a zero.
-/

namespace SearchRules.Json

/-- The parts of a number literal. -/
structure NumberLiteral where
  negative : Bool
  whole : List Char
  /-- The digits after the point, none when there is no point. -/
  fraction : List Char
  /-- The power of ten written after the `e`, if any. -/
  exponent : Option Int

namespace NumberLiteral

/-- The significand after taking in digits as long as it fits 64 bits, and the digits left over. -/
def absorb (significand : Nat) : List Char → Nat × List Char
  | [] => (significand, [])
  | c :: cs =>
    let next := 10 * significand + digitValue c
    if next < UInt64.size then absorb next cs else (significand, c :: cs)

/-- The leading significand of a literal and the power of ten that goes with it. Whole digits left over count as a power of
ten; places left over do not count. -/
def significand (l : NumberLiteral) : Nat × Int :=
  let (m, left) := absorb 0 l.whole
  let (n, leftPlaces) := absorb m l.fraction
  (n, (left.length : Int) - (l.fraction.length - leftPlaces.length : Nat) + l.exponent.getD 0)

/-- The power of ten `10 ^ n`, for `n` up to 308. -/
def powerOfTen (n : Nat) : Option Binary64.Finite :=
  Binary64.Finite.ofNat? false (Nat.pow 10 n)

/-- A number divided by `10 ^ 308` a number of times, or until it is zero. -/
def shrink (x : Binary64.Finite) : Nat → Option Binary64.Finite
  | 0 => some x
  | n + 1 => if x.isZero then some x else do shrink (← x.div? (← powerOfTen 308)) n

/-- A number times `10 ^ exponent`, unless that is infinity. A power below `10 ^ -308` is divided out in steps. -/
def scale (x : Binary64.Finite) (exponent : Int) : Option Binary64.Finite :=
  if 0 ≤ exponent then
    if exponent ≤ 308 then do x.mul? (← powerOfTen exponent.toNat)
    else if x.isZero then some x
    else none
  else do
    let places := (-exponent).toNat
    let steps := (places - 1) / 308
    let y ← shrink x steps
    if y.isZero then some y else y.div? (← powerOfTen (places - 308 * steps))

/-- The binary64 number a literal stands for, unless it is too large. -/
def float? (l : NumberLiteral) : Option Binary64.Finite := do
  let (m, exponent) := l.significand
  let x ← scale (← Binary64.Finite.ofNat? false m) exponent
  some { x with negative := l.negative }

/-- The integer a literal stands for, if it is an integer literal that fits 64 bits. -/
def int? (l : NumberLiteral) : Option Int :=
  if l.fraction.isEmpty && l.exponent.isNone then
    let n := digitsValue 10 l.whole
    if l.negative then
      if n ≠ 0 && n ≤ UInt64.size / 2 then some (-(n : Int)) else none
    else if n < UInt64.size then some n else none
  else none

/-- The value of a literal. -/
def value (l : NumberLiteral) : Data :=
  match l.int? with
  | some i => .int i
  | none =>
    match l.float? with
    | some x => .float (.finite x)
    | none => .unreadable

end NumberLiteral

/-- The digits after a decimal point, if one stands here: at least one digit must follow it. -/
def fractionPart : List Char → Option (List Char × List Char)
  | '.' :: r =>
    let digits := r.takeWhile Char.isDigit
    if digits.isEmpty then none else some (digits, r.dropWhile Char.isDigit)
  | r => some ([], r)

/-- The digits of an exponent with a given sign: at least one. -/
def exponentDigits (negative : Bool) (r : List Char) : Option (Option Int × List Char) :=
  let digits := r.takeWhile Char.isDigit
  if digits.isEmpty then none
  else
    let n : Int := digitsValue 10 digits
    some (some (if negative then -n else n), r.dropWhile Char.isDigit)

/-- The exponent, if one stands here. -/
def exponentPart : List Char → Option (Option Int × List Char)
  | 'e' :: '-' :: r | 'E' :: '-' :: r => exponentDigits true r
  | 'e' :: '+' :: r | 'E' :: '+' :: r => exponentDigits false r
  | 'e' :: r | 'E' :: r => exponentDigits false r
  | r => some (none, r)

/-- A number literal without its sign. The whole part has no needless zero in front. -/
def magnitudeLiteral (negative : Bool) (cs : List Char) : Option (NumberLiteral × List Char) :=
  let whole := cs.takeWhile Char.isDigit
  if whole.isEmpty || (whole.head? == some '0' && whole.length ≠ 1) then none
  else do
    let (fraction, r) ← fractionPart (cs.dropWhile Char.isDigit)
    let (exponent, r) ← exponentPart r
    some (⟨negative, whole, fraction, exponent⟩, r)

/-- A number literal. -/
def numberLiteral : List Char → Option (NumberLiteral × List Char)
  | '-' :: r => magnitudeLiteral true r
  | r => magnitudeLiteral false r

end SearchRules.Json
