import Reduct.Binary64

/-!
# Decimal text of double-precision numbers

Two ways to write a finite number, neither with an exponent. The shortest text has the fewest
significant digits that read back as the number, and of those the nearest to it, the upper one
on a tie. The exact text of a whole number has all of its digits and one zero after the point.
-/

namespace Reduct.Binary64

/-- The value of a finite magnitude as a ratio. -/
def ratio (number : Binary64) : Nat × Nat :=
  if 1074 ≤ number.power then (number.significand * Nat.pow 2 (number.power - 1074), 1)
  else (number.significand, Nat.pow 2 (1074 - number.power))

/-- Whether a finite number is whole. -/
def isWhole (number : Binary64) : Bool :=
  let (numerator, denominator) := number.ratio
  numerator % denominator == 0

/-- A decimal `digits · 10 ^ exponent`. -/
structure Decimal where
  /-- The significant digits as a number. -/
  digits : Nat
  /-- The power of ten of the last digit. -/
  exponent : Int
deriving DecidableEq

/-- The exponent of the greatest power of ten at most a positive ratio. -/
def ratioLog10 (numerator denominator : Nat) : Int :=
  if denominator ≤ numerator then (digitCount (numerator / denominator) : Int) - 1
  else
    -- The ratio times this power of ten lies between a tenth and ten.
    let shift := digitCount denominator - digitCount numerator
    if denominator ≤ numerator * Nat.pow 10 shift then -(shift : Int)
    else -(shift : Int) - 1

/-- A ratio divided by a power of ten. -/
def scaledRatio (numerator denominator : Nat) (exponent : Int) : Nat × Nat :=
  if 0 ≤ exponent then (numerator, denominator * Nat.pow 10 exponent.toNat)
  else (numerator * Nat.pow 10 (-exponent).toNat, denominator)

/-- The decimal with the given number of digits that reads back as the magnitude word, if one of
the two neighbours of the value does. -/
def withDigits? (word numerator denominator : Nat) (top : Int) (count : Nat) : Option Decimal :=
  let exponent := top - (count : Int) + 1
  let (scaled, unit) := scaledRatio numerator denominator exponent
  let below := scaled / unit
  let above := below + 1
  let belowReads := decide (wordOfDecimal below exponent = word)
  let aboveReads := decide (wordOfDecimal above exponent = word)
  if belowReads && (!aboveReads || decide (2 * (scaled % unit) < unit)) then
    some ⟨below, exponent⟩
  else if aboveReads then some ⟨above, exponent⟩
  else none

/-- The exact decimal of a ratio whose denominator is a power of two. -/
def exactDecimal (numerator denominator : Nat) : Decimal :=
  ⟨numerator * Nat.pow 5 denominator.log2, -(denominator.log2 : Int)⟩

/-- Seventeen significant digits tell any two finite numbers apart. -/
def mostDigits : Nat := 17

/-- The shortest decimal that reads back as a finite magnitude. -/
def shortest (number : Binary64) : Decimal :=
  let (numerator, denominator) := number.ratio
  if numerator = 0 then ⟨0, 0⟩
  else
    let top := ratioLog10 numerator denominator
    let found := (List.range mostDigits).findSome? fun index =>
      withDigits? number.magnitude numerator denominator top (index + 1)
    found.getD (exactDecimal numerator denominator)

/-- Remove zeros at the end of the digits, moving the exponent up. -/
def Decimal.trimmed (decimal : Decimal) : Nat → Decimal
  | 0 => decimal
  | fuel + 1 =>
    if decimal.digits ≠ 0 ∧ decimal.digits % 10 = 0 then
      Decimal.trimmed ⟨decimal.digits / 10, decimal.exponent + 1⟩ fuel
    else decimal

/-- The positional text of a decimal: zeros fill the places between its digits and the point,
and a whole number has no point. -/
def Decimal.text (decimal : Decimal) : String :=
  let digits := Nat.toDigits 10 decimal.digits
  if decimal.digits = 0 then "0"
  else if 0 ≤ decimal.exponent then
    String.ofList (digits ++ List.replicate decimal.exponent.toNat '0')
  else
    let places := (-decimal.exponent).toNat
    let padded := List.replicate (places + 1 - digits.length) '0' ++ digits
    let whole := padded.length - places
    String.ofList (padded.take whole ++ '.' :: padded.drop whole)

/-- The sign before a text. -/
def signed (number : Binary64) (text : String) : String :=
  if number.isNegative then "-" ++ text else text

/-- The text of a number that is not finite. -/
def specialText (number : Binary64) : String :=
  if number.magnitude = infinityWord then number.signed "inf" else "NaN"

/-- The fewest digits that read back, with no point in a whole number. -/
def shortText (number : Binary64) : String :=
  if number.isFinite then
    let decimal := number.shortest
    number.signed (decimal.trimmed (digitCount decimal.digits)).text
  else number.specialText

/-- The text of a number inside a term: all digits and one zero place for a whole number, the
shortest text for any other. -/
def text (number : Binary64) : String :=
  if number.isFinite && number.isWhole then
    let (numerator, denominator) := number.ratio
    number.signed (toString (numerator / denominator) ++ ".0")
  else number.shortText

end Reduct.Binary64
