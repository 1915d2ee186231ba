/-!
# Double-precision numbers as words

A number is kept as its 64-bit word, so equality is equality of words: the two zeros differ.
A finite word stands for a significand times a power of two. Rounding a ratio of natural
numbers to the nearest word, a tie to the even one, is exact integer arithmetic: the magnitude
word of `significand · 2 ^ (power - 1074)` is `power · 2 ^ 52 + significand` both below and
from the least normal number on, and a significand that rounds up to `2 ^ 53` carries into the
next power by itself.
-/

namespace Reduct

/-- A double-precision number, given by its word. -/
structure Binary64 where
  /-- Sign, exponent and fraction fields, from the highest bit down. -/
  bits : UInt64
deriving DecidableEq, Inhabited

namespace Binary64

/-- The weight of the sign bit, `2 ^ 63`. -/
def signBit : Nat := 0x8000000000000000

/-- The number of words of one power, `2 ^ 52`. -/
def fractionCount : Nat := 0x10000000000000

/-- The word of positive infinity; every smaller magnitude is finite. -/
def infinityWord : Nat := 2047 * fractionCount

/-- The number of a sign and a magnitude word. -/
def ofMagnitude (negative : Bool) (word : Nat) : Binary64 :=
  ⟨UInt64.ofNat ((if negative then signBit else 0) + word)⟩

/-- Whether the sign bit is set. -/
def isNegative (number : Binary64) : Bool := decide (signBit ≤ number.bits.toNat)

/-- The word without its sign bit. -/
def magnitude (number : Binary64) : Nat := number.bits.toNat % signBit

/-- Whether the number is neither an infinity nor undefined. -/
def isFinite (number : Binary64) : Bool := decide (number.magnitude < infinityWord)

/-- The integer significand of a finite magnitude. -/
def significand (number : Binary64) : Nat :=
  if number.magnitude < fractionCount then number.magnitude
  else fractionCount + number.magnitude % fractionCount

/-- The power of two that the significand is multiplied by, counted up from `-1074`. -/
def power (number : Binary64) : Nat := number.magnitude / fractionCount - 1

/-- The quotient of two natural numbers rounded to the nearest, a tie to the even one. -/
def roundedQuotient (numerator denominator : Nat) : Nat :=
  let quotient := numerator / denominator
  let twice := 2 * (numerator % denominator)
  if twice < denominator then quotient
  else if denominator < twice then quotient + 1
  else quotient + quotient % 2

/-- The exponent of the greatest power of two at most a positive ratio. -/
def ratioLog2 (numerator denominator : Nat) : Int :=
  let guess : Int := (numerator.log2 : Int) - (denominator.log2 : Int)
  let reached : Bool :=
    if 0 ≤ guess then denominator * Nat.pow 2 guess.toNat ≤ numerator
    else denominator ≤ numerator * Nat.pow 2 (-guess).toNat
  if reached then guess else guess - 1

/-- The magnitude word nearest to a ratio. It is `infinityWord` or more when the ratio is out
of range. -/
def nearestWord (numerator denominator : Nat) : Nat :=
  if numerator = 0 then 0
  else
    let power : Nat := (ratioLog2 numerator denominator + 1022).toNat
    -- Both sides are scaled by `2 ^ 1074` before the power is divided out.
    power * fractionCount +
      roundedQuotient (numerator * Nat.pow 2 1074) (denominator * Nat.pow 2 power)

/-- Decimal exponents beyond this one lead out of range, whatever the digits before them. -/
def exponentLimit : Nat := 400

/-- The number of decimal digits of a natural number, one for zero. -/
def digitCount (number : Nat) : Nat := (Nat.toDigits 10 number).length

/-- The magnitude word nearest to `digits · 10 ^ exponent`. Exponents far out of range are
decided by the number of digits alone. -/
def wordOfDecimal (digits : Nat) (exponent : Int) : Nat :=
  if digits = 0 then 0
  else if (exponentLimit : Int) < exponent then infinityWord
  else if exponent + digitCount digits < -(exponentLimit : Int) then 0
  else if 0 ≤ exponent then nearestWord (digits * Nat.pow 10 exponent.toNat) 1
  else nearestWord digits (Nat.pow 10 (-exponent).toNat)

/-- The finite number nearest to a signed decimal, if there is one. -/
def ofDecimal? (negative : Bool) (digits : Nat) (exponent : Int) : Option Binary64 :=
  let word := wordOfDecimal digits exponent
  if word < infinityWord then some (ofMagnitude negative word) else none

end Binary64

end Reduct
