import Reduct.Atom

/-!
# Atoms from their text

A run of characters without blanks and delimiters is an integer, a number or a symbol. What
starts like a number, a digit or a point and a digit after an optional sign, has to be one.
-/

namespace Reduct.Atom

/-- The value of decimal digits, the most significant first. -/
def digitsValue (digits : List Char) : Nat :=
  digits.foldl (fun value digit => value * 10 + (digit.toNat - '0'.toNat)) 0

/-- Take off one sign: whether it was a minus, and what follows. -/
def splitSign : List Char → Bool × List Char
  | '-' :: rest => (true, rest)
  | '+' :: rest => (false, rest)
  | chars => (false, chars)

/-- The integer of an optional sign and decimal digits, without regard to its size. -/
def decimal? (chars : List Char) : Option Int :=
  let (negative, digits) := splitSign chars
  if digits.isEmpty || !digits.all Char.isDigit then none
  else if negative then some (-(digitsValue digits : Int))
  else some (digitsValue digits : Int)

/-- Whether an integer fits in 64 bits. -/
def fitsWord (value : Int) : Bool :=
  decide (Int64.minValue.toInt ≤ value) && decide (value ≤ Int64.maxValue.toInt)

/-- The integer that a text is, if it is one of 64 bits. -/
def integer? (chars : List Char) : Option Int64 :=
  match decimal? chars with
  | some value => if fitsWord value then some (Int64.ofInt value) else none
  | none => none

/-- Whether a text starts like a number. -/
def looksNumeric (chars : List Char) : Bool :=
  match (splitSign chars).2 with
  | '.' :: c :: _ => c.isDigit
  | c :: _ => c.isDigit
  | [] => false

/-- The exponent after the mark of a number: nothing, or a mark, an optional sign and digits. -/
def exponent? : List Char → Option Int
  | [] => some 0
  | mark :: rest => if mark = 'e' ∨ mark = 'E' then decimal? rest else none

/-- The number of digits, an optional point among or beside them, and an optional exponent. The
value is rounded to the nearest double-precision number and has to be finite. -/
def float? (chars : List Char) : Option Binary64 :=
  let (negative, unsigned) := splitSign chars
  let whole := unsigned.takeWhile Char.isDigit
  let afterWhole := unsigned.dropWhile Char.isDigit
  let (fraction, afterFraction) :=
    match afterWhole with
    | '.' :: rest => (rest.takeWhile Char.isDigit, rest.dropWhile Char.isDigit)
    | rest => ([], rest)
  if whole.isEmpty && fraction.isEmpty then none
  else
    match exponent? afterFraction with
    | none => none
    | some exponent =>
      Binary64.ofDecimal? negative (digitsValue (whole ++ fraction))
        (exponent - (fraction.length : Int))

/-- Why a text that starts like a number is none. -/
inductive NumberError where
  /-- Digits only, but too many. -/
  | outOfRange
  /-- Not the text of a finite number. -/
  | invalid
deriving DecidableEq

/-- The booleans have these texts and no others. -/
def boolean? (chars : List Char) : Option Bool :=
  if chars = "#t".toList ∨ chars = "#true".toList then some true
  else if chars = "#f".toList ∨ chars = "#false".toList then some false
  else none

/-- The atom of a run of characters. -/
def ofChars (chars : List Char) : Except NumberError Atom :=
  match boolean? chars with
  | some value => .ok (.boolean value)
  | none =>
    match integer? chars with
    | some value => .ok (.integer value)
    | none =>
      if !looksNumeric chars then .ok (.symbol (String.ofList chars))
      else if (splitSign chars).2.all Char.isDigit then .error .outOfRange
      else
        match float? chars with
        | some value => .ok (.float value)
        | none => .error .invalid

end Reduct.Atom
