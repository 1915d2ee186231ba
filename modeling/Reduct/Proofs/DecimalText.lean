import Mathlib.Data.List.TakeWhile
import Reduct.Proofs.NumberedNames
import Reduct.Proofs.Rounding
import Reduct.Token.Number

/-!
# Decimal texts read back

The text of a finite number is read as the number. A whole number has all of its digits, so its
value is exact. Any other number has a decimal that reads back by the way it is found, and taking
zeros off its end changes neither its value nor which exponents are out of range.
-/

namespace Reduct

namespace Binary64

theorem digitCount_le_iff {number count : Nat} (positive : 0 < count) :
    digitCount number ≤ count ↔ number < 10 ^ count :=
  Nat.length_toDigits_le_iff (by decide) positive

theorem digitCount_pos (number : Nat) : 0 < digitCount number := Nat.length_toDigits_pos

theorem digitCount_mul_ten {number : Nat} (some_ : number ≠ 0) :
    digitCount (number * 10) = digitCount number + 1 := by
  unfold digitCount
  rw [Nat.toDigits_of_base_le (by decide) (by omega), Nat.mul_div_cancel _ (by decide),
    List.length_append]
  rfl

/-- What a decimal that is nearest to a number that is not whole looks like. -/
theorem exponent_neg_of_fractional {number : Binary64} (finite : number.isFinite = true)
    (fractional : number.isWhole = false) {decimal : Decimal}
    (reads : wordOfDecimal decimal.digits decimal.exponent = number.magnitude) :
    decimal.digits ≠ 0 ∧ decimal.exponent < 0 ∧
      ¬ decimal.exponent + digitCount decimal.digits < -(exponentLimit : Int) ∧
      nearestWord decimal.digits (10 ^ (-decimal.exponent).toNat) = number.magnitude := by
  have unwhole : ∀ whole, nearestWord whole 1 ≠ number.magnitude := by
    intro whole nearest
    rw [isWhole_of_nearestWord nearest] at fractional
    cases fractional
  have nonzero : (0 : Nat) ≠ number.magnitude := unwhole 0
  have small : number.magnitude < infinityWord := of_decide_eq_true finite
  unfold wordOfDecimal at reads
  split at reads
  · exact absurd reads nonzero
  · rename_i some_
    split at reads
    · omega
    · split at reads
      · exact absurd reads nonzero
      · rename_i near
        split at reads
        · exact absurd reads (unwhole _)
        · exact ⟨some_, by omega, near, reads⟩

theorem wordOfDecimal_of_neg {digits : Nat} {exponent : Int} (some_ : digits ≠ 0)
    (negative : exponent < 0) (near : ¬ exponent + digitCount digits < -(exponentLimit : Int)) :
    wordOfDecimal digits exponent = nearestWord digits (10 ^ (-exponent).toNat) := by
  unfold wordOfDecimal
  rw [if_neg some_, if_neg (by unfold exponentLimit; omega), if_neg near, if_neg (by omega)]
  rfl

/-- A zero at the end of the digits can be taken off. -/
theorem wordOfDecimal_trim {digits : Nat} {exponent : Int} (some_ : digits ≠ 0)
    (negative : exponent < 0)
    (near : ¬ exponent + digitCount (digits * 10) < -(exponentLimit : Int)) :
    wordOfDecimal digits (exponent + 1) = wordOfDecimal (digits * 10) exponent := by
  obtain ⟨places, same⟩ := Int.eq_ofNat_of_zero_le (show 0 ≤ -exponent - 1 by omega)
  have shifted : (-exponent).toNat = places + 1 := by omega
  rw [wordOfDecimal_of_neg (by omega) negative near, shifted, pow_succ,
    nearestWord_mul _ (Nat.pow_pos (by decide)) (by decide)]
  have count := digitCount_mul_ten some_
  by_cases last : places = 0
  · have zero : exponent + 1 = 0 := by omega
    unfold wordOfDecimal
    rw [if_neg some_, zero, if_neg (by decide), if_neg (by unfold exponentLimit; omega),
      if_pos (by decide), last]
    exact congrArg (nearestWord · 1) (Nat.mul_one digits)
  · rw [wordOfDecimal_of_neg some_ (by omega) (by omega)]
    congr 2
    omega

theorem digits_trimmed {number : Binary64} (finite : number.isFinite = true)
    (fractional : number.isWhole = false) (fuel : Nat) :
    ∀ decimal : Decimal, wordOfDecimal decimal.digits decimal.exponent = number.magnitude →
      wordOfDecimal (decimal.trimmed fuel).digits (decimal.trimmed fuel).exponent =
        number.magnitude := by
  induction fuel with
  | zero => exact fun _ reads => reads
  | succ fuel ih =>
    intro decimal reads
    rw [Decimal.trimmed]
    split
    · rename_i ends
      obtain ⟨some_, negative, near, _⟩ := exponent_neg_of_fractional finite fractional reads
      have whole : decimal.digits / 10 * 10 = decimal.digits := by omega
      refine ih _ ?_
      dsimp only
      rw [wordOfDecimal_trim (by omega) negative (by rwa [whole]), whole, reads]
    · exact reads

theorem reads_of_withDigits? {word numerator denominator count : Nat} {top : Int}
    {decimal : Decimal} (found : withDigits? word numerator denominator top count = some decimal) :
    wordOfDecimal decimal.digits decimal.exponent = word := by
  unfold withDigits? at found
  dsimp only at found
  split at found
  · rename_i below
    cases found
    exact of_decide_eq_true (Bool.and_eq_true_iff.mp below).1
  · split at found
    · rename_i above
      cases found
      exact of_decide_eq_true above
    · cases found

/-- All digits of a number that is not whole read back. -/
theorem reads_exactDecimal {number : Binary64} (fractional : number.isWhole = false) :
    wordOfDecimal (exactDecimal number.ratio.1 number.ratio.2).digits
      (exactDecimal number.ratio.1 number.ratio.2).exponent = number.magnitude := by
  have few : number.power < 1074 := by
    by_contra many
    rw [isWhole_of_dvd (by
      rw [Nat.sub_eq_zero_of_le (Nat.le_of_not_lt many), pow_zero]
      exact one_dvd _)] at fractional
    cases fractional
  have some_ : number.significand ≠ 0 := by
    intro none_
    rw [isWhole_of_dvd (none_ ▸ Nat.dvd_zero _)] at fractional
    cases fractional
  obtain ⟨places, same⟩ : ∃ places, 1074 - number.power = places + 1 := ⟨1073 - number.power, by omega⟩
  have ratio : number.ratio = (number.significand, 2 ^ (places + 1)) := by
    unfold Binary64.ratio
    rw [if_neg (by omega), same]
    rfl
  have nearest := nearestWord_ratio number
  rw [ratio] at nearest ⊢
  unfold exactDecimal
  rw [Nat.log2_two_pow]
  dsimp only
  have powers : ∀ count, Nat.pow 5 count = 5 ^ count := fun _ => rfl
  rw [powers, wordOfDecimal_of_neg (Nat.mul_ne_zero some_ (Nat.pos_iff_ne_zero.mp
    (Nat.pow_pos (by decide)))) (by omega), neg_neg, Int.toNat_natCast,
    show (10 : Nat) = 2 * 5 by rfl, mul_pow, nearestWord_mul _ (Nat.two_pow_pos _)
      (Nat.pow_pos (by decide))]
  · exact nearest
  · intro far
    have positive := digitCount_pos (number.significand * 5 ^ (places + 1))
    unfold exponentLimit at far
    obtain ⟨rest, many⟩ : ∃ rest, places + 1 = rest + 401 := ⟨places - 400, by omega⟩
    have few : digitCount (number.significand * 5 ^ (places + 1)) ≤ rest := by omega
    have small := (digitCount_le_iff (by omega)).mp few
    have least : 5 ^ rest * 5 ^ 401 ≤ number.significand * 5 ^ (places + 1) := by
      rw [many, pow_add]
      exact Nat.le_mul_of_pos_left _ (Nat.pos_of_ne_zero some_)
    have bound : 5 ^ rest * 5 ^ 401 < 5 ^ rest * 2 ^ rest := by
      rw [← mul_pow]
      exact Nat.lt_of_le_of_lt least small
    have fives : 5 ^ 401 < 2 ^ rest := Nat.lt_of_mul_lt_mul_left bound
    have twos : 2 ^ rest ≤ 2 ^ (2 * 401) := pow_le_pow_right₀ (by decide) (by omega)
    rw [pow_mul] at twos
    exact absurd (lt_of_lt_of_le fives twos) (not_lt_of_ge (pow_le_pow_left₀ (by decide) (by decide) 401))

/-- The shortest decimal of a number that is not whole reads back. -/
theorem reads_shortest {number : Binary64} (fractional : number.isWhole = false) :
    wordOfDecimal number.shortest.digits number.shortest.exponent = number.magnitude := by
  unfold shortest
  dsimp only
  split
  · rename_i zero
    have whole := (isWhole_iff number).mpr (zero ▸ Nat.dvd_zero _)
    rw [whole] at fractional
    cases fractional
  · cases found : (List.range mostDigits).findSome? fun index =>
        withDigits? number.magnitude number.ratio.1 number.ratio.2
          (ratioLog10 number.ratio.1 number.ratio.2) (index + 1) with
    | none => exact reads_exactDecimal fractional
    | some decimal =>
      obtain ⟨index, _, here⟩ := List.exists_of_findSome?_eq_some found
      exact reads_of_withDigits? here

end Binary64

namespace Atom

theorem digitsValue_eq (digits : List Char) : digitsValue digits = Nat.ofDigitChars 10 digits 0 := by
  rw [Nat.ofDigitChars_eq_foldl]
  unfold digitsValue
  congr 1
  funext value digit
  rw [Nat.mul_comm]

theorem digitsValue_toDigits (number : Nat) : digitsValue (Nat.toDigits 10 number) = number := by
  rw [digitsValue_eq, Nat.ofDigitChars_ten_toDigits]

/-- Zeros before digits count for nothing. -/
theorem digitsValue_zeros (count : Nat) (digits : List Char) :
    digitsValue (List.replicate count '0' ++ digits) = digitsValue digits := by
  induction count with
  | zero => rfl
  | succ count ih => exact ih

theorem splitSign_digit {first : Char} (digit : first.isDigit = true) (rest : List Char) :
    splitSign (first :: rest) = (false, first :: rest) := by
  unfold splitSign
  split
  · rename_i same
    cases same
    cases digit
  · rename_i same
    cases same
    cases digit
  · rfl

/-- The sign before a number. -/
def signText (negative : Bool) : List Char := if negative then ['-'] else []

theorem splitSign_signText (negative : Bool) {first : Char} (digit : first.isDigit = true)
    (rest : List Char) :
    splitSign (signText negative ++ first :: rest) = (negative, first :: rest) := by
  cases negative with
  | true => rfl
  | false => exact splitSign_digit digit rest

theorem takeWhile_digits {digits : List Char} (all : ∀ digit ∈ digits, digit.isDigit = true)
    (rest : List Char) :
    (digits ++ '.' :: rest).takeWhile Char.isDigit = digits ∧
      (digits ++ '.' :: rest).dropWhile Char.isDigit = '.' :: rest := by
  constructor
  · rw [List.takeWhile_append_of_pos all]
    exact List.append_nil _
  · rw [List.dropWhile_append_of_pos all]
    rfl

/-- What is read from digits with a point among them. -/
theorem ofChars_pointed (negative : Bool) {first : Char} {whole fraction : List Char}
    (digit : first.isDigit = true) (left : ∀ digit ∈ whole, digit.isDigit = true)
    (right : ∀ digit ∈ fraction, digit.isDigit = true) {number : Binary64}
    (nearest : Binary64.ofDecimal? negative (digitsValue (first :: whole ++ fraction))
      (-(fraction.length : Int)) = some number) :
    ofChars (signText negative ++ first :: (whole ++ '.' :: fraction)) = .ok (.float number) := by
  have sign := splitSign_signText negative digit (whole ++ '.' :: fraction)
  have points : (first :: (whole ++ '.' :: fraction)).all Char.isDigit = false := by
    rw [← Bool.not_eq_true, List.all_eq_true]
    intro all
    cases all '.' (by simp)
  have plain : boolean? (signText negative ++ first :: (whole ++ '.' :: fraction)) = none := by
    have marked : ∀ text : List Char, text.head? = some '#' →
        signText negative ++ first :: (whole ++ '.' :: fraction) ≠ text := by
      rintro _ head rfl
      cases negative with
      | true => cases head
      | false =>
        cases head
        cases digit
    unfold boolean?
    rw [if_neg (not_or.mpr ⟨marked _ (by decide), marked _ (by decide)⟩),
      if_neg (not_or.mpr ⟨marked _ (by decide), marked _ (by decide)⟩)]
  have fractional : integer? (signText negative ++ first :: (whole ++ '.' :: fraction)) = none := by
    unfold integer? decimal?
    rw [sign]
    simp only [points]
    rfl
  have numeric : looksNumeric (signText negative ++ first :: (whole ++ '.' :: fraction)) = true := by
    have apart : first ≠ '.' := by
      rintro rfl
      cases digit
    unfold looksNumeric
    rw [sign]
    dsimp only
    split
    · rename_i same
      exact absurd (List.cons.inj same).1 apart
    · rename_i same
      exact (List.cons.inj same).1 ▸ digit
    · rename_i same
      cases same
  have read : float? (signText negative ++ first :: (whole ++ '.' :: fraction)) = some number := by
    have all : ∀ digit ∈ first :: whole, digit.isDigit = true := List.forall_mem_cons.mpr ⟨digit, left⟩
    obtain ⟨taken, dropped⟩ := takeWhile_digits all fraction
    have ended : fraction.takeWhile Char.isDigit = fraction :=
      List.takeWhile_eq_self_iff.mpr right
    have nothing : fraction.dropWhile Char.isDigit = [] :=
      List.dropWhile_eq_nil_iff.mpr right
    rw [List.cons_append] at taken dropped
    unfold float?
    rw [sign]
    simp only [taken, dropped, ended, nothing]
    rw [if_neg (by simp)]
    simp only [exponent?, zero_sub]
    exact nearest
  unfold ofChars
  rw [plain, fractional, numeric, sign]
  simp only [points, read]
  rfl

end Atom

namespace Binary64

/-- A finite number has its sign and its magnitude. -/
theorem ofMagnitude_magnitude (number : Binary64) :
    ofMagnitude number.isNegative number.magnitude = number := by
  obtain ⟨bits⟩ := number
  have bound := bits.toNat_lt
  unfold ofMagnitude isNegative magnitude
  congr 1
  refine UInt64.toNat_inj.mp ?_
  rw [UInt64.toNat_ofNat']
  unfold signBit
  dsimp only
  by_cases negative : 0x8000000000000000 ≤ bits.toNat
  · rw [if_pos (decide_eq_true negative)]
    omega
  · rw [if_neg (by simpa using negative)]
    omega

theorem ofDecimal?_eq {number : Binary64} (finite : number.isFinite = true) {digits : Nat}
    {exponent : Int} (reads : wordOfDecimal digits exponent = number.magnitude) :
    ofDecimal? number.isNegative digits exponent = some number := by
  unfold ofDecimal?
  dsimp only
  rw [reads, if_pos (of_decide_eq_true finite), ofMagnitude_magnitude]

theorem toList_signed (number : Binary64) (text : String) :
    (number.signed text).toList = Atom.signText number.isNegative ++ text.toList := by
  unfold signed Atom.signText
  cases number.isNegative with
  | true => rw [if_pos rfl, if_pos rfl, String.toList_append]; rfl
  | false => rw [if_neg nofun, if_neg nofun, List.nil_append]

/-- The value of a whole number. -/
theorem reads_whole {number : Binary64} (whole : number.isWhole = true) :
    wordOfDecimal (number.ratio.1 / number.ratio.2 * 10) (-1) = number.magnitude := by
  have divides := (isWhole_iff number).mp whole
  have nearest := nearestWord_ratio number
  have positive := number.ratio_pos
  obtain ⟨value, same⟩ := divides
  rw [same, Nat.mul_div_cancel_left _ positive]
  have scaled := nearestWord_mul value Nat.one_pos positive
  rw [Nat.one_mul, mul_comm, ← same, nearest] at scaled
  by_cases zero : value = 0
  · have none_ : nearestWord 0 1 = 0 := if_pos rfl
    rw [zero, none_] at scaled
    rw [zero, scaled]
    exact if_pos rfl
  · have count := digitCount_pos (value * 10)
    have tens := nearestWord_mul value Nat.one_pos (show 0 < 10 by decide)
    rw [Nat.one_mul] at tens
    rw [wordOfDecimal_of_neg (Nat.mul_ne_zero zero (by decide)) (by decide)
      (by unfold exponentLimit; omega), scaled, ← tens]
    rfl

/-- The text of a decimal with places behind the point. -/
theorem Decimal.toList_text {decimal : Decimal} (some_ : decimal.digits ≠ 0)
    (negative : decimal.exponent < 0) :
    ∃ first whole fraction, decimal.text.toList = first :: (whole ++ '.' :: fraction) ∧
      first.isDigit = true ∧ (∀ digit ∈ whole, digit.isDigit = true) ∧
      (∀ digit ∈ fraction, digit.isDigit = true) ∧
      Atom.digitsValue (first :: whole ++ fraction) = decimal.digits ∧
      -(fraction.length : Int) = decimal.exponent := by
  obtain ⟨places, same⟩ := Int.eq_ofNat_of_zero_le (show 0 ≤ -decimal.exponent by omega)
  unfold Decimal.text
  rw [if_neg some_, if_neg (by omega), same, Int.toNat_natCast]
  dsimp only
  rw [String.toList_ofList]
  have value : Atom.digitsValue (List.replicate (places + 1 - (Nat.toDigits 10 decimal.digits).length)
      '0' ++ Nat.toDigits 10 decimal.digits) = decimal.digits := by
    rw [Atom.digitsValue_zeros, Atom.digitsValue_toDigits]
  have each : ∀ digit ∈ List.replicate (places + 1 - (Nat.toDigits 10 decimal.digits).length) '0' ++
      Nat.toDigits 10 decimal.digits, digit.isDigit = true := by
    intro digit listed
    rcases List.mem_append.mp listed with zero | other
    · rw [List.eq_of_mem_replicate zero]
      rfl
    · exact isDigit_of_mem_toDigits other
  have long : places + 1 ≤ (List.replicate (places + 1 - (Nat.toDigits 10 decimal.digits).length)
      '0' ++ Nat.toDigits 10 decimal.digits).length := by
    rw [List.length_append, List.length_replicate]
    omega
  generalize List.replicate _ '0' ++ Nat.toDigits 10 decimal.digits = padded at *
  have split := List.take_append_drop (padded.length - places) padded
  obtain ⟨first, whole, taken⟩ : ∃ first whole, padded.take (padded.length - places) =
      first :: whole := by
    refine List.exists_cons_of_length_pos ?_
    rw [List.length_take]
    omega
  rw [taken] at split ⊢
  rw [← split] at each value
  refine ⟨first, whole, _, rfl, each first List.mem_cons_self, fun digit listed => each digit ?_,
    fun digit listed => each digit (List.mem_append_right _ listed), value, ?_⟩
  · exact List.mem_append_left _ (List.mem_cons_of_mem _ listed)
  · rw [List.length_drop]
    omega

/-- The text of a number is a sign, and digits with a point among them whose value is nearest to
the number. -/
theorem text_pointed {number : Binary64} (finite : number.isFinite = true) :
    ∃ first whole fraction,
      number.text.toList = Atom.signText number.isNegative ++ first :: (whole ++ '.' :: fraction) ∧
      first.isDigit = true ∧ (∀ digit ∈ whole, digit.isDigit = true) ∧
      (∀ digit ∈ fraction, digit.isDigit = true) ∧
      ofDecimal? number.isNegative (Atom.digitsValue (first :: whole ++ fraction))
        (-(fraction.length : Int)) = some number := by
  unfold text
  by_cases whole : number.isWhole = true
  · obtain ⟨first, rest, digits⟩ :=
      List.exists_cons_of_ne_nil (Nat.toDigits_ne_nil (n := number.ratio.1 / number.ratio.2) (b := 10))
    have each : ∀ digit ∈ first :: rest, digit.isDigit = true := by
      rw [← digits]
      exact fun _ => isDigit_of_mem_toDigits
    have value : Atom.digitsValue (first :: rest ++ ['0']) = number.ratio.1 / number.ratio.2 * 10 := by
      rw [Atom.digitsValue_eq, Nat.ofDigitChars_append, ← digits, Nat.ofDigitChars_ten_toDigits,
        mul_comm]
      rfl
    obtain ⟨one, others⟩ := List.forall_mem_cons.mp each
    rw [finite, whole, if_pos (by decide)]
    have ended : ".0".toList = ['.', '0'] := by decide
    dsimp only
    have last : ∀ digit ∈ ['0'], digit.isDigit = true := List.forall_mem_singleton.mpr rfl
    refine ⟨first, rest, ['0'], ?_, one, others, last, ofDecimal?_eq finite ?_⟩
    · rw [toList_signed, String.toList_append, toList_toString, digits, ended, List.cons_append]
    · rw [value]
      exact reads_whole whole
  · rw [Bool.not_eq_true] at whole
    have reads := digits_trimmed finite whole (digitCount number.shortest.digits) _
      (reads_shortest whole)
    obtain ⟨some_, negative, _⟩ := exponent_neg_of_fractional finite whole reads
    rw [finite, whole, if_neg (by decide)]
    unfold shortText
    rw [if_pos finite]
    dsimp only
    generalize number.shortest.trimmed _ = decimal at *
    obtain ⟨first, left, right, points, one, before, after, value, places⟩ :=
      decimal.toList_text some_ negative
    refine ⟨first, left, right, ?_, one, before, after, ofDecimal?_eq finite ?_⟩
    · rw [toList_signed, points]
    · rw [value, places]
      exact reads

/-- The text of a number reads back. -/
theorem ofChars_text {number : Binary64} (finite : number.isFinite = true) :
    Atom.ofChars number.text.toList = .ok (.float number) := by
  obtain ⟨first, whole, fraction, same, digit, left, right, nearest⟩ := text_pointed finite
  rw [same]
  exact Atom.ofChars_pointed _ digit left right nearest

end Binary64

end Reduct
