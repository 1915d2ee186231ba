import Mathlib.Data.Int.Log
import Mathlib.Data.Rat.Floor
import Mathlib.Tactic.FieldSimp
import Mathlib.Tactic.Positivity
import Mathlib.Tactic.Ring
import Reduct.Binary64.Text

/-!
# Rounding ratios to double precision

The word nearest to a ratio depends on its value only, and the word of a finite number is nearest
to the ratio that the number stands for. A number that is nearest to a whole number is whole.
-/

namespace Reduct

namespace Binary64

/-- A ratio is compared with a power of two in whole numbers. -/
theorem scale_le_iff (numerator denominator : Nat) (exponent : Int) :
    (if 0 ≤ exponent then denominator * Nat.pow 2 exponent.toNat ≤ numerator
      else denominator ≤ numerator * Nat.pow 2 (-exponent).toNat) ↔
      (denominator : ℚ) * 2 ^ exponent ≤ numerator := by
  by_cases sign : 0 ≤ exponent
  · obtain ⟨count, rfl⟩ := Int.eq_ofNat_of_zero_le sign
    rw [if_pos sign, Int.toNat_natCast, Nat.pow_eq, zpow_natCast]
    norm_cast
  · obtain ⟨count, same⟩ := Int.eq_ofNat_of_zero_le (show 0 ≤ -exponent by omega)
    have negated : exponent = -(count : Int) := by omega
    rw [if_neg sign, same, Int.toNat_natCast, Nat.pow_eq, negated, zpow_neg, zpow_natCast,
      ← div_eq_mul_inv, div_le_iff₀ (by positivity)]
    norm_cast

/-- The exponent of a ratio is that of its value. -/
theorem ratioLog2_eq {numerator denominator : Nat} (positive : 0 < numerator)
    (divides : 0 < denominator) :
    ratioLog2 numerator denominator = Int.log 2 ((numerator : ℚ) / denominator) := by
  have below : (0 : ℚ) < denominator := by exact_mod_cast divides
  have ratio : (0 : ℚ) < numerator / denominator := by positivity
  have le : ∀ exponent : Int, exponent ≤ Int.log 2 ((numerator : ℚ) / denominator) ↔
      (denominator : ℚ) * 2 ^ exponent ≤ numerator := by
    intro exponent
    rw [← Int.zpow_le_iff_le_log (by decide) ratio, le_div_iff₀ below, mul_comm]
    rfl
  have one : (2 : ℚ) ^ (numerator.log2 : Int) ≤ numerator := by
    exact_mod_cast Nat.log2_self_le (Nat.pos_iff_ne_zero.mp positive)
  have two : (numerator : ℚ) < 2 ^ ((numerator.log2 : Int) + 1) := by
    exact_mod_cast Nat.lt_log2_self (n := numerator)
  have three : (2 : ℚ) ^ (denominator.log2 : Int) ≤ denominator := by
    exact_mod_cast Nat.log2_self_le (Nat.pos_iff_ne_zero.mp divides)
  have four : (denominator : ℚ) < 2 ^ ((denominator.log2 : Int) + 1) := by
    exact_mod_cast Nat.lt_log2_self (n := denominator)
  have lower : (denominator : ℚ) * 2 ^ ((numerator.log2 : Int) - denominator.log2 - 1) ≤
      numerator := by
    calc (denominator : ℚ) * 2 ^ ((numerator.log2 : Int) - denominator.log2 - 1)
        ≤ 2 ^ ((denominator.log2 : Int) + 1) * 2 ^ ((numerator.log2 : Int) - denominator.log2 - 1) :=
          mul_le_mul_of_nonneg_right four.le (zpow_pos (by norm_num) _).le
      _ = 2 ^ (numerator.log2 : Int) := by
          rw [← zpow_add₀ (by norm_num)]
          congr 1
          omega
      _ ≤ numerator := one
  have upper : (numerator : ℚ) <
      denominator * 2 ^ ((numerator.log2 : Int) - denominator.log2 + 1) := by
    calc (numerator : ℚ) < 2 ^ ((numerator.log2 : Int) + 1) := two
      _ = 2 ^ (denominator.log2 : Int) * 2 ^ ((numerator.log2 : Int) - denominator.log2 + 1) := by
          rw [← zpow_add₀ (by norm_num)]
          congr 1
          omega
      _ ≤ denominator * 2 ^ ((numerator.log2 : Int) - denominator.log2 + 1) :=
          mul_le_mul_of_nonneg_right three (zpow_pos (by norm_num) _).le
  rw [← not_le, ← le] at upper
  rw [← le] at lower
  have reaches := (scale_le_iff numerator denominator
    ((numerator.log2 : Int) - denominator.log2)).trans (le _).symm
  unfold ratioLog2
  dsimp only
  generalize (numerator.log2 : Int) - denominator.log2 = guess at *
  have decided : (if 0 ≤ guess then decide (denominator * Nat.pow 2 guess.toNat ≤ numerator)
      else decide (denominator ≤ numerator * Nat.pow 2 (-guess).toNat)) =
      decide (guess ≤ Int.log 2 ((numerator : ℚ) / denominator)) := by
    by_cases sign : 0 ≤ guess
    · rw [if_pos sign] at reaches ⊢
      exact decide_eq_decide.mpr reaches
    · rw [if_neg sign] at reaches ⊢
      exact decide_eq_decide.mpr reaches
  rw [decided]
  by_cases reached : guess ≤ Int.log 2 ((numerator : ℚ) / denominator)
  · rw [if_pos (decide_eq_true reached)]
    omega
  · rw [if_neg (by simpa using reached)]
    omega

/-- The rounded quotient depends on the ratio only. -/
theorem roundedQuotient_mul (numerator denominator : Nat) {factor : Nat} (positive : 0 < factor) :
    roundedQuotient (numerator * factor) (denominator * factor) =
      roundedQuotient numerator denominator := by
  unfold roundedQuotient
  rw [Nat.mul_div_mul_right _ _ positive, Nat.mul_mod_mul_right, ← mul_assoc]
  simp only [Nat.mul_lt_mul_right positive]

theorem roundedQuotient_exact {quotient denominator : Nat} (positive : 0 < denominator) :
    roundedQuotient (quotient * denominator) denominator = quotient := by
  unfold roundedQuotient
  rw [Nat.mul_div_cancel _ positive, Nat.mul_mod_left, if_pos (by omega)]

/-- The nearest word depends on the ratio only. -/
theorem nearestWord_mul (numerator : Nat) {denominator factor : Nat} (divides : 0 < denominator)
    (positive : 0 < factor) :
    nearestWord (numerator * factor) (denominator * factor) =
      nearestWord numerator denominator := by
  unfold nearestWord
  by_cases zero : numerator = 0
  · rw [zero, Nat.zero_mul, if_pos rfl, if_pos rfl]
  · have some_ : numerator * factor ≠ 0 := Nat.mul_ne_zero zero (Nat.pos_iff_ne_zero.mp positive)
    have exponent : ratioLog2 (numerator * factor) (denominator * factor) =
        ratioLog2 numerator denominator := by
      have nonzero : (factor : ℚ) ≠ 0 := by positivity
      rw [ratioLog2_eq (by omega) (Nat.mul_pos divides positive),
        ratioLog2_eq (by omega) divides, Nat.cast_mul, Nat.cast_mul,
        mul_div_mul_right _ _ nonzero]
    rw [if_neg zero, if_neg some_, exponent]
    dsimp only
    rw [Nat.mul_right_comm, Nat.mul_right_comm denominator, roundedQuotient_mul _ _ positive]

/-- Ratios of one value have one nearest word. -/
theorem nearestWord_congr {first second : Nat × Nat} (one : 0 < first.2) (two : 0 < second.2)
    (same : first.1 * second.2 = second.1 * first.2) :
    nearestWord first.1 first.2 = nearestWord second.1 second.2 := by
  rw [← nearestWord_mul first.1 one two, same, mul_comm first.2, nearestWord_mul second.1 two one]

/-- The exponent of a ratio is compared in whole numbers. -/
theorem le_ratioLog2_iff {numerator denominator : Nat} (positive : 0 < numerator)
    (divides : 0 < denominator) (count : Nat) :
    (count : Int) - 1074 ≤ ratioLog2 numerator denominator ↔
      denominator * 2 ^ count ≤ numerator * 2 ^ 1074 := by
  have above : (0 : ℚ) < numerator := by exact_mod_cast positive
  have below : (0 : ℚ) < denominator := by exact_mod_cast divides
  have scale : (0 : ℚ) < 2 ^ 1074 := pow_pos (by norm_num) _
  have power : (2 : ℚ) ^ ((count : Int) - 1074) = 2 ^ count / 2 ^ 1074 := by
    rw [zpow_sub₀ (by norm_num), zpow_natCast]
    rfl
  have base : ((2 : Nat) : ℚ) = 2 := rfl
  rw [ratioLog2_eq positive divides, ← Int.zpow_le_iff_le_log (by decide) (div_pos above below),
    base, power, le_div_iff₀ below, div_mul_eq_mul_div, div_le_iff₀ scale, mul_comm]
  exact_mod_cast Iff.rfl

/-- A significand with its power is the nearest word to a ratio of this value. -/
theorem nearestWord_exact {numerator denominator significand power : Nat}
    (divides : 0 < denominator)
    (same : numerator * 2 ^ 1074 = significand * 2 ^ power * denominator)
    (legal : fractionCount ≤ significand ∧ significand < 2 * fractionCount ∨
      power = 0 ∧ significand < fractionCount) :
    nearestWord numerator denominator = power * fractionCount + significand := by
  unfold nearestWord
  by_cases zero : numerator = 0
  · rw [zero, Nat.zero_mul] at same
    have none_ : significand = 0 := by
      have product := same.symm
      simp only [Nat.mul_eq_zero, Nat.pow_eq_zero] at product
      omega
    rw [if_pos zero, none_]
    rcases legal with ⟨lower, _⟩ | ⟨rfl, _⟩
    · unfold fractionCount at lower
      omega
    · rw [Nat.zero_mul]
  · have positive : 0 < numerator := Nat.pos_of_ne_zero zero
    have exponent : (ratioLog2 numerator denominator + 1022).toNat = power := by
      have le := le_ratioLog2_iff positive divides
      rcases legal with ⟨lower, upper⟩ | ⟨rfl, small⟩
      · have one := (le (52 + power)).mpr (by
          rw [same, pow_add, mul_comm denominator]
          exact Nat.mul_le_mul_right _ (Nat.mul_le_mul_right _ lower))
        have two : ¬ ((53 + power : Nat) : Int) - 1074 ≤ ratioLog2 numerator denominator := by
          rw [le (53 + power), same, pow_add, mul_comm denominator, not_le]
          exact Nat.mul_lt_mul_of_pos_right
            (Nat.mul_lt_mul_of_pos_right upper (Nat.two_pow_pos power)) divides
        omega
      · have two : ¬ ((52 : Nat) : Int) - 1074 ≤ ratioLog2 numerator denominator := by
          rw [le 52, same, mul_comm denominator, not_le, pow_zero, mul_one]
          exact Nat.mul_lt_mul_of_pos_right small divides
        omega
    have scaled : numerator * 2 ^ 1074 = significand * (denominator * 2 ^ power) := by
      rw [same, mul_assoc, mul_comm denominator]
    rw [if_neg zero, exponent]
    have powers : ∀ count, Nat.pow 2 count = 2 ^ count := fun _ => rfl
    simp only [powers]
    rw [scaled, roundedQuotient_exact (Nat.mul_pos divides (Nat.two_pow_pos power))]

/-- A finite magnitude in terms of its significand and its power. -/
theorem magnitude_eq (number : Binary64) :
    number.magnitude = number.power * fractionCount + number.significand := by
  unfold power significand fractionCount
  split <;> omega

theorem significand_legal (number : Binary64) :
    fractionCount ≤ number.significand ∧ number.significand < 2 * fractionCount ∨
      number.power = 0 ∧ number.significand < fractionCount := by
  unfold power significand fractionCount
  split <;> omega

theorem ratio_pos (number : Binary64) : 0 < number.ratio.2 := by
  unfold ratio
  split
  · exact Nat.one_pos
  · exact Nat.two_pow_pos _

/-- What a ratio stands for, scaled to a whole number. -/
theorem ratio_scaled (number : Binary64) :
    number.ratio.1 * 2 ^ 1074 = number.significand * 2 ^ number.power * number.ratio.2 := by
  unfold ratio
  split
  · rename_i large
    rw [Nat.pow_eq, mul_assoc, ← pow_add, Nat.sub_add_cancel large, mul_one]
  · rename_i small
    rw [Nat.pow_eq, mul_assoc, ← pow_add, Nat.add_sub_of_le (by omega)]

/-- The word of a number is nearest to what the number stands for. -/
theorem nearestWord_ratio (number : Binary64) :
    nearestWord number.ratio.1 number.ratio.2 = number.magnitude :=
  (nearestWord_exact number.ratio_pos number.ratio_scaled number.significand_legal).trans
    number.magnitude_eq.symm

/-- A number is whole if its power is large, or its significand has the factor that is missing. -/
theorem isWhole_iff (number : Binary64) :
    number.isWhole = true ↔ number.ratio.2 ∣ number.ratio.1 := by
  unfold isWhole
  rw [beq_iff_eq, Nat.dvd_iff_mod_eq_zero]

theorem isWhole_of_dvd {number : Binary64}
    (divides : 2 ^ (1074 - number.power) ∣ number.significand) : number.isWhole = true := by
  rw [isWhole_iff]
  unfold ratio
  split
  · exact one_dvd _
  · exact divides

theorem power_and_significand_of_magnitude {number : Binary64} {power significand : Nat}
    (same : number.magnitude = power * fractionCount + significand)
    (legal : fractionCount ≤ significand ∧ significand < 2 * fractionCount) :
    number.power = power ∧ number.significand = significand := by
  unfold Binary64.power Binary64.significand
  unfold fractionCount at *
  split <;> omega

/-- A number that is nearest to a whole number is whole. -/
theorem isWhole_of_nearestWord {number : Binary64} {whole : Nat}
    (nearest : nearestWord whole 1 = number.magnitude) : number.isWhole = true := by
  by_cases zero : whole = 0
  · have none_ : number.significand = 0 := by
      rw [zero] at nearest
      unfold significand
      rw [← nearest, show nearestWord 0 1 = 0 from rfl]
      decide
    exact isWhole_of_dvd (none_ ▸ Nat.dvd_zero _)
  · have lower := Nat.log2_self_le zero
    have upper := Nat.lt_log2_self (n := whole)
    by_cases small : whole.log2 ≤ 52
    · have legal : fractionCount ≤ whole * 2 ^ (52 - whole.log2) ∧
          whole * 2 ^ (52 - whole.log2) < 2 * fractionCount := by
        have least : 2 ^ whole.log2 * 2 ^ (52 - whole.log2) = fractionCount := by
          rw [← pow_add, Nat.add_sub_of_le small]
          rfl
        have most : 2 ^ (whole.log2 + 1) * 2 ^ (52 - whole.log2) = 2 * fractionCount := by
          rw [← least, pow_succ]
          ring
        exact ⟨least ▸ Nat.mul_le_mul_right _ lower,
          most ▸ Nat.mul_lt_mul_of_pos_right upper (Nat.two_pow_pos _)⟩
      have scaled : whole * 2 ^ 1074 =
          whole * 2 ^ (52 - whole.log2) * 2 ^ (whole.log2 + 1022) * 1 := by
        rw [mul_one, mul_assoc, ← pow_add, show 52 - whole.log2 + (whole.log2 + 1022) = 1074 by
          omega]
      have exact_ := nearestWord_exact Nat.one_pos scaled (.inl legal)
      obtain ⟨power, significand⟩ := power_and_significand_of_magnitude
        (nearest.symm.trans exact_) legal
      refine isWhole_of_dvd ?_
      rw [power, significand, show 1074 - (whole.log2 + 1022) = 52 - whole.log2 by omega]
      exact Nat.dvd_mul_left _ _
    · have large : 1074 ≤ number.power := by
        have above := (le_ratioLog2_iff (Nat.pos_of_ne_zero zero) Nat.one_pos (53 + 1074)).mpr (by
          rw [pow_add, one_mul]
          exact Nat.mul_le_mul_right _ (Nat.le_trans (Nat.pow_le_pow_right (by decide) (by omega))
            lower))
        unfold nearestWord at nearest
        rw [if_neg zero] at nearest
        dsimp only at nearest
        generalize roundedQuotient _ _ = rest at nearest
        have many : 1075 ≤ (ratioLog2 whole 1 + 1022).toNat := by omega
        unfold power
        rw [← nearest]
        have quotient := Nat.div_le_div_right (c := fractionCount)
          (Nat.le_trans (Nat.mul_le_mul_right fractionCount many) (Nat.le_add_right _ rest))
        rw [Nat.mul_div_cancel _ (by decide)] at quotient
        omega
      exact isWhole_of_dvd (by rw [Nat.sub_eq_zero_of_le large, pow_zero]; exact one_dvd _)

end Binary64

end Reduct
