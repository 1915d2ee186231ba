import Mathlib.Algebra.Group.Int.Defs
import Reduct.Machine.Primitive
import Reduct.Proofs.Frontier

/-!
# Counts as machine words

Code holds counts and positions as integers of 64 bits. Comparisons of such integers compare the
counts, and a position moves on without overflow as long as it is below the greatest count.
-/

namespace Reduct

theorem capped_le (count : Nat) : capped count ≤ mostCount := Nat.min_le_right _ _

theorem capped_eq {count : Nat} (small : count ≤ mostCount) : capped count = count :=
  Nat.min_eq_left small

theorem toInt_wordOfCount (count : Nat) : (wordOfCount count).toInt = capped count := by
  have bound : capped count < 2 ^ 63 := by
    have most := capped_le count
    unfold mostCount at most
    omega
  exact Int64.toInt_ofNat_of_lt bound

theorem wordOfCount_lt {left right : Nat} :
    wordOfCount left < wordOfCount right ↔ capped left < capped right := by
  rw [Int64.lt_iff_toInt_lt, toInt_wordOfCount, toInt_wordOfCount]
  exact Int.ofNat_lt

theorem wordOfCount_inj {left right : Nat} :
    wordOfCount left = wordOfCount right ↔ capped left = capped right := by
  rw [← Int64.toInt_inj, toInt_wordOfCount, toInt_wordOfCount]
  exact Int.ofNat_inj

theorem wordOfCount_nonneg (count : Nat) : 0 ≤ wordOfCount count := by
  rw [Int64.le_iff_toInt_le, toInt_wordOfCount]
  exact Int.natCast_nonneg _

theorem toIndex_wordOfCount (count : Nat) :
    (Value.int (wordOfCount count)).toIndex = .ok (capped count) := by
  simp only [Value.toIndex, if_pos (wordOfCount_nonneg count), toInt_wordOfCount,
    Int.toNat_natCast]

/-- The position after a position. -/
theorem wordOfCount_succ {count : Nat} (room : count < mostCount) :
    wordOfCount count + 1 = wordOfCount (count + 1) := by
  have next : min (count + 1) mostCount = count + 1 := Nat.min_eq_left room
  unfold wordOfCount
  rw [Nat.min_eq_left (Nat.le_of_lt room), next, Int64.ofNat_add]
  rfl

namespace BinaryOp

theorem ofExact_of_bounds {value : Int} (low : -2 ^ 63 ≤ value) (high : value < 2 ^ 63) :
    ofExact value = .ok (.int (Int64.ofInt value)) := by
  have least : Int64.minValue.toInt = -2 ^ 63 := rfl
  have greatest : Int64.maxValue.toInt = 2 ^ 63 - 1 := rfl
  unfold ofExact
  rw [if_pos]
  rw [least, greatest]
  omega

/-- A position moves on by one. -/
theorem apply_add_one {count : Nat} (room : count < mostCount) :
    add.apply (.int (wordOfCount count)) (.int 1) = .ok (.int (wordOfCount (count + 1))) := by
  have one : (1 : Int64).toInt = 1 := rfl
  have small : (count : Int) + 1 < 2 ^ 63 := by
    unfold mostCount at room
    omega
  change ofExact ((wordOfCount count).toInt + (1 : Int64).toInt) = _
  rw [toInt_wordOfCount, capped_eq (Nat.le_of_lt room), one, ofExact_of_bounds (by omega) small]
  have counted : (count : Int) + 1 = ((count + 1 : Nat) : Int) := rfl
  rw [counted, Int64.ofInt_eq_ofNat]
  unfold wordOfCount
  rw [Nat.min_eq_left room]

theorem apply_less (left right : Nat) :
    less.apply (.int (wordOfCount left)) (.int (wordOfCount right)) =
      .ok (.bool (decide (capped left < capped right))) := by
  change Except.ok (Value.bool (decide (wordOfCount left < wordOfCount right))) = _
  rw [decide_eq_decide.mpr wordOfCount_lt]

/-- Whether a count is positive. -/
theorem apply_greater_zero (count : Nat) :
    greater.apply (.int (wordOfCount count)) (.int 0) = .ok (.bool (decide (0 < count))) := by
  have zero : (0 : Int64) = wordOfCount 0 := rfl
  have same : (0 : Int64) < wordOfCount count ↔ 0 < count := by
    rw [zero, wordOfCount_lt]
    unfold capped mostCount
    omega
  change Except.ok (Value.bool (decide ((0 : Int64) < wordOfCount count))) = _
  rw [decide_eq_decide.mpr same]

theorem apply_greaterEqual (left right : Nat) :
    greaterEqual.apply (.int (wordOfCount left)) (.int (wordOfCount right)) =
      .ok (.bool (decide (capped right ≤ capped left))) := by
  have same : wordOfCount right ≤ wordOfCount left ↔ capped right ≤ capped left := by
    rw [Int64.le_iff_toInt_le, toInt_wordOfCount, toInt_wordOfCount]
    exact Int.ofNat_le
  change Except.ok (Value.bool (decide (wordOfCount right ≤ wordOfCount left))) = _
  rw [decide_eq_decide.mpr same]

theorem apply_equal (left right : Nat) :
    equal.apply (.int (wordOfCount left)) (.int (wordOfCount right)) =
      .ok (.bool (decide (capped left = capped right))) := by
  change Except.ok (Value.bool (decide (wordOfCount left = wordOfCount right))) = _
  rw [decide_eq_decide.mpr wordOfCount_inj]

/-- Whether there is room for some terms between two positions. -/
theorem apply_subtract (length position : Nat) :
    ∃ rest, subtract.apply (.int (wordOfCount length)) (.int (wordOfCount position)) =
        .ok (.int rest) ∧
      ∀ needed, greaterEqual.apply (.int rest) (.int (wordOfCount needed)) =
        .ok (.bool (decide (capped position + capped needed ≤ capped length))) := by
  have first := capped_le length
  have second := capped_le position
  have bounds : -2 ^ 63 ≤ (capped length : Int) - capped position ∧
      (capped length : Int) - capped position < 2 ^ 63 := by
    unfold mostCount at first second
    omega
  refine ⟨Int64.ofInt (capped length - capped position), ?_, ?_⟩
  · change ofExact ((wordOfCount length).toInt - (wordOfCount position).toInt) = _
    rw [toInt_wordOfCount, toInt_wordOfCount, ofExact_of_bounds bounds.1 bounds.2]
  · intro needed
    have same : wordOfCount needed ≤ Int64.ofInt (capped length - capped position) ↔
        capped position + capped needed ≤ capped length := by
      rw [Int64.le_iff_toInt_le, toInt_wordOfCount,
        Int64.toInt_ofInt_of_le bounds.1 bounds.2]
      omega
    change Except.ok (Value.bool (decide (wordOfCount needed ≤ _))) = _
    rw [decide_eq_decide.mpr same]

end BinaryOp

end Reduct
