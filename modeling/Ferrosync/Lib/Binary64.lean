import Mathlib.Data.Int.Log
import Mathlib.Data.Rat.Floor
import Mathlib.Tactic.Linarith
import Mathlib.Tactic.NormNum
import Mathlib.Tactic.Positivity
import Mathlib.Tactic.FieldSimp

set_option autoImplicit false

/-! # Rounding to doubles

The value of a floating-point sum is the exact sum, rounded to a number of 53 binary digits, and to
the even one of two that are equally near. For positive sums that are neither tiny nor huge this is
all there is to binary64: `round` has no case for zeros, subnormal numbers and infinities.

Rounding is monotone, but only two of its consequences are needed: a double below the sum stays
below the rounded sum (`le_round`, of which `eighty_le_round` is an instance), and an integer is its
own rounded value (`round_natCast`).
-/

namespace Binary64

/-- The nearest integer, the even one of two. -/
def roundEven (q : ℚ) : ℤ :=
  if q - ⌊q⌋ < 1 / 2 then ⌊q⌋
  else if 1 / 2 < q - ⌊q⌋ then ⌊q⌋ + 1
  else if ⌊q⌋ % 2 = 0 then ⌊q⌋
  else ⌊q⌋ + 1

/-- The distance of neighbouring doubles at a positive number. -/
def spacing (x : ℚ) : ℚ := 2 ^ (Int.log 2 x - 52)

/-- The double nearest to a positive number. -/
def round (x : ℚ) : ℚ := roundEven (x / spacing x) * spacing x

theorem spacing_pos (x : ℚ) : 0 < spacing x := zpow_pos two_pos _

theorem floor_le_roundEven (q : ℚ) : ⌊q⌋ ≤ roundEven q := by
  unfold roundEven
  split_ifs <;> omega

@[simp] theorem roundEven_intCast (z : ℤ) : roundEven z = z := by
  simp [roundEven]

/-- A multiple of the spacing below a number stays below its rounded value. -/
theorem le_round {x y : ℚ} (m : ℤ) (hm : m * spacing x = y) (hle : y ≤ x) : y ≤ round x := by
  have hspacing := spacing_pos x
  have hfloor : m ≤ ⌊x / spacing x⌋ := by
    rw [Int.le_floor, le_div_iff₀ hspacing, hm]
    exact hle
  have hround : (m : ℚ) ≤ roundEven (x / spacing x) := by
    exact_mod_cast hfloor.trans (floor_le_roundEven _)
  rw [← hm]
  exact mul_le_mul_of_nonneg_right hround hspacing.le

/-- Integers of at most 53 binary digits are doubles. -/
theorem round_natCast {n : ℕ} (hpos : 0 < n) (hlt : n < 2 ^ 53) : round n = n := by
  have hlog : Nat.log 2 n ≤ 52 := Nat.lt_succ_iff.mp (Nat.log_lt_of_lt_pow hpos.ne' hlt)
  obtain ⟨k, hk⟩ := Nat.exists_eq_add_of_le hlog
  have hspacing : spacing n = ((2 : ℚ) ^ k)⁻¹ := by
    rw [spacing, Int.log_natCast, ← zpow_natCast, ← zpow_neg]
    congr 1
    omega
  have hint : (n : ℚ) / spacing n = ((n * 2 ^ k : ℕ) : ℤ) := by
    rw [hspacing, div_inv_eq_mul]
    push_cast
    rfl
  rw [round, hint, roundEven_intCast, hspacing]
  push_cast
  field_simp

/-- What is at least 80 is not rounded below it. -/
theorem eighty_le_round {x : ℚ} (h : 80 ≤ x) : 80 ≤ round x := by
  have hpos : 0 < x := by linarith
  rcases lt_or_ge x 128 with hlt | hge
  · have hlog : Int.log 2 x = 6 := by
      refine le_antisymm (Int.lt_add_one_iff.mp ?_) ?_
      · exact (Int.lt_zpow_iff_log_lt (by decide) hpos).mp (by norm_num; exact hlt)
      · exact (Int.zpow_le_iff_le_log (by decide) hpos).mp (by norm_num; linarith)
    refine le_round (80 * 2 ^ 46) ?_ h
    rw [spacing, hlog]
    norm_num
  · -- the power of two below the number is a double, and at least 128
    have hlog : 7 ≤ Int.log 2 x :=
      (Int.zpow_le_iff_le_log (by decide) hpos).mp (by norm_num; exact hge)
    have hpower : (2 : ℚ) ^ Int.log 2 x ≤ round x := by
      refine le_round (2 ^ 52) ?_ (Int.zpow_log_le_self (by decide) hpos)
      rw [spacing, zpow_sub₀ two_ne_zero]
      push_cast
      exact mul_div_cancel₀ _ (by norm_num)
    have hlarge : (2 : ℚ) ^ (7 : ℤ) ≤ 2 ^ Int.log 2 x := zpow_le_zpow_right₀ one_le_two hlog
    norm_num at hlarge
    linarith

end Binary64
