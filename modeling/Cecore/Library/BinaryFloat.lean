import Mathlib.Data.Int.Log
import Mathlib.Data.Rat.Floor

/-!
# Rounding to double precision

Binary numbers of 53 significant bits, as rationals. `roundToDouble` rounds to the nearest one, ties
to the even neighbour, with the gradual underflow of the format and no bound above. Whole numbers
below `2 ^ 53` are such numbers (`roundToDouble_intCast`).
-/

set_option autoImplicit false
set_option relaxedAutoImplicit false

namespace Cecore.Library.BinaryFloat

/-- The nearest integer, ties to the even one. -/
def roundEven (q : ℚ) : ℤ :=
  if Int.fract q < 1 / 2 then ⌊q⌋
  else if 1 / 2 < Int.fract q ∨ ¬2 ∣ ⌊q⌋ then ⌊q⌋ + 1
  else ⌊q⌋

/-- The exponent of the last significant bit of the doubles around `q`. -/
def lastBit (q : ℚ) : ℤ := max (Int.log 2 |q| - 52) (-1074)

/-- The nearest double. -/
def roundToDouble (q : ℚ) : ℚ := roundEven (q / 2 ^ lastBit q) * 2 ^ lastBit q

theorem roundEven_intCast (n : ℤ) : roundEven n = n := by
  simp [roundEven]

theorem lastBit_nonpos {q : ℚ} (h : |q| < 2 ^ 53) : lastBit q ≤ 0 := by
  refine max_le ?_ (by decide)
  rcases eq_or_lt_of_le (abs_nonneg q) with hzero | hpos
  · rw [← hzero, Int.log_zero_right]
    decide
  · have hlog : Int.log 2 |q| < 53 := by
      by_contra hlarge
      have hmono : (2 : ℚ) ^ (53 : ℤ) ≤ 2 ^ Int.log 2 |q| :=
        zpow_le_zpow_right₀ one_le_two (Int.not_lt.mp hlarge)
      have hself : (2 : ℚ) ^ Int.log 2 |q| ≤ |q| := by
        exact_mod_cast Int.zpow_log_le_self one_lt_two hpos
      have hbelow : |q| < (2 : ℚ) ^ (53 : ℤ) := by exact_mod_cast h
      exact absurd (hmono.trans hself) (not_le.mpr hbelow)
    omega

/-- A whole number of at most 53 bits is not rounded. -/
theorem roundToDouble_intCast {n : ℤ} (h : |n| < 2 ^ 53) : roundToDouble n = n := by
  have habs : |(n : ℚ)| < 2 ^ 53 := by exact_mod_cast h
  obtain ⟨k, hk⟩ := Int.exists_eq_neg_ofNat (lastBit_nonpos habs)
  have hscaled : (n : ℚ) / 2 ^ lastBit (n : ℚ) = ((n * 2 ^ k : ℤ) : ℚ) := by
    rw [hk, zpow_neg, zpow_natCast, div_inv_eq_mul]
    push_cast
    rfl
  have hpow : (2 : ℚ) ^ lastBit (n : ℚ) ≠ 0 := zpow_ne_zero _ two_ne_zero
  rw [roundToDouble, hscaled, roundEven_intCast, ← hscaled, div_mul_cancel₀ _ hpow]

theorem floor_le_roundEven (q : ℚ) : ⌊q⌋ ≤ roundEven q := by
  unfold roundEven
  split_ifs <;> omega

theorem roundEven_le (q : ℚ) : roundEven q ≤ ⌊q⌋ + 1 := by
  unfold roundEven
  split_ifs <;> omega

/-- The last bit of a large number does not exceed it. -/
theorem zpow_lastBit_le {q : ℚ} (h : 2 ^ 53 ≤ q) : (2 : ℚ) ^ lastBit q ≤ q := by
  have hpos : 0 < q := lt_of_lt_of_le (by norm_num) h
  have hlog : 53 ≤ Int.log 2 q := by
    rw [← Int.zpow_le_iff_le_log one_lt_two hpos]
    exact_mod_cast h
  have hbit : lastBit q ≤ Int.log 2 q := by
    rw [lastBit, abs_of_pos hpos]
    omega
  have hself : (2 : ℚ) ^ Int.log 2 q ≤ q := by exact_mod_cast Int.zpow_log_le_self one_lt_two hpos
  exact (zpow_le_zpow_right₀ one_le_two hbit).trans hself

/-- A positive whole number is rounded to a positive number of at most twice its size. -/
theorem roundToDouble_natCast {n : ℕ} (hn : 0 < n) :
    0 < roundToDouble n ∧ roundToDouble n ≤ 2 * n := by
  have hpos : (0 : ℚ) < n := by exact_mod_cast hn
  by_cases hsmall : n < 2 ^ 53
  · have hexact : roundToDouble (n : ℚ) = n := by
      have hcast := roundToDouble_intCast (n := (n : ℤ)) (by
        rw [abs_of_nonneg (Int.natCast_nonneg n)]
        exact_mod_cast hsmall)
      exact_mod_cast hcast
    rw [hexact]
    constructor <;> linarith
  · have hlarge : (2 : ℚ) ^ 53 ≤ n := by exact_mod_cast Nat.le_of_not_lt hsmall
    have hbit := zpow_lastBit_le hlarge
    have hunit : (0 : ℚ) < 2 ^ lastBit (n : ℚ) := zpow_pos two_pos _
    have hone : (1 : ℚ) ≤ n / 2 ^ lastBit (n : ℚ) := (one_le_div hunit).mpr hbit
    have hfloor : 1 ≤ ⌊(n : ℚ) / 2 ^ lastBit (n : ℚ)⌋ := Int.le_floor.mpr (by exact_mod_cast hone)
    have hlow : (1 : ℚ) ≤ roundEven (n / 2 ^ lastBit (n : ℚ)) := by
      exact_mod_cast hfloor.trans (floor_le_roundEven _)
    have hhigh : (roundEven (n / 2 ^ lastBit (n : ℚ)) : ℚ) ≤ n / 2 ^ lastBit (n : ℚ) + 1 := by
      have hle : (roundEven (n / 2 ^ lastBit (n : ℚ)) : ℚ) ≤ ⌊(n : ℚ) / 2 ^ lastBit (n : ℚ)⌋ + 1 := by
        exact_mod_cast roundEven_le _
      exact hle.trans (by linarith [Int.floor_le ((n : ℚ) / 2 ^ lastBit (n : ℚ))])
    rw [roundToDouble]
    refine ⟨mul_pos (lt_of_lt_of_le one_pos hlow) hunit, ?_⟩
    calc (roundEven (n / 2 ^ lastBit (n : ℚ)) : ℚ) * 2 ^ lastBit (n : ℚ)
        ≤ (n / 2 ^ lastBit (n : ℚ) + 1) * 2 ^ lastBit (n : ℚ) :=
          mul_le_mul_of_nonneg_right hhigh hunit.le
      _ = n + 2 ^ lastBit (n : ℚ) := by rw [add_mul, div_mul_cancel₀ _ hunit.ne', one_mul]
      _ ≤ 2 * n := by linarith

end Cecore.Library.BinaryFloat
