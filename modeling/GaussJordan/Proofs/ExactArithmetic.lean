import GaussJordan.Scalar
import Mathlib.Algebra.Order.Field.Rat
import Mathlib.Algebra.Order.Ring.Abs
import Mathlib.Tactic.Linarith
import Mathlib.Tactic.Ring

namespace GaussJordan

theorem magnitude_eq_abs (x : ℚ) : Scalar.magnitude x = |x| := by
  change Rat.abs x = |x|
  rw [Rat.abs]
  split
  next h => exact (abs_of_nonneg h).symm
  next h => exact (abs_of_nonpos (le_of_not_ge h)).symm

theorem isZero_iff {tolerance x : ℚ} : isZero tolerance x = true ↔ |x| ≤ tolerance := by
  rw [isZero, magnitude_eq_abs]
  exact decide_eq_true_iff

theorem isZero_eq_false_iff {tolerance x : ℚ} : isZero tolerance x = false ↔ tolerance < |x| := by
  rw [← Bool.not_eq_true, isZero_iff, not_le]

theorem isSignificant_iff {tolerance x : ℚ} :
    isSignificant tolerance x = true ↔ tolerance < |x| := by
  rw [isSignificant, magnitude_eq_abs]
  exact decide_eq_true_iff

/-- Exact numbers are ordered: what is not significant counts as zero. -/
theorem isSignificant_eq_false_iff {tolerance x : ℚ} :
    isSignificant tolerance x = false ↔ isZero tolerance x = true := by
  rw [← Bool.not_eq_true, isSignificant_iff, isZero_iff, not_lt]

theorem isZero_zero_iff {x : ℚ} : isZero 0 x = true ↔ x = 0 := by
  rw [isZero_iff, abs_nonpos_iff]

theorem isZero_zero {tolerance : ℚ} (ht : 0 ≤ tolerance) : isZero tolerance (0 : ℚ) = true := by
  rwa [isZero_iff, abs_zero]

theorem ne_zero_of_isZero_eq_false {tolerance x : ℚ} (ht : 0 ≤ tolerance)
    (h : isZero tolerance x = false) : x ≠ 0 := by
  rintro rfl
  rw [isZero_zero ht] at h
  cases h

end GaussJordan
