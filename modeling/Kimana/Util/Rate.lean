import Kimana.Util
import Mathlib.Tactic.Ring
import Mathlib.Tactic.Linarith

/-!
# Facts about rates

* `applyRate_eq`, `invertRate_eq` : on non-negative numbers whose product fits 128 bits both
  directions are the floor, cast to 64 bits.
* `asI64_le` : the cast never adds.
* `applyRate_eq_floor`, `invertRate_eq_floor` : exactly when the cast gives the floor.
* `applyRate_mul_le`, `lt_applyRate_mul` and their companions : the two sides of a conversion.
-/

namespace Kimana.Util

theorem asI64_of_fits {n : ℤ} (h₀ : 0 ≤ n) (h : n < 2 ^ 63) : asI64 n = n :=
  asI64_eq_iff.2 ⟨by omega, h⟩

/-- The cast of a non-negative number is at most that number. -/
theorem asI64_le {n : ℤ} (h₀ : 0 ≤ n) : asI64 n ≤ n := by
  rw [asI64, Int.bmod_def]
  split <;> omega

theorem asI128_of_fits {n : ℤ} (h₀ : 0 ≤ n) (h : n < 2 ^ 127) : asI128 n = n := by
  rw [asI128, Int.bmod_def]
  split <;> omega

theorem rateScale_pos : 0 < rateScale := by decide

section Floor

variable {a r : ℤ}

theorem applyRate_eq (ha : 0 ≤ a) (hr : 0 ≤ r) (h : a * r < 2 ^ 127) :
    applyRate a r = asI64 (a * r / rateScale) := by
  have h₀ : 0 ≤ a * r := Int.mul_nonneg ha hr
  rw [applyRate, asI128_of_fits h₀ h, Int.tdiv_eq_ediv_of_nonneg h₀]

theorem invertRate_eq (ha : 0 ≤ a) (h : a * rateScale < 2 ^ 127) :
    invertRate a r = asI64 (a * rateScale / r) := by
  have h₀ : 0 ≤ a * rateScale := Int.mul_nonneg ha rateScale_pos.le
  rw [invertRate, asI128_of_fits h₀ h, Int.tdiv_eq_ediv_of_nonneg h₀]

/-- An amount of 64 bits times the scale fits 128 bits. -/
theorem mul_rateScale_lt (h : a < 2 ^ 63) : a * rateScale < 2 ^ 127 := by
  unfold rateScale
  omega

theorem applyRate_eq_floor (ha : 0 ≤ a) (hr : 0 ≤ r) (h : a * r / rateScale < 2 ^ 63) :
    applyRate a r = a * r / rateScale := by
  have h₀ : 0 ≤ a * r := Int.mul_nonneg ha hr
  have hlt : a * r < 2 ^ 127 := by
    unfold rateScale at h
    omega
  rw [applyRate_eq ha hr hlt, asI64_of_fits (Int.ediv_nonneg h₀ rateScale_pos.le) h]

theorem invertRate_eq_floor (ha : 0 ≤ a) (ha' : a < 2 ^ 63) (hr : 0 ≤ r)
    (h : a * rateScale / r < 2 ^ 63) : invertRate a r = a * rateScale / r := by
  have h₀ : 0 ≤ a * rateScale := Int.mul_nonneg ha rateScale_pos.le
  rw [invertRate_eq ha (mul_rateScale_lt ha'), asI64_of_fits (Int.ediv_nonneg h₀ hr) h]

/-! ### Rounding: what is credited is worth at most what is debited, and less by under one unit -/

theorem applyRate_mul_le (ha : 0 ≤ a) (hr : 0 ≤ r) (h : a * r < 2 ^ 127) :
    applyRate a r * rateScale ≤ a * r := by
  have hfloor : 0 ≤ a * r / rateScale := Int.ediv_nonneg (Int.mul_nonneg ha hr) rateScale_pos.le
  rw [applyRate_eq ha hr h]
  calc asI64 (a * r / rateScale) * rateScale
      ≤ a * r / rateScale * rateScale :=
        Int.mul_le_mul_of_nonneg_right (asI64_le hfloor) rateScale_pos.le
    _ ≤ a * r := Int.ediv_mul_le _ rateScale_pos.ne'

theorem lt_applyRate_mul (ha : 0 ≤ a) (hr : 0 ≤ r) (h : a * r / rateScale < 2 ^ 63) :
    a * r < applyRate a r * rateScale + rateScale := by
  rw [applyRate_eq_floor ha hr h]
  exact Int.lt_ediv_add_one_mul_self _ rateScale_pos |>.trans_eq (by ring)

theorem invertRate_mul_le (ha : 0 ≤ a) (ha' : a < 2 ^ 63) (hr : 0 < r) :
    invertRate a r * r ≤ a * rateScale := by
  have hfloor : 0 ≤ a * rateScale / r :=
    Int.ediv_nonneg (Int.mul_nonneg ha rateScale_pos.le) hr.le
  rw [invertRate_eq ha (mul_rateScale_lt ha')]
  calc asI64 (a * rateScale / r) * r
      ≤ a * rateScale / r * r := Int.mul_le_mul_of_nonneg_right (asI64_le hfloor) hr.le
    _ ≤ a * rateScale := Int.ediv_mul_le _ hr.ne'

theorem lt_invertRate_mul (ha : 0 ≤ a) (ha' : a < 2 ^ 63) (hr : 0 < r)
    (h : a * rateScale / r < 2 ^ 63) : a * rateScale < invertRate a r * r + r := by
  rw [invertRate_eq_floor ha ha' hr.le h]
  exact Int.lt_ediv_add_one_mul_self _ hr |>.trans_eq (by ring)

end Floor

end Kimana.Util
