import Mathlib.Algebra.Order.Round
import Mathlib.Data.Int.ModEq
import Mathlib.Data.Rat.Floor
import Mathlib.Tactic.FieldSimp
import Mathlib.Tactic.Linarith
import Mathlib.Tactic.Ring

/-!
# Fewer steps on a circle

A circle of `q` points is divided into `m` steps: a point is taken to the nearest step, a step to the
point that is nearest to it.
-/

namespace Quantize

/-- `n / m` to the nearest integer, halves upwards. -/
def nearest (n m : ℕ) : ℕ := (2 * n + m) / (2 * m)

/-- The step of a point. -/
def coarse (q m x : ℕ) : ℕ := nearest (m * x) q % m

/-- The point of a step. -/
def fine (q m y : ℕ) : ℕ := nearest (q * y) m

variable {n m q x y : ℕ}

theorem round_eq_nearest (n : ℕ) (hm : 0 < m) : round ((n : ℚ) / m) = nearest n m := by
  have hPos : (m : ℚ) ≠ 0 := by exact_mod_cast hm.ne'
  have hSum : (n : ℚ) / m + 1 / 2 = ((2 * n + m : ℕ) : ℚ) / ((2 * m : ℕ) : ℚ) := by
    push_cast
    field_simp
  rw [round_eq, hSum, Rat.floor_natCast_div_natCast]
  rfl

theorem nearest_bounds (n : ℕ) (hm : 0 < m) :
    2 * m * nearest n m ≤ 2 * n + m ∧ 2 * n < 2 * m * nearest n m + m := by
  have hSplit := Nat.div_add_mod (2 * n + m) (2 * m)
  have hMod := Nat.mod_lt (2 * n + m) (show 0 < 2 * m by omega)
  unfold nearest
  omega

theorem nearest_eq (hLow : 2 * m * y ≤ 2 * n + m) (hHigh : 2 * n < 2 * m * y + m) :
    nearest n m = y := by
  have hExpand : (y + 1) * (2 * m) = 2 * m * y + 2 * m := by ring
  apply Nat.div_eq_of_lt_le
  · rwa [Nat.mul_comm]
  · omega

/-- Where the steps are further apart than the points, the way there and back leads back. -/
theorem coarse_fine (hm : 0 < m) (hLess : m < q) (hy : y < m) : coarse q m (fine q m y) = y := by
  obtain ⟨hLow, hHigh⟩ := nearest_bounds (q * y) hm
  have hNearest : nearest (m * fine q m y) q = y := by
    apply nearest_eq
    · rw [Nat.mul_assoc, ← Nat.mul_assoc 2 m]
      unfold fine
      omega
    · rw [Nat.mul_assoc, ← Nat.mul_assoc 2 m]
      unfold fine
      omega
  rw [coarse, hNearest, Nat.mod_eq_of_lt hy]

theorem nearest_le (hq : 0 < q) (hx : x < q) : nearest (m * x) q ≤ m := by
  have hLow := (nearest_bounds (m * x) hq).1
  by_contra hMore
  have hMul : 2 * q * (m + 1) ≤ 2 * q * nearest (m * x) q := Nat.mul_le_mul_left _ (by omega)
  have hPoint : m * x ≤ m * q := Nat.mul_le_mul_left _ hx.le
  have hExpand : 2 * q * (m + 1) = 2 * (m * q) + 2 * q := by ring
  omega

/-- A point moves by at most half a step, to the nearest integer. -/
theorem fine_coarse (hm : 0 < m) (hq : 0 < q) (hx : x < q) :
    ∃ e : ℤ, |e| ≤ nearest q (2 * m) ∧ (fine q m (coarse q m x) : ℤ) ≡ x + e [ZMOD q] := by
  have hBound : ∀ e : ℤ, |2 * m * e| ≤ q + m → |e| ≤ nearest q (2 * m) := by
    intro e he
    have hHalf := (nearest_bounds q (show 0 < 2 * m by omega)).2
    have hPos : (0 : ℤ) < 2 * m := by exact_mod_cast (show 0 < 2 * m by omega)
    rw [abs_mul, abs_of_pos hPos] at he
    by_contra hMore
    have hNext : (2 * m : ℤ) * (nearest q (2 * m) + 1) ≤ 2 * m * |e| :=
      mul_le_mul_of_nonneg_left (by omega) hPos.le
    zify at hHalf
    linarith
  obtain ⟨hLow, hHigh⟩ := nearest_bounds (m * x) hq
  by_cases hTop : nearest (m * x) q = m
  · refine ⟨q - x, hBound _ ?_, ?_⟩
    · rw [hTop] at hLow
      zify at hLow
      have hLess : (0 : ℤ) ≤ 2 * m * (q - x) := mul_nonneg (by omega) (by omega)
      rw [abs_of_nonneg hLess]
      linarith
    · have hZero : fine q m (coarse q m x) = 0 := by
        rw [coarse, hTop, Nat.mod_self, fine, Nat.mul_zero]
        exact Nat.div_eq_of_lt (by omega)
      rw [hZero, add_sub_cancel]
      exact (Int.modEq_zero_iff_dvd.mpr dvd_rfl).symm
  · have hLess : nearest (m * x) q < m := lt_of_le_of_ne (nearest_le hq hx) hTop
    obtain ⟨hFineLow, hFineHigh⟩ := nearest_bounds (q * nearest (m * x) q) hm
    refine ⟨fine q m (nearest (m * x) q) - x, hBound _ ?_, ?_⟩
    · unfold fine
      zify at hLow hHigh hFineLow hFineHigh
      rw [abs_le]
      constructor <;> linarith
    · rw [coarse, Nat.mod_eq_of_lt hLess, add_sub_cancel]

end Quantize
