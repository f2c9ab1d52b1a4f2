import Mathlib.Data.ZMod.Basic
import Mathlib.Tactic.LinearCombination
import Mathlib.Tactic.Linarith
import Mathlib.Tactic.Ring

/-!
# Montgomery reduction

To divide by `r` modulo an odd `q`, a multiple `m * q` is taken away that makes the rest divisible
by `r`; the quotient is small, and its residue is that of the dividend over `r`.
-/

namespace Montgomery

variable {q r a m : ℤ}

/-- The multiple is right if its factor is `a` times the inverse of `q`. -/
theorem dvd_sub (qInv : ℤ) (hInv : r ∣ qInv * q - 1) (hm : r ∣ m - a * qInv) : r ∣ a - m * q := by
  obtain ⟨c, hc⟩ := hInv
  obtain ⟨d, hd⟩ := hm
  exact ⟨-(a * c) - d * q, by linear_combination (-a) * hc - q * hd⟩

/-- With a factor of half the range, the quotient is below `q`. -/
theorem abs_div_lt (hr : 0 < r) (hq : 0 < q) (hm : 2 * |m| ≤ r) (ha : 2 * |a| < q * r)
    (hDvd : r ∣ a - m * q) : |(a - m * q) / r| < q := by
  obtain ⟨t, ht⟩ := hDvd
  rw [ht, Int.mul_ediv_cancel_left _ hr.ne']
  have hBound : |a - m * q| ≤ |a| + |m| * q := by
    calc |a - m * q| ≤ |a| + |m * q| := abs_sub _ _
      _ = |a| + |m| * q := by rw [abs_mul, abs_of_pos hq]
  have hProd : 2 * |m| * q ≤ r * q := Int.mul_le_mul_of_nonneg_right hm hq.le
  rw [ht, abs_mul, abs_of_pos hr] at hBound
  have hTwice : r * |t| < r * q := by linarith
  exact lt_of_mul_lt_mul_left hTwice hr.le

theorem cast_div {n : ℕ} (hDvd : r ∣ a - m * n) :
    ((a - m * n) / r : ℤ) * (r : ZMod n) = (a : ZMod n) := by
  have hExact := Int.ediv_mul_cancel hDvd
  rw [← Int.cast_mul, hExact]
  simp

end Montgomery
