import Mathlib.Algebra.Order.Ring.Int
import Mathlib.Tactic.Linarith
import Mathlib.Tactic.Ring

/-!
# Rounding with hints

Numbers below `2γm + 1` in steps of `2γ`: the nearest step and the distance from it, where the last
step is the first one again. One bit tells how a small change moves a number to another step.
-/

namespace Rounding

section Definitions

variable (γ m : Int)

def modulus : Int := 2 * γ * m + 1

/-- The remainder between `-γ` and `γ`. -/
def centered (r : Int) : Int := if γ < r % (2 * γ) then r % (2 * γ) - 2 * γ else r % (2 * γ)

def decompose (r : Int) : Int × Int :=
  if r - centered γ r = 2 * γ * m then (0, centered γ r - 1)
  else ((r - centered γ r) / (2 * γ), centered γ r)

def makeHint (r₀ r₁ : Int) : Bool := γ < r₀ ∨ r₀ < -γ ∨ (r₀ = -γ ∧ r₁ ≠ 0)

def useHint (h : Bool) (r : Int) : Int :=
  if h then
    if 0 < (decompose γ m r).2 then ((decompose γ m r).1 + 1) % m else ((decompose γ m r).1 - 1) % m
  else (decompose γ m r).1

end Definitions

variable {γ m : Int}

theorem centered_of {k t : Int} (hLow : -γ < t) (hHigh : t ≤ γ) :
    centered γ (2 * γ * k + t) = t := by
  rw [centered, Int.mul_add_emod_self_left]
  by_cases hNeg : t < 0
  · have hMod : t % (2 * γ) = t + 2 * γ := by
      rw [← Int.add_emod_right]
      exact Int.emod_eq_of_lt (by omega) (by omega)
    rw [hMod, if_pos (by omega)]
    omega
  · have hMod : t % (2 * γ) = t := Int.emod_eq_of_lt (by omega) (by omega)
    rw [hMod, if_neg (by omega)]

theorem decompose_of {k t : Int} (hk : k ≠ m) (hLow : -γ < t) (hHigh : t ≤ γ) :
    decompose γ m (2 * γ * k + t) = (k, t) := by
  have hPos : 2 * γ ≠ 0 := by omega
  rw [decompose, centered_of hLow hHigh, Int.add_sub_cancel, if_neg,
    Int.mul_ediv_cancel_left k hPos]
  exact fun hEq => hk (Int.eq_of_mul_eq_mul_left hPos hEq)

theorem decompose_top {t : Int} (hLow : -γ < t) (hHigh : t ≤ γ) :
    decompose γ m (2 * γ * m + t) = (0, t - 1) := by
  rw [decompose, centered_of hLow hHigh, Int.add_sub_cancel, if_pos rfl]

/-- Every number is near some step. -/
theorem exists_step (hγ : 0 < γ) (r : Int) : ∃ k t, r = 2 * γ * k + t ∧ -γ < t ∧ t ≤ γ := by
  have hMod := Int.emod_add_mul_ediv (r + (γ - 1)) (2 * γ)
  have hLow := Int.emod_nonneg (r + (γ - 1)) (by omega : 2 * γ ≠ 0)
  have hHigh := Int.emod_lt_of_pos (r + (γ - 1)) (by omega : 0 < 2 * γ)
  refine ⟨(r + (γ - 1)) / (2 * γ), (r + (γ - 1)) % (2 * γ) - (γ - 1), ?_, ?_, ?_⟩ <;> omega

/-- The steps of the numbers below the modulus. -/
theorem step_bounds (hγ : 0 < γ) {k t : Int} (hLow : -γ < t) (hHigh : t ≤ γ)
    (hr : 0 ≤ 2 * γ * k + t) (hr' : 2 * γ * k + t < modulus γ m) :
    0 ≤ k ∧ k ≤ m ∧ (k = m → t ≤ 0) := by
  have hPos : (0 : Int) < 2 * γ := by omega
  rw [modulus] at hr'
  refine ⟨?_, ?_, ?_⟩
  · by_contra hNeg
    have hMul : 2 * γ * k ≤ 2 * γ * (-1) := Int.mul_le_mul_of_nonneg_left (by omega) hPos.le
    omega
  · by_contra hBig
    have hMul : 2 * γ * (m + 1) ≤ 2 * γ * k := Int.mul_le_mul_of_nonneg_left (by omega) hPos.le
    rw [Int.mul_add] at hMul
    omega
  · rintro rfl
    omega

/-- Behind the decomposition: the number is the step and the rest, up to the modulus. -/
theorem decompose_spec (hγ : 0 < γ) (hm : 0 < m) {r : Int} (hr : 0 ≤ r) (hr' : r < modulus γ m) :
    0 ≤ (decompose γ m r).1 ∧ (decompose γ m r).1 < m ∧
      -γ ≤ (decompose γ m r).2 ∧ (decompose γ m r).2 ≤ γ ∧
      ((decompose γ m r).2 = -γ → (decompose γ m r).1 = 0) ∧
      ∃ c, r = 2 * γ * (decompose γ m r).1 + (decompose γ m r).2 + modulus γ m * c := by
  obtain ⟨k, t, rfl, hLow, hHigh⟩ := exists_step hγ r
  obtain ⟨hk, hk', hTop⟩ := step_bounds hγ hLow hHigh hr hr'
  by_cases hLast : k = m
  · subst hLast
    have ht := hTop rfl
    rw [decompose_top hLow hHigh]
    refine ⟨Int.le_refl 0, hm, by omega, by omega, fun _ => rfl, 1, ?_⟩
    rw [modulus]
    ring
  · rw [decompose_of hLast hLow hHigh]
    refine ⟨hk, by omega, hLow.le, hHigh, fun hEq => by omega, 0, ?_⟩
    ring

/-- From a number near its step, or beside it, the hint leads back to the step. -/
theorem useHint_makeHint (hγ : 0 < γ) (hm : 1 < m) {k t : Int} (hk : 0 ≤ k) (hk' : k < m)
    (hLow : -(2 * γ) ≤ t) (hHigh : t ≤ 2 * γ) (hEdge : t = -(2 * γ) → k = 0) :
    useHint γ m (makeHint γ t k) ((2 * γ * k + t) % modulus γ m) = k := by
  have hPos : (0 : Int) < 2 * γ := by omega
  have hUp : 2 * γ * k + 2 * γ ≤ 2 * γ * m := by
    have hMul : 2 * γ * (k + 1) ≤ 2 * γ * m := Int.mul_le_mul_of_nonneg_left (by omega) hPos.le
    rwa [Int.mul_add, Int.mul_one] at hMul
  have hZero : 0 ≤ 2 * γ * k := Int.mul_nonneg hPos.le hk
  have hMod (x : Int) (hx : 0 ≤ x) (hx' : x < modulus γ m) : x % modulus γ m = x :=
    Int.emod_eq_of_lt hx hx'
  have hWrap (x : Int) (hx : -modulus γ m ≤ x) (hx' : x < 0) :
      x % modulus γ m = 2 * γ * m + (x + 1) := by
    rw [← Int.add_emod_right, hMod _ (by omega) (by omega), modulus]
    ring
  obtain hFar | hNear | hEq | hOver : t < -γ ∨ (-γ < t ∧ t ≤ γ) ∨ t = -γ ∨ γ < t := by omega
  · -- the step below
    have hHint : makeHint γ t k = true := by
      rw [makeHint, decide_eq_true_iff]
      exact .inr (.inl hFar)
    by_cases hFirst : k = 0
    · subst hFirst
      have hVal : 2 * γ * 0 + t = t := by ring
      have hLast : 2 * γ * m + (t + 1) = 2 * γ * (m - 1) + (2 * γ + (t + 1)) := by ring
      rw [hHint, hVal, hWrap t (by rw [modulus]; omega) (by omega), hLast, useHint, if_pos rfl,
        decompose_of (by omega) (by omega) (by omega), if_pos (by omega), Int.sub_add_cancel,
        Int.emod_self]
    · have hMul : 2 * γ * 1 ≤ 2 * γ * k := Int.mul_le_mul_of_nonneg_left (by omega) hPos.le
      have hVal : 2 * γ * k + t = 2 * γ * (k - 1) + (2 * γ + t) := by ring
      rw [hMod _ (by omega) (by rw [modulus]; omega), hHint, hVal, useHint, if_pos rfl,
        decompose_of (by omega) (by omega) (by omega), if_pos (by omega), Int.sub_add_cancel]
      exact Int.emod_eq_of_lt hk hk'
  · -- the same step
    obtain ⟨hLow', hHigh'⟩ := hNear
    have hHint : makeHint γ t k = false := by
      rw [makeHint, decide_eq_false_iff_not]
      omega
    rw [hHint, useHint, if_neg Bool.false_ne_true]
    by_cases hNeg : 2 * γ * k + t < 0
    · have hMul : ¬2 * γ * 1 ≤ 2 * γ * k := by omega
      have hFirst : k = 0 := by
        by_contra hNe
        exact hMul (Int.mul_le_mul_of_nonneg_left (by omega) hPos.le)
      subst hFirst
      rw [hWrap _ (by rw [modulus]; omega) hNeg]
      have hVal : 2 * γ * 0 + t + 1 = t + 1 := by ring
      rw [hVal, decompose_top (by omega) (by omega)]
    · rw [hMod _ (by omega) (by rw [modulus]; omega), decompose_of (by omega) hLow' hHigh']
  · -- the edge of two steps
    subst hEq
    by_cases hFirst : k = 0
    · subst hFirst
      have hHint : makeHint γ (-γ) 0 = false := by
        rw [makeHint, decide_eq_false_iff_not]
        omega
      have hVal : 2 * γ * 0 + -γ = -γ := by ring
      rw [hHint, hVal, hWrap _ (by rw [modulus]; omega) (by omega), useHint,
        if_neg Bool.false_ne_true, decompose_top (by omega) (by omega)]
    · have hHint : makeHint γ (-γ) k = true := by
        rw [makeHint, decide_eq_true_iff]
        exact .inr (.inr ⟨rfl, hFirst⟩)
      have hMul : 2 * γ * 1 ≤ 2 * γ * k := Int.mul_le_mul_of_nonneg_left (by omega) hPos.le
      have hVal : 2 * γ * k + -γ = 2 * γ * (k - 1) + γ := by ring
      rw [hMod _ (by omega) (by rw [modulus]; omega), hHint, hVal, useHint, if_pos rfl,
        decompose_of (by omega) (by omega) (by omega), if_pos hγ, Int.sub_add_cancel]
      exact Int.emod_eq_of_lt hk hk'
  · -- the step above
    have hHint : makeHint γ t k = true := by
      rw [makeHint, decide_eq_true_iff]
      exact .inl hOver
    have hVal : 2 * γ * k + t = 2 * γ * (k + 1) + (t - 2 * γ) := by ring
    rw [hMod _ (by omega) (by rw [modulus]; omega), hHint, hVal, useHint, if_pos rfl]
    by_cases hLast : k + 1 = m
    · rw [hLast, decompose_top (by omega) (by omega), if_neg (by omega)]
      have hBack : (0 - 1 : Int) % m = m - 1 := by
        rw [← Int.add_emod_right]
        exact (Int.emod_eq_of_lt (by omega) (by omega)).trans (by omega)
      rw [hBack]
      omega
    · rw [decompose_of hLast (by omega) (by omega), if_neg (by omega), Int.add_sub_cancel]
      exact Int.emod_eq_of_lt hk hk'

end Rounding
