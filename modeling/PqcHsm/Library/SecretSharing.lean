import Mathlib.LinearAlgebra.Lagrange
import Mathlib.Tactic.ComputeDegree

/-!
# Threshold sharing over a field

A secret is the value at 0 of a polynomial with `m` coefficients. Any `m` or more of its values
at distinct places give it back, as a weighted sum with weights that depend on the places alone.
-/

namespace SecretSharing

open Polynomial

variable {F ι : Type} [Field F]

/-- The polynomial with the first `m` of the given coefficients. -/
noncomputable def sharePoly (coef : Nat → F) (m : Nat) : F[X] :=
  ∑ d ∈ Finset.range m, C (coef d) * X ^ d

theorem eval_sharePoly (coef : Nat → F) (m : Nat) (x : F) :
    (sharePoly coef m).eval x = ∑ d ∈ Finset.range m, coef d * x ^ d := by
  simp [sharePoly, eval_finsetSum]

theorem eval_sharePoly_zero (coef : Nat → F) {m : Nat} (hm : 0 < m) :
    (sharePoly coef m).eval 0 = coef 0 := by
  rw [eval_sharePoly, Finset.sum_eq_single 0]
  · rw [pow_zero, mul_one]
  · intro d _ hd
    rw [zero_pow hd, mul_zero]
  · intro h0
    exact absurd (Finset.mem_range.mpr hm) h0

theorem degree_sharePoly_lt (coef : Nat → F) (m : Nat) : (sharePoly coef m).degree < m := by
  rw [sharePoly, degree_lt_iff_coeff_zero]
  intro k hk
  rw [finsetSum_coeff]
  refine Finset.sum_eq_zero fun d hd => ?_
  have hNe : k ≠ d := by
    have := Finset.mem_range.mp hd
    omega
  rw [coeff_C_mul_X_pow, if_neg hNe]

/-- Horner's rule, from the highest coefficient down. -/
def horner (coef : Nat → F) (x : F) : Nat → F → F
  | 0, acc => acc
  | d + 1, acc => horner coef x d (acc * x + coef d)

theorem horner_eq (coef : Nat → F) (x : F) (d : Nat) (acc : F) :
    horner coef x d acc = acc * x ^ d + ∑ j ∈ Finset.range d, coef j * x ^ j := by
  induction d generalizing acc with
  | zero => simp [horner]
  | succ d ih =>
    rw [horner, ih, Finset.sum_range_succ]
    ring

/-- The weight of the value at `v i` in the sum that gives the value at 0. -/
def weight [DecidableEq ι] (s : Finset ι) (v : ι → F) (i : ι) : F :=
  (∏ t ∈ s.erase i, v t) * (∏ t ∈ s.erase i, (v t - v i))⁻¹

theorem eval_basis_zero [DecidableEq ι] (s : Finset ι) (v : ι → F) (i : ι) :
    (Lagrange.basis s v i).eval 0 = weight s v i := by
  rw [Lagrange.basis, eval_prod, weight, ← Finset.prod_inv_distrib, ← Finset.prod_mul_distrib]
  refine Finset.prod_congr rfl fun t _ => ?_
  rw [Lagrange.basisDivisor, eval_mul, eval_C, eval_sub, eval_X, eval_C, ← neg_sub (v i) (v t),
    inv_neg]
  ring

/-- The value at 0 from as many values as the polynomial has coefficients. -/
theorem eval_zero_eq_sum [DecidableEq ι] {p : F[X]} {s : Finset ι} {v : ι → F}
    (hInj : Set.InjOn v s) (hDegree : p.degree < s.card) :
    p.eval 0 = ∑ i ∈ s, p.eval (v i) * weight s v i := by
  conv_lhs => rw [Lagrange.eq_interpolate hInj hDegree, Lagrange.interpolate_apply, eval_finsetSum]
  refine Finset.sum_congr rfl fun i _ => ?_
  rw [eval_mul, eval_C, eval_basis_zero]

/-- Coefficients that sum up to nothing at fewer places than there are coefficients, none of them 0,
and start with 1. -/
theorem exists_mask [DecidableEq F] {s : Finset F} {m : Nat} (hZero : 0 ∉ s) (hCard : s.card < m) :
    ∃ mask : Nat → F, mask 0 = 1 ∧ ∀ x ∈ s, ∑ d ∈ Finset.range m, mask d * x ^ d = 0 := by
  let p : F[X] := ∏ t ∈ s, (1 - C t⁻¹ * X)
  have hDegree : p.natDegree < m := by
    refine lt_of_le_of_lt (natDegree_prod_le s _) (lt_of_le_of_lt ?_ hCard)
    rw [← Nat.mul_one s.card, ← smul_eq_mul]
    refine Finset.sum_le_card_nsmul s _ 1 fun t _ => ?_
    compute_degree
  refine ⟨p.coeff, ?_, fun x hx => ?_⟩
  · rw [coeff_zero_eq_eval_zero, eval_prod]
    exact Finset.prod_eq_one fun t _ => by simp
  · have hx0 : x ≠ 0 := fun h => hZero (h ▸ hx)
    rw [← eval_eq_sum_range' hDegree, eval_prod]
    refine Finset.prod_eq_zero hx ?_
    rw [eval_sub, eval_one, eval_mul, eval_C, eval_X, inv_mul_cancel₀ hx0, sub_self]

/-- Adding a multiple of a mask changes the secret and no value at the places of the mask. -/
theorem sum_add_mask {m : Nat} {coef mask : Nat → F} {x : F}
    (hMask : ∑ d ∈ Finset.range m, mask d * x ^ d = 0) (δ : F) :
    ∑ d ∈ Finset.range m, (coef d + δ * mask d) * x ^ d =
      ∑ d ∈ Finset.range m, coef d * x ^ d := by
  have hSplit : ∀ d, (coef d + δ * mask d) * x ^ d = coef d * x ^ d + δ * (mask d * x ^ d) :=
    fun d => by ring
  simp only [hSplit, Finset.sum_add_distrib, ← Finset.mul_sum, hMask, mul_zero, add_zero]

end SecretSharing
