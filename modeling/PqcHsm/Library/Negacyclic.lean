import Mathlib.Algebra.Algebra.Basic
import Mathlib.Algebra.Module.BigOperators
import Mathlib.Data.Matrix.Basic
import Mathlib.LinearAlgebra.Matrix.Notation
import Mathlib.Tactic.Ring

/-!
# Negacyclic products

Polynomials modulo `X ^ n + 1` as their first `n` coefficients. Where `x ^ n = -1`, the value at `x`
takes their products to products: at a scalar for a transform that goes all the way down, and at the
root of `X ^ 2 - c` in the matrices for one that stops at pairs of coefficients.
-/

namespace Negacyclic

open Finset

variable {R S : Type*} [CommRing R] [Ring S] [Algebra R S] {n : ℕ}

/-- Coefficient `i` of a product modulo `X ^ n + 1`. -/
def mul (n : ℕ) (f g : ℕ → R) (i : ℕ) : R :=
  ∑ a ∈ range n, ∑ b ∈ range n,
    if a + b = i then f a * g b else if a + b = i + n then -(f a * g b) else 0

theorem mul_of_zero (g : ℕ → R) (i : ℕ) : mul n (fun _ => 0) g i = 0 := by
  unfold mul
  simp only [zero_mul, neg_zero, ite_self, Finset.sum_const_zero]

/-- The value at `x`. -/
def eval (n : ℕ) (x : S) (f : ℕ → R) : S := ∑ a ∈ range n, f a • x ^ a

/-- The part of a product that comes from two coefficients. -/
theorem eval_term {x : S} (hx : x ^ n = -1) {a b : ℕ} (ha : a < n) (hb : b < n) (c : R) :
    ∑ i ∈ range n, (if a + b = i then c else if a + b = i + n then -c else 0) • x ^ i =
      c • x ^ (a + b) := by
  by_cases hLow : a + b < n
  · rw [Finset.sum_eq_single_of_mem (a + b) (mem_range.mpr hLow)]
    · rw [if_pos rfl]
    · intro i hi hNe
      rw [mem_range] at hi
      rw [if_neg (by omega), if_neg (by omega), zero_smul]
  · rw [Finset.sum_eq_single_of_mem (a + b - n) (mem_range.mpr (by omega))]
    · rw [if_neg (by omega), if_pos (by omega)]
      have hSplit : x ^ (a + b) = -x ^ (a + b - n) := by
        rw [← Nat.sub_add_cancel (Nat.le_of_not_lt hLow), pow_add, hx, mul_neg_one,
          Nat.sub_add_cancel (Nat.le_of_not_lt hLow)]
      rw [hSplit, smul_neg, neg_smul]
    · intro i hi hNe
      rw [mem_range] at hi
      rw [if_neg (by omega), if_neg (by omega), zero_smul]

theorem eval_mul {x : S} (hx : x ^ n = -1) (f g : ℕ → R) :
    eval n x (mul n f g) = eval n x f * eval n x g := by
  have hTerm : ∀ a ∈ range n, ∀ b ∈ range n,
      ∑ i ∈ range n, (if a + b = i then f a * g b else if a + b = i + n then -(f a * g b) else 0)
        • x ^ i = (f a • x ^ a) * (g b • x ^ b) := by
    intro a ha b hb
    rw [eval_term hx (mem_range.mp ha) (mem_range.mp hb), smul_mul_smul_comm, pow_add]
  unfold eval mul
  simp only [Finset.sum_smul]
  rw [Finset.sum_comm, Finset.sum_mul_sum]
  apply Finset.sum_congr rfl
  intro a ha
  rw [Finset.sum_comm]
  exact Finset.sum_congr rfl (hTerm a ha)

theorem eval_smul (x : S) (z : R) (f : ℕ → R) :
    eval n x (fun a => z * f a) = z • eval n x f := by
  unfold eval
  rw [Finset.smul_sum]
  exact Finset.sum_congr rfl fun a _ => mul_smul z (f a) _

theorem eval_sum (x : S) (m : ℕ) (f : ℕ → ℕ → R) :
    eval n x (fun a => ∑ t ∈ range m, f t a) = ∑ t ∈ range m, eval n x (f t) := by
  unfold eval
  rw [Finset.sum_comm]
  exact Finset.sum_congr rfl fun a _ => Finset.sum_smul

theorem eval_congr {f g : ℕ → R} (h : ∀ a < n, f a = g a) (x : S) : eval n x f = eval n x g := by
  unfold eval
  apply Finset.sum_congr rfl
  intro a ha
  rw [h a (mem_range.mp ha)]

/-! ### Pairs of coefficients -/

/-- The value of the coefficients at even places, or at odd ones, at `c`. -/
def part (m : ℕ) (c : R) (f : ℕ → R) (r : ℕ) : R := ∑ a ∈ range m, f (r + 2 * a) * c ^ a

/-- A square root of `c`. -/
def pairRoot (c : R) : Matrix (Fin 2) (Fin 2) R := !![0, c; 1, 0]

theorem pairRoot_sq (c : R) : pairRoot c ^ 2 = c • (1 : Matrix (Fin 2) (Fin 2) R) := by
  rw [pow_two, pairRoot]
  ext i j
  fin_cases i <;> fin_cases j <;> simp [Matrix.mul_apply, Fin.sum_univ_two]

theorem pairRoot_even (c : R) (a : ℕ) :
    pairRoot c ^ (2 * a) = c ^ a • (1 : Matrix (Fin 2) (Fin 2) R) := by
  rw [pow_mul, pairRoot_sq, smul_pow, one_pow]

theorem pairRoot_odd (c : R) (a : ℕ) : pairRoot c ^ (1 + 2 * a) = c ^ a • pairRoot c := by
  rw [pow_add, pairRoot_even, pow_one, mul_smul_comm, mul_one]

theorem sum_range_two_mul {M : Type*} [AddCommMonoid M] (m : ℕ) (u : ℕ → M) :
    ∑ a ∈ range (2 * m), u a = ∑ a ∈ range m, (u (2 * a) + u (1 + 2 * a)) := by
  induction m with
  | zero => rfl
  | succ m ih =>
    rw [Nat.mul_succ, Finset.sum_range_succ, Finset.sum_range_succ, ih, Finset.sum_range_succ,
      add_assoc, Nat.add_comm (2 * m) 1]

theorem eval_pairRoot (m : ℕ) (c : R) (f : ℕ → R) :
    eval (2 * m) (pairRoot c) f = part m c f 0 • 1 + part m c f 1 • pairRoot c := by
  unfold eval part
  rw [sum_range_two_mul, Finset.sum_smul, Finset.sum_smul, ← Finset.sum_add_distrib]
  apply Finset.sum_congr rfl
  intro a _
  rw [pairRoot_even, pairRoot_odd, smul_smul, smul_smul, Nat.zero_add]

theorem pair_eq (c u v : R) :
    u • (1 : Matrix (Fin 2) (Fin 2) R) + v • pairRoot c = !![u, v * c; v, u] := by
  ext i j
  fin_cases i <;> fin_cases j <;> simp [pairRoot]

/-- The product of two polynomials modulo `X ^ 2 - c`. -/
theorem part_mul {m : ℕ} {c : R} (hc : c ^ m = -1) (f g : ℕ → R) :
    part m c (mul (2 * m) f g) 0 =
        part m c f 0 * part m c g 0 + c * (part m c f 1 * part m c g 1) ∧
      part m c (mul (2 * m) f g) 1 =
        part m c f 0 * part m c g 1 + part m c f 1 * part m c g 0 := by
  have hRoot : pairRoot c ^ (2 * m) = -1 := by
    rw [pairRoot_even, hc, neg_smul, one_smul]
  have hProd := eval_mul hRoot f g
  rw [eval_pairRoot, eval_pairRoot, eval_pairRoot, pair_eq, pair_eq, pair_eq,
    Matrix.mul_fin_two] at hProd
  constructor
  · have hEntry : part m c (mul (2 * m) f g) 0 = _ := congrFun (congrFun hProd 0) 0
    rw [hEntry]
    simp only [Matrix.of_apply, Matrix.cons_val', Matrix.cons_val_zero]
    ring
  · have hEntry : part m c (mul (2 * m) f g) 1 = _ := congrFun (congrFun hProd 1) 0
    rw [hEntry]
    simp only [Matrix.of_apply, Matrix.cons_val', Matrix.cons_val_zero, Matrix.cons_val_one]
    ring

end Negacyclic
