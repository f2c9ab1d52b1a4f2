import Mathlib.Algebra.BigOperators.Intervals
import Mathlib.Algebra.BigOperators.Ring.Finset
import Mathlib.Tactic.LinearCombination
import Mathlib.Tactic.Ring

/-!
# Negacyclic transforms, layer by layer

Butterfly `i` of a layer of width `w` works on two places at distance `w`, in block `i / w` of
`2 * w` places. A layer of the transform takes every block, a polynomial modulo `X ^ (2 * w) - c`,
to its residues modulo `X ^ w - z` and `X ^ w + z`, where `z` is a square root of `c`. The roots sit
in a tree: node `2 ^ l + b` has the one for block `b` of layer `l`, and its children the square
roots of it and of its negative. The layers can be undone, each up to a factor 2.
-/

namespace Butterflies

/-! ### Places -/

/-- The lower place of butterfly `i`. -/
def low (w i : ℕ) : ℕ := i / w * (2 * w) + i % w

/-- The butterfly of a place. -/
def pairOf (w p : ℕ) : ℕ := p / (2 * w) * w + p % w

section Places

variable {w b t i n p : ℕ}

theorem low_mod (h : t < w) : (b * (2 * w) + t) % (2 * w) = t := by
  rw [Nat.mul_add_mod']
  exact Nat.mod_eq_of_lt (by omega)

theorem high_mod (h : t < w) : (b * (2 * w) + (w + t)) % (2 * w) = w + t := by
  rw [Nat.mul_add_mod']
  exact Nat.mod_eq_of_lt (by omega)

theorem block_div (h : t < 2 * w) : (b * (2 * w) + t) / (2 * w) = b := by
  rw [Nat.mul_comm, Nat.mul_add_div (by omega), Nat.div_eq_of_lt h, Nat.add_zero]

/-- Every place is in the lower or in the upper half of its block. -/
theorem exists_block (hw : 0 < w) (p : ℕ) :
    ∃ b t, t < w ∧ (p = b * (2 * w) + t ∨ p = b * (2 * w) + (w + t)) := by
  have hSplit := Nat.div_add_mod' p (2 * w)
  have hMod := Nat.mod_lt p (show 0 < 2 * w by omega)
  by_cases hHalf : p % (2 * w) < w
  · exact ⟨p / (2 * w), p % (2 * w), hHalf, .inl hSplit.symm⟩
  · refine ⟨p / (2 * w), p % (2 * w) - w, by omega, .inr ?_⟩
    rw [Nat.add_sub_cancel' (by omega), hSplit]

theorem low_block (h : t < w) : low w (b * w + t) = b * (2 * w) + t := by
  unfold low
  rw [Nat.mul_add_mod', Nat.mod_eq_of_lt h, Nat.mul_comm b w, Nat.mul_add_div (by omega),
    Nat.div_eq_of_lt h, Nat.add_zero]

theorem pairOf_lower (h : t < w) : pairOf w (b * (2 * w) + t) = b * w + t := by
  unfold pairOf
  rw [block_div (by omega), show b * (2 * w) = 2 * b * w by ring, Nat.mul_add_mod',
    Nat.mod_eq_of_lt h]

theorem pairOf_upper (h : t < w) : pairOf w (b * (2 * w) + (w + t)) = b * w + t := by
  unfold pairOf
  rw [block_div (by omega), show b * (2 * w) + (w + t) = (2 * b + 1) * w + t by ring,
    Nat.mul_add_mod', Nat.mod_eq_of_lt h]

theorem pairOf_low (hw : 0 < w) : pairOf w (low w i) = i := by
  have hAt := pairOf_lower (b := i / w) (Nat.mod_lt i hw)
  rwa [Nat.div_add_mod'] at hAt

theorem pairOf_high (hw : 0 < w) : pairOf w (low w i + w) = i := by
  have hAt := pairOf_upper (b := i / w) (Nat.mod_lt i hw)
  rwa [Nat.div_add_mod', ← Nat.add_assoc, Nat.add_right_comm] at hAt

/-- The butterfly of a place works on it and on one other. -/
theorem eq_low_or_high (hw : 0 < w) (p : ℕ) :
    p = low w (pairOf w p) ∨ p = low w (pairOf w p) + w := by
  obtain ⟨b, t, ht, rfl | rfl⟩ := exists_block hw p
  · left
    rw [pairOf_lower ht, low_block ht]
  · right
    rw [pairOf_upper ht, low_block ht]
    ring

/-- The next butterfly is in the same block or begins the next one. -/
theorem next_place (hw : 0 < w) (i : ℕ) :
    (i % w + 1 < w ∧ (i + 1) / w = i / w ∧ low w (i + 1) = low w i + 1) ∨
      (i % w + 1 = w ∧ (i + 1) / w = i / w + 1 ∧ low w (i + 1) = i / w * (2 * w) + 2 * w) := by
  have hMod := Nat.mod_lt i hw
  have hSplit := Nat.div_add_mod' i w
  obtain hIn | hOut := Nat.lt_or_eq_of_le (Nat.succ_le_of_lt hMod)
  · left
    have hAt : i + 1 = i / w * w + (i % w + 1) := by omega
    refine ⟨hIn, ?_, ?_⟩
    · rw [hAt, Nat.mul_comm, Nat.mul_add_div hw, Nat.div_eq_of_lt hIn, Nat.add_zero]
    · rw [hAt, low_block hIn]
      rfl
  · right
    have hAt : i + 1 = (i / w + 1) * w + 0 := by
      rw [Nat.add_one_mul]
      omega
    refine ⟨hOut, ?_, ?_⟩
    · rw [hAt, Nat.add_zero, Nat.mul_div_cancel _ hw]
    · rw [hAt, low_block hw, Nat.add_one_mul, Nat.add_zero]

theorem high_lt (hw : 0 < w) (h : i < n * w) : low w i + w < n * (2 * w) := by
  have hBlock : i / w < n := Nat.div_lt_of_lt_mul (by rwa [Nat.mul_comm] at h)
  have hRest := Nat.mod_lt i hw
  have hNext : (i / w + 1) * (2 * w) ≤ n * (2 * w) := Nat.mul_le_mul_right _ hBlock
  unfold low
  rw [Nat.add_one_mul] at hNext
  omega

theorem pairOf_lt (hw : 0 < w) (h : p < n * (2 * w)) : pairOf w p < n * w := by
  have hBlock : p / (2 * w) < n := Nat.div_lt_of_lt_mul (by rwa [Nat.mul_comm] at h)
  have hRest := Nat.mod_lt p hw
  have hNext : (p / (2 * w) + 1) * w ≤ n * w := Nat.mul_le_mul_right _ hBlock
  unfold pairOf
  rw [Nat.add_one_mul] at hNext
  omega

end Places

/-! ### A layer in place -/

section InPlace

variable {α β : Type*}

/-- A layer: the values at the two places of a butterfly in block `b` become those of `op b`. -/
def pairs (op : ℕ → α → α → α × α) (w : ℕ) (f : ℕ → α) (p : ℕ) : α :=
  if p % (2 * w) < w then (op (p / (2 * w)) (f p) (f (p + w))).1
  else (op (p / (2 * w)) (f (p - w)) (f p)).2

/-- The first `i` butterflies have put the values of `g` in the place of those of `f`. -/
def partly (w i : ℕ) (f g : ℕ → α) (p : ℕ) : α := if pairOf w p < i then g p else f p

variable {op : ℕ → α → α → α × α} {f g : ℕ → α} {w b t i n : ℕ}

theorem pairs_low (h : t < w) :
    pairs op w f (b * (2 * w) + t) =
      (op b (f (b * (2 * w) + t)) (f (b * (2 * w) + (w + t)))).1 := by
  unfold pairs
  rw [low_mod h, if_pos h, block_div (by omega), Nat.add_assoc, Nat.add_comm t w]

theorem pairs_high (h : t < w) :
    pairs op w f (b * (2 * w) + (w + t)) =
      (op b (f (b * (2 * w) + t)) (f (b * (2 * w) + (w + t)))).2 := by
  unfold pairs
  rw [high_mod h, if_neg (by omega), block_div (by omega),
    show b * (2 * w) + (w + t) - w = b * (2 * w) + t by omega]

theorem pairs_at_low (hw : 0 < w) :
    pairs op w f (low w i) = (op (i / w) (f (low w i)) (f (low w i + w))).1 := by
  have hAt : pairs op w f (i / w * (2 * w) + i % w) = _ := pairs_low (Nat.mod_lt i hw)
  rwa [Nat.add_comm w, ← Nat.add_assoc] at hAt

theorem pairs_at_high (hw : 0 < w) :
    pairs op w f (low w i + w) = (op (i / w) (f (low w i)) (f (low w i + w))).2 := by
  have hAt : pairs op w f (i / w * (2 * w) + (w + i % w)) = _ := pairs_high (Nat.mod_lt i hw)
  rwa [Nat.add_comm w, ← Nat.add_assoc] at hAt

theorem partly_zero : partly w 0 f g = f := by
  funext p
  rfl

theorem partly_all {p : ℕ} (hw : 0 < w) (h : p < n * (2 * w)) : partly w (n * w) f g p = g p :=
  if_pos (pairOf_lt hw h)

/-- Butterfly `i` finds the values of `f`. -/
theorem partly_low (hw : 0 < w) : partly w i f g (low w i) = f (low w i) := by
  unfold partly
  rw [pairOf_low hw, if_neg (Nat.lt_irrefl i)]

theorem partly_high (hw : 0 < w) : partly w i f g (low w i + w) = f (low w i + w) := by
  unfold partly
  rw [pairOf_high hw, if_neg (Nat.lt_irrefl i)]

theorem partly_succ (hw : 0 < w) (p : ℕ) :
    partly w (i + 1) f g p = if p = low w i ∨ p = low w i + w then g p else partly w i f g p := by
  unfold partly
  split <;> rename_i hNow
  · split <;> rename_i hPlace
    · rfl
    · rw [if_pos]
      apply Nat.lt_of_le_of_ne (Nat.le_of_lt_succ hNow)
      rintro rfl
      exact hPlace (eq_low_or_high hw p)
  · rw [if_neg, if_neg (by omega)]
    rintro (rfl | rfl)
    · rw [pairOf_low hw] at hNow
      omega
    · rw [pairOf_high hw] at hNow
      omega

/-- Two layers keep a relation between their values, if their butterflies do. -/
theorem pairs_rel {op' : ℕ → β → β → β × β} {f' : ℕ → β} (before after : α → β → Prop)
    (hw : 0 < w)
    (hOp : ∀ b < n, ∀ x y x' y', before x x' → before y y' →
      after (op b x y).1 (op' b x' y').1 ∧ after (op b x y).2 (op' b x' y').2)
    (hAll : ∀ p < n * (2 * w), before (f p) (f' p)) :
    ∀ p < n * (2 * w), after (pairs op w f p) (pairs op' w f' p) := by
  have hBlock {b t : ℕ} (h : b * (2 * w) + t < n * (2 * w)) : b < n :=
    Nat.lt_of_mul_lt_mul_right (Nat.lt_of_le_of_lt (Nat.le_add_right _ _) h)
  have hRow {b t : ℕ} (hb : b < n) (ht : t < 2 * w) : b * (2 * w) + t < n * (2 * w) := by
    have hNext : (b + 1) * (2 * w) ≤ n * (2 * w) := Nat.mul_le_mul_right _ hb
    rw [Nat.add_one_mul] at hNext
    omega
  intro p h
  obtain ⟨b, t, ht, rfl | rfl⟩ := exists_block hw p
  · have hb := hBlock h
    rw [pairs_low ht, pairs_low ht]
    exact (hOp b hb _ _ _ _ (hAll _ h) (hAll _ (hRow hb (by omega)))).1
  · have hb := hBlock h
    rw [pairs_high ht, pairs_high ht]
    exact (hOp b hb _ _ _ _ (hAll _ (hRow hb (by omega))) (hAll _ h)).2

end InPlace

/-! ### The transform -/

open Finset

section Transform

variable {R : Type*} [CommRing R]

/-- One layer, with the root `z b` for block `b`. -/
def split (z : ℕ → R) : ℕ → (ℕ → R) → ℕ → R := pairs fun b x y => (x + z b * y, x - z b * y)

/-- One layer of the way back, with the factor `z b` for block `b`. -/
def merge (z : ℕ → R) : ℕ → (ℕ → R) → ℕ → R := pairs fun b x y => (x + y, z b * (x - y))

/-- The first `l` layers on `2 ^ n` values. -/
def layers (root : ℕ → R) (n : ℕ) : ℕ → (ℕ → R) → ℕ → R
  | 0, f => f
  | l + 1, f => split (fun b => root (2 ^ l + b)) (2 ^ (n - 1 - l)) (layers root n l f)

/-- The first `l` layers of the way back from layer `top`. -/
def unlayers (back : ℕ → R) (n top : ℕ) : ℕ → (ℕ → R) → ℕ → R
  | 0, f => f
  | l + 1, f =>
    merge (fun b => back (2 ^ (top - 1 - l) + b)) (2 ^ (n - 1 - (top - 1 - l)))
      (unlayers back n top l f)

/-- What the root at a node of the tree is a square root of. -/
def node (root : ℕ → R) (k : ℕ) : R :=
  if k ≤ 1 then -1 else if k % 2 = 0 then root (k / 2) else -root (k / 2)

variable {root back : ℕ → R} {z z' f : ℕ → R} {w n l b t : ℕ}

theorem split_low (h : t < w) :
    split z w f (b * (2 * w) + t) = f (b * (2 * w) + t) + z b * f (b * (2 * w) + (w + t)) :=
  pairs_low h

theorem split_high (h : t < w) :
    split z w f (b * (2 * w) + (w + t)) =
      f (b * (2 * w) + t) - z b * f (b * (2 * w) + (w + t)) :=
  pairs_high h

theorem merge_low (h : t < w) :
    merge z w f (b * (2 * w) + t) = f (b * (2 * w) + t) + f (b * (2 * w) + (w + t)) :=
  pairs_low h

theorem merge_high (h : t < w) :
    merge z w f (b * (2 * w) + (w + t)) =
      z b * (f (b * (2 * w) + t) - f (b * (2 * w) + (w + t))) :=
  pairs_high h

/-- The way back undoes a layer up to a factor 2, and the other way round. -/
theorem merge_split (hw : 0 < w) (hz : ∀ b < n, z' b * z b = 1) {p : ℕ} (hp : p < n * (2 * w)) :
    merge z' w (split z w f) p = 2 * f p := by
  have hBlock {b t : ℕ} (h : b * (2 * w) + t < n * (2 * w)) : b < n :=
    Nat.lt_of_mul_lt_mul_right (Nat.lt_of_le_of_lt (Nat.le_add_right _ _) h)
  obtain ⟨b, t, ht, rfl | rfl⟩ := exists_block hw p
  · rw [merge_low ht, split_low ht, split_high ht]
    ring
  · rw [merge_high ht, split_low ht, split_high ht]
    linear_combination 2 * f (b * (2 * w) + (w + t)) * hz b (hBlock hp)

theorem split_merge (hw : 0 < w) (hz : ∀ b < n, z' b * z b = 1) {p : ℕ} (hp : p < n * (2 * w)) :
    split z w (merge z' w f) p = 2 * f p := by
  have hBlock {b t : ℕ} (h : b * (2 * w) + t < n * (2 * w)) : b < n :=
    Nat.lt_of_mul_lt_mul_right (Nat.lt_of_le_of_lt (Nat.le_add_right _ _) h)
  obtain ⟨b, t, ht, rfl | rfl⟩ := exists_block hw p
  · rw [split_low ht, merge_low ht, merge_high ht]
    linear_combination (f (b * (2 * w) + t) - f (b * (2 * w) + (w + t))) * hz b (hBlock hp)
  · rw [split_high ht, merge_low ht, merge_high ht]
    linear_combination
      (f (b * (2 * w) + (w + t)) - f (b * (2 * w) + t)) * hz b (hBlock hp)

theorem split_smul {c : R} {g h : ℕ → R} (hw : 0 < w) (hAll : ∀ p < n * (2 * w), g p = c * h p) :
    ∀ p < n * (2 * w), split z w g p = c * split z w h p := by
  apply pairs_rel (fun x y => x = c * y) (fun x y => x = c * y) hw _ hAll
  rintro b - x y x' y' rfl rfl
  constructor <;> ring

theorem merge_smul {c : R} {g h : ℕ → R} (hw : 0 < w) (hAll : ∀ p < n * (2 * w), g p = c * h p) :
    ∀ p < n * (2 * w), merge z w g p = c * merge z w h p := by
  apply pairs_rel (fun x y => x = c * y) (fun x y => x = c * y) hw _ hAll
  rintro b - x y x' y' rfl rfl
  constructor <;> ring

/-! ### What the layers compute -/

theorem two_pow_split (hl : l < n) : 2 ^ n = 2 ^ l * (2 * 2 ^ (n - 1 - l)) := by
  rw [← Nat.pow_succ', ← Nat.pow_add]
  congr 1
  omega

theorem sum_range_two_mul (g : ℕ → R) (m : ℕ) :
    ∑ i ∈ range (2 * m), g i = ∑ i ∈ range m, (g (2 * i) + g (2 * i + 1)) := by
  induction m with
  | zero => rfl
  | succ m ih =>
    rw [sum_range_succ, ← ih, Nat.mul_succ, sum_range_succ, sum_range_succ, add_assoc]

theorem node_child {k : ℕ} (hk : 1 ≤ k) (odd : Bool) :
    node root (2 * k + odd.toNat) = if odd then -root k else root k := by
  unfold node
  cases odd
  · rw [Bool.toNat_false, if_neg (by omega), if_pos (by omega), if_neg Bool.false_ne_true]
    congr 1
    omega
  · rw [Bool.toNat_true, if_neg (by omega), if_neg (by omega), if_pos rfl]
    congr 2
    omega

/-- The roots are square roots of what their places in the tree ask for. -/
def Tree (root : ℕ → R) (l : ℕ) : Prop := ∀ k, 1 ≤ k → k < 2 ^ l → root k ^ 2 = node root k

/-- After `l` layers, place `t` of block `b` has the residue of the coefficients at distance
`2 ^ (n - l)` from one another: they are evaluated at the node of the block. -/
theorem layers_apply (hTree : Tree root l) (hl : l ≤ n) (f : ℕ → R) {b t : ℕ} (hb : b < 2 ^ l)
    (ht : t < 2 ^ (n - l)) :
    layers root n l f (b * 2 ^ (n - l) + t) =
      ∑ m ∈ range (2 ^ l), f (t + m * 2 ^ (n - l)) * node root (2 ^ l + b) ^ m := by
  induction l generalizing b t with
  | zero =>
    obtain rfl : b = 0 := by omega
    simp [layers]
  | succ l ih =>
    have hTreeL : Tree root l := fun k hk h => hTree k hk (by rw [Nat.pow_succ]; omega)
    have hWidth : 2 ^ (n - l) = 2 * 2 ^ (n - (l + 1)) := by
      rw [← Nat.pow_succ']
      congr 1
      omega
    have hStep : n - 1 - l = n - (l + 1) := by omega
    rw [hWidth] at ih
    generalize hw : 2 ^ (n - (l + 1)) = w at ih ht ⊢
    obtain ⟨c, odd, rfl⟩ : ∃ c, ∃ odd : Bool, b = 2 * c + odd.toNat := by
      obtain hEven | hOdd := Nat.mod_two_eq_zero_or_one b
      · exact ⟨b / 2, false, by simp; omega⟩
      · exact ⟨b / 2, true, by simp; omega⟩
    have hc : c < 2 ^ l := by
      rw [Nat.pow_succ] at hb
      omega
    have hPos : 1 ≤ 2 ^ l := Nat.one_le_two_pow
    have hAt : root (2 ^ l + c) ^ 2 = node root (2 ^ l + c) :=
      hTree _ (by omega) (by rw [Nat.pow_succ]; omega)
    -- The block above this one, at its lower and at its upper half.
    have hLow := ih hTreeL (by omega) hc (show t < 2 * w by omega)
    have hHigh := ih hTreeL (by omega) hc (show w + t < 2 * w by omega)
    have hPlace : (2 * c + odd.toNat) * w + t = c * (2 * w) + (odd.toNat * w + t) := by ring
    have hNode : node root (2 ^ (l + 1) + (2 * c + odd.toNat)) =
        if odd then -root (2 ^ l + c) else root (2 ^ l + c) := by
      rw [← node_child (show 1 ≤ 2 ^ l + c by omega), Nat.pow_succ]
      congr 1
      ring
    rw [hPlace, hNode, layers, hStep, hw, Nat.pow_succ, Nat.mul_comm (2 ^ l) 2, sum_range_two_mul]
    cases odd
    · simp only [Bool.toNat_false, Nat.zero_mul, Nat.zero_add, Bool.false_eq_true, if_false]
      rw [split_low ht, hLow, hHigh, mul_sum, ← sum_add_distrib]
      apply sum_congr rfl
      intro m _
      rw [← hAt, show t + 2 * m * w = t + m * (2 * w) by ring,
        show t + (2 * m + 1) * w = w + t + m * (2 * w) by ring]
      ring
    · simp only [Bool.toNat_true, Nat.one_mul, if_true]
      rw [split_high ht, hLow, hHigh, mul_sum, ← sum_sub_distrib]
      apply sum_congr rfl
      intro m _
      rw [← hAt, show t + 2 * m * w = t + m * (2 * w) by ring,
        show t + (2 * m + 1) * w = w + t + m * (2 * w) by ring]
      rw [pow_succ (-_), (even_two_mul m).neg_pow]
      ring

theorem layers_smul (root : ℕ → R) {c : R} {g h : ℕ → R} (hl : l ≤ n)
    (hAll : ∀ p < 2 ^ n, g p = c * h p) :
    ∀ p < 2 ^ n, layers root n l g p = c * layers root n l h p := by
  induction l with
  | zero => exact hAll
  | succ l ih =>
    have hBefore := ih (by omega)
    rw [two_pow_split (show l < n by omega)] at hBefore ⊢
    exact split_smul (Nat.two_pow_pos _) hBefore

theorem unlayers_smul (back : ℕ → R) {c : R} {g h : ℕ → R} {top : ℕ} (hTop : top ≤ n)
    (hl : l ≤ top) (hAll : ∀ p < 2 ^ n, g p = c * h p) :
    ∀ p < 2 ^ n, unlayers back n top l g p = c * unlayers back n top l h p := by
  induction l with
  | zero => exact hAll
  | succ l ih =>
    have hBefore := ih (by omega)
    rw [two_pow_split (show top - 1 - l < n by omega)] at hBefore ⊢
    exact merge_smul (Nat.two_pow_pos _) hBefore

/-- Each layer of the way back undoes one layer, up to a factor 2. -/
theorem unlayers_layers {top : ℕ} (hBack : ∀ k, 1 ≤ k → k < 2 ^ top → back k * root k = 1)
    (hTop : top ≤ n) (hl : l ≤ top) (f : ℕ → R) :
    ∀ p < 2 ^ n, unlayers back n top l (layers root n top f) p =
      2 ^ l * layers root n (top - l) f p := by
  induction l with
  | zero =>
    intro p _
    rw [pow_zero, one_mul]
    rfl
  | succ l ih =>
    have hBefore := ih (by omega)
    generalize hk : top - 1 - l = k
    have hWidth := two_pow_split (show k < n by omega)
    rw [hWidth, show top - l = k + 1 by omega] at hBefore
    rw [hWidth, show top - (l + 1) = k by omega]
    intro p hp
    have hMerge := merge_smul (z := fun b => back (2 ^ k + b)) (Nat.two_pow_pos _) hBefore p hp
    have hPos : 1 ≤ 2 ^ k := Nat.one_le_two_pow
    have hTwice : 2 ^ (k + 1) ≤ 2 ^ top := Nat.pow_le_pow_right (by omega) (by omega)
    rw [unlayers, hk, hMerge, layers, merge_split (Nat.two_pow_pos _) _ hp, pow_succ]
    · ring
    · intro b hb
      exact hBack _ (by omega) (by rw [Nat.pow_succ] at hTwice; omega)

/-- Each layer undoes one layer of the way back, up to a factor 2. -/
theorem layers_unlayers {top : ℕ} (hBack : ∀ k, 1 ≤ k → k < 2 ^ top → back k * root k = 1)
    (hTop : top ≤ n) (hl : l ≤ top) (f : ℕ → R) :
    ∀ p < 2 ^ n, layers root n l (unlayers back n top top f) p =
      2 ^ l * unlayers back n top (top - l) f p := by
  induction l with
  | zero =>
    intro p _
    rw [pow_zero, one_mul]
    rfl
  | succ l ih =>
    have hBefore := ih (by omega)
    have hWidth := two_pow_split (show l < n by omega)
    rw [hWidth, show top - l = top - (l + 1) + 1 by omega, unlayers,
      show top - 1 - (top - (l + 1)) = l by omega] at hBefore
    rw [hWidth]
    intro p hp
    have hSplit := split_smul (z := fun b => root (2 ^ l + b)) (Nat.two_pow_pos _) hBefore p hp
    have hPos : 1 ≤ 2 ^ l := Nat.one_le_two_pow
    have hTwice : 2 ^ (l + 1) ≤ 2 ^ top := Nat.pow_le_pow_right (by omega) (by omega)
    rw [layers, hSplit, split_merge (Nat.two_pow_pos _) _ hp, pow_succ]
    · ring
    · intro b hb
      exact hBack _ (by omega) (by rw [Nat.pow_succ] at hTwice; omega)

end Transform

end Butterflies
