import Mathlib.Data.ZMod.Basic
import Mathlib.Tactic.NormNum
import PqcHsm.Library.Butterflies
import PqcHsm.Library.Montgomery
import PqcHsm.Rtl.DsaNtt

/-!
# The values of the NTT core of ML-DSA

What the reduction and the butterflies give, as integers and as residues modulo `q`, and from that
the residues after each layer. Nothing is reduced between the layers: the bound grows by `q` in each
layer of the transform and doubles in each of the way back.
-/

namespace PqcHsm

namespace MlDsa

/-- The residue of a coefficient. -/
def residue (x : Coeff) : ZMod 8380417 := x.toInt

theorem toInt_bounds (x : Coeff) : -2147483648 ≤ x.toInt ∧ x.toInt ≤ 2147483647 := by
  have hLow := BitVec.le_toInt x
  have hHigh := BitVec.toInt_lt (x := x)
  omega

theorem abs_toInt_le (x : Coeff) : |x.toInt| ≤ 2147483648 := by
  have hBounds := toInt_bounds x
  rw [abs_le]
  omega

theorem toInt_signExtend (x : Coeff) : (x.signExtend 64).toInt = x.toInt :=
  BitVec.toInt_signExtend_of_le (by decide)

theorem toInt_add {x y : Coeff} (h : |x.toInt + y.toInt| ≤ 2147483647) :
    (x + y).toInt = x.toInt + y.toInt := by
  rw [abs_le] at h
  rw [BitVec.toInt_add]
  apply Int.bmod_eq_of_le_mul_two <;> omega

theorem toInt_sub {x y : Coeff} (h : |x.toInt - y.toInt| ≤ 2147483647) :
    (x - y).toInt = x.toInt - y.toInt := by
  rw [abs_le] at h
  rw [BitVec.toInt_sub]
  apply Int.bmod_eq_of_le_mul_two <;> omega

theorem toInt_neg {x : Coeff} (h : |x.toInt| ≤ 2147483647) : (-x).toInt = -x.toInt := by
  rw [abs_le] at h
  rw [BitVec.toInt_neg]
  apply Int.bmod_eq_of_le_mul_two <;> omega

theorem toInt_smul (x y : Coeff) : (smul x y).toInt = x.toInt * y.toInt := by
  have hProd : |x.toInt * y.toInt| ≤ 2147483648 * 2147483648 := by
    rw [abs_mul]
    exact mul_le_mul (abs_toInt_le x) (abs_toInt_le y) (abs_nonneg _) (by norm_num)
  rw [abs_le] at hProd
  unfold smul
  rw [BitVec.toInt_mul, toInt_signExtend, toInt_signExtend]
  apply Int.bmod_eq_of_le_mul_two <;> omega

/-! ### `mldsa_mont_reduce` -/

theorem montFactor_dvd (a : BitVec 64) :
    (4294967296 : Int) ∣ (montFactor a).toInt - a.toInt * 58728449 := by
  have hLow : (4294967296 : Int) ∣ (a.setWidth 32).toInt - a.toInt := by
    rw [BitVec.toInt_eq_toNat_cond, BitVec.toInt_eq_toNat_cond, BitVec.toNat_setWidth]
    omega
  have hProd : (4294967296 : Int) ∣ (montFactor a).toInt - (a.setWidth 32).toInt * 58728449 := by
    unfold montFactor
    rw [BitVec.toInt_mul]
    exact Int.dvd_bmod_sub_self
  rw [show (montFactor a).toInt - a.toInt * 58728449 = (montFactor a).toInt -
    (a.setWidth 32).toInt * 58728449 + ((a.setWidth 32).toInt - a.toInt) * 58728449 by ring]
  exact dvd_add hProd (Dvd.dvd.mul_right hLow 58728449)

theorem toInt_montProd (m : Coeff) : (montProd m).toInt = m.toInt * 8380417 := by
  have hFactor := toInt_bounds m
  unfold montProd
  rw [BitVec.toInt_mul, toInt_signExtend, show (8380417 : BitVec 64).toInt = 8380417 from rfl]
  apply Int.bmod_eq_of_le_mul_two <;> omega

theorem toInt_montDiff {a : BitVec 64} (ha : 2 * |a.toInt| < 8380417 * 4294967296) :
    (a - montProd (montFactor a)).toInt = a.toInt - (montFactor a).toInt * 8380417 := by
  have hFactor := toInt_bounds (montFactor a)
  have hAbs := abs_le.mp (show |a.toInt| ≤ 17996808470921216 by omega)
  rw [BitVec.toInt_sub, toInt_montProd]
  apply Int.bmod_eq_of_le_mul_two <;> omega

theorem toInt_high (d : BitVec 64) : (d.extractLsb' 32 32).toInt = d.toInt / 4294967296 := by
  rw [BitVec.toInt_eq_toNat_cond, BitVec.toInt_eq_toNat_cond, BitVec.extractLsb'_toNat]
  have := d.isLt
  simp only [Nat.shiftRight_eq_div_pow]
  omega

theorem montFactor_sub_dvd (a : BitVec 64) :
    (4294967296 : Int) ∣ a.toInt - (montFactor a).toInt * 8380417 :=
  Montgomery.dvd_sub 58728449 ⟨114592, by norm_num⟩ (montFactor_dvd a)

theorem toInt_montReduce {a : BitVec 64} (ha : 2 * |a.toInt| < 8380417 * 4294967296) :
    (montReduce a).toInt = (a.toInt - (montFactor a).toInt * 8380417) / 4294967296 := by
  rw [← toInt_montDiff ha, ← toInt_high]
  rfl

theorem abs_montReduce {a : BitVec 64} (ha : 2 * |a.toInt| < 8380417 * 4294967296) :
    |(montReduce a).toInt| ≤ 8380416 := by
  have hLt := Montgomery.abs_div_lt (by norm_num) (by norm_num)
    (show 2 * |(montFactor a).toInt| ≤ 4294967296 by linarith [abs_toInt_le (montFactor a)]) ha
    (montFactor_sub_dvd a)
  rw [← toInt_montReduce ha] at hLt
  omega

/-- The residue is that of `a / 2 ^ 32`. -/
theorem residue_montReduce {a : BitVec 64} (ha : 2 * |a.toInt| < 8380417 * 4294967296) :
    residue (montReduce a) * 4294967296 = (a.toInt : ZMod 8380417) := by
  unfold residue
  rw [toInt_montReduce ha]
  exact Montgomery.cast_div (montFactor_sub_dvd a)

/-! ### Roots -/

/-- The residue that a table entry stands for: the table holds `2 ^ 32` times it. -/
def root (k : Nat) : ZMod 8380417 := residue (zeta k) * 8265825

/-- The factor of the way back, which reads the table from its end. -/
def back (k : Nat) : ZMod 8380417 := -root (3 * 2 ^ k.log2 - 1 - k)

/-- `BitRev8` -/
def bitRev8 (i : Nat) : Nat := (BitVec.ofNat 8 i).reverse.toNat

open Butterflies in
/-- The table and the constants: bounds, square roots, inverses, and one power after the other. -/
theorem table_checked :
    (∀ i < 256, |(BitVec.ofInt 32 (zetas.getD i 0)).toInt| ≤ 4190208) ∧
      (∀ k < 256, 1 ≤ k → root k ^ 2 = node root k ∧ back k * root k = 1) ∧
      (∀ e < 254, root (bitRev8 (e + 2)) = root (bitRev8 (e + 1)) * 1753) ∧
      (∀ l < 8, ∀ b < 2 ^ l, back (2 ^ l + b) = -root (2 ^ (l + 1) - 1 - b)) ∧
      (∀ b < 256, bitRev8 (2 * bitRev8 b % 256 + 1) = 128 + b / 2 ∧
        2 * bitRev8 b = 2 * bitRev8 b % 256 + 256 * (b % 2)) ∧
      root (bitRev8 1) = 1753 ∧ (4294967296 : ZMod 8380417) * 8265825 = 1 ∧
      residue FINV * 8265825 * 2 ^ 8 = 4294967296 := by
  decide +kernel

theorem abs_zeta (k : Nat) : |(zeta k).toInt| ≤ 4190208 :=
  table_checked.1 _ (Nat.mod_lt _ (by decide))

open Butterflies in
theorem root_tree : Tree root 8 := by
  intro k hk hlt
  exact (table_checked.2.1 k hlt hk).1

theorem back_root : ∀ k, 1 ≤ k → k < 2 ^ 8 → back k * root k = 1 := by
  intro k hk hlt
  exact (table_checked.2.1 k hlt hk).2

/-- The table holds the powers of 1753 in bit-reversed order. -/
theorem root_power {e : Nat} (he : e < 255) : root (bitRev8 (e + 1)) = 1753 ^ (e + 1) := by
  induction e with
  | zero => rw [table_checked.2.2.2.2.2.1, pow_one]
  | succ e ih => rw [table_checked.2.2.1 e (by omega), ih (by omega), pow_succ 1753 (e + 1)]

open Butterflies in
theorem generator_pow : (1753 : ZMod 8380417) ^ 256 = -1 := by
  have hHalf := root_power (show 127 < 255 by decide)
  rw [show bitRev8 (127 + 1) = 1 by decide] at hHalf
  have hSquare := root_tree 1 (by decide) (by decide)
  rwa [hHalf, ← pow_mul, node, if_pos (Nat.le_refl 1)] at hSquare

open Butterflies in
theorem leaf_eq : ∀ b < 256, node root (2 ^ 8 + b) = 1753 ^ (2 * bitRev8 b + 1) := by
  intro b hb
  obtain ⟨hLeaf, hSplit⟩ := table_checked.2.2.2.2.1 b hb
  have hPower := root_power (show 2 * bitRev8 b % 256 < 255 by omega)
  rw [hLeaf] at hPower
  rw [node, if_neg (by omega), show (2 ^ 8 + b) / 2 = 128 + b / 2 by omega, hPower]
  generalize 2 * bitRev8 b % 256 = e at hSplit
  obtain hEven | hOdd := Nat.mod_two_eq_zero_or_one b
  · rw [if_pos (by omega), hSplit, hEven, Nat.mul_zero, Nat.add_zero]
  · rw [if_neg (by omega), hSplit, hOdd, Nat.mul_one, Nat.add_right_comm, pow_add _ _ 256,
      generator_pow, mul_neg_one]

theorem back_eq : ∀ l < 8, ∀ b < 2 ^ l, back (2 ^ l + b) = -root (2 ^ (l + 1) - 1 - b) :=
  table_checked.2.2.2.1

theorem radix_mul : (4294967296 : ZMod 8380417) * 8265825 = 1 := table_checked.2.2.2.2.2.2.1

/-- The factor that the way back leaves. -/
theorem finv_factor : residue FINV * 8265825 * 2 ^ 8 = 4294967296 := table_checked.2.2.2.2.2.2.2

/-! ### Butterflies -/

section Butterfly

variable {a b z : Coeff} {bound : Int}

theorem abs_product (hz : |z.toInt| ≤ 4190208) : 2 * |(smul z b).toInt| < 8380417 * 4294967296 := by
  rw [toInt_smul, abs_mul]
  have hb := abs_toInt_le b
  have hProd : |z.toInt| * |b.toInt| ≤ 4190208 * 2147483648 :=
    mul_le_mul hz hb (abs_nonneg _) (by norm_num)
  omega

theorem residue_product (hz : |z.toInt| ≤ 4190208) :
    residue (montReduce (smul z b)) = residue z * 8265825 * residue b := by
  have hMont := residue_montReduce (abs_product (b := b) hz)
  rw [toInt_smul, Int.cast_mul] at hMont
  calc residue (montReduce (smul z b))
      = residue (montReduce (smul z b)) * 4294967296 * 8265825 := by
        rw [mul_assoc, radix_mul, mul_one]
    _ = residue z * 8265825 * residue b := by
        rw [hMont]
        unfold residue
        ring

theorem residue_add (h : |a.toInt + b.toInt| ≤ 2147483647) :
    residue (a + b) = residue a + residue b := by
  unfold residue
  rw [toInt_add h, Int.cast_add]

theorem residue_sub (h : |a.toInt - b.toInt| ≤ 2147483647) :
    residue (a - b) = residue a - residue b := by
  unfold residue
  rw [toInt_sub h, Int.cast_sub]

/-- Both sums of a forward butterfly stay within 32 bits. -/
theorem ct_sums (hz : |z.toInt| ≤ 4190208) (ha : |a.toInt| ≤ bound) :
    |a.toInt + (montReduce (smul z b)).toInt| ≤ bound + 8380416 ∧
      |a.toInt - (montReduce (smul z b)).toInt| ≤ bound + 8380416 := by
  have hMont := abs_montReduce (abs_product (b := b) hz)
  have hPlus := abs_add_le a.toInt (montReduce (smul z b)).toInt
  have hMinus := abs_sub a.toInt (montReduce (smul z b)).toInt
  omega

/-- Both sums of a butterfly of the way back stay within 32 bits. -/
theorem gs_sums (ha : |a.toInt| ≤ bound) (hb : |b.toInt| ≤ bound) :
    |a.toInt + b.toInt| ≤ bound * 2 ∧ |a.toInt - b.toInt| ≤ bound * 2 := by
  have hPlus := abs_add_le a.toInt b.toInt
  have hMinus := abs_sub a.toInt b.toInt
  omega

/-- A coefficient within a bound, of a given residue. -/
def Represents (bound : Int) (x : Coeff) (y : ZMod 8380417) : Prop :=
  |x.toInt| ≤ bound ∧ residue x = y

theorem ct_represents {a' b' : ZMod 8380417} (hz : |z.toInt| ≤ 4190208)
    (hBound : bound + 8380416 ≤ 2147483647) (ha : Represents bound a a')
    (hb : Represents bound b b') :
    Represents (bound + 8380416) (butterflyCt a b z).1 (a' + residue z * 8265825 * b') ∧
      Represents (bound + 8380416) (butterflyCt a b z).2 (a' - residue z * 8265825 * b') := by
  obtain ⟨hPlus, hMinus⟩ := ct_sums (b := b) hz ha.1
  have hResidue : residue (montReduce (smul z b)) = residue z * 8265825 * b' := by
    rw [← hb.2]
    exact residue_product hz
  constructor
  · rw [show (butterflyCt a b z).1 = a + montReduce (smul z b) from rfl]
    constructor
    · rw [toInt_add (hPlus.trans hBound)]
      exact hPlus
    · rw [residue_add (hPlus.trans hBound), ha.2, hResidue]
  · rw [show (butterflyCt a b z).2 = a - montReduce (smul z b) from rfl]
    constructor
    · rw [toInt_sub (hMinus.trans hBound)]
      exact hMinus
    · rw [residue_sub (hMinus.trans hBound), ha.2, hResidue]

theorem gs_represents {a' b' : ZMod 8380417} (hz : |z.toInt| ≤ 4190208)
    (hLeast : 4190208 ≤ bound) (hBound : bound * 2 ≤ 2147483647) (ha : Represents bound a a')
    (hb : Represents bound b b') :
    Represents (bound * 2) (butterflyGs a b (-z)).1 (a' + b') ∧
      Represents (bound * 2) (butterflyGs a b (-z)).2 (-(residue z * 8265825) * (a' - b')) := by
  obtain ⟨hPlus, hMinus⟩ := gs_sums ha.1 hb.1
  have hNeg : (-z).toInt = -z.toInt := toInt_neg (hz.trans (by norm_num))
  have hzNeg : |(-z).toInt| ≤ 4190208 := by
    rw [hNeg, abs_neg]
    exact hz
  have hMont := abs_montReduce (abs_product (b := a - b) hzNeg)
  constructor
  · rw [show (butterflyGs a b (-z)).1 = a + b from rfl]
    constructor
    · rw [toInt_add (hPlus.trans hBound)]
      exact hPlus
    · rw [residue_add (hPlus.trans hBound), ha.2, hb.2]
  · rw [show (butterflyGs a b (-z)).2 = montReduce (smul (-z) (a - b)) from rfl]
    constructor
    · omega
    · rw [residue_product hzNeg, residue_sub (hMinus.trans hBound), ha.2, hb.2]
      unfold residue
      rw [hNeg, Int.cast_neg]
      ring

end Butterfly

/-! ### The layers -/

/-- The distance between the two places of a butterfly in layer `l` of a run. -/
def nttWidth (inverse : Bool) (l : Nat) : Nat := if inverse then 2 ^ l else 2 ^ (7 - l)

/-- The table entry for block `b` of layer `l`. -/
def nttTwiddle (inverse : Bool) (l b : Nat) : Nat :=
  if inverse then 2 ^ (8 - l) - 1 - b else 2 ^ l + b

def butterfly (inverse : Bool) (z a b : Coeff) : Coeff × Coeff :=
  if inverse then butterflyGs a b (-z) else butterflyCt a b z

/-- The coefficients after `l` layers. -/
def nttLayers (inverse : Bool) (f : Nat → Coeff) : Nat → Nat → Coeff
  | 0 => f
  | l + 1 =>
    Butterflies.pairs (fun b => butterfly inverse (zeta (nttTwiddle inverse l b)))
      (nttWidth inverse l) (nttLayers inverse f l)

theorem forward_layers {f : Nat → Coeff} {bound : Int} (hBound : bound + 8 * 8380416 ≤ 2147483647)
    (hf : ∀ p < 256, |(f p).toInt| ≤ bound) {l : Nat} (hl : l ≤ 8) :
    ∀ p < 256, Represents (bound + l * 8380416) (nttLayers false f l p)
      (Butterflies.layers root 8 l (fun p => residue (f p)) p) := by
  induction l with
  | zero =>
    intro p hp
    exact ⟨by simpa [nttLayers] using hf p hp, rfl⟩
  | succ l ih =>
    have hBefore := ih (by omega)
    have hWidth := Butterflies.two_pow_split (show l < 8 by omega)
    rw [show 256 = 2 ^ 8 by rfl, hWidth] at hBefore ⊢
    rw [show bound + ((l + 1 : Nat) : Int) * 8380416 = bound + l * 8380416 + 8380416 by
      push_cast; ring]
    rw [nttLayers, show nttWidth false l = 2 ^ (8 - 1 - l) by simp [nttWidth], Butterflies.layers]
    apply Butterflies.pairs_rel (Represents (bound + l * 8380416))
      (Represents (bound + l * 8380416 + 8380416)) (Nat.two_pow_pos _) _ hBefore
    intro b _ x y x' y' hx hy
    exact ct_represents (abs_zeta _) (by omega) hx hy

theorem inverse_layers {f : Nat → Coeff} (hf : ∀ p < 256, |(f p).toInt| ≤ 8388607) {l : Nat}
    (hl : l ≤ 8) :
    ∀ p < 256, Represents (8388607 * 2 ^ l) (nttLayers true f l p)
      (Butterflies.unlayers back 8 8 l (fun p => residue (f p)) p) := by
  induction l with
  | zero =>
    intro p hp
    exact ⟨by simpa [nttLayers] using hf p hp, rfl⟩
  | succ l ih =>
    have hBefore := ih (by omega)
    have hWidth := Butterflies.two_pow_split (show 7 - l < 8 by omega)
    have hPow : (2 : Int) ^ l ≤ 2 ^ 7 := by gcongr <;> omega
    have hOne : (1 : Int) ≤ 2 ^ l := one_le_pow₀ (by norm_num)
    rw [show 256 = 2 ^ 8 by rfl, hWidth] at hBefore ⊢
    rw [Butterflies.unlayers, show 8 - 1 - l = 7 - l by omega, nttLayers,
      show nttWidth true l = 2 ^ (8 - 1 - (7 - l)) by simp [nttWidth]; omega,
      show (8388607 : Int) * 2 ^ (l + 1) = 8388607 * 2 ^ l * 2 by ring]
    apply Butterflies.pairs_rel (Represents (8388607 * 2 ^ l)) (Represents (8388607 * 2 ^ l * 2))
      (Nat.two_pow_pos _) _ hBefore
    intro b hb x y x' y' hx hy
    have hBack := back_eq (7 - l) (by omega) b hb
    rw [show 7 - l + 1 = 8 - l by omega] at hBack
    simp only [hBack]
    exact gs_represents (abs_zeta _) (by omega) (by omega) hx hy

/-! ### The transform -/

/-- The transform of FIPS 204: entry `i` is the value at `1753 ^ (2 * BitRev8 i + 1)`. -/
def ntt (f : Nat → ZMod 8380417) (i : Nat) : ZMod 8380417 :=
  ∑ m ∈ Finset.range 256, f m * (1753 ^ (2 * bitRev8 i + 1)) ^ m

theorem layers_eq_ntt (f : Nat → ZMod 8380417) :
    ∀ p < 256, Butterflies.layers root 8 8 f p = ntt f p := by
  intro p hp
  have hLayers := Butterflies.layers_apply (n := 8) root_tree (by omega) f
    (show p < 2 ^ 8 by omega) (show 0 < 2 ^ (8 - 8) by omega)
  rw [show p * 2 ^ (8 - 8) + 0 = p by omega, leaf_eq _ (by omega)] at hLayers
  rw [hLayers]
  apply Finset.sum_congr rfl
  intro m _
  rw [show 0 + m * 2 ^ (8 - 8) = m by omega]

/-- The coefficients after a run. -/
def nttResult (inverse : Bool) (f : Nat → Coeff) (p : Nat) : Coeff :=
  if inverse then montReduce (smul FINV (nttLayers true f 8 p)) else nttLayers false f 8 p

theorem nttResult_forward (f : Nat → Coeff) (p : Nat) :
    nttResult false f p = nttLayers false f 8 p := if_neg Bool.false_ne_true

theorem nttResult_inverse (f : Nat → Coeff) (p : Nat) :
    nttResult true f p = montReduce (smul FINV (nttLayers true f 8 p)) := if_pos rfl

theorem forward_result {f : Nat → Coeff} {bound : Int} (hBound : bound + 8 * 8380416 ≤ 2147483647)
    (hf : ∀ p < 256, |(f p).toInt| ≤ bound) :
    ∀ p < 256, Represents (bound + 8 * 8380416) (nttResult false f p)
      (ntt (fun i => residue (f i)) p) := by
  intro p hp
  have hLayer := forward_layers hBound hf (Nat.le_refl 8) p hp
  rw [layers_eq_ntt _ p hp, ← nttResult_forward] at hLayer
  exact_mod_cast hLayer

theorem finv_small : |FINV.toInt| ≤ 4190208 := by decide

theorem inverse_result {f : Nat → Coeff} (hf : ∀ p < 256, |(f p).toInt| ≤ 8388607) :
    ∀ p < 256, Represents 8380416 (nttResult true f p)
      (residue FINV * 8265825 * Butterflies.unlayers back 8 8 8 (fun i => residue (f i)) p) := by
  intro p hp
  have hLayer := inverse_layers hf (Nat.le_refl 8) p hp
  constructor
  · exact abs_montReduce (abs_product finv_small)
  · rw [← hLayer.2]
    exact residue_product finv_small

/-- The transform of the result of the way back is `2 ^ 32` times what it started from. -/
theorem ntt_inverse {f : Nat → Coeff} (hf : ∀ p < 256, |(f p).toInt| ≤ 8388607) :
    ∀ p < 256, ntt (fun i => residue (nttResult true f i)) p = 4294967296 * residue (f p) := by
  intro p hp
  have hScaled := Butterflies.layers_smul root (Nat.le_refl 8)
    (fun i hi => (inverse_result hf i hi).2) p hp
  have hBack := Butterflies.layers_unlayers back_root (Nat.le_refl 8) (Nat.le_refl 8)
    (fun i => residue (f i)) p hp
  rw [← layers_eq_ntt _ p hp, hScaled, hBack, ← finv_factor]
  simp only [Nat.sub_self, Butterflies.unlayers]
  ring

/-- The way back from a transform gives `2 ^ 32` times what was transformed. -/
theorem inverse_ntt {f : Nat → Coeff} {g : Nat → ZMod 8380417}
    (hf : ∀ p < 256, |(f p).toInt| ≤ 8388607) (hg : ∀ p < 256, residue (f p) = ntt g p) :
    ∀ p < 256, residue (nttResult true f p) = 4294967296 * g p := by
  intro p hp
  have hSame : ∀ i < 2 ^ 8, residue (f i) = 1 * Butterflies.layers root 8 8 g i := by
    intro i hi
    rw [one_mul, hg i hi, layers_eq_ntt g i hi]
  have hFrom := Butterflies.unlayers_smul back (Nat.le_refl 8) (Nat.le_refl 8) hSame p hp
  have hBack := Butterflies.unlayers_layers back_root (Nat.le_refl 8) (Nat.le_refl 8) g p hp
  rw [(inverse_result hf p hp).2, hFrom, hBack, ← finv_factor]
  simp only [Nat.sub_self, Butterflies.layers]
  ring

end MlDsa

end PqcHsm
