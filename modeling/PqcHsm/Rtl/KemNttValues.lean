import Mathlib.Data.ZMod.Basic
import Mathlib.Tactic.NormNum
import PqcHsm.Library.Butterflies
import PqcHsm.Library.Montgomery
import PqcHsm.Rtl.KemNtt

/-!
# The values of the NTT core of ML-KEM

What the reductions and the butterflies give, as integers and as residues modulo `q`, and from that
the residues after each layer.
-/

namespace PqcHsm

namespace MlKem

/-- The residue of a coefficient. -/
def residue (x : Coeff) : ZMod 3329 := x.toInt

theorem toInt_bounds (x : Coeff) : -32768 ≤ x.toInt ∧ x.toInt ≤ 32767 := by
  have hLow := BitVec.le_toInt x
  have hHigh := BitVec.toInt_lt (x := x)
  omega

theorem abs_toInt_le (x : Coeff) : |x.toInt| ≤ 32768 := by
  have hBounds := toInt_bounds x
  rw [abs_le]
  omega

theorem toInt_signExtend (x : Coeff) : (x.signExtend 32).toInt = x.toInt :=
  BitVec.toInt_signExtend_of_le (by decide)

theorem toInt_add {x y : Coeff} (h : |x.toInt + y.toInt| ≤ 32767) :
    (x + y).toInt = x.toInt + y.toInt := by
  rw [abs_le] at h
  rw [BitVec.toInt_add]
  apply Int.bmod_eq_of_le_mul_two <;> omega

theorem toInt_sub {x y : Coeff} (h : |x.toInt - y.toInt| ≤ 32767) :
    (x - y).toInt = x.toInt - y.toInt := by
  rw [abs_le] at h
  rw [BitVec.toInt_sub]
  apply Int.bmod_eq_of_le_mul_two <;> omega

theorem toInt_smul (x y : Coeff) : (smul x y).toInt = x.toInt * y.toInt := by
  have hProd : |x.toInt * y.toInt| ≤ 32768 * 32768 := by
    rw [abs_mul]
    exact mul_le_mul (abs_toInt_le x) (abs_toInt_le y) (abs_nonneg _) (by norm_num)
  rw [abs_le] at hProd
  unfold smul
  rw [BitVec.toInt_mul, toInt_signExtend, toInt_signExtend]
  apply Int.bmod_eq_of_le_mul_two <;> omega

/-! ### `mont_reduce` -/

/-- The factor of `q` that is taken away. -/
def montFactor (a : BitVec 32) : Coeff := a.setWidth 16 * BitVec.ofInt 16 (-3327)

theorem montFactor_dvd (a : BitVec 32) :
    (65536 : Int) ∣ (montFactor a).toInt - a.toInt * -3327 := by
  have hLow : (65536 : Int) ∣ (a.setWidth 16).toInt - a.toInt := by
    rw [BitVec.toInt_eq_toNat_cond, BitVec.toInt_eq_toNat_cond, BitVec.toNat_setWidth]
    omega
  have hProd : (65536 : Int) ∣ (montFactor a).toInt - (a.setWidth 16).toInt * -3327 := by
    unfold montFactor
    rw [BitVec.toInt_mul]
    exact Int.dvd_bmod_sub_self
  rw [show (montFactor a).toInt - a.toInt * -3327 = (montFactor a).toInt -
    (a.setWidth 16).toInt * -3327 + ((a.setWidth 16).toInt - a.toInt) * -3327 by ring]
  exact dvd_add hProd (Dvd.dvd.mul_right hLow (-3327))

theorem toInt_montProd (a : BitVec 32) :
    ((montFactor a).signExtend 32 * 3329).toInt = (montFactor a).toInt * 3329 := by
  have hFactor := toInt_bounds (montFactor a)
  rw [BitVec.toInt_mul, toInt_signExtend, show (3329 : BitVec 32).toInt = 3329 from rfl]
  apply Int.bmod_eq_of_le_mul_two <;> omega

theorem toInt_montDiff {a : BitVec 32} (ha : 2 * |a.toInt| < 3329 * 65536) :
    (a - (montFactor a).signExtend 32 * 3329).toInt = a.toInt - (montFactor a).toInt * 3329 := by
  have hFactor := toInt_bounds (montFactor a)
  have hAbs := abs_le.mp (show |a.toInt| ≤ 109084671 by omega)
  rw [BitVec.toInt_sub, toInt_montProd]
  apply Int.bmod_eq_of_le_mul_two <;> omega

theorem toInt_high (d : BitVec 32) : (d.extractLsb' 16 16).toInt = d.toInt / 65536 := by
  rw [BitVec.toInt_eq_toNat_cond, BitVec.toInt_eq_toNat_cond, BitVec.extractLsb'_toNat]
  have := d.isLt
  simp only [Nat.shiftRight_eq_div_pow]
  omega

theorem montFactor_sub_dvd (a : BitVec 32) :
    (65536 : Int) ∣ a.toInt - (montFactor a).toInt * 3329 :=
  Montgomery.dvd_sub (-3327) ⟨-169, by norm_num⟩ (montFactor_dvd a)

theorem toInt_montReduce {a : BitVec 32} (ha : 2 * |a.toInt| < 3329 * 65536) :
    (montReduce a).toInt = (a.toInt - (montFactor a).toInt * 3329) / 65536 := by
  rw [← toInt_montDiff ha, ← toInt_high]
  rfl

theorem abs_montReduce {a : BitVec 32} (ha : 2 * |a.toInt| < 3329 * 65536) :
    |(montReduce a).toInt| ≤ 3328 := by
  have hLt := Montgomery.abs_div_lt (by norm_num) (by norm_num)
    (show 2 * |(montFactor a).toInt| ≤ 65536 by linarith [abs_toInt_le (montFactor a)]) ha
    (montFactor_sub_dvd a)
  rw [← toInt_montReduce ha] at hLt
  omega

/-- The residue is that of `a / 2 ^ 16`. -/
theorem residue_montReduce {a : BitVec 32} (ha : 2 * |a.toInt| < 3329 * 65536) :
    residue (montReduce a) * 65536 = (a.toInt : ZMod 3329) := by
  unfold residue
  rw [toInt_montReduce ha]
  exact Montgomery.cast_div (montFactor_sub_dvd a)

/-- No step of the reduction leaves its width, and the division is exact. -/
structure MontExact (a : BitVec 32) : Prop where
  prod : ((montFactor a).signExtend 32 * 3329).toInt = (montFactor a).toInt * 3329
  diff : (a - (montFactor a).signExtend 32 * 3329).toInt = a.toInt - (montFactor a).toInt * 3329
  div : (montReduce a).toInt * 65536 = a.toInt - (montFactor a).toInt * 3329

theorem montReduce_exact {a : BitVec 32} (ha : 2 * |a.toInt| < 3329 * 65536) : MontExact a where
  prod := toInt_montProd a
  diff := toInt_montDiff ha
  div := by
    rw [toInt_montReduce ha]
    exact Int.ediv_mul_cancel (montFactor_sub_dvd a)

/-! ### `barrett_reduce` -/

theorem toInt_truncate {d : BitVec 32} (h : -32768 ≤ d.toInt ∧ d.toInt ≤ 32767) :
    (d.setWidth 16).toInt = d.toInt := by
  have hLt := d.isLt
  rw [BitVec.toInt_eq_toNat_cond] at h ⊢
  rw [BitVec.toInt_eq_toNat_cond, BitVec.toNat_setWidth]
  omega

def barrProd (a : Coeff) : BitVec 32 := 20159 * a.signExtend 32

/-- The quotient that is taken. -/
def barrQuot (a : Coeff) : Coeff := ((barrProd a + 33554432).sshiftRight 26).setWidth 16

theorem toInt_barrProd (a : Coeff) : (barrProd a).toInt = 20159 * a.toInt := by
  have ha := toInt_bounds a
  unfold barrProd
  rw [BitVec.toInt_mul, toInt_signExtend, show (20159 : BitVec 32).toInt = 20159 from rfl]
  apply Int.bmod_eq_of_le_mul_two <;> omega

theorem toInt_barrSum (a : Coeff) : (barrProd a + 33554432).toInt = 20159 * a.toInt + 33554432 := by
  have ha := toInt_bounds a
  rw [BitVec.toInt_add, toInt_barrProd, show (33554432 : BitVec 32).toInt = 33554432 from rfl]
  apply Int.bmod_eq_of_le_mul_two <;> omega

theorem toInt_barrQuot (a : Coeff) :
    (barrQuot a).toInt = (20159 * a.toInt + 33554432) / 67108864 := by
  have ha := toInt_bounds a
  have hShift : ((barrProd a + 33554432).sshiftRight 26).toInt =
      (20159 * a.toInt + 33554432) / 67108864 := by
    rw [BitVec.toInt_sshiftRight, toInt_barrSum, Int.shiftRight_eq_div_pow]
    rfl
  unfold barrQuot
  rw [toInt_truncate (by omega), hShift]

theorem barrettReduce_eq (a : Coeff) : barrettReduce a = a - barrQuot a * 3329 := rfl

/-- Barrett's step gives the residue nearest to 0. -/
theorem toInt_barrettReduce (a : Coeff) :
    (barrettReduce a).toInt = a.toInt - (20159 * a.toInt + 33554432) / 67108864 * 3329 := by
  have ha := toInt_bounds a
  rw [barrettReduce_eq, BitVec.toInt_sub, BitVec.toInt_mul, toInt_barrQuot,
    show (3329 : BitVec 16).toInt = 3329 from rfl, Int.sub_bmod_bmod]
  apply Int.bmod_eq_of_le_mul_two <;> omega

/-- No step of the reduction leaves its width. -/
structure BarrettExact (a : Coeff) : Prop where
  prod : (barrProd a).toInt = 20159 * a.toInt
  sum : (barrProd a + 33554432).toInt = (barrProd a).toInt + 33554432
  quot : (barrQuot a).toInt = (barrProd a + 33554432).toInt / 2 ^ 26
  multiple : (barrQuot a * 3329).toInt = (barrQuot a).toInt * 3329
  diff : (barrettReduce a).toInt = a.toInt - (barrQuot a * 3329).toInt

/-- The multiple of `q` fits into 16 bits. -/
theorem barrettReduce_exact {a : Coeff} (ha : |a.toInt| ≤ 31625) : BarrettExact a := by
  rw [abs_le] at ha
  have hMultiple : (barrQuot a * 3329).toInt = (barrQuot a).toInt * 3329 := by
    rw [BitVec.toInt_mul, toInt_barrQuot, show (3329 : BitVec 16).toInt = 3329 from rfl]
    apply Int.bmod_eq_of_le_mul_two <;> omega
  constructor
  · exact toInt_barrProd a
  · rw [toInt_barrSum, toInt_barrProd]
  · rw [toInt_barrQuot, toInt_barrSum]
    rfl
  · exact hMultiple
  · rw [toInt_barrettReduce, hMultiple, toInt_barrQuot]

theorem abs_barrettReduce (a : Coeff) : |(barrettReduce a).toInt| ≤ 1664 := by
  have ha := toInt_bounds a
  rw [toInt_barrettReduce, abs_le]
  omega

theorem residue_barrettReduce (a : Coeff) : residue (barrettReduce a) = residue a := by
  unfold residue
  rw [toInt_barrettReduce]
  push_cast
  rw [show (3329 : ZMod 3329) = 0 from rfl, mul_zero, sub_zero]

/-! ### Roots -/

/-- The residue that a table entry stands for: the table holds `2 ^ 16` times it. -/
def root (k : Nat) : ZMod 3329 := residue (zeta k) * 169

/-- The factor of the way back, which reads the table from its end. -/
def back (k : Nat) : ZMod 3329 := -root (3 * 2 ^ k.log2 - 1 - k)

/-- `BitRev7` -/
def bitRev7 (i : Nat) : Nat := (BitVec.ofNat 7 i).reverse.toNat

open Butterflies in
/-- The table: bounds, square roots, inverses, and the leaves of the tree. -/
theorem table_checked :
    (∀ i < 128, |(BitVec.ofInt 16 (zetas.getD i 0)).toInt| ≤ 1664) ∧
      (∀ k < 128, 1 ≤ k → root k ^ 2 = node root k ∧ back k * root k = 1) ∧
      (∀ b < 128, node root (2 ^ 7 + b) = 17 ^ (2 * bitRev7 b + 1)) ∧
      ∀ l < 7, ∀ b < 2 ^ l, back (2 ^ l + b) = -root (2 ^ (l + 1) - 1 - b) := by
  decide +kernel

theorem abs_zeta (k : Nat) : |(zeta k).toInt| ≤ 1664 :=
  table_checked.1 _ (Nat.mod_lt _ (by decide))

open Butterflies in
theorem root_tree : Tree root 7 := by
  intro k hk hlt
  exact (table_checked.2.1 k hlt hk).1

theorem back_root : ∀ k, 1 ≤ k → k < 2 ^ 7 → back k * root k = 1 := by
  intro k hk hlt
  exact (table_checked.2.1 k hlt hk).2

theorem leaf_eq : ∀ b < 128, Butterflies.node root (2 ^ 7 + b) = 17 ^ (2 * bitRev7 b + 1) :=
  table_checked.2.2.1

theorem back_eq : ∀ l < 7, ∀ b < 2 ^ l, back (2 ^ l + b) = -root (2 ^ (l + 1) - 1 - b) :=
  table_checked.2.2.2

/-! ### Butterflies -/

section Butterfly

variable {a b z : Coeff} {bound : Int}

theorem abs_product (hz : |z.toInt| ≤ 1664) : 2 * |(smul z b).toInt| < 3329 * 65536 := by
  rw [toInt_smul, abs_mul]
  have hb := abs_toInt_le b
  have hProd : |z.toInt| * |b.toInt| ≤ 1664 * 32768 :=
    mul_le_mul hz hb (abs_nonneg _) (by norm_num)
  omega

theorem residue_product (hz : |z.toInt| ≤ 1664) :
    residue (montReduce (smul z b)) = residue z * 169 * residue b := by
  have hMont := residue_montReduce (abs_product (b := b) hz)
  rw [toInt_smul, Int.cast_mul] at hMont
  calc residue (montReduce (smul z b))
      = residue (montReduce (smul z b)) * 65536 * 169 := by
        rw [mul_assoc, show (65536 : ZMod 3329) * 169 = 1 from rfl, mul_one]
    _ = residue z * 169 * residue b := by
        rw [hMont]
        unfold residue
        ring

theorem residue_add (h : |a.toInt + b.toInt| ≤ 32767) :
    residue (a + b) = residue a + residue b := by
  unfold residue
  rw [toInt_add h, Int.cast_add]

theorem residue_sub (h : |a.toInt - b.toInt| ≤ 32767) :
    residue (a - b) = residue a - residue b := by
  unfold residue
  rw [toInt_sub h, Int.cast_sub]

/-- Both sums of a forward butterfly stay within 16 bits. -/
theorem ct_sums (hz : |z.toInt| ≤ 1664) (ha : |a.toInt| ≤ bound) (hBound : bound + 3328 ≤ 32767) :
    |a.toInt + (montReduce (ctHead b z)).toInt| ≤ 32767 ∧
      |a.toInt - (montReduce (ctHead b z)).toInt| ≤ 32767 := by
  have hMont := abs_montReduce (abs_product (b := b) hz)
  have hPlus := abs_add_le a.toInt (montReduce (ctHead b z)).toInt
  have hMinus := abs_sub a.toInt (montReduce (ctHead b z)).toInt
  unfold ctHead at *
  omega

/-- Both sums of a butterfly of the way back stay within 16 bits. -/
theorem gs_sums (ha : |a.toInt| ≤ 15812) (hb : |b.toInt| ≤ 15812) :
    |a.toInt + b.toInt| ≤ 31624 ∧ |b.toInt - a.toInt| ≤ 31624 := by
  have hPlus := abs_add_le a.toInt b.toInt
  have hMinus := abs_sub b.toInt a.toInt
  omega

/-- A coefficient within a bound, of a given residue. -/
def Represents (bound : Int) (x : Coeff) (y : ZMod 3329) : Prop :=
  |x.toInt| ≤ bound ∧ residue x = y

theorem ct_represents {a' b' : ZMod 3329} (hz : |z.toInt| ≤ 1664) (hBound : bound + 3328 ≤ 32767)
    (ha : Represents bound a a') (hb : Represents bound b b') :
    Represents (bound + 3328) (ctTail a (ctHead b z)).1 (a' + residue z * 169 * b') ∧
      Represents (bound + 3328) (ctTail a (ctHead b z)).2 (a' - residue z * 169 * b') := by
  obtain ⟨hPlus, hMinus⟩ := ct_sums (b := b) hz ha.1 hBound
  have hMont : |(montReduce (ctHead b z)).toInt| ≤ 3328 := abs_montReduce (abs_product hz)
  have hResidue : residue (montReduce (ctHead b z)) = residue z * 169 * b' := by
    rw [← hb.2]
    exact residue_product hz
  have hLow := abs_add_le a.toInt (montReduce (ctHead b z)).toInt
  have hHigh := abs_sub a.toInt (montReduce (ctHead b z)).toInt
  have hA := ha.1
  constructor
  · constructor
    · rw [show (ctTail a (ctHead b z)).1 = a + montReduce (ctHead b z) from rfl, toInt_add hPlus]
      omega
    · rw [show (ctTail a (ctHead b z)).1 = a + montReduce (ctHead b z) from rfl,
        residue_add hPlus, ha.2, hResidue]
  · constructor
    · rw [show (ctTail a (ctHead b z)).2 = a - montReduce (ctHead b z) from rfl, toInt_sub hMinus]
      omega
    · rw [show (ctTail a (ctHead b z)).2 = a - montReduce (ctHead b z) from rfl,
        residue_sub hMinus, ha.2, hResidue]

theorem gs_represents {a' b' : ZMod 3329} (hz : |z.toInt| ≤ 1664) (ha : Represents 15812 a a')
    (hb : Represents 15812 b b') :
    Represents 15812 (gsHead a b z).2 (a' + b') ∧
      Represents 15812 (gsTail (gsHead a b z).1) (-(residue z * 169) * (a' - b')) := by
  obtain ⟨hPlus, hMinus⟩ := gs_sums ha.1 hb.1
  have hBarrett := abs_barrettReduce (a + b)
  have hMont : |(montReduce (smul z (b - a))).toInt| ≤ 3328 := abs_montReduce (abs_product hz)
  constructor
  · constructor
    · exact hBarrett.trans (by norm_num)
    · rw [show (gsHead a b z).2 = barrettReduce (a + b) from rfl, residue_barrettReduce,
        residue_add (hPlus.trans (by norm_num)), ha.2, hb.2]
  · constructor
    · exact hMont.trans (by norm_num)
    · rw [show gsTail (gsHead a b z).1 = montReduce (smul z (b - a)) from rfl, residue_product hz,
        residue_sub (hMinus.trans (by norm_num)), ha.2, hb.2]
      ring

end Butterfly

/-! ### The layers -/

/-- The distance between the two places of a butterfly in layer `l` of a run. -/
def nttWidth (inverse : Bool) (l : Nat) : Nat := if inverse then 2 ^ (l + 1) else 2 ^ (7 - l)

/-- The table entry for block `b` of layer `l`. -/
def nttTwiddle (inverse : Bool) (l b : Nat) : Nat :=
  if inverse then 2 ^ (7 - l) - 1 - b else 2 ^ l + b

def butterfly (inverse : Bool) (z a b : Coeff) : Coeff × Coeff :=
  if inverse then ((gsHead a b z).2, gsTail (gsHead a b z).1) else ctTail a (ctHead b z)

/-- The memory after `l` layers. -/
def nttLayers (inverse : Bool) (f : Nat → Coeff) : Nat → Nat → Coeff
  | 0 => f
  | l + 1 =>
    Butterflies.pairs (fun b => butterfly inverse (zeta (nttTwiddle inverse l b)))
      (nttWidth inverse l) (nttLayers inverse f l)

theorem forward_layers {f : Nat → Coeff} {bound : Int} (hBound : bound + 7 * 3328 ≤ 32767)
    (hf : ∀ p < 256, |(f p).toInt| ≤ bound) {l : Nat} (hl : l ≤ 7) :
    ∀ p < 256, Represents (bound + l * 3328) (nttLayers false f l p)
      (Butterflies.layers root 8 l (fun p => residue (f p)) p) := by
  induction l with
  | zero =>
    intro p hp
    exact ⟨by simpa [nttLayers] using hf p hp, rfl⟩
  | succ l ih =>
    have hBefore := ih (by omega)
    have hWidth := Butterflies.two_pow_split (show l < 8 by omega)
    rw [show 256 = 2 ^ 8 by rfl, hWidth] at hBefore ⊢
    rw [show bound + ((l + 1 : Nat) : Int) * 3328 = bound + l * 3328 + 3328 by push_cast; ring]
    rw [nttLayers, show nttWidth false l = 2 ^ (8 - 1 - l) by simp [nttWidth], Butterflies.layers]
    apply Butterflies.pairs_rel (Represents (bound + l * 3328))
      (Represents (bound + l * 3328 + 3328))
      (Nat.two_pow_pos _) _ hBefore
    intro b _ x y x' y' hx hy
    exact ct_represents (abs_zeta _) (by omega) hx hy

theorem inverse_layers {f : Nat → Coeff} (hf : ∀ p < 256, |(f p).toInt| ≤ 15812) {l : Nat}
    (hl : l ≤ 7) :
    ∀ p < 256, Represents 15812 (nttLayers true f l p)
      (Butterflies.unlayers back 8 7 l (fun p => residue (f p)) p) := by
  induction l with
  | zero =>
    intro p hp
    exact ⟨hf p hp, rfl⟩
  | succ l ih =>
    have hBefore := ih (by omega)
    have hWidth := Butterflies.two_pow_split (show 6 - l < 8 by omega)
    rw [show 256 = 2 ^ 8 by rfl, hWidth] at hBefore ⊢
    rw [Butterflies.unlayers, show 7 - 1 - l = 6 - l by omega, nttLayers,
      show nttWidth true l = 2 ^ (8 - 1 - (6 - l)) by simp [nttWidth]; omega]
    apply Butterflies.pairs_rel (Represents 15812) (Represents 15812) (Nat.two_pow_pos _) _ hBefore
    intro b hb x y x' y' hx hy
    have hBack := back_eq (6 - l) (by omega) b hb
    rw [show 6 - l + 1 = 7 - l by omega] at hBack
    simp only [hBack]
    exact gs_represents (abs_zeta _) hx hy

/-! ### The transform -/

/-- The transform of FIPS 203: entry `2 * i + t` is the coefficient of `X ^ t` in the residue modulo
`X ^ 2 - 17 ^ (2 * BitRev7 i + 1)`. -/
def ntt (f : Nat → ZMod 3329) (p : Nat) : ZMod 3329 :=
  ∑ m ∈ Finset.range 128, f (p % 2 + 2 * m) * (17 ^ (2 * bitRev7 (p / 2) + 1)) ^ m

/-- The modulus `X ^ 2 - c` of a pair. -/
def pairMod (j : Nat) : ZMod 3329 := 17 ^ (2 * bitRev7 j + 1)

theorem layers_eq_ntt (f : Nat → ZMod 3329) :
    ∀ p < 256, Butterflies.layers root 8 7 f p = ntt f p := by
  intro p hp
  have hLayers := Butterflies.layers_apply (n := 8) root_tree (by omega) f
    (show p / 2 < 2 ^ 7 by omega) (show p % 2 < 2 ^ (8 - 7) by omega)
  rw [show p / 2 * 2 ^ (8 - 7) + p % 2 = p by omega, leaf_eq _ (by omega)] at hLayers
  rw [hLayers]
  apply Finset.sum_congr rfl
  intro m _
  rw [show m * 2 ^ (8 - 7) = 2 * m by omega]

/-- The memory after a run. -/
def nttResult (inverse : Bool) (f : Nat → Coeff) (p : Nat) : Coeff :=
  if inverse then montReduce (smul FINV (nttLayers true f 7 p))
  else barrettReduce (nttLayers false f 7 p)

theorem forward_result {f : Nat → Coeff} (hf : ∀ p < 256, |(f p).toInt| ≤ 9471) :
    ∀ p < 256, Represents 1664 (nttResult false f p) (ntt (fun i => residue (f i)) p) := by
  intro p hp
  have hLayer := forward_layers (by norm_num) hf (Nat.le_refl 7) p hp
  constructor
  · exact abs_barrettReduce _
  · rw [← layers_eq_ntt _ p hp, ← hLayer.2]
    exact residue_barrettReduce _

theorem residue_scaled (x : Coeff) :
    residue (montReduce (smul FINV x)) = residue FINV * 169 * residue x :=
  residue_product (by decide)

/-- The factor that the way back leaves. -/
theorem finv_factor : residue FINV * 169 * 2 ^ 7 = 65536 := rfl

theorem inverse_result {f : Nat → Coeff} (hf : ∀ p < 256, |(f p).toInt| ≤ 15812) :
    ∀ p < 256, Represents 3328 (nttResult true f p)
      (residue FINV * 169 * Butterflies.unlayers back 8 7 7 (fun i => residue (f i)) p) := by
  intro p hp
  have hLayer := inverse_layers hf (Nat.le_refl 7) p hp
  constructor
  · exact abs_montReduce (abs_product (by decide))
  · rw [← hLayer.2]
    exact residue_scaled _

/-- The transform of the result of the way back is `2 ^ 16` times what it started from. -/
theorem ntt_inverse {f : Nat → Coeff} (hf : ∀ p < 256, |(f p).toInt| ≤ 15812) :
    ∀ p < 256, ntt (fun i => residue (nttResult true f i)) p = 65536 * residue (f p) := by
  intro p hp
  have hScaled := Butterflies.layers_smul root (show 7 ≤ 8 by omega)
    (fun i hi => (inverse_result hf i hi).2) p hp
  have hBack := Butterflies.layers_unlayers back_root (show 7 ≤ 8 by omega) (Nat.le_refl 7)
    (fun i => residue (f i)) p hp
  rw [← layers_eq_ntt _ p hp, hScaled, hBack, ← finv_factor]
  simp only [Nat.sub_self, Butterflies.unlayers]
  ring

/-- The way back from a transform gives `2 ^ 16` times what was transformed. -/
theorem inverse_ntt {f : Nat → Coeff} {g : Nat → ZMod 3329}
    (hf : ∀ p < 256, |(f p).toInt| ≤ 15812) (hg : ∀ p < 256, residue (f p) = ntt g p) :
    ∀ p < 256, residue (nttResult true f p) = 65536 * g p := by
  intro p hp
  have hSame : ∀ i < 2 ^ 8, residue (f i) = 1 * Butterflies.layers root 8 7 g i := by
    intro i hi
    rw [one_mul, hg i hi, layers_eq_ntt g i hi]
  have hFrom := Butterflies.unlayers_smul back (show 7 ≤ 8 by omega) (Nat.le_refl 7)
    hSame p hp
  have hBack := Butterflies.unlayers_layers back_root (show 7 ≤ 8 by omega) (Nat.le_refl 7) g p hp
  rw [(inverse_result hf p hp).2, hFrom, hBack, ← finv_factor]
  simp only [Nat.sub_self, Butterflies.layers]
  ring

end MlKem

end PqcHsm
