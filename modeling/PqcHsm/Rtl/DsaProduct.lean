import PqcHsm.Library.Negacyclic
import PqcHsm.Rtl.DsaNttComputes

/-!
# The public key of ML-DSA

A row of the matrix times the secret: products in the domain of the transform, their sum reduced and
brought back, the second secret added, and the sum split by `Power2Round`. With the runs of the NTT
core the result is that of FIPS 204, modulo `X ^ 256 + 1`.
-/

namespace PqcHsm

namespace MlDsa

/-- `mldsa_reduce32` -/
def reduce32 (a : Coeff) : Coeff := a - (a + 4194304).sshiftRight 23 * 8380417

/-- `mldsa_caddq` -/
def caddq (a : Coeff) : Coeff := if a.msb then a + 8380417 else a

/-- `mldsa_power2round` -/
def power2round (a : Coeff) : Coeff × BitVec 10 :=
  let t : BitVec 24 := (a.setWidth 24 + 4095) >>> 13
  let a1 : BitVec 10 := t.setWidth 10
  (a - a1.setWidth 32 <<< 13, a1)

/-- The memory that a run of `mldsa_ntt_core` leaves. -/
@[irreducible]
def nttRun (inverse : Bool) (f : Poly) : Poly :=
  let s := (DsaNtt.circuit f fun _ => 0).after (fun n => ⟨n = 0, inverse, false, 0, 0, 0⟩)
    (DsaNtt.nttCycles inverse)
  s.bank s.sel

/-- The accumulator after the products of the row as far as `j`: the first one is stored, the others
are added. -/
def macRow (aHat : Nat → BitVec 8 → BitVec 23) (sHat : Nat → Poly) : Nat → Poly
  | 0 => fun n => montReduce (smul ((aHat 0 n).setWidth 32) (sHat 0 n))
  | j + 1 => fun n =>
    macRow aHat sHat j n + montReduce (smul ((aHat (j + 1) n).setWidth 32) (sHat (j + 1) n))

/-- A row of `t`, `last` being the index of its last product. -/
def keygenRow (aHat : Nat → BitVec 8 → BitVec 23) (s1 : Nat → Poly) (s2 : Poly) (last : Nat) :
    Poly := fun n =>
  nttRun true (fun m => reduce32 (macRow aHat (fun j => nttRun false (s1 j)) last m)) n + s2 n

/-- What is packed into the secret and into the public key. -/
def keygenPack (aHat : Nat → BitVec 8 → BitVec 23) (s1 : Nat → Poly) (s2 : Poly) (last : Nat)
    (n : BitVec 8) : Coeff × BitVec 10 :=
  power2round (caddq (keygenRow aHat s1 s2 last n))

/-! ### Reductions -/

theorem toInt_reduce32 {a : Coeff} (ha : |a.toInt| ≤ 2143289343) :
    (reduce32 a).toInt = a.toInt - (a.toInt + 4194304) / 8388608 * 8380417 := by
  rw [abs_le] at ha
  have hSum : (a + 4194304).toInt = a.toInt + 4194304 := by
    rw [BitVec.toInt_add, show (4194304 : BitVec 32).toInt = 4194304 from rfl]
    apply Int.bmod_eq_of_le_mul_two <;> omega
  have hQuot : ((a + 4194304).sshiftRight 23).toInt = (a.toInt + 4194304) / 8388608 := by
    rw [BitVec.toInt_sshiftRight, hSum, Int.shiftRight_eq_div_pow]
    rfl
  have hProd : ((a + 4194304).sshiftRight 23 * 8380417).toInt =
      (a.toInt + 4194304) / 8388608 * 8380417 := by
    rw [BitVec.toInt_mul, hQuot, show (8380417 : BitVec 32).toInt = 8380417 from rfl]
    apply Int.bmod_eq_of_le_mul_two <;> omega
  rw [reduce32, BitVec.toInt_sub, hProd]
  apply Int.bmod_eq_of_le_mul_two <;> omega

theorem abs_reduce32 {a : Coeff} (ha : |a.toInt| ≤ 2143289343) :
    |(reduce32 a).toInt| ≤ 6283009 := by
  rw [toInt_reduce32 ha]
  rw [abs_le] at ha ⊢
  omega

theorem modulus_zero : (8380417 : ZMod 8380417) = 0 := ZMod.natCast_self 8380417

theorem residue_reduce32 {a : Coeff} (ha : |a.toInt| ≤ 2143289343) :
    residue (reduce32 a) = residue a := by
  unfold residue
  rw [toInt_reduce32 ha]
  push_cast
  rw [modulus_zero, mul_zero, sub_zero]

/-- A coefficient within the modulus of 0 is moved to its residue. -/
theorem toInt_caddq {a : Coeff} (ha : |a.toInt| < 8380417) :
    (caddq a).toInt = (residue a).val := by
  have hVal : ((residue a).val : Int) = a.toInt % 8380417 := ZMod.val_intCast a.toInt
  rw [abs_lt] at ha
  unfold caddq
  split
  · rename_i hNeg
    have hLow : a.toInt < 0 := by
      rw [BitVec.msb_eq_toInt] at hNeg
      exact of_decide_eq_true hNeg
    rw [BitVec.toInt_add, show (8380417 : BitVec 32).toInt = 8380417 from rfl, hVal,
      Int.bmod_eq_of_le_mul_two (by omega) (by omega)]
    omega
  · rename_i hPos
    have hHigh : 0 ≤ a.toInt := by
      by_contra hNeg
      exact hPos (BitVec.msb_eq_toInt.trans (decide_eq_true (not_le.mp hNeg)))
    rw [hVal]
    omega

/-- The split of FIPS 204 of a number below the modulus. -/
theorem power2round_spec {a : Coeff} (hLow : 0 ≤ a.toInt) (hHigh : a.toInt < 8380417) :
    a.toInt = (power2round a).2.toNat * 8192 + (power2round a).1.toInt ∧
      -4096 < (power2round a).1.toInt ∧ (power2round a).1.toInt ≤ 4096 := by
  have hNat : (a.toNat : Int) = a.toInt := by
    have hBits := BitVec.toInt_eq_toNat_cond a
    have hLt := a.isLt
    split at hBits <;> omega
  have hTop : (power2round a).2.toNat = (a.toNat + 4095) / 8192 := by
    show ((((a.setWidth 24 + 4095 : BitVec 24) >>> 13)).setWidth 10).toNat = _
    rw [BitVec.toNat_setWidth, BitVec.toNat_ushiftRight, BitVec.toNat_add, BitVec.toNat_setWidth,
      show (4095 : BitVec 24).toNat = 4095 from rfl, Nat.shiftRight_eq_div_pow]
    omega
  have hWide : (((power2round a).2.setWidth 32 : BitVec 32) <<< 13).toInt =
      (power2round a).2.toNat * 8192 := by
    have hLt := (power2round a).2.isLt
    rw [BitVec.toInt_eq_toNat_of_lt]
    · rw [BitVec.toNat_shiftLeft, BitVec.toNat_setWidth, Nat.shiftLeft_eq]
      omega
    · rw [BitVec.toNat_shiftLeft, BitVec.toNat_setWidth, Nat.shiftLeft_eq]
      omega
  have hRest : (power2round a).1.toInt = a.toInt - (power2round a).2.toNat * 8192 := by
    show (a - (power2round a).2.setWidth 32 <<< 13).toInt = _
    rw [BitVec.toInt_sub, hWide]
    apply Int.bmod_eq_of_le_mul_two <;> omega
  omega

/-! ### The transform of the core -/

theorem nttRun_eq (inverse : Bool) (f : Poly) {p : Nat} (hp : p < 256) :
    nttRun inverse f (BitVec.ofNat 8 p) =
      nttResult inverse (fun i => f (BitVec.ofNat 8 i)) p := by
  let ins : Nat → DsaNttIn := fun n => ⟨n = 0, inverse, false, 0, 0, 0⟩
  have hStart : (ins 0).start = true := rfl
  have hOver := @DsaNtt.over_at f (fun _ => 0) ins 0 rfl hStart
  unfold nttRun
  have hCells := hOver.cells p hp
  rw [Nat.zero_add] at hCells
  exact hCells

/-- The way back ends well within the modulus. -/
theorem abs_nttResult_inverse (f : Nat → Coeff) (p : Nat) :
    |(nttResult true f p).toInt| ≤ 4211197 := by
  rw [nttResult_inverse]
  have hEq := toInt_montReduce (abs_product (b := nttLayers true f 8 p) finv_small)
  obtain ⟨quot, hQuot⟩ := montFactor_sub_dvd (smul FINV (nttLayers true f 8 p))
  have hFactor := toInt_bounds (montFactor (smul FINV (nttLayers true f 8 p)))
  have hInt := toInt_bounds (nttLayers true f 8 p)
  rw [hQuot, Int.mul_ediv_cancel_left _ (by norm_num)] at hEq
  rw [toInt_smul, show FINV.toInt = 41978 from rfl] at hQuot
  rw [hEq, abs_le]
  constructor <;> linarith

/-! ### A row -/

theorem residue_times {x y : Coeff} (h : 2 * |x.toInt * y.toInt| < 8380417 * 4294967296) :
    |(montReduce (smul x y)).toInt| ≤ 8380416 ∧
      residue (montReduce (smul x y)) = 8265825 * (residue x * residue y) := by
  rw [← toInt_smul] at h
  refine ⟨abs_montReduce h, ?_⟩
  have hMont := residue_montReduce h
  rw [toInt_smul, Int.cast_mul] at hMont
  calc residue (montReduce (smul x y))
      = residue (montReduce (smul x y)) * 4294967296 * 8265825 := by
        rw [mul_assoc, radix_mul, mul_one]
    _ = 8265825 * (residue x * residue y) := by
        rw [hMont]
        unfold residue
        ring

section Row

variable {aHat : Nat → BitVec 8 → BitVec 23} {sHat : Nat → Poly} {n : BitVec 8}

theorem toInt_entry (x : BitVec 23) : (x.setWidth 32).toInt = (x.toNat : Int) := by
  have hLt := x.isLt
  rw [BitVec.toInt_eq_toNat_of_lt, BitVec.toNat_setWidth]
  · omega
  · rw [BitVec.toNat_setWidth]
    omega

theorem macRow_spec {last : Nat} (hLast : last ≤ 6)
    (hs : ∀ j ≤ last, |(sHat j n).toInt| ≤ 67043332) :
    |(macRow aHat sHat last n).toInt| ≤ (last + 1) * 8380416 ∧
      residue (macRow aHat sHat last n) =
        8265825 * ∑ j ∈ Finset.range (last + 1), (aHat j n).toNat * residue (sHat j n) := by
  have hTerm : ∀ j ≤ last,
      |(montReduce (smul ((aHat j n).setWidth 32) (sHat j n))).toInt| ≤ 8380416 ∧
        residue (montReduce (smul ((aHat j n).setWidth 32) (sHat j n))) =
          8265825 * ((aHat j n).toNat * residue (sHat j n)) := by
    intro j hj
    have hProd : |((aHat j n).setWidth 32).toInt * (sHat j n).toInt| ≤ 8388607 * 67043332 := by
      have hLt := (aHat j n).isLt
      rw [abs_mul, toInt_entry]
      apply mul_le_mul _ (hs j hj) (abs_nonneg _) (by norm_num)
      rw [Nat.abs_cast]
      omega
    have hTimes := residue_times (show 2 * |((aHat j n).setWidth 32).toInt * (sHat j n).toInt| <
      8380417 * 4294967296 by omega)
    rwa [show residue ((aHat j n).setWidth 32) = ((aHat j n).toNat : ZMod 8380417) by
      rw [residue, toInt_entry, Int.cast_natCast]] at hTimes
  clear hs
  induction last with
  | zero =>
    rw [Nat.zero_add, Finset.sum_range_one]
    exact hTerm 0 (Nat.le_refl 0)
  | succ last ih =>
    obtain ⟨hBefore, hResidue⟩ := ih (by omega) (fun j hj => hTerm j (by omega))
    obtain ⟨hSmall, hProd⟩ := hTerm (last + 1) (Nat.le_refl _)
    have hSum : |(macRow aHat sHat last n).toInt + (montReduce (smul
        ((aHat (last + 1) n).setWidth 32) (sHat (last + 1) n))).toInt| ≤
        ((last + 1 : Nat) + 1) * 8380416 :=
      (abs_add_le _ _).trans (by push_cast; linarith)
    have hFits : ((last + 1 : Nat) + 1) * 8380416 ≤ (2147483647 : Int) := by
      push_cast
      omega
    constructor
    · rw [macRow, toInt_add (hSum.trans hFits)]
      exact hSum
    · rw [macRow, residue_add (hSum.trans hFits), hResidue, hProd, ← mul_add,
        ← Finset.sum_range_succ]

end Row

/-! ### The row modulo `X ^ 256 + 1` -/

theorem leaf_pow (b : Nat) : (1753 ^ (2 * b + 1) : ZMod 8380417) ^ 256 = -1 := by
  rw [← pow_mul, Nat.mul_comm, pow_mul, generator_pow, Odd.neg_one_pow ⟨b, rfl⟩]

theorem ntt_eq_eval (f : Nat → ZMod 8380417) (p : Nat) :
    ntt f p = Negacyclic.eval 256 (1753 ^ (2 * bitRev8 p + 1) : ZMod 8380417) f := rfl

/-- The transform takes products modulo `X ^ 256 + 1` to products of entries. -/
theorem ntt_mul (f g : Nat → ZMod 8380417) (p : Nat) :
    ntt (Negacyclic.mul 256 f g) p = ntt f p * ntt g p :=
  Negacyclic.eval_mul (leaf_pow (bitRev8 p)) f g

section Standard

variable {aHat : Nat → BitVec 8 → BitVec 23} {s1 : Nat → Poly} {s2 : Poly} {last : Nat}
  {A : Nat → Nat → ZMod 8380417}

/-- The residues of a polynomial in the memory. -/
def residues (f : Poly) (i : Nat) : ZMod 8380417 := residue (f (BitVec.ofNat 8 i))

/-- A row of the matrix times the first secret. -/
def rowSpec (A : Nat → Nat → ZMod 8380417) (s1 : Nat → Poly) (last i : Nat) : ZMod 8380417 :=
  ∑ j ∈ Finset.range (last + 1), Negacyclic.mul 256 (A j) (residues (s1 j)) i

theorem ntt_rowSpec (A : Nat → Nat → ZMod 8380417) (s1 : Nat → Poly) (last p : Nat)
    (z : ZMod 8380417) :
    ntt (fun i => z * rowSpec A s1 last i) p =
      z * ∑ j ∈ Finset.range (last + 1), ntt (A j) p * ntt (residues (s1 j)) p := by
  rw [ntt_eq_eval, Negacyclic.eval_smul]
  unfold rowSpec
  rw [Negacyclic.eval_sum]
  refine congrArg (z * ·) (Finset.sum_congr rfl ?_)
  intro j _
  rw [← ntt_mul, ntt_eq_eval]

theorem sHat_spec (hs : ∀ j ≤ last, ∀ p < 256, |(s1 j (BitVec.ofNat 8 p)).toInt| ≤ 4) {j : Nat}
    (hj : j ≤ last) {p : Nat} (hp : p < 256) :
    |(nttRun false (s1 j) (BitVec.ofNat 8 p)).toInt| ≤ 67043332 ∧
      residue (nttRun false (s1 j) (BitVec.ofNat 8 p)) = ntt (residues (s1 j)) p := by
  rw [nttRun_eq false _ hp]
  exact forward_result (show (4 : Int) + 8 * 8380416 ≤ 2147483647 by norm_num) (hs j hj) p hp

/-- What the way back of a row leaves. -/
theorem row_back (hLast : last ≤ 6)
    (hA : ∀ j ≤ last, ∀ p < 256, ((aHat j (BitVec.ofNat 8 p)).toNat : ZMod 8380417) = ntt (A j) p)
    (hs : ∀ j ≤ last, ∀ p < 256, |(s1 j (BitVec.ofNat 8 p)).toInt| ≤ 4) {p : Nat} (hp : p < 256) :
    let t := nttRun true (fun m => reduce32 (macRow aHat (fun j => nttRun false (s1 j)) last m))
    |(t (BitVec.ofNat 8 p)).toInt| ≤ 4211197 ∧
      residue (t (BitVec.ofNat 8 p)) = rowSpec A s1 last p := by
  have hMac : ∀ q < 256,
      |(reduce32 (macRow aHat (fun j => nttRun false (s1 j)) last (BitVec.ofNat 8 q))).toInt| ≤
          8388607 ∧
        residue (reduce32 (macRow aHat (fun j => nttRun false (s1 j)) last (BitVec.ofNat 8 q))) =
          ntt (fun i => 8265825 * rowSpec A s1 last i) q := by
    intro q hq
    obtain ⟨hSmall, hResidue⟩ := @macRow_spec aHat (fun j => nttRun false (s1 j))
      (BitVec.ofNat 8 q) last hLast fun j hj => (sHat_spec hs hj hq).1
    have hFits : |(macRow aHat (fun j => nttRun false (s1 j)) last
        (BitVec.ofNat 8 q)).toInt| ≤ 2143289343 := by omega
    refine ⟨(abs_reduce32 hFits).trans (by norm_num), ?_⟩
    rw [residue_reduce32 hFits, hResidue, ntt_rowSpec]
    refine congrArg (8265825 * ·) (Finset.sum_congr rfl ?_)
    intro j hj
    rw [Finset.mem_range] at hj
    rw [hA j (by omega) q hq, (sHat_spec hs (show j ≤ last by omega) hq).2]
  intro t
  rw [show t (BitVec.ofNat 8 p) = _ from nttRun_eq true _ hp]
  refine ⟨abs_nttResult_inverse _ p, ?_⟩
  rw [inverse_ntt (fun q hq => (hMac q hq).1) (fun q hq => (hMac q hq).2) p hp, ← mul_assoc,
    radix_mul, one_mul]

end Standard

end MlDsa

open MlDsa in
/-- Where the matrix is given by its transforms and the secrets are small, what key generation packs
is `Power2Round` of the row of the matrix times the first secret plus the second one, modulo
`X ^ 256 + 1`. -/
theorem public_key_standard (aHat : Nat → BitVec 8 → BitVec 23) (s1 : Nat → Poly) (s2 : Poly)
    (last : Nat) (hLast : last ≤ 6) (A : Nat → Nat → ZMod 8380417)
    (hA : ∀ j ≤ last, ∀ p < 256, ((aHat j (BitVec.ofNat 8 p)).toNat : ZMod 8380417) = ntt (A j) p)
    (h1 : ∀ j ≤ last, ∀ p < 256, |(s1 j (BitVec.ofNat 8 p)).toInt| ≤ 4)
    (h2 : ∀ p < 256, |(s2 (BitVec.ofNat 8 p)).toInt| ≤ 4) :
    ∀ p < 256,
      let r := keygenPack aHat s1 s2 last (BitVec.ofNat 8 p)
      ((rowSpec A s1 last p + residues s2 p).val : Int) = r.2.toNat * 8192 + r.1.toInt ∧
        -4096 < r.1.toInt ∧ r.1.toInt ≤ 4096 := by
  intro p hp
  obtain ⟨hSmall, hRow⟩ := row_back hLast hA h1 hp
  have hSum : |(nttRun true (fun m => reduce32 (macRow aHat (fun j => nttRun false (s1 j)) last m))
      (BitVec.ofNat 8 p)).toInt + (s2 (BitVec.ofNat 8 p)).toInt| ≤ 4211201 :=
    (abs_add_le _ _).trans (by linarith [h2 p hp])
  have hFits := hSum.trans (show (4211201 : Int) ≤ 2147483647 by norm_num)
  have hLess : |(keygenRow aHat s1 s2 last (BitVec.ofNat 8 p)).toInt| < 8380417 := by
    rw [keygenRow, toInt_add hFits]
    exact lt_of_le_of_lt hSum (by norm_num)
  have hResidue : residue (keygenRow aHat s1 s2 last (BitVec.ofNat 8 p)) =
      rowSpec A s1 last p + residues s2 p := by
    rw [keygenRow, residue_add hFits, hRow, residues]
  have hPlace := toInt_caddq hLess
  rw [hResidue] at hPlace
  have hVal := ZMod.val_lt (rowSpec A s1 last p + residues s2 p)
  intro r
  rw [← hPlace]
  exact power2round_spec (by omega) (by omega)

/-- A matrix and a first secret of zeros. -/
theorem public_key_standard_zero :
    let r := MlDsa.keygenPack (fun _ _ => 0) (fun _ _ => 0) (fun _ => -3) 3 (BitVec.ofNat 8 7)
    (8380414 : Int) = r.2.toNat * 8192 + r.1.toInt ∧ -4096 < r.1.toInt ∧ r.1.toInt ≤ 4096 := by
  intro r
  have hZero : ∀ p < 256, ((0 : BitVec 23).toNat : ZMod 8380417) = MlDsa.ntt (fun _ => 0) p := by
    intro p _
    show ((0 : Nat) : ZMod 8380417) = _
    rw [Nat.cast_zero, MlDsa.ntt]
    exact (Finset.sum_eq_zero fun m _ => zero_mul _).symm
  have hPack := public_key_standard (fun _ _ => 0) (fun _ _ => 0) (fun _ => -3) 3 (by decide)
    (fun _ _ => 0) (fun _ _ => hZero) (fun _ _ _ _ => by decide) (fun _ _ => by decide) 7
    (by decide)
  have hRow : MlDsa.rowSpec (fun _ _ => 0) (fun _ _ => 0) 3 7 = 0 :=
    Finset.sum_eq_zero fun j _ => Negacyclic.mul_of_zero _ 7
  have hVal : (MlDsa.residues (fun _ => -3) 7).val = 8380414 := rfl
  rw [hRow, zero_add, hVal] at hPack
  exact hPack

end PqcHsm
