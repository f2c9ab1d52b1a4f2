import Mathlib.Tactic.ReduceModChar
import PqcHsm.Library.Negacyclic
import PqcHsm.Rtl.KemCompress
import PqcHsm.Rtl.KemNttComputes

/-!
# What ML-KEM decapsulation decrypts

The base multiplication works on residues modulo `X ^ 2 - c`, pair by pair. With the transform that
the NTT core computes, the accumulated products are the scalar product of the key and the ciphertext
modulo `X ^ 256 + 1`, and the message is the one of FIPS 203.
-/

namespace PqcHsm

namespace MlKem

open Butterflies

/-! ### Pairs of coefficients -/

theorem pairMod_pow (j : Nat) : pairMod j ^ 128 = -1 := by
  have hHalf : (17 : ZMod 3329) ^ 128 = -1 := by reduce_mod_char
  rw [pairMod, ← pow_mul, Nat.mul_comm, pow_mul, hHalf, Odd.neg_one_pow ⟨bitRev7 j, rfl⟩]

theorem ntt_eq_part (f : Nat → ZMod 3329) (p : Nat) :
    ntt f p = Negacyclic.part 128 (pairMod (p / 2)) f (p % 2) := rfl

/-- The transform takes products modulo `X ^ 256 + 1` to products of pairs. -/
theorem ntt_mul (f g : Nat → ZMod 3329) (j : Nat) :
    ntt (Negacyclic.mul 256 f g) (2 * j) =
        ntt f (2 * j) * ntt g (2 * j) +
          pairMod j * (ntt f (2 * j + 1) * ntt g (2 * j + 1)) ∧
      ntt (Negacyclic.mul 256 f g) (2 * j + 1) =
        ntt f (2 * j) * ntt g (2 * j + 1) + ntt f (2 * j + 1) * ntt g (2 * j) := by
  have hParts := Negacyclic.part_mul (pairMod_pow j) f g
  simp only [ntt_eq_part, show 2 * j / 2 = j by omega, show 2 * j % 2 = 0 by omega,
    show (2 * j + 1) / 2 = j by omega, show (2 * j + 1) % 2 = 1 by omega]
  exact hParts

theorem ntt_congr {f g : Nat → ZMod 3329} (h : ∀ i < 256, f i = g i) (p : Nat) :
    ntt f p = ntt g p := by
  unfold ntt
  apply Finset.sum_congr rfl
  intro m hm
  rw [Finset.mem_range] at hm
  rw [h _ (by omega)]

theorem ntt_smul (z : ZMod 3329) (f : Nat → ZMod 3329) (p : Nat) :
    ntt (fun i => z * f i) p = z * ntt f p := by
  unfold ntt
  rw [Finset.mul_sum]
  apply Finset.sum_congr rfl
  intro m _
  ring

theorem ntt_sum (n : Nat) (f : Nat → Nat → ZMod 3329) (p : Nat) :
    ntt (fun i => ∑ t ∈ Finset.range n, f t i) p = ∑ t ∈ Finset.range n, ntt (f t) p := by
  unfold ntt
  rw [Finset.sum_comm]
  apply Finset.sum_congr rfl
  intro m _
  rw [Finset.sum_mul]

/-! ### Base multiplication -/

theorem bz_eq : bz = zetas.drop 64 := rfl

theorem bmzeta_eq {j : Nat} (hj : j < 128) :
    bmzeta j = if j % 2 = 1 then -zeta (64 + j / 2) else zeta (64 + j / 2) := by
  have hEntry : bz.getD (j / 2 % 64) 0 = zetas.getD (64 + j / 2) 0 := by
    rw [bz_eq, List.getD_eq_getElem?_getD, List.getElem?_drop, ← List.getD_eq_getElem?_getD,
      Nat.mod_eq_of_lt (by omega)]
  unfold bmzeta zeta
  rw [hEntry, Nat.mod_eq_of_lt (show 64 + j / 2 < 128 by omega)]

theorem toInt_neg {z : Coeff} (hz : |z.toInt| ≤ 1664) : (-z).toInt = -z.toInt := by
  rw [abs_le] at hz
  rw [BitVec.toInt_neg]
  apply Int.bmod_eq_of_le_mul_two <;> omega

theorem residue_neg {z : Coeff} (hz : |z.toInt| ≤ 1664) :
    |(-z).toInt| ≤ 1664 ∧ residue (-z) = -residue z := by
  constructor
  · rwa [toInt_neg hz, abs_neg]
  · rw [residue, toInt_neg hz, Int.cast_neg, residue]

/-- The table of the base multiplication holds `2 ^ 16` times the moduli. -/
theorem bmzeta_spec {j : Nat} (hj : j < 128) :
    |(bmzeta j).toInt| ≤ 1664 ∧ residue (bmzeta j) * 169 = pairMod j := by
  have hLeaf := leaf_eq j hj
  rw [node, if_neg (by omega), show (2 ^ 7 + j) / 2 = 64 + j / 2 by omega] at hLeaf
  obtain ⟨hSmall, hNeg⟩ := residue_neg (abs_zeta (64 + j / 2))
  rw [bmzeta_eq hj, pairMod, ← hLeaf]
  obtain hEven | hOdd := Nat.mod_two_eq_zero_or_one j
  · rw [if_neg (by omega), if_pos (by omega)]
    exact ⟨abs_zeta _, rfl⟩
  · rw [if_pos hOdd, if_neg (by omega), hNeg, neg_mul]
    exact ⟨hSmall, rfl⟩

theorem smul_comm (x y : Coeff) : smul x y = smul y x := BitVec.mul_comm _ _

/-- A product with one small factor. -/
theorem residue_times {x y : Coeff} (hy : |y.toInt| ≤ 1664) :
    |(montReduce (smul x y)).toInt| ≤ 3328 ∧
      residue (montReduce (smul x y)) = 169 * (residue x * residue y) := by
  rw [smul_comm]
  constructor
  · exact abs_montReduce (abs_product hy)
  · rw [residue_product hy]
    ring

theorem sum_spec {u w : Coeff} {b c : Int} (hu : |u.toInt| ≤ b) (hw : |w.toInt| ≤ c)
    (hFits : b + c ≤ 32767) :
    |(u + w).toInt| ≤ b + c ∧ residue (u + w) = residue u + residue w := by
  have hSum : |u.toInt + w.toInt| ≤ b + c := (abs_add_le _ _).trans (add_le_add hu hw)
  refine ⟨?_, residue_add (hSum.trans hFits)⟩
  rwa [toInt_add (hSum.trans hFits)]

/-- The base multiplication is the product modulo `X ^ 2 - c`, divided by `2 ^ 16`. -/
theorem basemul_spec (a0 a1 : Coeff) {b0 b1 : Coeff} {j : Nat} (hj : j < 128)
    (h0 : |b0.toInt| ≤ 1664) (h1 : |b1.toInt| ≤ 1664) :
    let r := basemulTail a0 a1 b0 b1 (bmzeta j) (basemulHead a1 b1)
    (|r.1.toInt| ≤ 6656 ∧ residue r.1 =
      169 * (residue a0 * residue b0 + pairMod j * (residue a1 * residue b1))) ∧
    |r.2.toInt| ≤ 6656 ∧
      residue r.2 = 169 * (residue a0 * residue b1 + residue a1 * residue b0) := by
  obtain ⟨hZ, hMod⟩ := bmzeta_spec hj
  obtain ⟨-, hHead⟩ := residue_times (x := a1) h1
  obtain ⟨hZetaSmall, hZeta⟩ := residue_times (x := basemulHead a1 b1) hZ
  obtain ⟨h00Small, h00⟩ := residue_times (x := a0) h0
  obtain ⟨h01Small, h01⟩ := residue_times (x := a0) h1
  obtain ⟨h10Small, h10⟩ := residue_times (x := a1) h0
  obtain ⟨hEvenSmall, hEven⟩ := sum_spec hZetaSmall h00Small (by norm_num)
  obtain ⟨hOddSmall, hOdd⟩ := sum_spec h01Small h10Small (by norm_num)
  refine ⟨⟨hEvenSmall, hEven.trans ?_⟩, hOddSmall, hOdd.trans ?_⟩
  · rw [hZeta, h00, ← hMod, show residue (basemulHead a1 b1) = _ from hHead]
    ring
  · rw [h01, h10]
    ring

/-! ### The key -/

theorem leValue_drop (bytes : List (BitVec 8)) (j : Nat) :
    leValue (bytes.drop j) = leValue bytes / 2 ^ (8 * j) := by
  obtain hIn | hOut := Nat.le_total j bytes.length
  · have hSplit := leValue_append (bytes.take j) (bytes.drop j)
    have hLess := leValue_lt (bytes.take j)
    rw [List.take_append_drop, List.length_take, Nat.min_eq_left hIn] at hSplit
    rw [List.length_take, Nat.min_eq_left hIn] at hLess
    rw [hSplit, Nat.add_mul_div_left _ _ (Nat.two_pow_pos _), Nat.div_eq_of_lt hLess, Nat.zero_add]
  · have hLess := (leValue_lt bytes).trans_le
      (Nat.pow_le_pow_right (show 0 < 2 by decide) (Nat.mul_le_mul_left 8 hOut))
    rw [List.drop_eq_nil_of_le hOut, Nat.div_eq_of_lt hLess]
    rfl

theorem leValue_head (bytes : List (BitVec 8)) :
    leValue bytes = (bytes.getD 0 0).toNat + 256 * leValue (bytes.drop 1) := by
  cases bytes <;> rfl

theorem toNat_append_eq {m n : Nat} (x : BitVec m) (y : BitVec n) :
    (x ++ y).toNat = x.toNat * 2 ^ n + y.toNat := by
  rw [BitVec.toNat_append, ← Nat.shiftLeft_add_eq_or_of_lt y.isLt, Nat.shiftLeft_eq]

theorem toNat_tripleAt (dk : List (BitVec 8)) (j : Nat) :
    (tripleAt dk j).toNat = leValue dk / 2 ^ (8 * j) % 2 ^ 24 := by
  have h0 := (dk.getD j 0).isLt
  have h1 := (dk.getD (j + 1) 0).isLt
  have h2 := (dk.getD (j + 2) 0).isLt
  have hValue : leValue dk / 2 ^ (8 * j) = (dk.getD j 0).toNat + 256 * ((dk.getD (j + 1) 0).toNat +
      256 * ((dk.getD (j + 2) 0).toNat + 256 * leValue (dk.drop (j + 3)))) := by
    have hAt : ∀ i, (dk.drop i).getD 0 0 = dk.getD i 0 := by
      intro i
      rw [List.getD_eq_getElem?_getD, List.getElem?_drop, Nat.add_zero,
        ← List.getD_eq_getElem?_getD]
    rw [← leValue_drop, leValue_head, leValue_head (List.drop 1 _), leValue_head (List.drop 1 _)]
    simp only [List.drop_drop, hAt]
  rw [hValue, tripleAt, toNat_append_eq, toNat_append_eq]
  omega

/-- The polynomials of the key are its fields of twelve bits. -/
theorem residue_sHat (dk : List (BitVec 8)) (i : Nat) {p : Nat} (hp : p < 256) :
    residue (sHat dk i (BitVec.ofNat 8 p)) = (leField dk 12 (256 * i + p) : ZMod 3329) := by
  have hPlace : (BitVec.ofNat 8 p).toNat = p := by
    rw [BitVec.toNat_ofNat]
    exact Nat.mod_eq_of_lt hp
  have hTriple := toNat_tripleAt dk (384 * i + 3 * (p / 2))
  have hBits : 12 * (256 * i + p) = 8 * (384 * i + 3 * (p / 2)) + 12 * (p % 2) := by omega
  have hField : (sHat dk i (BitVec.ofNat 8 p)).toNat = leField dk 12 (256 * i + p) := by
    rw [leField, hBits, Nat.pow_add, ← Nat.div_div_eq_div_mul]
    unfold sHat decode12
    simp only [hPlace]
    obtain hEven | hOdd := Nat.mod_two_eq_zero_or_one p
    · rw [if_pos hEven, hEven, BitVec.toNat_setWidth, BitVec.extractLsb'_toNat, hTriple]
      omega
    · rw [if_neg (by omega), hOdd, BitVec.toNat_setWidth, BitVec.extractLsb'_toNat, hTriple,
        Nat.shiftRight_eq_div_pow]
      omega
  have hSmall : leField dk 12 (256 * i + p) < 2 ^ 12 := Nat.mod_lt _ (Nat.two_pow_pos 12)
  rw [residue, BitVec.toInt_eq_toNat_of_lt (by omega), hField, Int.cast_natCast]

/-! ### The transform of the core -/

/-- The memory that a run of `ntt_core` leaves. -/
@[irreducible]
def nttRun (inverse : Bool) (f : Poly) : Poly :=
  ((NttCore.reset f).circuit.after (fun n => ⟨n = 0, inverse, false, 0, 0, 0⟩) 3458).mem

theorem nttRun_eq (inverse : Bool) (f : Poly) {p : Nat} (hp : p < 256) :
    nttRun inverse f (BitVec.ofNat 8 p) =
      nttResult inverse (fun i => f (BitVec.ofNat 8 i)) p := by
  let ins : Nat → NttIn := fun n => ⟨n = 0, inverse, false, 0, 0, 0⟩
  have hStart : (ins 0).start = true := rfl
  unfold nttRun
  exact (NttCore.over_at (s := NttCore.reset f) rfl hStart).cells p hp

/-! ### The message -/

section Decryption

variable (E : Cores) (k : Nat) (d11 : Bool) (dk c : List (BitVec 8))

/-- Coefficient `a` of polynomial `i` of the ciphertext's first part. -/
def uSpec (i a : Nat) : ZMod 3329 :=
  (decompressFrom (du d11) (leField (c.take (c1len k d11)) (du d11) (256 * i + a)) : Int)

/-- Coefficient `a` of the ciphertext's second part. -/
def vSpec (a : Nat) : ZMod 3329 :=
  (decompressFrom (dv d11) (leField (c.drop (c1len k d11)) (dv d11) a) : Int)

/-- The cores with the transform of `ntt_core`. -/
def withNtt : Cores := { E with ntt := nttRun }

theorem decompress_field {d : Nat} (hd : 1 ≤ d) (hd' : d ≤ 11) (bytes : List (BitVec 8))
    (i : Nat) :
    0 ≤ (decompress d (leField bytes d i)).toInt ∧ (decompress d (leField bytes d i)).toInt ≤ 3328 ∧
      residue (decompress d (leField bytes d i)) = (decompressFrom d (leField bytes d i) : Int) := by
  have hLess : leField bytes d i < 2 ^ d := Nat.mod_lt _ (Nat.two_pow_pos d)
  obtain ⟨hEq, hSmall⟩ := toInt_decompress hd hd' hLess
  refine ⟨?_, by omega, ?_⟩
  · rw [hEq]
    exact Int.natCast_nonneg _
  · rw [residue, hEq, decompressFrom_eq]

theorem place_toNat {p : Nat} (hp : p < 256) : (BitVec.ofNat 8 p).toNat = p := by
  rw [BitVec.toNat_ofNat]
  exact Nat.mod_eq_of_lt hp

theorem uPoly_spec (i : Nat) {a : Nat} (ha : a < 256) :
    |(uPoly k d11 c i (BitVec.ofNat 8 a)).toInt| ≤ 3328 ∧
      residue (uPoly k d11 c i (BitVec.ofNat 8 a)) = uSpec k d11 c i a := by
  have hWidth : 1 ≤ du d11 ∧ du d11 ≤ 11 := by cases d11 <;> decide
  obtain ⟨hLow, hHigh, hResidue⟩ := decompress_field hWidth.1 hWidth.2 (c.take (c1len k d11))
    (256 * i + a)
  rw [uPoly, place_toNat ha]
  exact ⟨abs_le.mpr ⟨by omega, hHigh⟩, hResidue⟩

theorem vPoly_spec {a : Nat} (ha : a < 256) :
    |(vPoly k d11 c (BitVec.ofNat 8 a)).toInt| ≤ 3328 ∧
      residue (vPoly k d11 c (BitVec.ofNat 8 a)) = vSpec k d11 c a := by
  have hWidth : 1 ≤ dv d11 ∧ dv d11 ≤ 11 := by cases d11 <;> decide
  obtain ⟨hLow, hHigh, hResidue⟩ := decompress_field hWidth.1 hWidth.2 (c.drop (c1len k d11)) a
  rw [vPoly, place_toNat ha]
  exact ⟨abs_le.mpr ⟨by omega, hHigh⟩, hResidue⟩

/-- The transformed ciphertext. -/
theorem uHat_spec (i : Nat) {p : Nat} (hp : p < 256) :
    |(nttRun false (uPoly k d11 c i) (BitVec.ofNat 8 p)).toInt| ≤ 1664 ∧
      residue (nttRun false (uPoly k d11 c i) (BitVec.ofNat 8 p)) = ntt (uSpec k d11 c i) p := by
  have hSmall : ∀ a < 256, |(uPoly k d11 c i (BitVec.ofNat 8 a)).toInt| ≤ 9471 :=
    fun a ha => (uPoly_spec k d11 c i ha).1.trans (by norm_num)
  obtain ⟨hBound, hResidue⟩ := forward_result hSmall p hp
  rw [nttRun_eq false _ hp]
  exact ⟨hBound, hResidue.trans (ntt_congr (fun a ha => (uPoly_spec k d11 c i ha).2) p)⟩

variable {dk} {s : Nat → Nat → ZMod 3329}

/-- One product is added to the accumulator. -/
theorem mac_spec {a b acc : Poly} {x y z : Nat → ZMod 3329}
    (ha : ∀ p < 256, residue (a (BitVec.ofNat 8 p)) = ntt x p)
    (hb : ∀ p < 256, |(b (BitVec.ofNat 8 p)).toInt| ≤ 1664 ∧
      residue (b (BitVec.ofNat 8 p)) = ntt y p)
    (hAcc : ∀ p < 256, |(acc (BitVec.ofNat 8 p)).toInt| ≤ 1664 ∧
      residue (acc (BitVec.ofNat 8 p)) = z p) :
    ∀ p < 256, |(mac a b acc (BitVec.ofNat 8 p)).toInt| ≤ 1664 ∧
      residue (mac a b acc (BitVec.ofNat 8 p)) =
        z p + 169 * ntt (Negacyclic.mul 256 x y) p := by
  intro p hp
  have hj : p / 2 < 128 := by omega
  obtain ⟨hMulEven, hMulOdd⟩ := ntt_mul x y (p / 2)
  obtain ⟨hEven, hOdd⟩ := basemul_spec (a (BitVec.ofNat 8 (2 * (p / 2))))
    (a (BitVec.ofNat 8 (2 * (p / 2) + 1))) hj (hb (2 * (p / 2)) (by omega)).1
    (hb (2 * (p / 2) + 1) (by omega)).1
  rw [ha _ (by omega), ha _ (by omega), (hb _ (by omega)).2, (hb _ (by omega)).2] at hEven hOdd
  rw [← hMulEven] at hEven
  rw [← hMulOdd] at hOdd
  have hSum : ∀ {u w : Coeff}, |u.toInt| ≤ 1664 → |w.toInt| ≤ 6656 →
      |(barrettReduce (u + w)).toInt| ≤ 1664 ∧
        residue (barrettReduce (u + w)) = residue u + residue w := by
    intro u w hu hw
    obtain ⟨-, hResidue⟩ := sum_spec hu hw (by norm_num)
    exact ⟨abs_barrettReduce _, (residue_barrettReduce _).trans hResidue⟩
  unfold mac macPair
  simp only [place_toNat hp]
  obtain hPar | hPar := Nat.mod_two_eq_zero_or_one p
  · rw [if_pos hPar]
    have hAt : 2 * (p / 2) = p := by omega
    rw [hAt] at hEven
    obtain ⟨hSmall, hResidue⟩ := hAcc p hp
    simp only [hAt]
    obtain ⟨hBound, hAll⟩ := hSum hSmall hEven.1
    exact ⟨hBound, by rw [hAll, hEven.2, hResidue]⟩
  · rw [if_neg (by omega)]
    have hAt : 2 * (p / 2) + 1 = p := by omega
    rw [hAt] at hOdd
    obtain ⟨hSmall, hResidue⟩ := hAcc p hp
    simp only [hAt]
    obtain ⟨hBound, hAll⟩ := hSum hSmall hOdd.1
    exact ⟨hBound, by rw [hAll, hOdd.2, hResidue]⟩

/-- The scalar product of `s` and the ciphertext, coefficient `a`. -/
def innerSpec (s : Nat → Nat → ZMod 3329) (a : Nat) : ZMod 3329 :=
  ∑ t ∈ Finset.range k, Negacyclic.mul 256 (s t) (uSpec k d11 c t) a

theorem acc_spec
    (hs : ∀ i < k, ∀ p < 256, ntt (s i) p = (leField dk 12 (256 * i + p) : ZMod 3329)) {i : Nat}
    (hi : i ≤ k) :
    ∀ p < 256, |(accAfter (withNtt E) k d11 dk c i (BitVec.ofNat 8 p)).toInt| ≤ 1664 ∧
      residue (accAfter (withNtt E) k d11 dk c i (BitVec.ofNat 8 p)) =
        169 * ∑ t ∈ Finset.range i, ntt (Negacyclic.mul 256 (s t) (uSpec k d11 c t)) p := by
  induction i with
  | zero =>
    intro p _
    rw [Finset.range_zero, Finset.sum_empty, mul_zero]
    constructor
    · show |(0 : Coeff).toInt| ≤ 1664
      decide
    · rfl
  | succ i ih =>
    intro p hp
    have hKey : ∀ q < 256, residue (sHat dk i (BitVec.ofNat 8 q)) = ntt (s i) q := by
      intro q hq
      rw [residue_sHat dk i hq, hs i (by omega) q hq]
    rw [Finset.sum_range_succ, mul_add]
    exact mac_spec hKey (fun q hq => uHat_spec k d11 c i hq) (ih (by omega)) p hp

/-- What the inverse run leaves is the scalar product. -/
theorem inner_spec
    (hs : ∀ i < k, ∀ p < 256, ntt (s i) p = (leField dk 12 (256 * i + p) : ZMod 3329)) :
    ∀ p < 256,
      |(nttRun true (accAfter (withNtt E) k d11 dk c k) (BitVec.ofNat 8 p)).toInt| ≤ 3328 ∧
        residue (nttRun true (accAfter (withNtt E) k d11 dk c k) (BitVec.ofNat 8 p)) =
          innerSpec k d11 c s p := by
  intro p hp
  have hAcc := acc_spec E k d11 c hs (Nat.le_refl k)
  have hSmall : ∀ a < 256,
      |(accAfter (withNtt E) k d11 dk c k (BitVec.ofNat 8 a)).toInt| ≤ 15812 :=
    fun a ha => (hAcc a ha).1.trans (by norm_num)
  have hFrom : ∀ a < 256, residue (accAfter (withNtt E) k d11 dk c k (BitVec.ofNat 8 a)) =
      ntt (fun b => 169 * innerSpec k d11 c s b) a := by
    intro a ha
    rw [(hAcc a ha).2, ntt_smul]
    unfold innerSpec
    rw [ntt_sum]
  rw [nttRun_eq true _ hp]
  refine ⟨(inverse_result hSmall p hp).1, ?_⟩
  rw [inverse_ntt hSmall hFrom p hp, ← mul_assoc, show (65536 * 169 : ZMod 3329) = 1 from rfl,
    one_mul]

theorem compress1_spec {x : Coeff} (hx : |x.toInt| < 3329) :
    compress1 x = decide (compressTo 1 (residue x) = 1) := by
  have hStandard := compress_eq (show 1 ≤ 11 by decide) hx
  rw [compress1_eq, compressTo_eq, ← hStandard]
  have hLess := (compress 1 x).isLt
  rw [BitVec.getLsbD, Nat.testBit_zero]
  congr 1
  rw [eq_iff_iff]
  omega

/-- What a decapsulation compresses to the message. -/
theorem difference_spec
    (hs : ∀ i < k, ∀ p < 256, ntt (s i) p = (leField dk 12 (256 * i + p) : ZMod 3329)) {p : Nat}
    (hp : p < 256) :
    let w := barrettReduce (vPoly k d11 c (BitVec.ofNat 8 p) -
      (withNtt E).ntt true (accAfter (withNtt E) k d11 dk c k) (BitVec.ofNat 8 p))
    |w.toInt| < 3329 ∧ residue w = vSpec k d11 c p - innerSpec k d11 c s p := by
  obtain ⟨hInnerSmall, hInner⟩ := inner_spec E k d11 c hs p hp
  obtain ⟨hSmall, hV⟩ := vPoly_spec k d11 c hp
  have hDiff : |(vPoly k d11 c (BitVec.ofNat 8 p)).toInt -
      (nttRun true (accAfter (withNtt E) k d11 dk c k) (BitVec.ofNat 8 p)).toInt| ≤ 32767 :=
    (abs_sub _ _).trans (by omega)
  refine ⟨lt_of_le_of_lt (abs_barrettReduce _) (by norm_num), ?_⟩
  rw [residue_barrettReduce, show (withNtt E).ntt = nttRun from rfl, residue_sub hDiff, hV, hInner]

/-- A bit survives an error below a quarter of the modulus. -/
theorem compressTo_bit (b : Bool) {e : Int} (he : |e| ≤ 831) :
    decide (compressTo 1 ((decompressFrom 1 b.toNat : Int) + (e : ZMod 3329)) = 1) = b := by
  have hBit : decompressFrom 1 b.toNat = 1665 * b.toNat := by
    rw [decompressFrom_eq]
    cases b <;> rfl
  have hVal : (((1665 * b.toNat + e : Int) : ZMod 3329).val : Int) =
      (1665 * b.toNat + e) % 3329 := ZMod.val_intCast _
  rw [abs_le] at he
  rw [hBit, ← Int.cast_add, compressTo_eq]
  generalize ((1665 * b.toNat + e : Int) : ZMod 3329).val = x at hVal ⊢
  unfold Quantize.coarse Quantize.nearest
  cases b
  · rw [decide_eq_false_iff_not]
    simp only [Bool.toNat_false] at hVal
    omega
  · rw [decide_eq_true_eq]
    simp only [Bool.toNat_true] at hVal
    omega

end Decryption

end MlKem

open MlKem in
/-- Where the key holds the transforms of `s`, the message that a decapsulation with the NTT core
recovers is the one of K-PKE.Decrypt: the second part of the ciphertext less the scalar product of
`s` and the first, modulo `X ^ 256 + 1`, compressed to one bit for each coefficient. -/
theorem decapsulation_decrypts (E : Cores) (k : Nat) (d11 : Bool) (dk c : List (BitVec 8))
    (s : Nat → Nat → ZMod 3329)
    (hs : ∀ i < k, ∀ p < 256, ntt (s i) p = (leField dk 12 (256 * i + p) : ZMod 3329)) :
    ∀ p < 256, message (withNtt E) k d11 dk c (BitVec.ofNat 8 p) =
      decide (compressTo 1 (vSpec k d11 c p - innerSpec k d11 c s p) = 1) := by
  intro p hp
  obtain ⟨hSmall, hResidue⟩ := difference_spec E k d11 c hs hp
  rw [message, compress1_spec hSmall, hResidue]

/-- A key of zeros. -/
theorem decapsulation_decrypts_zero :
    let c : List (BitVec 8) := List.replicate 768 0xa5
    let E : MlKem.Cores := ⟨fun _ _ _ => 0, fun _ f => f, fun _ _ _ _ => 0⟩
    MlKem.message (MlKem.withNtt E) 2 false [] c (BitVec.ofNat 8 7) =
      decide (MlKem.compressTo 1 (MlKem.vSpec 2 false c 7 -
        MlKem.innerSpec 2 false c (fun _ _ => 0) 7) = 1) := by
  intro c E
  apply decapsulation_decrypts E 2 false [] c (fun _ _ => 0) _ 7 (by decide)
  intro i _ p _
  have hField : leField [] 12 (256 * i + p) = 0 := by
    rw [leField, show leValue [] = 0 from rfl, Nat.zero_div, Nat.zero_mod]
  rw [hField, Nat.cast_zero, MlKem.ntt]
  apply Finset.sum_eq_zero
  intro m _
  rw [zero_mul]

end PqcHsm
