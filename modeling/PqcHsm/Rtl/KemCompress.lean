import PqcHsm.Library.Quantize
import PqcHsm.Rtl.KemNttValues

/-!
# Compression in ML-KEM

`mlkem_compress` divides by `q` with a product and a shift; `mlkem_decompress` divides by a power of
two. They are the two functions of FIPS 203, which round to the nearest integer.
-/

namespace PqcHsm

namespace MlKem

/-- `mlkem_compress` -/
def compress (d : Nat) (coeff : Coeff) : BitVec d :=
  let norm : BitVec 16 := if coeff.msb then coeff + 3329 else coeff
  let num : BitVec 24 := ((norm.setWidth 12).setWidth 24 <<< d) + 1664
  let prod : BitVec 46 := num.setWidth 46 * 2580335
  (prod.extractLsb' 33 13).setWidth d

theorem compress1_eq (x : Coeff) : compress1 x = (compress 1 x).getLsbD 0 := by
  unfold compress1 compress
  simp

/-- `Compress` of FIPS 203. -/
def compressTo (d : Nat) (x : ZMod 3329) : Int := round ((2 : ℚ) ^ d / 3329 * x.val) % 2 ^ d

/-- `Decompress` of FIPS 203. -/
def decompressFrom (d y : Nat) : Int := round ((3329 : ℚ) / 2 ^ d * y)

theorem compressTo_eq (d : Nat) (x : ZMod 3329) :
    compressTo d x = (Quantize.coarse 3329 (2 ^ d) x.val : Int) := by
  have hNearest := Quantize.round_eq_nearest (2 ^ d * x.val) (show 0 < 3329 by decide)
  have hSame : (2 : ℚ) ^ d / 3329 * x.val = ((2 ^ d * x.val : Nat) : ℚ) / (3329 : Nat) := by
    push_cast
    ring
  rw [compressTo, hSame, hNearest, Quantize.coarse]
  push_cast
  rfl

theorem decompressFrom_eq (d y : Nat) :
    decompressFrom d y = (Quantize.fine 3329 (2 ^ d) y : Int) := by
  have hNearest := Quantize.round_eq_nearest (3329 * y) (Nat.two_pow_pos d)
  have hSame : (3329 : ℚ) / 2 ^ d * y = ((3329 * y : Nat) : ℚ) / (2 ^ d : Nat) := by
    push_cast
    ring
  rw [decompressFrom, hSame, hNearest, Quantize.fine]

/-- The residue of a coefficient, from its bits. -/
theorem toNat_norm {x : Coeff} (hx : |x.toInt| < 3329) :
    (if x.msb then x + 3329 else x).toNat = (residue x).val := by
  have hVal : ((residue x).val : Int) = x.toInt % 3329 := ZMod.val_intCast x.toInt
  have hBits := BitVec.toInt_eq_msb_cond x
  have hLt := x.isLt
  rw [abs_lt] at hx
  split
  · rename_i hNeg
    rw [if_pos hNeg] at hBits
    rw [BitVec.toNat_add, show (3329 : BitVec 16).toNat = 3329 from rfl]
    omega
  · rename_i hPos
    rw [if_neg hPos] at hBits
    omega

/-- The product and the shift divide by `q`. -/
theorem reciprocal {num : BitVec 24} (h : num.toNat < 8388608) :
    ((num.setWidth 46 * 2580335 : BitVec 46).extractLsb' 33 13).toNat = num.toNat / 3329 := by
  have hWide : (num.setWidth 46).toNat = num.toNat := by
    rw [BitVec.toNat_setWidth]
    omega
  have hProd : (num.setWidth 46 * 2580335 : BitVec 46).toNat = num.toNat * 2580335 := by
    rw [BitVec.toNat_mul, hWide, show (2580335 : BitVec 46).toNat = 2580335 from rfl]
    omega
  have hDiv : num.toNat * 2580335 / 2 ^ 33 = num.toNat / 3329 := by omega
  rw [BitVec.extractLsb'_toNat, hProd, Nat.shiftRight_eq_div_pow, hDiv]
  omega

theorem compress_eq {d : Nat} (hd : d ≤ 11) {x : Coeff} (hx : |x.toInt| < 3329) :
    (compress d x).toNat = Quantize.coarse 3329 (2 ^ d) (residue x).val := by
  have hNorm := toNat_norm hx
  have hVal := ZMod.val_lt (residue x)
  have hPow : 2 ^ d ≤ 2 ^ 11 := Nat.pow_le_pow_right (by decide) hd
  have hScaled : 2 ^ d * (residue x).val ≤ 2 ^ 11 * 3328 := Nat.mul_le_mul hPow (by omega)
  have hU : (((if x.msb then x + 3329 else x).setWidth 12).setWidth 24).toNat =
      (residue x).val := by
    rw [BitVec.toNat_setWidth, BitVec.toNat_setWidth, hNorm]
    omega
  have hNum : ((((if x.msb then x + 3329 else x).setWidth 12).setWidth 24 <<< d) +
      1664 : BitVec 24).toNat = 2 ^ d * (residue x).val + 1664 := by
    rw [BitVec.toNat_add, BitVec.toNat_shiftLeft, hU, Nat.shiftLeft_eq, Nat.mul_comm _ (2 ^ d),
      show (1664 : BitVec 24).toNat = 1664 from rfl]
    omega
  have hQuot : Quantize.nearest (2 ^ d * (residue x).val) 3329 =
      (2 ^ d * (residue x).val + 1664) / 3329 := by
    unfold Quantize.nearest
    omega
  unfold compress
  dsimp only
  rw [BitVec.toNat_setWidth, reciprocal (by rw [hNum]; omega), hNum, Quantize.coarse, hQuot]

theorem toNat_decompress {d y : Nat} (hd : 1 ≤ d) (hd' : d ≤ 11) (hy : y < 2 ^ d) :
    (decompress d y).toNat = Quantize.fine 3329 (2 ^ d) y ∧ (decompress d y).toNat < 3329 := by
  obtain ⟨k, rfl⟩ : ∃ k, d = k + 1 := ⟨d - 1, by omega⟩
  have hPow : 2 ^ (k + 1) ≤ 2 ^ 11 := Nat.pow_le_pow_right (by decide) hd'
  have hHalf : 2 ^ (k + 1) = 2 * 2 ^ k := by ring
  have hNum : (3329 * BitVec.ofNat 27 y + (1 <<< (k + 1 - 1)) : BitVec 27).toNat =
      3329 * y + 2 ^ k := by
    rw [BitVec.toNat_add, BitVec.toNat_mul, BitVec.toNat_ofNat, Nat.add_sub_cancel,
      Nat.one_shiftLeft, BitVec.natCast_eq_ofNat, BitVec.natCast_eq_ofNat, BitVec.toNat_ofNat,
      BitVec.toNat_ofNat]
    omega
  have hFine : Quantize.fine 3329 (2 ^ (k + 1)) y = (3329 * y + 2 ^ k) / 2 ^ (k + 1) := by
    unfold Quantize.fine Quantize.nearest
    rw [show 2 * (3329 * y) + 2 ^ (k + 1) = 2 * (3329 * y + 2 ^ k) by omega,
      Nat.mul_div_mul_left _ _ (by decide)]
  have hLess : (3329 * y + 2 ^ k) / 2 ^ (k + 1) < 3329 := by
    apply Nat.div_lt_of_lt_mul
    omega
  have hValue : (decompress (k + 1) y).toNat = (3329 * y + 2 ^ k) / 2 ^ (k + 1) := by
    unfold decompress
    simp only [BitVec.toNat_setWidth, BitVec.extractLsb'_toNat, hNum, Nat.shiftRight_eq_div_pow]
    omega
  rw [hValue, hFine]
  exact ⟨rfl, hLess⟩

theorem toInt_decompress {d y : Nat} (hd : 1 ≤ d) (hd' : d ≤ 11) (hy : y < 2 ^ d) :
    (decompress d y).toInt = Quantize.fine 3329 (2 ^ d) y ∧ (decompress d y).toInt < 3329 := by
  obtain ⟨hEq, hLess⟩ := toNat_decompress hd hd' hy
  rw [BitVec.toInt_eq_toNat_of_lt (by omega), hEq]
  rw [hEq] at hLess
  exact ⟨rfl, by exact_mod_cast hLess⟩

theorem residue_decompress {d y : Nat} (hd : 1 ≤ d) (hd' : d ≤ 11) (hy : y < 2 ^ d) :
    residue (decompress d y) = (Quantize.fine 3329 (2 ^ d) y : ZMod 3329) := by
  rw [residue, (toInt_decompress hd hd' hy).1, Int.cast_natCast]

end MlKem

open MlKem in
/-- The compression units are the functions of FIPS 203 at every width: a decompressed value is
compressed to itself, and a compressed coefficient comes back with at most the error that the
standard allows. -/
theorem compression_standard (d : Nat) (hd : 1 ≤ d) (hd' : d ≤ 11) :
    (∀ x : Coeff, |x.toInt| < 3329 → ((compress d x).toNat : Int) = compressTo d (residue x)) ∧
    (∀ y < 2 ^ d, (decompress d y).toInt = decompressFrom d y ∧
      0 ≤ (decompress d y).toInt ∧ (decompress d y).toInt < 3329) ∧
    (∀ y < 2 ^ d, (compress d (decompress d y)).toNat = y) ∧
    ∀ x : Coeff, |x.toInt| < 3329 → ∃ e : Int, |e| ≤ round ((3329 : ℚ) / 2 ^ (d + 1)) ∧
      residue (decompress d (compress d x).toNat) = residue x + e := by
  have hPow : 2 ^ d ≤ 2 ^ 11 := Nat.pow_le_pow_right (by decide) hd'
  refine ⟨?_, ?_, ?_, ?_⟩
  · intro x hx
    rw [compressTo_eq, compress_eq hd' hx]
  · intro y hy
    obtain ⟨hEq, hLess⟩ := toInt_decompress hd hd' hy
    rw [decompressFrom_eq]
    refine ⟨hEq, ?_, hLess⟩
    rw [hEq]
    exact Int.natCast_nonneg _
  · intro y hy
    obtain ⟨hEq, hLess⟩ := toInt_decompress hd hd' hy
    have hVal : (residue (decompress d y)).val = Quantize.fine 3329 (2 ^ d) y := by
      rw [residue_decompress hd hd' hy]
      apply ZMod.val_natCast_of_lt
      rw [hEq] at hLess
      exact_mod_cast hLess
    rw [compress_eq hd', hVal]
    · exact Quantize.coarse_fine (Nat.two_pow_pos d) (by omega) hy
    · rw [hEq, abs_of_nonneg (Int.natCast_nonneg _), ← hEq]
      exact hLess
  · intro x hx
    obtain ⟨e, hSmall, hMod⟩ := Quantize.fine_coarse (Nat.two_pow_pos d) (show 0 < 3329 by decide)
      (ZMod.val_lt (residue x))
    have hBound := Quantize.round_eq_nearest 3329 (show 0 < 2 * 2 ^ d by positivity)
    have hLess : (compress d x).toNat < 2 ^ d := (compress d x).isLt
    refine ⟨e, ?_, ?_⟩
    · rw [show (3329 : ℚ) / 2 ^ (d + 1) = ((3329 : Nat) : ℚ) / ((2 * 2 ^ d : Nat) : ℚ) by
        push_cast; ring, hBound]
      exact hSmall
    · have hCast := (ZMod.intCast_eq_intCast_iff _ _ 3329).mpr hMod
      rw [residue_decompress hd hd' hLess, compress_eq hd' hx]
      push_cast at hCast
      rw [hCast, ZMod.natCast_zmod_val]

/-- The narrowest and the widest. -/
theorem compression_standard_widths :
    (∀ y < 2 ^ 1, (MlKem.compress 1 (MlKem.decompress 1 y)).toNat = y) ∧
      ∀ y < 2 ^ 11, (MlKem.compress 11 (MlKem.decompress 11 y)).toNat = y :=
  ⟨(compression_standard 1 (by decide) (by decide)).2.2.1,
    (compression_standard 11 (by decide) (by decide)).2.2.1⟩

end PqcHsm
