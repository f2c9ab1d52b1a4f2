import PqcHsm.Rtl.KemDecaps
import Mathlib.Data.List.GetD

/-!
# The intake of decapsulation

The key and the ciphertext come in. What each state of the core relies on, as far as the hash of the
secret and the ciphertext.
-/

namespace PqcHsm

open MlKem

/-! ### Registers that bytes are shifted into -/

/-- The register ends with these bytes. -/
def Shifted (r : BitVec 256) (l : List (BitVec 8)) : Prop :=
  ∀ i < l.length, regByte r (32 - l.length + i) = l.getD i 0

section Registers

variable {r : BitVec 256} {l : List (BitVec 8)} {b : BitVec 8}

theorem regByte_shiftByte (r : BitVec 256) (b : BitVec 8) {i : Nat} (hi : i < 32) :
    regByte (shiftByte r b) i = if i < 31 then regByte r (i + 1) else b := by
  apply BitVec.eq_of_getLsbD_eq
  intro j hj
  rw [regByte, BitVec.getLsbD_extractLsb', decide_eq_true hj, Bool.true_and, shiftByte,
    BitVec.getLsbD_append]
  by_cases hLow : i < 31
  · have hPlace : 8 + (8 * i + j) = 8 * (i + 1) + j := by omega
    rw [if_pos (by omega), if_pos hLow, BitVec.getLsbD_extractLsb', regByte,
      BitVec.getLsbD_extractLsb', decide_eq_true hj, decide_eq_true (by omega), hPlace]
  · have hPlace : 8 * i + j - 248 = j := by omega
    rw [if_neg (by omega), if_neg hLow, hPlace]

theorem Shifted.nil (r : BitVec 256) : Shifted r [] := fun _ hi => absurd hi (Nat.not_lt_zero _)

theorem Shifted.concat (hShifted : Shifted r l) (hRoom : l.length < 32) (b : BitVec 8) :
    Shifted (shiftByte r b) (l ++ [b]) := by
  intro i hi
  rw [List.length_append, List.length_singleton] at hi ⊢
  rw [regByte_shiftByte r b (by omega)]
  by_cases hOld : i < l.length
  · have hPlace : 32 - (l.length + 1) + i + 1 = 32 - l.length + i := by omega
    rw [if_pos (by omega), hPlace, hShifted i hOld, List.getD_append _ _ _ _ hOld]
  · have hLast : i - l.length = 0 := by omega
    rw [if_neg (by omega), List.getD_append_right _ _ _ _ (by omega), hLast]
    rfl

theorem Shifted.whole (hShifted : Shifted r l) (hLength : l.length = 32) {i : Nat} (hi : i < 32) :
    regByte r i = l.getD i 0 := by
  have hByte := hShifted i (by omega)
  rwa [hLength, Nat.sub_self, Nat.zero_add] at hByte

end Registers

theorem writeBank_same (bank : Nat → Poly) (slot : Nat) (i : BitVec 8) (v : Coeff) :
    writeBank bank slot i v slot = Function.update (bank slot) i v := by
  rw [writeBank, Function.update_self]

theorem writeBank_other (bank : Nat → Poly) {slot slot' : Nat} (hSlot : slot' ≠ slot) (i : BitVec 8)
    (v : Coeff) : writeBank bank slot i v slot' = bank slot' := by
  rw [writeBank, Function.update_of_ne hSlot]

/-! ### What is in and what holds in each state -/

def kemSecret (k : Nat) (dk : List (BitVec 8)) : List (BitVec 8) := dk.drop (dklen k - 32)

/-- The registers of the parameter set. -/
def DecapsCtl.Sized (c : DecapsCtl) : Prop := c.k = kNow c.ps ∧ c.d11 = d11Now c.ps

/-- Nothing is left in the unpacker. -/
def UnpackerEmpty (c : DecapsCtl) (d : DecapsData) : Prop := c.nbits = 0 ∧ d.buAcc = 0

/-- The key so far. -/
structure DkIntake (c : DecapsCtl) (d : DecapsData) (dk : List (BitVec 8)) : Prop where
  count : c.dkcnt = dk.length
  place : c.dkcnt < sbytes c.k →
    c.grp = c.dkcnt % 3 ∧ c.tn = 2 * (c.dkcnt / 3 % 128) ∧ c.tp = c.dkcnt / 384
  one : c.dkcnt < sbytes c.k → c.grp = 1 → d.grpBuf.extractLsb' 8 8 = dk.getD (c.dkcnt - 1) 0
  two : c.dkcnt < sbytes c.k → c.grp = 2 →
    d.grpBuf = dk.getD (c.dkcnt - 1) 0 ++ dk.getD (c.dkcnt - 2) 0
  bank : ∀ i n, i < c.k → 384 * i + 3 * (n.toNat / 2) + 3 ≤ c.dkcnt → d.bank i n = sHat dk i n
  ekpos : c.ekpos = min (c.dkcnt - sbytes c.k) (eklen c.k)
  ekbuf : ∀ j < c.ekpos, d.ekbuf j = dk.getD (sbytes c.k + j) 0
  secret : Shifted d.zR (dk.drop (hend c.k))

def DecapsCtl.Zeroed (c : DecapsCtl) : Prop :=
  c.dkcnt = 0 ∧ c.grp = 0 ∧ c.tn = 0 ∧ c.tp = 0 ∧ c.ekpos = 0

/-- The whole key. -/
structure HoldsDk (c : DecapsCtl) (d : DecapsData) (dk : List (BitVec 8)) : Prop where
  length : dk.length = dklen c.k
  bank : ∀ i < c.k, d.bank i = sHat dk i
  ekbuf : ∀ j < eklen c.k, d.ekbuf j = dk.getD (sbytes c.k + j) 0
  secret : ∀ i < 32, regByte d.zR i = (kemSecret c.k dk).getD i 0

/-- The ciphertext. -/
structure HoldsC (c : DecapsCtl) (d : DecapsData) (ct : List (BitVec 8)) : Prop where
  length : ct.length = clen c.k c.d11
  cbuf : ∀ j < clen c.k c.d11, d.cbuf j = ct.getD j 0

section Bytes

variable {c : DecapsCtl} {d : DecapsData} {x : DecapsIn} {dk : List (BitVec 8)}

theorem sizes (k : Nat) : sbytes k = 384 * k ∧ eklen k = 384 * k + 32 ∧ ekend k = 768 * k + 32 ∧
    hend k = 768 * k + 64 ∧ dklen k = 768 * k + 96 := by
  simp only [dklen, hend, ekend, eklen, sbytes]
  omega

theorem kNow_bounds (ps : BitVec 2) : 2 ≤ kNow ps ∧ kNow ps ≤ 4 := by
  rw [kNow]
  split
  · decide
  · split
    · decide
    · decide

theorem getD_concat_lt {l : List (BitVec 8)} {i : Nat} (hi : i < l.length) (b : BitVec 8) :
    (l ++ [b]).getD i 0 = l.getD i 0 :=
  List.getD_append _ _ _ _ hi

theorem getD_concat_self (l : List (BitVec 8)) (b : BitVec 8) :
    (l ++ [b]).getD l.length 0 = b := by
  rw [List.getD_append_right _ _ _ _ (Nat.le_refl _), Nat.sub_self]
  rfl

/-- A complete pair of coefficients does not change with later bytes. -/
theorem sHat_concat {i : Nat} {n : BitVec 8} (hInside : 384 * i + 3 * (n.toNat / 2) + 3 ≤ dk.length)
    (b : BitVec 8) : sHat (dk ++ [b]) i n = sHat dk i n := by
  have h0 := getD_concat_lt (l := dk) (i := 384 * i + 3 * (n.toNat / 2)) (by omega) b
  have h1 := getD_concat_lt (l := dk) (i := 384 * i + 3 * (n.toNat / 2) + 1) (by omega) b
  have h2 := getD_concat_lt (l := dk) (i := 384 * i + 3 * (n.toNat / 2) + 2) (by omega) b
  simp only [sHat, tripleAt, h0, h1, h2]

theorem DkIntake.empty (hZero : c.Zeroed) : DkIntake c d [] := by
  obtain ⟨hCount, hGrp, hTn, hTp, hEkpos⟩ := hZero
  constructor
  · exact hCount
  · intro _
    rw [hCount]
    exact ⟨hGrp, hTn, hTp⟩
  · intro _ hOne
    omega
  · intro _ hTwo
    omega
  · intro i n _ hInside
    omega
  · omega
  · intro j hj
    omega
  · rw [List.drop_nil]
    exact Shifted.nil _

/-- A byte moves the position only. -/
theorem stepPlace_keeps (c : DecapsCtl) : c.stepPlace.k = c.k ∧ c.stepPlace.ps = c.ps ∧
    c.stepPlace.d11 = c.d11 ∧ c.stepPlace.nbits = c.nbits := by
  simp only [DecapsCtl.stepPlace, DecapsCtl.stepPoly]
  split
  · split
    · split
      · exact ⟨rfl, rfl, rfl, rfl⟩
      · exact ⟨rfl, rfl, rfl, rfl⟩
    · exact ⟨rfl, rfl, rfl, rfl⟩
  · split
    · exact ⟨rfl, rfl, rfl, rfl⟩
    · exact ⟨rfl, rfl, rfl, rfl⟩

theorem stepPlace_st (c : DecapsCtl) : c.stepPlace.st = c.st := by
  simp only [DecapsCtl.stepPlace, DecapsCtl.stepPoly]
  repeat' split
  all_goals rfl

/-- The registers that the next byte of the key finds. -/
theorem DkIntake.place_next (hIn : DkIntake c d dk) (hPoly : c.dkcnt < sbytes c.k) :
    (c.stepPlace.grp = (c.dkcnt + 1) % 3 ∧ c.stepPlace.tn = 2 * ((c.dkcnt + 1) / 3 % 128) ∧
      c.stepPlace.tp = (c.dkcnt + 1) / 384) ∧ c.stepPlace.ekpos = c.ekpos := by
  obtain ⟨hGrp, hTn, hTp⟩ := hIn.place hPoly
  rw [DecapsCtl.stepPlace, DecapsCtl.inSRng, if_pos (decide_eq_true hPoly), DecapsCtl.stepPoly]
  split
  · split
    · exact ⟨⟨by dsimp only; omega, by dsimp only; omega, by dsimp only; omega⟩, rfl⟩
    · exact ⟨⟨by dsimp only; omega, by dsimp only; omega, by dsimp only; omega⟩, rfl⟩
  · exact ⟨⟨by dsimp only; omega, by dsimp only; omega, by dsimp only; omega⟩, rfl⟩

/-- A byte of the polynomials. -/
theorem DkIntake.bank_next (hIn : DkIntake c d dk) (hPoly : c.dkcnt < sbytes c.k)
    (hFire : c.dkFire x.toDecapsTiming = true) (hSt : c.st = .dkIn) (i : Nat) (n : BitVec 8)
    (hi : i < c.k) (hInside : 384 * i + 3 * (n.toNat / 2) + 3 ≤ c.dkcnt + 1) :
    d.bankNext c x i n = sHat (dk ++ [x.dkData]) i n := by
  obtain ⟨hGrp, hTn, hTp⟩ := hIn.place hPoly
  have hCount := hIn.count
  have hn := n.isLt
  simp only [DecapsData.bankNext, hSt, DecapsData.tripleFire, hFire, DecapsCtl.inSRng,
    decide_eq_true hPoly, Bool.true_and, decide_eq_true_eq]
  by_cases hThird : c.grp = 2
  · rw [if_pos hThird]
    have hTnLess : c.tn + 1 < 256 := by omega
    have hEven : (BitVec.ofNat 8 c.tn).toNat = c.tn := Nat.mod_eq_of_lt (by omega)
    have hOdd : (BitVec.ofNat 8 (c.tn + 1)).toNat = c.tn + 1 := Nat.mod_eq_of_lt hTnLess
    by_cases hHere : i = c.tp ∧ n.toNat / 2 = c.dkcnt / 3 % 128
    · obtain ⟨rfl, hPair⟩ := hHere
      have hBase : 384 * c.tp + 3 * (n.toNat / 2) + 2 = dk.length := by omega
      have h0 := getD_concat_lt (l := dk) (i := 384 * c.tp + 3 * (n.toNat / 2)) (by omega) x.dkData
      have h1 := getD_concat_lt (l := dk) (i := 384 * c.tp + 3 * (n.toNat / 2) + 1) (by omega)
        x.dkData
      have h2 := getD_concat_self dk x.dkData
      have hTwo := hIn.two hPoly hThird
      have hPlace1 : c.dkcnt - 1 = 384 * c.tp + 3 * (n.toNat / 2) + 1 := by omega
      have hPlace0 : c.dkcnt - 2 = 384 * c.tp + 3 * (n.toNat / 2) := by omega
      rw [hPlace1, hPlace0] at hTwo
      rw [← hBase] at h2
      have hTriple : x.dkData ++ d.grpBuf =
          tripleAt (dk ++ [x.dkData]) (384 * c.tp + 3 * (n.toNat / 2)) := by
        rw [tripleAt, h0, h1, h2, hTwo]
      rw [writeBank_same, writeBank_same]
      obtain hLow | hHigh : n.toNat = c.tn ∨ n.toNat = c.tn + 1 := by omega
      · have hn : n = BitVec.ofNat 8 c.tn := BitVec.eq_of_toNat_eq (hLow.trans hEven.symm)
        have hNe : n ≠ BitVec.ofNat 8 (c.tn + 1) := by
          intro hEq
          have hNat := congrArg BitVec.toNat hEq
          omega
        have hParity : n.toNat % 2 = 0 := by omega
        rw [Function.update_of_ne hNe, hn, Function.update_self, ← hn, sHat, hTriple]
        simp only [hParity, if_true]
      · have hn : n = BitVec.ofNat 8 (c.tn + 1) := BitVec.eq_of_toNat_eq (hHigh.trans hOdd.symm)
        have hParity : ¬n.toNat % 2 = 0 := by omega
        rw [hn, Function.update_self, ← hn, sHat, hTriple]
        simp only [hParity, if_false]
    · have hOld : 384 * i + 3 * (n.toNat / 2) + 3 ≤ c.dkcnt := by omega
      rw [sHat_concat (hCount ▸ hOld), ← hIn.bank i n hi hOld]
      by_cases hSlot : i = c.tp
      · have hNot : n.toNat / 2 ≠ c.dkcnt / 3 % 128 := fun hEq => hHere ⟨hSlot, hEq⟩
        have hNe0 : n ≠ BitVec.ofNat 8 c.tn := by
          intro hEq
          have hNat := congrArg BitVec.toNat hEq
          omega
        have hNe1 : n ≠ BitVec.ofNat 8 (c.tn + 1) := by
          intro hEq
          have hNat := congrArg BitVec.toNat hEq
          omega
        rw [hSlot, writeBank_same, writeBank_same, Function.update_of_ne hNe1,
          Function.update_of_ne hNe0]
      · rw [writeBank_other _ hSlot, writeBank_other _ hSlot]
  · have hOld : 384 * i + 3 * (n.toNat / 2) + 3 ≤ c.dkcnt := by omega
    rw [if_neg hThird, sHat_concat (hCount ▸ hOld), hIn.bank i n hi hOld]

/-- Behind the polynomials a byte changes the position in the key only. -/
theorem stepPlace_behind (hPoly : ¬c.dkcnt < sbytes c.k) :
    c.stepPlace.ekpos = if c.dkcnt < ekend c.k then c.ekpos + 1 else c.ekpos := by
  rw [DecapsCtl.stepPlace, DecapsCtl.inSRng, if_neg (by rw [decide_eq_false hPoly]; decide),
    DecapsCtl.inEkRng, decide_eq_true (Nat.le_of_not_lt hPoly), Bool.true_and]
  by_cases hKey : c.dkcnt < ekend c.k
  · rw [if_pos hKey, if_pos (decide_eq_true hKey)]
  · rw [if_neg hKey, if_neg (by rw [decide_eq_false hKey]; decide)]

/-- The next byte of the key. -/
theorem DkIntake.take (E : Cores) (hIn : DkIntake c d dk) (hMore : c.dkcnt < dklen c.k)
    (hSt : c.st = .dkIn) (hFire : c.dkFire x.toDecapsTiming = true) (hStart : x.start = false) :
    DkIntake { c.stepPlace with dkcnt := c.dkcnt + 1 } (d.next E c x) (dk ++ [x.dkData]) := by
  obtain ⟨hSbytes, hEklen, hEkend, hHend, hDklen⟩ := sizes c.k
  obtain ⟨hK, -, -, -⟩ := stepPlace_keeps c
  have hCount := hIn.count
  have hEkpos := hIn.ekpos
  have hLength : (dk ++ [x.dkData]).length = c.dkcnt + 1 := by
    rw [List.length_append, List.length_singleton, hCount]
  have hReg : DecapsData.regSt c x = .dkIn := by rw [DecapsData.regSt, hStart, hSt]; rfl
  have hEkNext : c.stepPlace.ekpos = min (c.dkcnt + 1 - sbytes c.k) (eklen c.k) := by
    by_cases hPoly : c.dkcnt < sbytes c.k
    · rw [(hIn.place_next hPoly).2, hEkpos]
      omega
    · rw [stepPlace_behind hPoly]
      split
      · omega
      · omega
  have hGrpBuf (hPoly : c.dkcnt < sbytes c.k) (hFew : c.grp ≠ 2) :
      (d.next E c x).grpBuf = x.dkData ++ d.grpBuf.extractLsb' 8 8 := by
    change d.grpBufNext c x = _
    simp only [DecapsData.grpBufNext, hReg, hFire, DecapsCtl.inSRng, decide_eq_true hPoly, hFew,
      ne_eq, not_false_eq_true, decide_true, Bool.true_and, if_true]
  have hHigh (v : BitVec 8) : (x.dkData ++ v).extractLsb' 8 8 = x.dkData := by
    have hb := x.dkData.isLt
    have hv := v.isLt
    apply BitVec.eq_of_toNat_eq
    rw [BitVec.extractLsb'_toNat, BitVec.toNat_append, ← Nat.shiftLeft_add_eq_or_of_lt hv,
      Nat.shiftRight_eq_div_pow, Nat.shiftLeft_eq]
    omega
  constructor
  · exact hLength.symm
  · dsimp only
    rw [hK]
    intro hNext
    exact (hIn.place_next (by omega)).1
  · dsimp only
    rw [hK]
    intro hNext hOne
    have hPoly : c.dkcnt < sbytes c.k := by omega
    have hGrp := (hIn.place hPoly).1
    have hGrpNext := (hIn.place_next hPoly).1.1
    rw [hGrpBuf hPoly (by omega), hHigh, Nat.add_sub_cancel, hCount, getD_concat_self]
  · dsimp only
    rw [hK]
    intro hNext hTwo
    have hPoly : c.dkcnt < sbytes c.k := by omega
    have hGrp := (hIn.place hPoly).1
    have hGrpNext := (hIn.place_next hPoly).1.1
    have hPlace : c.dkcnt + 1 - 2 = c.dkcnt - 1 := by omega
    have hBefore := getD_concat_lt (l := dk) (i := c.dkcnt - 1) (by omega) x.dkData
    have hLast := getD_concat_self dk x.dkData
    rw [← hCount] at hLast
    rw [hGrpBuf hPoly (by omega), hIn.one hPoly (by omega), Nat.add_sub_cancel, hPlace, hLast,
      hBefore]
  · dsimp only
    rw [hK]
    intro i n hi hInside
    change d.bankNext c x i n = _
    by_cases hPoly : c.dkcnt < sbytes c.k
    · exact hIn.bank_next hPoly hFire hSt i n hi hInside
    · have hn := n.isLt
      have hOld : 384 * i + 3 * (n.toNat / 2) + 3 ≤ c.dkcnt := by omega
      have hSame : d.bankNext c x = d.bank := by
        simp only [DecapsData.bankNext, hSt, DecapsData.tripleFire, DecapsCtl.inSRng,
          decide_eq_false hPoly, Bool.and_false, Bool.false_and, Bool.false_eq_true, if_false]
      rw [hSame, sHat_concat (hCount ▸ hOld), hIn.bank i n hi hOld]
  · dsimp only
    rw [hK]
    exact hEkNext
  · dsimp only
    rw [hK, hEkNext]
    intro j hj
    change d.ekbufNext c x j = _
    by_cases hKey : sbytes c.k ≤ c.dkcnt ∧ c.dkcnt < ekend c.k
    · have hEk : c.inEkRng = true := by
        rw [DecapsCtl.inEkRng, decide_eq_true hKey.1, decide_eq_true hKey.2]
        rfl
      rw [DecapsData.ekbufNext, DecapsData.ekInFire, hFire, hEk, Bool.true_and, if_pos rfl]
      by_cases hLast : j = c.ekpos
      · have hPlace : sbytes c.k + c.ekpos = dk.length := by omega
        rw [hLast, Function.update_self, hPlace, getD_concat_self]
      · rw [Function.update_of_ne hLast, hIn.ekbuf j (by omega), getD_concat_lt (by omega)]
    · have hEk : c.inEkRng = false := by
        rw [DecapsCtl.inEkRng, Bool.and_eq_false_iff, decide_eq_false_iff_not,
          decide_eq_false_iff_not]
        omega
      rw [DecapsData.ekbufNext, DecapsData.ekInFire, hEk, Bool.and_false, if_neg Bool.false_ne_true,
        hIn.ekbuf j (by omega), getD_concat_lt (by omega)]
  · dsimp only
    rw [hK]
    change Shifted (d.zRNext c x) _
    by_cases hLast : hend c.k ≤ c.dkcnt
    · have hNext : d.zRNext c x = shiftByte d.zR x.dkData := by
        simp only [DecapsData.zRNext, hReg, hFire, DecapsCtl.inSRng, DecapsCtl.inEkRng,
          DecapsCtl.inHRng]
        rw [decide_eq_false (by omega), decide_eq_false (by omega : ¬c.dkcnt < ekend c.k),
          decide_eq_false (by omega : ¬c.dkcnt < hend c.k), Bool.and_false, Bool.and_false]
        rfl
      rw [hNext, List.drop_append_of_le_length (by omega)]
      exact hIn.secret.concat (by rw [List.length_drop]; omega) _
    · have hNext : d.zRNext c x = d.zR := by
        simp only [DecapsData.zRNext, hReg]
        apply if_neg
        simp only [Bool.and_eq_true, Bool.not_eq_true', DecapsCtl.inSRng, DecapsCtl.inEkRng,
          DecapsCtl.inHRng, Bool.and_eq_false_iff, decide_eq_false_iff_not]
        omega
      have hNone : (dk ++ [x.dkData]).drop (hend c.k) = [] :=
        List.drop_eq_nil_of_le (by rw [hLength]; omega)
      rw [hNone]
      exact Shifted.nil _

/-- The last byte has come. -/
theorem DkIntake.whole (hIn : DkIntake c d dk) (hAll : c.dkcnt = dklen c.k) : HoldsDk c d dk := by
  obtain ⟨hSbytes, hEklen, hEkend, hHend, hDklen⟩ := sizes c.k
  have hCount := hIn.count
  have hEkpos := hIn.ekpos
  have hStart : dklen c.k - 32 = hend c.k := by omega
  constructor
  · omega
  · intro i hi
    funext n
    have hn := n.isLt
    exact hIn.bank i n hi (by omega)
  · intro j hj
    exact hIn.ekbuf j (by omega)
  · intro i hi
    rw [kemSecret, hStart]
    exact hIn.secret.whole (by rw [List.length_drop]; omega) hi

end Bytes

end PqcHsm
