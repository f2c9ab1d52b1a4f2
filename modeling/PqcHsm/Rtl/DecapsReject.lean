import PqcHsm.Rtl.DecapsDecrypt

/-!
# The comparison and the key

The last steps of `mlkem_decaps`: the inner core encrypts the message again, its bytes are compared,
and one of two keys comes out.
-/

namespace PqcHsm

open MlKem

section

variable {E : Cores} {c c' : DecapsCtl} {d d' : DecapsData} {m : DecapsLog} {x : DecapsIn}

/-! ### What is compared -/

theorem length_ekOf (hKey : HoldsDk c d m.dk) : (ekOf c m).length = eklen c.k := by
  have hSizes := sizes c.k
  have hLength := hKey.length
  rw [ekOf, List.length_take, List.length_drop]
  omega

/-- The bytes of the key that are replayed. -/
theorem ekbuf_ekOf (hKey : HoldsDk c d m.dk) {j : Nat} (hj : j < eklen c.k) :
    d.ekbuf j = (ekOf c m).getD j 0 := by
  have hSizes := sizes c.k
  have hLength := hKey.length
  have hInside : j < (ekOf c m).length := by
    rw [length_ekOf hKey]
    exact hj
  have hWhole : sbytes c.k + j < m.dk.length := by omega
  rw [hKey.ekbuf j hj, List.getD_eq_getElem _ _ hInside, List.getD_eq_getElem _ _ hWhole]
  simp only [ekOf, List.getElem_take, List.getElem_drop]

theorem map_range_eq_iff {f : Nat → BitVec 8} {l : List (BitVec 8)} {n : Nat}
    (hLength : l.length = n) :
    (List.range n).map f = l ↔ ∀ i < n, f i = l.getD i 0 := by
  constructor
  · intro hEq i hi
    rw [← hEq, List.getD_eq_getElem _ _ (by simpa using hi)]
    simp
  · intro hAll
    apply List.ext_getElem
    · simpa using hLength.symm
    · intro i hi hi'
      rw [List.length_map, List.length_range] at hi
      rw [List.getElem_map, List.getElem_range, hAll i hi, List.getD_eq_getElem _ _ hi']

theorem getD_map_range (f : Nat → BitVec 8) {i n : Nat} (hi : i < n) :
    ((List.range n).map f).getD i 0 = f i := by
  rw [List.getD_eq_getElem _ _ (by simpa using hi)]
  simp

theorem keyOf_sized (hSized : c.Sized) : keyOf E c m =
    if (List.range (clen c.k c.d11)).map (fun i => encOf E c m (32 + i)) = m.c then
      (List.range 32).map (encOf E c m)
    else (List.range 32).map (E.sponge 0x1f (jInput c m)) := by
  rw [keyOf, decapsKey, ← hSized.1, ← hSized.2]
  rfl

theorem length_keyOf (E : Cores) (c : DecapsCtl) (m : DecapsLog) : (keyOf E c m).length = 32 := by
  rw [keyOf, decapsKey]
  split
  · simp
  · simp

/-- The mask chooses. -/
theorem kout_eq (d : DecapsData) : d.kout = if d.cmpDiff then d.kbarR else d.kprimeR := by
  rw [DecapsData.kout]
  cases d.cmpDiff with
  | false =>
    change (d.kprimeR &&& ~~~(0#256)) ||| (d.kbarR &&& 0#256) = d.kprimeR
    rw [BitVec.not_zero, BitVec.and_allOnes, BitVec.and_zero, BitVec.or_zero]
  | true =>
    change (d.kprimeR &&& ~~~BitVec.allOnes 256) ||| (d.kbarR &&& BitVec.allOnes 256) = d.kbarR
    rw [BitVec.not_allOnes, BitVec.and_zero, BitVec.and_allOnes, BitVec.zero_or]

/-- The key that is chosen when all bytes have been compared. -/
theorem kout_key (hSized : c.Sized) (hLength : m.c.length = clen c.k c.d11)
    (hKbar : ∀ i < 32, regByte d.kbarR i = E.sponge 0x1f (jInput c m) i)
    (hKey : ∀ i < 32, regByte d.kprimeR i = encOf E c m i)
    (hDiff : d.cmpDiff = true ↔ ∃ i < clen c.k c.d11, encOf E c m (32 + i) ≠ m.c.getD i 0)
    {i : Nat} (hi : i < 32) : regByte d.kout i = (keyOf E c m).getD i 0 := by
  rw [kout_eq, keyOf_sized hSized]
  cases hCmp : d.cmpDiff with
  | false =>
    have hSame : (List.range (clen c.k c.d11)).map (fun i => encOf E c m (32 + i)) = m.c := by
      rw [map_range_eq_iff hLength]
      intro j hj
      by_contra hNe
      rw [hDiff.mpr ⟨j, hj, hNe⟩] at hCmp
      exact Bool.noConfusion hCmp
    rw [if_neg Bool.false_ne_true, if_pos hSame, hKey i hi, getD_map_range _ hi]
  | true =>
    have hOther : (List.range (clen c.k c.d11)).map (fun i => encOf E c m (32 + i)) ≠ m.c := by
      intro hSame
      obtain ⟨j, hj, hNe⟩ := hDiff.mp hCmp
      exact hNe ((map_range_eq_iff hLength).mp hSame j hj)
    rw [if_pos rfl, if_neg hOther, hKbar i hi, getD_map_range _ hi]

/-! ### The inner core -/

theorem inv_reStart (hStart : x.start = false) (hSt : c.st = .reStart)
    (hInv : InvAt E c d m .reStart) : Steps E c d m x := by
  obtain ⟨hReady, hEmpty, hMsg⟩ := hInv
  have hReadyNext := hReady.next hStart (by simp [hSt]) (by simp [hSt]) (by simp [hSt])
  have hEmptyNext := hEmpty.next (E := E) (x := x) (by simp [hSt]) (by simp [hSt])
  have hNext : c.next x.toDecapsTiming =
      { c with
        ekpos := 0
        cbcnt := 0
        rbcnt := 0
        ekbV := false
        ekbWait := true
        st := .reRun } := by
    rw [next_quiet hStart (by simp [hSt]) (by simp [hSt])]
    simp only [DecapsCtl.step, hSt]
  have hEnc : (d.next E c x).enc = ⟨c.ps, d.mR, [], 0⟩ := by
    change d.encNext c x = _
    rw [DecapsData.encNext, if_pos hSt]
  have hCmp : (d.next E c x).cmpDiff = false := by
    change d.cmpDiffNext E c x = _
    simp only [DecapsData.cmpDiffNext, hStart, hSt, Bool.false_eq_true, if_false]
  rw [Steps, see_quiet hStart (by simp [hSt]) (by simp [hSt]) (by simp [hSt])]
  rw [hNext] at hReadyNext hEmptyNext ⊢
  refine ⟨hReadyNext, hEmptyNext, ?_⟩
  constructor
  · rw [hEnc]
  · rw [hEnc]
    exact hMsg
  · constructor
    · rw [hEnc]
      rfl
    · exact Nat.zero_le _
    · intro hLoaded
      exact Bool.noConfusion hLoaded
    · intro hReads
      exact Bool.noConfusion hReads
  · rw [hEnc]
  · change 0 < clen c.k c.d11 + 32
    omega
  · intro hPositive
    exact absurd hPositive (Nat.lt_irrefl 0)
  · rfl
  · constructor
    · exact Shifted.nil _
    · rw [hCmp]
      constructor
      · intro hDiff
        exact Bool.noConfusion hDiff
      · rintro ⟨i, hi, -⟩
        exact absurd hi (Nat.not_lt_zero i)

theorem stepEk_keeps (c : DecapsCtl) (t : DecapsTiming) :
    (c.stepEk t).st = c.st ∧ (c.stepEk t).rbcnt = c.rbcnt ∧ (c.stepEk t).cbcnt = c.cbcnt := by
  rw [DecapsCtl.stepEk]
  repeat' split
  all_goals exact ⟨rfl, rfl, rfl⟩

/-- The replay goes on, whatever happens to the bytes that come back. -/
theorem KeyReplay.next (hReplay : KeyReplay c d m) (hKey : HoldsDk c d m.dk)
    (hStart : x.start = false) (hSt : c.st = .reRun) (hK : c'.k = c.k)
    (hEkpos : c'.ekpos = (c.stepEk x.toDecapsTiming).ekpos)
    (hEkbV : c'.ekbV = (c.stepEk x.toDecapsTiming).ekbV)
    (hEkbWait : c'.ekbWait = (c.stepEk x.toDecapsTiming).ekbWait) :
    KeyReplay c' (d.next E c x) m := by
  have hReg := regSt_run (c := c) hStart
  have hEkOf : ekOf c' m = ekOf c m := by rw [ekOf, ekOf, hK]
  have hEk : (d.next E c x).enc.ek =
      if c.ekFire x.toDecapsTiming then d.enc.ek ++ [d.ekbR] else d.enc.ek := by
    change (d.encNext c x).ek = _
    rw [DecapsData.encNext, if_neg (by simp [hSt])]
  have hEkbR : (d.next E c x).ekbR =
      if c.ekLoad x.toDecapsTiming then d.ekbDout else d.ekbR := by
    simp only [DecapsData.next, hReg, hSt, decide_true, Bool.true_and]
  have hEkbuf : (d.next E c x).ekbuf = d.ekbuf := by
    change d.ekbufNext c x = d.ekbuf
    rw [DecapsData.ekbufNext, DecapsData.ekInFire, DecapsCtl.dkFire, hSt]
    rfl
  have hDout : (d.next E c x).ekbDout = d.ekbuf c.ekpos := rfl
  obtain ⟨hOld, hInside, hLoaded, hReads⟩ := hReplay
  cases hFire : c.ekFire x.toDecapsTiming with
  | true =>
    have hValid : c.ekbV = true := by
      simp only [DecapsCtl.ekFire, Bool.and_eq_true] at hFire
      exact hFire.1.2
    obtain ⟨hLess, hByte⟩ := hLoaded hValid
    simp only [DecapsCtl.stepEk, hFire, if_true] at hEkpos hEkbV hEkbWait
    constructor
    · have hPlace : c.ekpos < (ekOf c m).length := by
        rw [length_ekOf hKey]
        exact hLess
      rw [hEk, hFire, if_pos rfl, hOld, hByte, hEkOf, hEkpos, List.take_add_one,
        List.getElem?_eq_getElem hPlace, List.getD_eq_getElem _ _ hPlace]
      rfl
    · rw [hEkpos, hK]
      exact hLess
    · rw [hEkbV]
      intro hNo
      exact Bool.noConfusion hNo
    · rw [hEkbWait]
      intro hNo
      exact Bool.noConfusion hNo
  | false =>
    rw [hFire, if_neg Bool.false_ne_true] at hEk
    have hSame : (c.stepEk x.toDecapsTiming).ekpos = c.ekpos := by
      simp only [DecapsCtl.stepEk, hFire, Bool.false_eq_true, if_false]
      split
      · rfl
      · split
        · rfl
        · rfl
    rw [hSame] at hEkpos
    constructor
    · rw [hEk, hOld, hEkOf, hEkpos]
    · rw [hEkpos, hK]
      exact hInside
    · rw [hEkbV, hEkpos, hK, hEkOf, hEkbR]
      cases hLoad : c.ekLoad x.toDecapsTiming with
      | true =>
        intro _
        simp only [DecapsCtl.ekLoad, Bool.and_eq_true, Bool.not_eq_true', decide_eq_true_eq]
          at hLoad
        obtain ⟨⟨⟨-, hWait⟩, -⟩, hLess⟩ := hLoad
        rw [if_pos rfl, hReads hWait, ekbuf_ekOf hKey hLess]
        exact ⟨hLess, rfl⟩
      | false =>
        have hV : (c.stepEk x.toDecapsTiming).ekbV = c.ekbV := by
          simp only [DecapsCtl.stepEk, hFire, hLoad, Bool.false_eq_true, if_false]
          split
          · rfl
          · rfl
        rw [hV, if_neg Bool.false_ne_true]
        exact hLoaded
    · intro _
      rw [hDout, hEkbuf, hEkpos]

/-- The next byte of the inner core. -/
theorem KemReplays.byte (hRun : KemReplays E c d m) (hKey : HoldsDk c d m.dk)
    (hAll : c.ekpos = eklen c.k) : d.encOutData E = encOf E c m c.rbcnt := by
  have hWhole : (ekOf c m).take c.ekpos = ekOf c m := by
    rw [hAll, ← length_ekOf hKey, List.take_length]
  rw [DecapsData.encOutData, hRun.ps, hRun.msg, hRun.replay.ek, hWhole, hRun.given, encOf]

theorem xor_ne_zero_iff (a b : BitVec 8) : (a ^^^ b != 0) = true ↔ a ≠ b := by
  rw [bne_iff_ne, ne_eq]
  exact not_congr BitVec.xor_eq_zero_iff

theorem Compared.next (hRun : KemReplays E c d m) (hKey : HoldsDk c d m.dk) (hCt : HoldsC c d m.c)
    (hStart : x.start = false) (hSt : c.st = .reRun) (hOut : c.encOut x.toDecapsTiming = true) :
    Compared E c (d.next E c x) m (c.rbcnt + 1) := by
  have hReg := regSt_run (c := c) hStart
  have hAll : c.ekpos = eklen c.k := by
    simp only [DecapsCtl.encOut, Bool.and_eq_true, decide_eq_true_eq] at hOut
    exact hOut.2
  have hByte := hRun.byte hKey hAll
  obtain ⟨hKprime, hDiff⟩ := hRun.bytes
  have hMore := hRun.more
  by_cases hFirst : c.rbcnt < 32
  · have hKprimeNext : (d.next E c x).kprimeR = shiftByte d.kprimeR (encOf E c m c.rbcnt) := by
      change d.kprimeRNext E c x = _
      simp only [DecapsData.kprimeRNext, hReg, hSt, hOut, hFirst, decide_true, Bool.and_self,
        if_true, hByte]
    have hDiffNext : (d.next E c x).cmpDiff = d.cmpDiff := by
      change d.cmpDiffNext E c x = _
      have hNot : ¬32 ≤ c.rbcnt := by omega
      simp only [DecapsData.cmpDiffNext, hStart, hSt, DecapsCtl.cmpFire, hNot, decide_false,
        Bool.and_false, Bool.false_eq_true, if_false]
    have hMin : min c.rbcnt 32 = c.rbcnt := by omega
    have hMin' : min (c.rbcnt + 1) 32 = c.rbcnt + 1 := by omega
    have hSub : c.rbcnt + 1 - 32 = c.rbcnt - 32 := by omega
    constructor
    · rw [hKprimeNext, hMin', List.range_succ, List.map_append]
      rw [hMin] at hKprime
      exact hKprime.concat (by simpa using hFirst) _
    · rw [hDiffNext, hSub]
      exact hDiff
  · have hPlace : 32 + (c.rbcnt - 32) = c.rbcnt := by omega
    have hKprimeNext : (d.next E c x).kprimeR = d.kprimeR := by
      change d.kprimeRNext E c x = _
      simp only [DecapsData.kprimeRNext, hReg, hSt, hFirst, decide_false, Bool.and_false,
        Bool.false_eq_true, if_false]
    -- The byte of the ciphertext was addressed when the byte before it was compared.
    have hDout : d.cbbDout = m.c.getD (c.rbcnt - 32) 0 := by
      rw [(hRun.whole (by omega)).2, hRun.count]
      exact hCt.cbuf _ (by omega)
    have hDiffNext : (d.next E c x).cmpDiff =
        (d.cmpDiff || (encOf E c m c.rbcnt ^^^ m.c.getD (c.rbcnt - 32) 0) != 0) := by
      change d.cmpDiffNext E c x = _
      have hSecond : 32 ≤ c.rbcnt := Nat.le_of_not_lt hFirst
      simp only [DecapsData.cmpDiffNext, hStart, hSt, DecapsCtl.cmpFire, hOut, hSecond,
        decide_true, Bool.and_self, Bool.false_eq_true, if_true, if_false, hByte, hDout]
    have hSub : c.rbcnt + 1 - 32 = c.rbcnt - 32 + 1 := by omega
    have hMin : min (c.rbcnt + 1) 32 = min c.rbcnt 32 := by omega
    constructor
    · rw [hKprimeNext, hMin]
      exact hKprime
    · rw [hDiffNext, Bool.or_eq_true, hDiff, xor_ne_zero_iff, hSub]
      constructor
      · rintro (⟨i, hi, hNe⟩ | hNe)
        · exact ⟨i, Nat.lt_succ_of_lt hi, hNe⟩
        · exact ⟨c.rbcnt - 32, Nat.lt_succ_self _, by rwa [hPlace]⟩
      · rintro ⟨i, hi, hNe⟩
        obtain hOld | rfl := Nat.lt_succ_iff_lt_or_eq.mp hi
        · exact .inl ⟨i, hOld, hNe⟩
        · rw [hPlace] at hNe
          exact .inr hNe

/-- The bytes are counted, and those of the ciphertext a second time. -/
theorem stepRe_counts (hSt : c.st = .reRun) :
    (c.stepRe x.toDecapsTiming).rbcnt =
        c.rbcnt + (if c.encOut x.toDecapsTiming then 1 else 0) ∧
      (c.stepRe x.toDecapsTiming).cbcnt =
        c.cbcnt + (if c.cmpFire x.toDecapsTiming then 1 else 0) := by
  obtain ⟨-, hR, hC⟩ := stepEk_keeps c x.toDecapsTiming
  rw [DecapsCtl.stepRe, DecapsCtl.cmpFire, hSt]
  cases hOut : c.encOut x.toDecapsTiming with
  | false => exact ⟨hR, hC⟩
  | true =>
    have hCount : (if c.rbcnt < 32 then c.cbcnt else c.cbcnt + 1) =
        c.cbcnt + (if decide (32 ≤ c.rbcnt) then 1 else 0) := by
      by_cases hFirst : c.rbcnt < 32
      · rw [if_pos hFirst, decide_eq_false (Nat.not_le_of_lt hFirst)]
        rfl
      · rw [if_neg hFirst, decide_eq_true (Nat.le_of_not_lt hFirst)]
        rfl
    simp only [decide_true, Bool.true_and, if_true]
    split
    · exact ⟨rfl, hCount⟩
    · exact ⟨rfl, hCount⟩

theorem stepRe_ek (c : DecapsCtl) (t : DecapsTiming) :
    (c.stepRe t).ekpos = (c.stepEk t).ekpos ∧ (c.stepRe t).ekbV = (c.stepEk t).ekbV ∧
      (c.stepRe t).ekbWait = (c.stepEk t).ekbWait := by
  rw [DecapsCtl.stepRe]
  repeat' split
  all_goals exact ⟨rfl, rfl, rfl⟩

/-- Once the whole key has been replayed, its position stays. -/
theorem KeyReplay.stays (hReplay : KeyReplay c d m) (hAll : c.ekpos = eklen c.k) :
    (c.stepEk x.toDecapsTiming).ekpos = eklen c.k := by
  have hNotFire : c.ekFire x.toDecapsTiming = false := by
    cases hFire : c.ekFire x.toDecapsTiming with
    | false => rfl
    | true =>
      simp only [DecapsCtl.ekFire, Bool.and_eq_true] at hFire
      have hLess := (hReplay.loaded hFire.1.2).1
      omega
  simp only [DecapsCtl.stepEk, hNotFire, Bool.false_eq_true, if_false]
  split
  · exact hAll
  · split
    · exact hAll
    · exact hAll

/-- A cycle of the inner core, with or without a byte. -/
theorem Compared.step (hRun : KemReplays E c d m) (hKey : HoldsDk c d m.dk)
    (hCt : HoldsC c d m.c) (hStart : x.start = false) (hSt : c.st = .reRun) :
    Compared E c (d.next E c x) m (c.rbcnt + if c.encOut x.toDecapsTiming then 1 else 0) := by
  cases hOut : c.encOut x.toDecapsTiming with
  | true => exact Compared.next hRun hKey hCt hStart hSt hOut
  | false =>
    have hKprime : (d.next E c x).kprimeR = d.kprimeR := by
      change d.kprimeRNext E c x = _
      simp only [DecapsData.kprimeRNext, regSt_run hStart, hSt, hOut, Bool.false_and,
        Bool.false_eq_true, if_false]
    have hDiff : (d.next E c x).cmpDiff = d.cmpDiff := by
      change d.cmpDiffNext E c x = _
      simp only [DecapsData.cmpDiffNext, hStart, hSt, DecapsCtl.cmpFire, hOut, Bool.and_false,
        Bool.false_and, Bool.false_eq_true, if_false]
    constructor
    · rw [hKprime]
      exact hRun.bytes.key
    · rw [hDiff]
      exact hRun.bytes.diff

theorem KemReplays.next (hRun : KemReplays E c d m) (hKey : HoldsDk c d m.dk)
    (hCt : HoldsC c d m.c) (hStart : x.start = false) (hSt : c.st = .reRun)
    (hMore : (c.next x.toDecapsTiming).rbcnt < clen c.k c.d11 + 32) :
    KemReplays E (c.next x.toDecapsTiming) (d.next E c x) m := by
  obtain ⟨hK, hPs, hD11⟩ := next_keeps (c := c) (x := x) hStart
  have hNext : c.next x.toDecapsTiming =
      { c.stepRe x.toDecapsTiming with nbits := c.nbits } := by
    rw [next_quiet hStart (by simp [hSt]) (by simp [hSt])]
    simp only [DecapsCtl.step, hSt]
  have hCounts : (c.next x.toDecapsTiming).rbcnt =
        c.rbcnt + (if c.encOut x.toDecapsTiming then 1 else 0) ∧
      (c.next x.toDecapsTiming).cbcnt =
        c.cbcnt + (if c.cmpFire x.toDecapsTiming then 1 else 0) := by
    rw [hNext]
    exact stepRe_counts hSt
  obtain ⟨hR, hC⟩ := hCounts
  have hEk : (c.next x.toDecapsTiming).ekpos = (c.stepEk x.toDecapsTiming).ekpos ∧
      (c.next x.toDecapsTiming).ekbV = (c.stepEk x.toDecapsTiming).ekbV ∧
      (c.next x.toDecapsTiming).ekbWait = (c.stepEk x.toDecapsTiming).ekbWait := by
    rw [hNext]
    exact stepRe_ek c x.toDecapsTiming
  obtain ⟨hEkpos, hEkbV, hEkbWait⟩ := hEk
  have hMsg : messageOf E (c.next x.toDecapsTiming) m = messageOf E c m := by
    rw [messageOf, messageOf, hK, hD11]
  have hEncOf : encOf E (c.next x.toDecapsTiming) m = encOf E c m := by
    funext i
    rw [encOf, encOf, hPs, hMsg, ekOf, ekOf, hK]
  have hEnc : (d.next E c x).enc.ps = d.enc.ps ∧ (d.next E c x).enc.m = d.enc.m ∧
      (d.next E c x).enc.given =
        d.enc.given + if c.encOut x.toDecapsTiming then 1 else 0 := by
    change (d.encNext c x).ps = _ ∧ (d.encNext c x).m = _ ∧ (d.encNext c x).given = _
    rw [DecapsData.encNext, if_neg (by simp [hSt])]
    refine ⟨rfl, rfl, ?_⟩
    dsimp only
    split
    · rfl
    · rfl
  have hCbuf : (d.next E c x).cbuf = d.cbuf := by
    change d.cbufNext c x = d.cbuf
    rw [DecapsData.cbufNext, DecapsCtl.cFire, hSt]
    rfl
  have hDout : (d.next E c x).cbbDout =
      d.cbuf (c.cbcnt + if c.cmpFire x.toDecapsTiming then 1 else 0) := by
    change d.cbuf (DecapsData.cbbAddr c x) = _
    rw [DecapsData.cbbAddr, if_pos hSt]
  have hCmp : c.cmpFire x.toDecapsTiming =
      (c.encOut x.toDecapsTiming && decide (32 ≤ c.rbcnt)) := by
    rw [DecapsCtl.cmpFire, hSt]
    rfl
  have hBytes := Compared.step hRun hKey hCt hStart hSt
  constructor
  · rw [hEnc.1, hPs]
    exact hRun.ps
  · rw [hEnc.2.1, hMsg]
    exact hRun.msg
  · exact hRun.replay.next hKey hStart hSt hK hEkpos hEkbV hEkbWait
  · rw [hEnc.2.2, hRun.given, hR]
  · rw [hK, hD11]
    exact hMore
  · rw [hR, hC, hEkpos, hK, hDout, hCbuf]
    intro hPositive
    refine ⟨hRun.replay.stays ?_, rfl⟩
    cases hOut : c.encOut x.toDecapsTiming with
    | true =>
      simp only [DecapsCtl.encOut, Bool.and_eq_true, decide_eq_true_eq] at hOut
      exact hOut.2
    | false =>
      rw [hOut, if_neg Bool.false_ne_true] at hPositive
      exact (hRun.whole hPositive).1
  · rw [hR, hC, hRun.count, hCmp]
    by_cases hFirst : c.rbcnt < 32
    · rw [decide_eq_false (Nat.not_le_of_lt hFirst), Bool.and_false, if_neg Bool.false_ne_true]
      split
      · omega
      · omega
    · rw [decide_eq_true (Nat.le_of_not_lt hFirst), Bool.and_true]
      split
      · omega
      · omega
  · rw [hR]
    constructor
    · rw [hEncOf]
      exact hBytes.key
    · rw [hEncOf]
      exact hBytes.diff

/-- The state is left with the last byte. -/
theorem stepRe_st (hSt : c.st = .reRun) :
    (c.stepRe x.toDecapsTiming).st =
      if c.encOut x.toDecapsTiming ∧ c.rbcnt + 1 = clen c.k c.d11 + 32 then .out else .reRun := by
  obtain ⟨hEkSt, -, -⟩ := stepEk_keeps c x.toDecapsTiming
  rw [DecapsCtl.stepRe]
  cases hOut : c.encOut x.toDecapsTiming with
  | false => exact hEkSt.trans hSt
  | true =>
    simp only [if_true, true_and]
    split
    · rfl
    · exact hEkSt.trans hSt

theorem inv_reRun (hStart : x.start = false) (hSt : c.st = .reRun) (hInv : InvAt E c d m .reRun) :
    Steps E c d m x := by
  obtain ⟨hReady, hEmpty, hRun⟩ := hInv
  have hReadyNext := hReady.next hStart (by simp [hSt]) (by simp [hSt]) (by simp [hSt])
  have hEmptyNext := hEmpty.next (E := E) (x := x) (by simp [hSt]) (by simp [hSt])
  have hNext : c.next x.toDecapsTiming =
      { c.stepRe x.toDecapsTiming with nbits := c.nbits } := by
    rw [next_quiet hStart (by simp [hSt]) (by simp [hSt])]
    simp only [DecapsCtl.step, hSt]
  have hStNext : (c.next x.toDecapsTiming).st =
      if c.encOut x.toDecapsTiming ∧ c.rbcnt + 1 = clen c.k c.d11 + 32 then .out else .reRun := by
    rw [hNext]
    exact stepRe_st hSt
  have hR : (c.next x.toDecapsTiming).rbcnt =
      c.rbcnt + (if c.encOut x.toDecapsTiming then 1 else 0) := by
    rw [hNext]
    exact (stepRe_counts hSt).1
  have hMore := hRun.more
  rw [Steps, see_quiet hStart (by simp [hSt]) (by simp [hSt]) (by simp [hSt]), hStNext]
  by_cases hLast : c.encOut x.toDecapsTiming ∧ c.rbcnt + 1 = clen c.k c.d11 + 32
  · obtain ⟨hOut, hCount⟩ := hLast
    rw [if_pos ⟨hOut, hCount⟩]
    obtain ⟨hKprime, hDiff⟩ := Compared.next hRun hReady.has.key hReady.ct hStart hSt hOut
    have hKbar : (d.next E c x).kbarR = d.kbarR := by
      change d.kbarRNext E c x = _
      simp only [DecapsData.kbarRNext, regSt_run hStart, hSt]
    have hMin : min (c.rbcnt + 1) 32 = 32 := by omega
    have hSub : c.rbcnt + 1 - 32 = clen c.k c.d11 := by omega
    rw [hMin] at hKprime
    rw [hSub] at hDiff
    have hOcnt : (c.next x.toDecapsTiming).ocnt = 0 := by
      simp only [hNext, DecapsCtl.stepRe, hOut, hCount, if_true]
    obtain ⟨hK, hPs, hD11⟩ := next_keeps (c := c) (x := x) hStart
    have hKeyOf : keyOf E (c.next x.toDecapsTiming) m = keyOf E c m := by rw [keyOf, keyOf, hPs]
    refine ⟨⟨hReadyNext.has.sized, hEmptyNext, hReadyNext.has.key.length, hReadyNext.ct.length⟩,
      ?_, ?_, ?_⟩
    · rw [hOcnt]
      exact Nat.zero_lt_succ 31
    · rw [hKeyOf]
      intro i hi
      apply kout_key hReady.has.sized hReady.ct.length _ _ hDiff hi
      · rw [hKbar]
        exact hReady.kbar
      · intro j hj
        rw [hKprime.whole (by simp) hj, getD_map_range _ hj]
    · rw [hOcnt, List.take_zero]
      exact hReady.has.out
  · rw [if_neg hLast]
    refine ⟨hReadyNext, hEmptyNext, hRun.next hReady.has.key hReady.ct hStart hSt ?_⟩
    rw [hR]
    cases hOut : c.encOut x.toDecapsTiming with
    | false => exact hMore
    | true =>
      have hNot : c.rbcnt + 1 ≠ clen c.k c.d11 + 32 := fun hEq => hLast ⟨hOut, hEq⟩
      rw [if_pos rfl]
      omega

/-! ### The key comes out -/

theorem Chosen.next (hChosen : Chosen c d m) (hStart : x.start = false)
    (hSt : c.st = .out ∨ c.st = .done) (m' : DecapsLog) (hDk : m'.dk = m.dk) (hC : m'.c = m.c) :
    Chosen (c.next x.toDecapsTiming) (d.next E c x) m' := by
  obtain ⟨hK, hPs, hD11⟩ := next_keeps (c := c) (x := x) hStart
  obtain ⟨hSized, hEmpty, hDkLength, hCLength⟩ := hChosen
  constructor
  · constructor
    · rw [hK, hPs]
      exact hSized.1
    · rw [hD11, hPs]
      exact hSized.2
  · apply hEmpty.next
    · obtain hSt | hSt := hSt
      · simp [hSt]
      · simp [hSt]
    · obtain hSt | hSt := hSt
      · simp [hSt]
      · simp [hSt]
  · rw [hDk, hK]
    exact hDkLength
  · rw [hC, hK, hD11]
    exact hCLength

theorem inv_out (hStart : x.start = false) (hSt : c.st = .out) (hInv : InvAt E c d m .out) :
    Steps E c d m x := by
  obtain ⟨hChosen, hLess, hKey, hOut⟩ := hInv
  have hRun := next_quiet (c := c) hStart (by simp [hSt]) (by simp [hSt])
  have hDkFire : c.dkFire x.toDecapsTiming = false := by
    rw [DecapsCtl.dkFire, hSt]
    rfl
  have hCFire : c.cFire x.toDecapsTiming = false := by
    rw [DecapsCtl.cFire, hSt]
    rfl
  have hKout : (d.next E c x).kout = d.kout := by
    have hReg := regSt_run (c := c) hStart
    have hKprime : (d.next E c x).kprimeR = d.kprimeR := by
      change d.kprimeRNext E c x = _
      simp only [DecapsData.kprimeRNext, hReg, hSt]
    have hKbar : (d.next E c x).kbarR = d.kbarR := by
      change d.kbarRNext E c x = _
      simp only [DecapsData.kbarRNext, hReg, hSt]
    have hDiff : (d.next E c x).cmpDiff = d.cmpDiff := by
      change d.cmpDiffNext E c x = _
      simp only [DecapsData.cmpDiffNext, hStart, hSt, Bool.false_eq_true, if_false]
    rw [kout_eq, kout_eq, hKprime, hKbar, hDiff]
  rw [Steps]
  cases hFire : c.outFire x.toDecapsTiming with
  | false =>
    have hStay : c.step x.toDecapsTiming = c := by
      simp only [DecapsCtl.step, hSt, hFire, Bool.false_eq_true, if_false]
    have hSee : m.see ⟨c, d⟩ x = m := by
      simp only [DecapsLog.see, hStart, hFire, hDkFire, hCFire, Bool.false_eq_true, if_false]
    have hChosenNext := hChosen.next (E := E) hStart (.inl hSt) m rfl rfl
    have hStNext : (c.next x.toDecapsTiming).st = .out := by
      rw [hRun, hStay]
      exact hSt
    rw [hSee, hStNext]
    rw [hRun, hStay] at hChosenNext ⊢
    refine ⟨hChosenNext, hLess, ?_, hOut⟩
    rw [hKout]
    exact hKey
  | true =>
    have hSee : m.see ⟨c, d⟩ x = ⟨m.ps, m.dk, m.c, m.out ++ [d.outData c]⟩ := by
      simp only [DecapsLog.see, hStart, hFire, hDkFire, hCFire, Bool.false_eq_true, if_false,
        if_true]
    have hTake : m.out ++ [d.outData c] = (keyOf E c m).take (c.ocnt + 1) := by
      have hInside : c.ocnt < (keyOf E c m).length := by
        rw [length_keyOf]
        exact hLess
      rw [hOut, DecapsData.outData, hKey c.ocnt hLess, List.take_add_one,
        List.getElem?_eq_getElem hInside, List.getD_eq_getElem _ _ hInside]
      rfl
    have hChosenNext := hChosen.next (E := E) (x := x) hStart (.inl hSt)
      ⟨m.ps, m.dk, m.c, m.out ++ [d.outData c]⟩ rfl rfl
    rw [hSee]
    by_cases hLast : c.ocnt = 31
    · have hStep : c.step x.toDecapsTiming = { c with ocnt := c.ocnt + 1, st := .done } := by
        simp only [DecapsCtl.step, hSt, hFire, hLast, if_true]
      rw [hRun, hStep] at hChosenNext ⊢
      refine ⟨hChosenNext, hTake.trans ?_⟩
      exact List.take_of_length_le (by rw [length_keyOf, hLast])
    · have hStep : c.step x.toDecapsTiming = { c with ocnt := c.ocnt + 1 } := by
        simp only [DecapsCtl.step, hSt, hFire, hLast, if_true, if_false]
      have hStNext : (c.next x.toDecapsTiming).st = .out := by
        rw [hRun, hStep]
        exact hSt
      rw [hStNext]
      rw [hRun, hStep] at hChosenNext ⊢
      refine ⟨hChosenNext, ?_, ?_, hTake⟩
      · change c.ocnt + 1 < 32
        omega
      · rw [hKout]
        exact hKey

theorem inv_done (hStart : x.start = false) (hSt : c.st = .done) (hInv : InvAt E c d m .done) :
    Steps E c d m x := by
  obtain ⟨hChosen, -⟩ := hInv
  have hStNext : (c.next x.toDecapsTiming).st = .idle := by
    rw [next_quiet hStart (by simp [hSt]) (by simp [hSt])]
    simp only [DecapsCtl.step, hSt]
  rw [Steps, hStNext]
  exact hChosen.empty.next (by simp [hSt]) (by simp [hSt])

/-- Every step keeps what the states rely on. -/
theorem inv_step (hIdle : x.start = true → c.st = .idle) (hInv : InvAt E c d m c.st) :
    Steps E c d m x := by
  cases hStart : x.start with
  | true =>
    have hSt := hIdle hStart
    rw [hSt] at hInv
    exact inv_start hStart hInv hSt
  | false =>
    cases hSt : c.st with
    | idle => exact inv_idle hStart hSt (hSt ▸ hInv)
    | hekStart => exact inv_hekStart hStart hSt (hSt ▸ hInv)
    | dkIn => exact inv_dkIn hStart hSt (hSt ▸ hInv)
    | hekFlush => exact inv_hekFlush hStart hSt (hSt ▸ hInv)
    | hekSq => exact inv_hekSq hStart hSt (hSt ▸ hInv)
    | jStart => exact inv_jStart hStart hSt (hSt ▸ hInv)
    | jZ => exact inv_jZ hStart hSt (hSt ▸ hInv)
    | cIn => exact inv_cIn hStart hSt (hSt ▸ hInv)
    | jFlush => exact inv_jFlush hStart hSt (hSt ▸ hInv)
    | jSq => exact inv_jSq hStart hSt (hSt ▸ hInv)
    | accClr => exact inv_accClr hStart hSt (hSt ▸ hInv)
    | uWait => exact inv_uWait hStart hSt (hSt ▸ hInv)
    | uStep => exact inv_uStep hStart hSt (hSt ▸ hInv)
    | uNtt => exact inv_uNtt hStart hSt (hSt ▸ hInv)
    | macA0 => exact inv_macA0 hStart hSt (hSt ▸ hInv)
    | macA1 => exact inv_macA1 hStart hSt (hSt ▸ hInv)
    | macC => exact inv_macC hStart hSt (hSt ▸ hInv)
    | macM => exact inv_macM hStart hSt (hSt ▸ hInv)
    | macT => exact inv_macT hStart hSt (hSt ▸ hInv)
    | macW0 => exact inv_macW0 hStart hSt (hSt ▸ hInv)
    | macW1 => exact inv_macW1 hStart hSt (hSt ▸ hInv)
    | a2nRd => exact inv_a2nRd hStart hSt (hSt ▸ hInv)
    | a2n => exact inv_a2n hStart hSt (hSt ▸ hInv)
    | inv => exact inv_inv hStart hSt (hSt ▸ hInv)
    | vWait => exact inv_vWait hStart hSt (hSt ▸ hInv)
    | vStep => exact inv_vStep hStart hSt (hSt ▸ hInv)
    | vW => exact inv_vW hStart hSt (hSt ▸ hInv)
    | vBit => exact inv_vBit hStart hSt (hSt ▸ hInv)
    | reStart => exact inv_reStart hStart hSt (hSt ▸ hInv)
    | reRun => exact inv_reRun hStart hSt (hSt ▸ hInv)
    | out => exact inv_out hStart hSt (hSt ▸ hInv)
    | done => exact inv_done hStart hSt (hSt ▸ hInv)

end

end PqcHsm
