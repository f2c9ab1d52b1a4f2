import PqcHsm.Rtl.DecapsInvariant

/-!
# The decryption

The steps of `mlkem_decaps` from the accumulator that is cleared to the last bit of the message.
-/

namespace PqcHsm

open MlKem

variable {E : Cores} {c c' : DecapsCtl} {d d' : DecapsData} {m : DecapsLog} {x : DecapsIn}

/-! ### What a step leaves alone -/

theorem bank_quiet (hDk : c.st ≠ .dkIn) (hClr : c.st ≠ .accClr) (hW0 : c.st ≠ .macW0)
    (hW1 : c.st ≠ .macW1) : (d.next E c x).bank = d.bank := by
  change d.bankNext c x = d.bank
  rw [DecapsData.bankNext]
  cases hCase : c.st with
  | dkIn => exact absurd hCase hDk
  | accClr => exact absurd hCase hClr
  | macW0 => exact absurd hCase hW0
  | macW1 => exact absurd hCase hW1
  | _ => rfl

theorem nttMem_quiet (hU : c.st ≠ .uStep) (hA2n : c.st ≠ .a2n) (hFwd : c.st ≠ .uNtt)
    (hInv : c.st ≠ .inv) : (d.next E c x).nttMem = d.nttMem := by
  change d.nttMemNext E c = d.nttMem
  rw [DecapsData.nttMemNext]
  cases hCase : c.st with
  | uStep => exact absurd hCase hU
  | a2n => exact absurd hCase hA2n
  | uNtt => exact absurd hCase hFwd
  | inv => exact absurd hCase hInv
  | _ => rfl

theorem buAcc_quiet (hU : c.st ≠ .uStep) (hV : c.st ≠ .vStep) : (d.next E c x).buAcc = d.buAcc := by
  change d.buAccNext c = d.buAcc
  rw [DecapsData.buAccNext]
  split
  · exact absurd ‹_› hU
  · exact absurd ‹_› hV
  · rfl

theorem mR_quiet (hStart : x.start = false) (hBit : c.st ≠ .vBit) : (d.next E c x).mR = d.mR := by
  change d.mRNext c x = d.mR
  rw [DecapsData.mRNext, regSt_run hStart]
  split
  · exact absurd ‹_› hBit
  · rfl

/-- The buffer of the ciphertext is read at the position of the unpacker. -/
theorem cbbDout_next (hCt : HoldsC c d m.c) (hRe : c.st ≠ .reRun)
    (hInside : c.cpos < clen c.k c.d11) :
    (d.next E c x).cbbDout = m.c.getD c.cpos 0 := by
  change d.cbuf (DecapsData.cbbAddr c x) = _
  rw [DecapsData.cbbAddr, if_neg hRe]
  exact hCt.cbuf c.cpos hInside

theorem toNat_index {i : Nat} (hi : i < 256) : (BitVec.ofNat 8 i).toNat = i := Nat.mod_eq_of_lt hi

/-- All coefficients but this one have been written, and now it is. -/
theorem update_upto {f g : Poly} {i : Nat} (hi : i < 256)
    (hOld : ∀ n : BitVec 8, n.toNat < i → f n = g n)
    (n : BitVec 8) (hn : n.toNat < i + 1) :
    Function.update f (BitVec.ofNat 8 i) (g (BitVec.ofNat 8 i)) n = g n := by
  by_cases hLast : n = BitVec.ofNat 8 i
  · rw [hLast, Function.update_self]
  · have hNe : n.toNat ≠ i := by
      intro hEq
      exact hLast (BitVec.eq_of_toNat_eq (hEq.trans (toNat_index hi).symm))
    rw [Function.update_of_ne hLast]
    exact hOld n (by omega)

theorem length_c1 (hCt : HoldsC c d m.c) :
    (m.c.take (c1len c.k c.d11)).length = c1len c.k c.d11 := by
  have hLength := hCt.length
  rw [clen] at hLength
  rw [List.length_take]
  omega

theorem length_c2 (hCt : HoldsC c d m.c) : (m.c.drop (c1len c.k c.d11)).length = 32 * dv c.d11 := by
  have hLength := hCt.length
  rw [clen] at hLength
  rw [List.length_drop]
  omega

theorem bits_c1 (k : Nat) (d11 : Bool) : du d11 * (256 * k) = 8 * c1len k d11 := by
  cases d11 with
  | false =>
    change 10 * (256 * k) = 8 * (256 * k + 64 * k + 0)
    omega
  | true =>
    change 11 * (256 * k) = 8 * (256 * k + 64 * k + 32 * k)
    omega

/-! ### The polynomials of the ciphertext -/

theorem UOut.keep (hOut : UOut c d m) (hIdx : c'.idxI = c.idxI) (hK : c'.k = c.k)
    (hD11 : c'.d11 = c.d11) (hPhase : c'.vPhase = c.vPhase) (hCpos : c'.cpos = c.cpos)
    (hNbits : c'.nbits = c.nbits) (hAcc : d'.buAcc = d.buAcc) : UOut c' d' m := by
  obtain ⟨hLess, hFirst, hBits⟩ := hOut
  constructor
  · rw [hIdx, hK]
    exact hLess
  · exact hPhase.trans hFirst
  · rw [hK, hD11, hCpos, hIdx, hAcc, hNbits]
    exact hBits

theorem inv_accClr (hStart : x.start = false) (hSt : c.st = .accClr)
    (hInv : InvAt E c d m .accClr) : Steps E c d m x := by
  obtain ⟨hReady, hEmpty, hLess, hZero⟩ := hInv
  have hReadyNext := hReady.next hStart (by simp [hSt]) (by simp [hSt]) (by simp [hSt])
  have hEmptyNext := hEmpty.next (E := E) (x := x) (by simp [hSt]) (by simp [hSt])
  have hRun := next_quiet (c := c) hStart (by simp [hSt]) (by simp [hSt])
  have hBank : (d.next E c x).bank slAcc =
      Function.update (d.bank slAcc) (BitVec.ofNat 8 c.acnt) 0 := by
    change d.bankNext c x slAcc = _
    simp only [DecapsData.bankNext, hSt, writeBank_same]
  have hZeroNext (n : BitVec 8) (hn : n.toNat < c.acnt + 1) : (d.next E c x).bank slAcc n = 0 := by
    rw [hBank]
    exact update_upto (g := fun _ => 0) hLess hZero n hn
  rw [Steps, see_quiet hStart (by simp [hSt]) (by simp [hSt]) (by simp [hSt])]
  by_cases hLast : c.acnt = 255
  · have hStep : c.step x.toDecapsTiming =
        { c with acnt := 0, cpos := 0, ucnt := 0, idxI := 0, vPhase := false, st := .uWait } := by
      simp only [DecapsCtl.step, hSt, hLast, if_true]
    have hPositive : 0 < c.k := by
      have hBounds := kNow_bounds c.ps
      rw [hReady.has.sized.1]
      omega
    rw [hRun, hStep] at hReadyNext hEmptyNext ⊢
    refine ⟨hReadyNext, ⟨hPositive, Nat.zero_lt_succ 255, rfl, ?_, ?_, ?_⟩⟩
    · funext n
      have hn := n.isLt
      exact hZeroNext n (by omega)
    · intro n hn
      exact absurd hn (Nat.not_lt_zero _)
    · rw [hEmptyNext.1, hEmptyNext.2]
      exact Unpacks.start _ _
  · have hStep : c.step x.toDecapsTiming = { c with acnt := c.acnt + 1 } := by
      simp only [DecapsCtl.step, hSt, hLast, if_false]
    have hStNext : (c.next x.toDecapsTiming).st = .accClr := by
      rw [hRun, hStep]
      exact hSt
    rw [hStNext]
    rw [hRun, hStep] at hReadyNext hEmptyNext ⊢
    refine ⟨hReadyNext, hEmptyNext, ?_, hZeroNext⟩
    change c.acnt + 1 < 256
    omega

theorem inv_uWait (hStart : x.start = false) (hSt : c.st = .uWait) (hInv : InvAt E c d m .uWait) :
    Steps E c d m x := by
  obtain ⟨hReady, hIn⟩ := hInv
  have hReadyNext := hReady.next hStart (by simp [hSt]) (by simp [hSt]) (by simp [hSt])
  have hNext : c.next x.toDecapsTiming = { c with st := .uStep } := by
    rw [next_quiet hStart (by simp [hSt]) (by simp [hSt])]
    simp only [DecapsCtl.step, hSt]
  have hBank := bank_quiet (c := c) (d := d) (E := E) (x := x) (by simp [hSt]) (by simp [hSt])
    (by simp [hSt]) (by simp [hSt])
  have hMem := nttMem_quiet (c := c) (d := d) (E := E) (x := x) (by simp [hSt]) (by simp [hSt])
    (by simp [hSt]) (by simp [hSt])
  have hAcc := buAcc_quiet (c := c) (d := d) (E := E) (x := x) (by simp [hSt]) (by simp [hSt])
  rw [Steps, see_quiet hStart (by simp [hSt]) (by simp [hSt]) (by simp [hSt])]
  rw [hNext] at hReadyNext ⊢
  refine ⟨hReadyNext, ⟨hIn.idx, hIn.coef, hIn.phase, ?_, ?_, ?_⟩, ?_⟩
  · rw [hBank]
    exact hIn.acc
  · rw [hMem]
    exact hIn.poly
  · rw [hAcc]
    exact hIn.bits
  · exact cbbDout_next hReady.ct (by simp [hSt])

theorem UIn.buD (hIn : UIn E c d m) : c.buD = du c.d11 := by
  rw [DecapsCtl.buD, hIn.phase]
  rfl

/-- The field that is there is the next coefficient. -/
theorem UIn.take (hIn : UIn E c d m) (hValid : du c.d11 ≤ c.nbits) (n : BitVec 8)
    (hn : n.toNat < c.ucnt + 1) :
    Function.update d.nttMem (BitVec.ofNat 8 c.ucnt) (decompress (du c.d11) (d.buOutData c)) n =
      uOf c m c.idxI n := by
  have hCoef : decompress (du c.d11) (d.buOutData c) = uOf c m c.idxI (BitVec.ofNat 8 c.ucnt) := by
    rw [DecapsData.buOutData, hIn.buD, hIn.bits.field hValid, uOf, uPoly, toNat_index hIn.coef]
  rw [hCoef]
  exact update_upto hIn.coef hIn.poly n hn

/-- A byte is wanted only if there is one. -/
theorem UIn.inside (hIn : UIn E c d m) (hCt : HoldsC c d m.c) (hFew : ¬du c.d11 ≤ c.nbits) :
    c.cpos < (m.c.take (c1len c.k c.d11)).length := by
  have hIndex := hIn.idx
  have hCoef := hIn.coef
  have hRoom := hIn.bits.room
  have hLength := length_c1 hCt
  have hAll := bits_c1 c.k c.d11
  have hMore : du c.d11 * (256 * c.idxI + c.ucnt + 1) ≤ du c.d11 * (256 * c.k) :=
    Nat.mul_le_mul_left _ (by omega)
  rw [Nat.mul_succ] at hMore
  omega

theorem inv_uStep (hStart : x.start = false) (hSt : c.st = .uStep) (hInv : InvAt E c d m .uStep) :
    Steps E c d m x := by
  obtain ⟨hReady, hIn, hDout⟩ := hInv
  have hReadyNext := hReady.next hStart (by simp [hSt]) (by simp [hSt]) (by simp [hSt])
  have hBank := bank_quiet (c := c) (d := d) (E := E) (x := x) (by simp [hSt]) (by simp [hSt])
    (by simp [hSt]) (by simp [hSt])
  have hD := hIn.buD
  have hRun : c.next x.toDecapsTiming = { c.step x.toDecapsTiming with nbits := c.nbitsNext } := by
    rw [DecapsCtl.next, hStart, if_neg Bool.false_ne_true]
  have hIndex := hIn.idx
  have hCoef := hIn.coef
  have hDoutNext (hInside : c.cpos < clen c.k c.d11) := cbbDout_next (E := E) (x := x) hReady.ct
    (by simp [hSt]) hInside
  rw [Steps, see_quiet hStart (by simp [hSt]) (by simp [hSt]) (by simp [hSt])]
  by_cases hValid : du c.d11 ≤ c.nbits
  · have hOutValid : c.buOutValid = true := by
      rw [DecapsCtl.buOutValid, hD]
      exact decide_eq_true hValid
    have hBits : c.nbitsNext = c.nbits - du c.d11 := by
      simp only [DecapsCtl.nbitsNext, hSt, hOutValid, if_true, hD]
    have hAcc : (d.next E c x).buAcc = d.buAcc >>> du c.d11 := by
      change d.buAccNext c = _
      simp only [DecapsData.buAccNext, hSt, hOutValid, if_true, hD]
    have hMem : (d.next E c x).nttMem = Function.update d.nttMem (BitVec.ofNat 8 c.ucnt)
        (decompress (du c.d11) (d.buOutData c)) := by
      change d.nttMemNext E c = _
      simp only [DecapsData.nttMemNext, hSt, hOutValid, if_true]
    have hPop := hIn.bits.pop hValid
    by_cases hLast : c.ucnt = 255
    · have hStep : c.step x.toDecapsTiming =
          { c with ucnt := 0, nttKicked := false, nttInverse := false, st := .uNtt } := by
        simp only [DecapsCtl.step, hSt, hOutValid, hLast, if_true]
      have hCount : 256 * c.idxI + c.ucnt + 1 = 256 * (c.idxI + 1) := by omega
      rw [hRun, hStep, hBits] at hReadyNext ⊢
      refine ⟨hReadyNext, ⟨hIndex, hIn.phase, ?_⟩, ?_, rfl, ?_⟩
      · rw [hAcc]
        rw [hCount] at hPop
        exact hPop
      · rw [hBank]
        exact hIn.acc
      · rw [hMem, if_neg Bool.false_ne_true]
        funext n
        have hn := n.isLt
        exact hIn.take hValid n (by omega)
    · have hStep : c.step x.toDecapsTiming = { c with ucnt := c.ucnt + 1 } := by
        simp only [DecapsCtl.step, hSt, hOutValid, hLast, if_true, if_false]
      have hStNext : (c.next x.toDecapsTiming).st = .uStep := by
        rw [hRun, hStep]
        exact hSt
      rw [hStNext]
      rw [hRun, hStep, hBits] at hReadyNext ⊢
      refine ⟨hReadyNext, ⟨hIndex, ?_, hIn.phase, ?_, ?_, ?_⟩, ?_⟩
      · change c.ucnt + 1 < 256
        omega
      · rw [hBank]
        exact hIn.acc
      · rw [hMem]
        exact hIn.take hValid
      · rw [hAcc]
        exact hPop
      · exact hDoutNext
  · have hOutValid : c.buOutValid = false := by
      rw [DecapsCtl.buOutValid, hD]
      exact decide_eq_false hValid
    have hStep : c.step x.toDecapsTiming = { c with cpos := c.cpos + 1, st := .uWait } := by
      simp only [DecapsCtl.step, hSt, hOutValid, Bool.false_eq_true, if_false]
    have hBits : c.nbitsNext = c.nbits + 8 := by
      simp only [DecapsCtl.nbitsNext, hSt, hOutValid, Bool.false_eq_true, if_false]
    have hAcc : (d.next E c x).buAcc = d.buAcc ||| (d.cbbDout.toNat <<< c.nbits) := by
      change d.buAccNext c = _
      simp only [DecapsData.buAccNext, hSt, hOutValid, Bool.false_eq_true, if_false]
    have hMem : (d.next E c x).nttMem = d.nttMem := by
      change d.nttMemNext E c = _
      simp only [DecapsData.nttMemNext, hSt, hOutValid, Bool.false_eq_true, if_false]
    have hLength := length_c1 hReady.ct
    have hInside := hIn.inside hReady.ct hValid
    have hByte : (m.c.take (c1len c.k c.d11))[c.cpos] = d.cbbDout := by
      have hWhole := hReady.ct.length
      rw [clen] at hWhole
      have hPos : c.cpos < m.c.length := by omega
      rw [hDout (by rw [clen]; omega), List.getElem_take, List.getD_eq_getElem _ _ hPos]
    have hFeed := hIn.bits.feed hInside
    rw [hByte] at hFeed
    rw [hRun, hStep, hBits] at hReadyNext ⊢
    refine ⟨hReadyNext, ⟨hIndex, hCoef, hIn.phase, ?_, ?_, ?_⟩⟩
    · rw [hBank]
      exact hIn.acc
    · rw [hMem]
      exact hIn.poly
    · rw [hAcc]
      exact hFeed

theorem inv_uNtt (hStart : x.start = false) (hSt : c.st = .uNtt) (hInv : InvAt E c d m .uNtt) :
    Steps E c d m x := by
  obtain ⟨hReady, hOut, hAcc, hForward, hMem⟩ := hInv
  have hReadyNext := hReady.next hStart (by simp [hSt]) (by simp [hSt]) (by simp [hSt])
  have hRun := next_quiet (c := c) hStart (by simp [hSt]) (by simp [hSt])
  have hBank := bank_quiet (c := c) (d := d) (E := E) (x := x) (by simp [hSt]) (by simp [hSt])
    (by simp [hSt]) (by simp [hSt])
  have hBuAcc := buAcc_quiet (c := c) (d := d) (E := E) (x := x) (by simp [hSt]) (by simp [hSt])
  have hMemNext : (d.next E c x).nttMem = uHatOf E c m c.idxI := by
    change d.nttMemNext E c = _
    simp only [DecapsData.nttMemNext, hSt, DecapsCtl.nttStart, decide_true, Bool.true_or,
      Bool.true_and, hForward]
    cases hKicked : c.nttKicked with
    | false =>
      rw [hKicked, if_neg Bool.false_ne_true] at hMem
      rw [hMem]
      rfl
    | true =>
      rw [hKicked, if_pos rfl] at hMem
      exact hMem
  rw [Steps, see_quiet hStart (by simp [hSt]) (by simp [hSt]) (by simp [hSt])]
  cases hDone : x.nttDone && c.nttKicked with
  | true =>
    have hStep : c.step x.toDecapsTiming = { c with pair := 0, st := .macA0 } := by
      simp only [DecapsCtl.step, hSt, hDone, if_true]
    rw [hRun, hStep] at hReadyNext ⊢
    refine ⟨hReadyNext,
      ⟨hOut.keep rfl rfl rfl rfl rfl rfl hBuAcc, Nat.zero_lt_succ 127, hMemNext, ?_, ?_⟩⟩
    · intro n hn
      exact absurd hn (Nat.not_lt_zero _)
    · intro n _
      rw [hBank, hAcc]
      rfl
  | false =>
    have hStep : c.step x.toDecapsTiming = { c with nttKicked := true } := by
      simp only [DecapsCtl.step, hSt, hDone, Bool.false_eq_true, if_false]
    have hStNext : (c.next x.toDecapsTiming).st = .uNtt := by
      rw [hRun, hStep]
      exact hSt
    rw [hStNext]
    rw [hRun, hStep] at hReadyNext ⊢
    refine ⟨hReadyNext, hOut.keep rfl rfl rfl rfl rfl rfl hBuAcc, ?_, hForward, ?_⟩
    · rw [hBank]
      exact hAcc
    · rw [hMemNext, if_pos rfl]
      rfl

/-! ### The product -/

theorem MacAt.keep {done : BitVec 8 → Prop} (hMac : MacAt E c d m done) (hIdx : c'.idxI = c.idxI)
    (hK : c'.k = c.k) (hD11 : c'.d11 = c.d11) (hPhase : c'.vPhase = c.vPhase)
    (hCpos : c'.cpos = c.cpos) (hNbits : c'.nbits = c.nbits) (hPair : c'.pair = c.pair)
    (hAcc : d'.buAcc = d.buAcc) (hMem : d'.nttMem = d.nttMem) (hBank : d'.bank = d.bank) :
    MacAt E c' d' m done := by
  obtain ⟨hOut, hLess, hNtt, hNew, hOld⟩ := hMac
  constructor
  · exact hOut.keep hIdx hK hD11 hPhase hCpos hNbits hAcc
  · rw [hPair]
    exact hLess
  · rw [hMem, hNtt, uHatOf, uHatOf, uOf, uOf, hK, hD11, hIdx]
  · rw [hBank, hIdx, accOf, hK, hD11]
    exact hNew
  · rw [hBank, hIdx, accOf, hK, hD11]
    exact hOld

theorem toNat_macE (hPair : c.pair < 128) : (macE c).toNat = 2 * c.pair := toNat_index (by omega)

theorem toNat_macO (hPair : c.pair < 128) : (macO c).toNat = 2 * c.pair + 1 :=
  toNat_index (by omega)

theorem macE_fresh (hPair : c.pair < 128) : ¬pairsBefore c (macE c) := by
  rw [pairsBefore, toNat_macE hPair]
  omega

theorem macO_fresh (hPair : c.pair < 128) : ¬pairsBefore c (macO c) := by
  rw [pairsBefore, toNat_macO hPair]
  omega

theorem inv_macA0 (hStart : x.start = false) (hSt : c.st = .macA0) (hInv : InvAt E c d m .macA0) :
    Steps E c d m x := by
  obtain ⟨hReady, hMac⟩ := hInv
  have hReadyNext := hReady.next hStart (by simp [hSt]) (by simp [hSt]) (by simp [hSt])
  have hNext : c.next x.toDecapsTiming = { c with st := .macA1 } := by
    rw [next_quiet hStart (by simp [hSt]) (by simp [hSt])]
    simp only [DecapsCtl.step, hSt]
  have hBank := bank_quiet (c := c) (d := d) (E := E) (x := x) (by simp [hSt]) (by simp [hSt])
    (by simp [hSt]) (by simp [hSt])
  have hMem := nttMem_quiet (c := c) (d := d) (E := E) (x := x) (by simp [hSt]) (by simp [hSt])
    (by simp [hSt]) (by simp [hSt])
  have hAcc := buAcc_quiet (c := c) (d := d) (E := E) (x := x) (by simp [hSt]) (by simp [hSt])
  have hBa : (d.next E c x).baDout = d.bank c.idxI (macE c) := by
    change d.bank (DecapsData.baAddr c x).1 (DecapsData.baAddr c x).2 = _
    simp only [DecapsData.baAddr, hSt, macE]
  have hBb : (d.next E c x).bbDout = d.bank slAcc (macE c) := by
    change d.bank (DecapsData.bbAddr c x).1 (DecapsData.bbAddr c x).2 = _
    simp only [DecapsData.bbAddr, hSt, macE]
  have hRd : (d.next E c x).nttRdData = d.nttMem (macE c) := by
    change d.nttMem (DecapsData.nttRdAddr c) = _
    simp only [DecapsData.nttRdAddr, hSt, macE]
  rw [Steps, see_quiet hStart (by simp [hSt]) (by simp [hSt]) (by simp [hSt])]
  rw [hNext] at hReadyNext ⊢
  refine ⟨hReadyNext, hMac.keep rfl rfl rfl rfl rfl rfl rfl hAcc hMem hBank, ?_, ?_, ?_⟩
  · rw [hBa, hReady.has.key.bank c.idxI hMac.out.idx]
    rfl
  · rw [hRd, hMac.ntt]
    rfl
  · rw [hBb, hMac.old _ (macE_fresh hMac.pair)]
    rfl

theorem inv_macA1 (hStart : x.start = false) (hSt : c.st = .macA1) (hInv : InvAt E c d m .macA1) :
    Steps E c d m x := by
  obtain ⟨hReady, hMac, hA, hB, hP⟩ := hInv
  have hReg := regSt_run (c := c) hStart
  have hReadyNext := hReady.next hStart (by simp [hSt]) (by simp [hSt]) (by simp [hSt])
  have hNext : c.next x.toDecapsTiming = { c with st := .macC } := by
    rw [next_quiet hStart (by simp [hSt]) (by simp [hSt])]
    simp only [DecapsCtl.step, hSt]
  have hBank := bank_quiet (c := c) (d := d) (E := E) (x := x) (by simp [hSt]) (by simp [hSt])
    (by simp [hSt]) (by simp [hSt])
  have hMem := nttMem_quiet (c := c) (d := d) (E := E) (x := x) (by simp [hSt]) (by simp [hSt])
    (by simp [hSt]) (by simp [hSt])
  have hAcc := buAcc_quiet (c := c) (d := d) (E := E) (x := x) (by simp [hSt]) (by simp [hSt])
  have hBa : (d.next E c x).baDout = d.bank c.idxI (macO c) := by
    change d.bank (DecapsData.baAddr c x).1 (DecapsData.baAddr c x).2 = _
    simp only [DecapsData.baAddr, hSt, macO]
  have hBb : (d.next E c x).bbDout = d.bank slAcc (macO c) := by
    change d.bank (DecapsData.bbAddr c x).1 (DecapsData.bbAddr c x).2 = _
    simp only [DecapsData.bbAddr, hSt, macO]
  have hRd : (d.next E c x).nttRdData = d.nttMem (macO c) := by
    change d.nttMem (DecapsData.nttRdAddr c) = _
    simp only [DecapsData.nttRdAddr, hSt, macO]
  have hFirst : (d.next E c x).a0 = d.baDout ∧ (d.next E c x).b0 = d.nttRdData ∧
      (d.next E c x).acc0 = d.bbDout := by
    simp only [DecapsData.next, hReg, hSt, if_true]
    exact ⟨trivial, trivial, trivial⟩
  rw [Steps, see_quiet hStart (by simp [hSt]) (by simp [hSt]) (by simp [hSt])]
  rw [hNext] at hReadyNext ⊢
  refine ⟨hReadyNext, hMac.keep rfl rfl rfl rfl rfl rfl rfl hAcc hMem hBank,
    ⟨hFirst.1.trans hA, hFirst.2.1.trans hB, hFirst.2.2.trans hP⟩, ?_, ?_, ?_⟩
  · rw [hBa, hReady.has.key.bank c.idxI hMac.out.idx]
    rfl
  · rw [hRd, hMac.ntt]
    rfl
  · rw [hBb, hMac.old _ (macO_fresh hMac.pair)]
    rfl

theorem inv_macC (hStart : x.start = false) (hSt : c.st = .macC) (hInv : InvAt E c d m .macC) :
    Steps E c d m x := by
  obtain ⟨hReady, hMac, ⟨hA0, hB0, hP0⟩, hA, hB, hP⟩ := hInv
  have hReg := regSt_run (c := c) hStart
  have hReadyNext := hReady.next hStart (by simp [hSt]) (by simp [hSt]) (by simp [hSt])
  have hNext : c.next x.toDecapsTiming = { c with st := .macM } := by
    rw [next_quiet hStart (by simp [hSt]) (by simp [hSt])]
    simp only [DecapsCtl.step, hSt]
  have hBank := bank_quiet (c := c) (d := d) (E := E) (x := x) (by simp [hSt]) (by simp [hSt])
    (by simp [hSt]) (by simp [hSt])
  have hMem := nttMem_quiet (c := c) (d := d) (E := E) (x := x) (by simp [hSt]) (by simp [hSt])
    (by simp [hSt]) (by simp [hSt])
  have hAcc := buAcc_quiet (c := c) (d := d) (E := E) (x := x) (by simp [hSt]) (by simp [hSt])
  have hRegs :
      ((d.next E c x).a0 = d.a0 ∧ (d.next E c x).b0 = d.b0 ∧ (d.next E c x).acc0 = d.acc0) ∧
      (d.next E c x).a1 = d.baDout ∧ (d.next E c x).b1 = d.nttRdData ∧
        (d.next E c x).acc1 = d.bbDout := by
    simp [DecapsData.next, hReg, hSt]
  obtain ⟨⟨hA0', hB0', hP0'⟩, hA1', hB1', hP1'⟩ := hRegs
  rw [Steps, see_quiet hStart (by simp [hSt]) (by simp [hSt]) (by simp [hSt])]
  rw [hNext] at hReadyNext ⊢
  exact ⟨hReadyNext, hMac.keep rfl rfl rfl rfl rfl rfl rfl hAcc hMem hBank,
    ⟨hA0'.trans hA0, hB0'.trans hB0, hP0'.trans hP0⟩,
    ⟨hA1'.trans hA, hB1'.trans hB, hP1'.trans hP⟩⟩

theorem inv_macM (hStart : x.start = false) (hSt : c.st = .macM) (hInv : InvAt E c d m .macM) :
    Steps E c d m x := by
  obtain ⟨hReady, hMac, ⟨hA0, hB0, hP0⟩, hA, hB, hP⟩ := hInv
  have hReg := regSt_run (c := c) hStart
  have hReadyNext := hReady.next hStart (by simp [hSt]) (by simp [hSt]) (by simp [hSt])
  have hNext : c.next x.toDecapsTiming = { c with st := .macT } := by
    rw [next_quiet hStart (by simp [hSt]) (by simp [hSt])]
    simp only [DecapsCtl.step, hSt]
  have hBank := bank_quiet (c := c) (d := d) (E := E) (x := x) (by simp [hSt]) (by simp [hSt])
    (by simp [hSt]) (by simp [hSt])
  have hMem := nttMem_quiet (c := c) (d := d) (E := E) (x := x) (by simp [hSt]) (by simp [hSt])
    (by simp [hSt]) (by simp [hSt])
  have hAcc := buAcc_quiet (c := c) (d := d) (E := E) (x := x) (by simp [hSt]) (by simp [hSt])
  have hRegs :
      ((d.next E c x).a0 = d.a0 ∧ (d.next E c x).b0 = d.b0 ∧ (d.next E c x).acc0 = d.acc0) ∧
      ((d.next E c x).a1 = d.a1 ∧ (d.next E c x).b1 = d.b1 ∧ (d.next E c x).acc1 = d.acc1) ∧
      (d.next E c x).tAb = basemulHead d.a1 d.b1 := by
    simp [DecapsData.next, hReg, hSt]
  obtain ⟨⟨hA0', hB0', hP0'⟩, ⟨hA1', hB1', hP1'⟩, hT⟩ := hRegs
  rw [Steps, see_quiet hStart (by simp [hSt]) (by simp [hSt]) (by simp [hSt])]
  rw [hNext] at hReadyNext ⊢
  refine ⟨hReadyNext, hMac.keep rfl rfl rfl rfl rfl rfl rfl hAcc hMem hBank,
    ⟨hA0'.trans hA0, hB0'.trans hB0, hP0'.trans hP0⟩,
    ⟨hA1'.trans hA, hB1'.trans hB, hP1'.trans hP⟩, ?_⟩
  rw [hT, hA1', hB1']

theorem inv_macT (hStart : x.start = false) (hSt : c.st = .macT) (hInv : InvAt E c d m .macT) :
    Steps E c d m x := by
  obtain ⟨hReady, hMac, ⟨hA0, hB0, hP0⟩, ⟨hA1, hB1, hP1⟩, hT⟩ := hInv
  have hReg := regSt_run (c := c) hStart
  have hReadyNext := hReady.next hStart (by simp [hSt]) (by simp [hSt]) (by simp [hSt])
  have hNext : c.next x.toDecapsTiming = { c with st := .macW0 } := by
    rw [next_quiet hStart (by simp [hSt]) (by simp [hSt])]
    simp only [DecapsCtl.step, hSt]
  have hBank := bank_quiet (c := c) (d := d) (E := E) (x := x) (by simp [hSt]) (by simp [hSt])
    (by simp [hSt]) (by simp [hSt])
  have hMem := nttMem_quiet (c := c) (d := d) (E := E) (x := x) (by simp [hSt]) (by simp [hSt])
    (by simp [hSt]) (by simp [hSt])
  have hAcc := buAcc_quiet (c := c) (d := d) (E := E) (x := x) (by simp [hSt]) (by simp [hSt])
  have hRegs : (d.next E c x).acc0 = d.acc0 ∧ (d.next E c x).acc1 = d.acc1 ∧
      (d.next E c x).bm0 = (d.bmR c).1 ∧ (d.next E c x).bm1 = (d.bmR c).2 := by
    simp [DecapsData.next, hReg, hSt]
  obtain ⟨hP0', hP1', hM0, hM1⟩ := hRegs
  have hE := toNat_macE hMac.pair
  have hO := toNat_macO hMac.pair
  have hPairE : (macE c).toNat / 2 = c.pair ∧ (macE c).toNat % 2 = 0 := by omega
  have hPairO : (macO c).toNat / 2 = c.pair ∧ ¬(macO c).toNat % 2 = 0 := by omega
  have hBm : d.bmR c = basemulTail d.a0 d.a1 d.b0 d.b1 (bmzeta c.pair) (basemulHead d.a1 d.b1) := by
    rw [DecapsData.bmR, hT]
  rw [Steps, see_quiet hStart (by simp [hSt]) (by simp [hSt]) (by simp [hSt])]
  rw [hNext] at hReadyNext ⊢
  refine ⟨hReadyNext, hMac.keep rfl rfl rfl rfl rfl rfl rfl hAcc hMem hBank, ?_, ?_⟩
  · change _ = mac (sHat m.dk c.idxI) (uHatOf E c m c.idxI) (accOf E c m c.idxI) (macE c)
    rw [hP0', hM0, hBm, hA0, hA1, hB0, hB1, hP0, mac, if_pos hPairE.2, hPairE.1]
    rfl
  · change _ = mac (sHat m.dk c.idxI) (uHatOf E c m c.idxI) (accOf E c m c.idxI) (macO c)
    rw [hP1', hM1, hBm, hA0, hA1, hB0, hB1, hP1, mac, if_neg hPairO.2, hPairO.1]
    rfl

theorem inv_macW0 (hStart : x.start = false) (hSt : c.st = .macW0) (hInv : InvAt E c d m .macW0) :
    Steps E c d m x := by
  obtain ⟨hReady, hMac, hEven, hOdd⟩ := hInv
  have hReg := regSt_run (c := c) hStart
  have hReadyNext := hReady.next hStart (by simp [hSt]) (by simp [hSt]) (by simp [hSt])
  have hNext : c.next x.toDecapsTiming = { c with st := .macW1 } := by
    rw [next_quiet hStart (by simp [hSt]) (by simp [hSt])]
    simp only [DecapsCtl.step, hSt]
  have hBank : (d.next E c x).bank slAcc =
      Function.update (d.bank slAcc) (macE c) (accOf E c m (c.idxI + 1) (macE c)) := by
    change d.bankNext c x slAcc = _
    simp only [DecapsData.bankNext, hSt, writeBank_same, hEven, macE]
  have hMem := nttMem_quiet (c := c) (d := d) (E := E) (x := x) (by simp [hSt]) (by simp [hSt])
    (by simp [hSt]) (by simp [hSt])
  have hAcc := buAcc_quiet (c := c) (d := d) (E := E) (x := x) (by simp [hSt]) (by simp [hSt])
  have hRegs : (d.next E c x).acc1 = d.acc1 ∧ (d.next E c x).bm1 = d.bm1 := by
    simp [DecapsData.next, hReg, hSt]
  rw [Steps, see_quiet hStart (by simp [hSt]) (by simp [hSt]) (by simp [hSt])]
  rw [hNext] at hReadyNext ⊢
  refine ⟨hReadyNext, ⟨hMac.out.keep rfl rfl rfl rfl rfl rfl hAcc, hMac.pair, hMem.trans hMac.ntt,
    ?_, ?_⟩, ?_⟩
  · intro n hn
    rw [hBank]
    by_cases hHere : n = macE c
    · rw [hHere, Function.update_self]
      rfl
    · rw [Function.update_of_ne hHere]
      exact hMac.new n (hn.resolve_right hHere)
  · intro n hn
    have hHere : n ≠ macE c := fun hEq => hn (.inr hEq)
    rw [hBank, Function.update_of_ne hHere]
    exact hMac.old n fun hBefore => hn (.inl hBefore)
  · rw [hRegs.1, hRegs.2]
    exact hOdd

theorem inv_macW1 (hStart : x.start = false) (hSt : c.st = .macW1) (hInv : InvAt E c d m .macW1) :
    Steps E c d m x := by
  obtain ⟨hReady, hMac, hOdd⟩ := hInv
  have hReadyNext := hReady.next hStart (by simp [hSt]) (by simp [hSt]) (by simp [hSt])
  have hRun := next_quiet (c := c) hStart (by simp [hSt]) (by simp [hSt])
  have hBank : (d.next E c x).bank slAcc =
      Function.update (d.bank slAcc) (macO c) (accOf E c m (c.idxI + 1) (macO c)) := by
    change d.bankNext c x slAcc = _
    simp only [DecapsData.bankNext, hSt, writeBank_same, hOdd, macO]
  have hMem := nttMem_quiet (c := c) (d := d) (E := E) (x := x) (by simp [hSt]) (by simp [hSt])
    (by simp [hSt]) (by simp [hSt])
  have hAcc := buAcc_quiet (c := c) (d := d) (E := E) (x := x) (by simp [hSt]) (by simp [hSt])
  have hE := toNat_macE hMac.pair
  have hO := toNat_macO hMac.pair
  have hPairLess := hMac.pair
  have hIndex := hMac.out.idx
  have hNew (n : BitVec 8) (hn : n.toNat / 2 < c.pair + 1) :
      (d.next E c x).bank slAcc n = accOf E c m (c.idxI + 1) n := by
    rw [hBank]
    by_cases hHere : n = macO c
    · rw [hHere, Function.update_self]
    · rw [Function.update_of_ne hHere]
      have hNe : n.toNat ≠ 2 * c.pair + 1 := by
        intro hEq
        exact hHere (BitVec.eq_of_toNat_eq (hEq.trans hO.symm))
      by_cases hBefore : n.toNat / 2 < c.pair
      · exact hMac.new n (.inl hBefore)
      · exact hMac.new n (.inr (BitVec.eq_of_toNat_eq (by omega)))
  rw [Steps, see_quiet hStart (by simp [hSt]) (by simp [hSt]) (by simp [hSt])]
  by_cases hLast : c.pair = 127
  · have hAll : (d.next E c x).bank slAcc = accOf E c m (c.idxI + 1) := by
      funext n
      have hn := n.isLt
      exact hNew n (by omega)
    by_cases hPolys : c.idxI + 1 = c.k
    · have hStep : c.step x.toDecapsTiming = { c with acnt := 0, st := .a2nRd } := by
        simp only [DecapsCtl.step, hSt, hLast, hPolys, if_true]
      have hDone := hMac.out.bits.finish (by rw [hPolys, length_c1 hReady.ct]; exact bits_c1 _ _)
      rw [length_c1 hReady.ct] at hDone
      rw [hPolys] at hAll
      rw [hRun, hStep] at hReadyNext ⊢
      exact ⟨hReadyNext, ⟨hDone.2.1, hAcc.trans hDone.2.2⟩, hDone.1, hAll⟩
    · have hStep : c.step x.toDecapsTiming =
          { c with idxI := c.idxI + 1, ucnt := 0, st := .uWait } := by
        simp only [DecapsCtl.step, hSt, hLast, hPolys, if_true, if_false]
      rw [hRun, hStep] at hReadyNext ⊢
      refine ⟨hReadyNext, ⟨?_, Nat.zero_lt_succ 255, hMac.out.phase, hAll, ?_, ?_⟩⟩
      · change c.idxI + 1 < c.k
        omega
      · intro n hn
        exact absurd hn (Nat.not_lt_zero _)
      · rw [hAcc]
        exact hMac.out.bits
  · have hStep : c.step x.toDecapsTiming = { c with pair := c.pair + 1, st := .macA0 } := by
      simp only [DecapsCtl.step, hSt, hLast, if_false]
    rw [hRun, hStep] at hReadyNext ⊢
    refine ⟨hReadyNext, ⟨hMac.out.keep rfl rfl rfl rfl rfl rfl hAcc, ?_, hMem.trans hMac.ntt, hNew,
      ?_⟩⟩
    · change c.pair + 1 < 128
      omega
    · intro n hn
      have hLater : ¬n.toNat / 2 < c.pair + 1 := hn
      have hNotO : n ≠ macO c := by
        intro hEq
        rw [hEq, hO] at hLater
        omega
      have hNot : ¬(pairsBefore c n ∨ n = macE c) := by
        rintro (hBefore | hEq)
        · have hBefore : n.toNat / 2 < c.pair := hBefore
          omega
        · rw [hEq, hE] at hLater
          omega
      rw [hBank, Function.update_of_ne hNotO]
      exact hMac.old n hNot

/-! ### The inverse transform -/

theorem UAll.keep (hAll : UAll E c d m) (hK : c'.k = c.k) (hD11 : c'.d11 = c.d11)
    (hCpos : c'.cpos = c.cpos) (hNbits : c'.nbits = c.nbits) (hAcc : d'.buAcc = d.buAcc)
    (hBank : d'.bank = d.bank) : UAll E c' d' m := by
  obtain ⟨⟨hBits, hEmpty⟩, hPos, hDone⟩ := hAll
  constructor
  · exact ⟨hNbits.trans hBits, hAcc.trans hEmpty⟩
  · rw [hCpos, hK, hD11]
    exact hPos
  · rw [hBank, accOf, hK, hD11]
    exact hDone

theorem inv_a2nRd (hStart : x.start = false) (hSt : c.st = .a2nRd) (hInv : InvAt E c d m .a2nRd) :
    Steps E c d m x := by
  obtain ⟨hReady, hAll⟩ := hInv
  have hReadyNext := hReady.next hStart (by simp [hSt]) (by simp [hSt]) (by simp [hSt])
  have hNext : c.next x.toDecapsTiming = { c with acnt := 0, st := .a2n } := by
    rw [next_quiet hStart (by simp [hSt]) (by simp [hSt])]
    simp only [DecapsCtl.step, hSt]
  have hBank := bank_quiet (c := c) (d := d) (E := E) (x := x) (by simp [hSt]) (by simp [hSt])
    (by simp [hSt]) (by simp [hSt])
  have hAcc := buAcc_quiet (c := c) (d := d) (E := E) (x := x) (by simp [hSt]) (by simp [hSt])
  have hBb : (d.next E c x).bbDout = d.bank slAcc 0 := by
    change d.bank (DecapsData.bbAddr c x).1 (DecapsData.bbAddr c x).2 = _
    simp only [DecapsData.bbAddr, hSt]
  rw [Steps, see_quiet hStart (by simp [hSt]) (by simp [hSt]) (by simp [hSt])]
  rw [hNext] at hReadyNext ⊢
  refine ⟨hReadyNext, hAll.keep rfl rfl rfl rfl hAcc hBank, Nat.zero_lt_succ 255, ?_, ?_⟩
  · rw [hBb, hAll.acc]
    rfl
  · intro n hn
    exact absurd hn (Nat.not_lt_zero _)

theorem inv_a2n (hStart : x.start = false) (hSt : c.st = .a2n) (hInv : InvAt E c d m .a2n) :
    Steps E c d m x := by
  obtain ⟨hReady, hAll, hLess, hDout, hCopied⟩ := hInv
  have hReadyNext := hReady.next hStart (by simp [hSt]) (by simp [hSt]) (by simp [hSt])
  have hRun := next_quiet (c := c) hStart (by simp [hSt]) (by simp [hSt])
  have hBank := bank_quiet (c := c) (d := d) (E := E) (x := x) (by simp [hSt]) (by simp [hSt])
    (by simp [hSt]) (by simp [hSt])
  have hAcc := buAcc_quiet (c := c) (d := d) (E := E) (x := x) (by simp [hSt]) (by simp [hSt])
  have hBb : (d.next E c x).bbDout = accOf E c m c.k (BitVec.ofNat 8 (c.acnt + 1)) := by
    change d.bank (DecapsData.bbAddr c x).1 (DecapsData.bbAddr c x).2 = _
    simp only [DecapsData.bbAddr, hSt]
    rw [hAll.acc]
  have hMem (n : BitVec 8) (hn : n.toNat < c.acnt + 1) :
      (d.next E c x).nttMem n = accOf E c m c.k n := by
    change d.nttMemNext E c n = _
    simp only [DecapsData.nttMemNext, hSt, hDout]
    exact update_upto hLess hCopied n hn
  rw [Steps, see_quiet hStart (by simp [hSt]) (by simp [hSt]) (by simp [hSt])]
  by_cases hLast : c.acnt = 255
  · have hStep : c.step x.toDecapsTiming =
        { c with acnt := 0, nttKicked := false, nttInverse := true, st := .inv } := by
      simp only [DecapsCtl.step, hSt, hLast, if_true]
    rw [hRun, hStep] at hReadyNext ⊢
    refine ⟨hReadyNext, hAll.keep rfl rfl rfl rfl hAcc hBank, rfl, ?_⟩
    rw [if_neg Bool.false_ne_true]
    funext n
    have hn := n.isLt
    exact hMem n (by omega)
  · have hStep : c.step x.toDecapsTiming = { c with acnt := c.acnt + 1 } := by
      simp only [DecapsCtl.step, hSt, hLast, if_false]
    have hStNext : (c.next x.toDecapsTiming).st = .a2n := by
      rw [hRun, hStep]
      exact hSt
    rw [hStNext]
    rw [hRun, hStep] at hReadyNext ⊢
    refine ⟨hReadyNext, hAll.keep rfl rfl rfl rfl hAcc hBank, ?_, hBb, hMem⟩
    change c.acnt + 1 < 256
    omega

theorem inv_inv (hStart : x.start = false) (hSt : c.st = .inv) (hInv : InvAt E c d m .inv) :
    Steps E c d m x := by
  obtain ⟨hReady, hAll, hInverse, hMem⟩ := hInv
  have hReadyNext := hReady.next hStart (by simp [hSt]) (by simp [hSt]) (by simp [hSt])
  have hRun := next_quiet (c := c) hStart (by simp [hSt]) (by simp [hSt])
  have hBank := bank_quiet (c := c) (d := d) (E := E) (x := x) (by simp [hSt]) (by simp [hSt])
    (by simp [hSt]) (by simp [hSt])
  have hAcc := buAcc_quiet (c := c) (d := d) (E := E) (x := x) (by simp [hSt]) (by simp [hSt])
  have hMemNext : (d.next E c x).nttMem = suOf E c m := by
    change d.nttMemNext E c = _
    simp only [DecapsData.nttMemNext, hSt, DecapsCtl.nttStart, decide_true, Bool.or_true,
      Bool.true_and, hInverse]
    cases hKicked : c.nttKicked with
    | false =>
      rw [hKicked, if_neg Bool.false_ne_true] at hMem
      rw [hMem]
      rfl
    | true =>
      rw [hKicked, if_pos rfl] at hMem
      exact hMem
  rw [Steps, see_quiet hStart (by simp [hSt]) (by simp [hSt]) (by simp [hSt])]
  cases hDone : x.nttDone && c.nttKicked with
  | true =>
    have hStep : c.step x.toDecapsTiming = { c with vcnt := 0, vPhase := true, st := .vWait } := by
      simp only [DecapsCtl.step, hSt, hDone, if_true]
    rw [hRun, hStep] at hReadyNext ⊢
    refine ⟨hReadyNext, ⟨Nat.zero_lt_succ 255, rfl, hMemNext, ?_, Nat.le_of_eq hAll.cpos.symm, ?_⟩⟩
    · intro n hn
      exact absurd hn (Nat.not_lt_zero _)
    · rw [hAcc, hAll.empty.2]
      change Unpacks _ _ (c.cpos - c1len c.k c.d11) 0 0 c.nbits
      rw [hAll.cpos, Nat.sub_self, hAll.empty.1]
      exact Unpacks.start _ _
  | false =>
    have hStep : c.step x.toDecapsTiming = { c with nttKicked := true } := by
      simp only [DecapsCtl.step, hSt, hDone, Bool.false_eq_true, if_false]
    have hStNext : (c.next x.toDecapsTiming).st = .inv := by
      rw [hRun, hStep]
      exact hSt
    rw [hStNext]
    rw [hRun, hStep] at hReadyNext ⊢
    refine ⟨hReadyNext, hAll.keep rfl rfl rfl rfl hAcc hBank, hInverse, ?_⟩
    rw [hMemNext, if_pos rfl]
    rfl

/-! ### The message -/

theorem VIn.keep {e : Nat} (hIn : VIn E c d m e) (hK : c'.k = c.k) (hD11 : c'.d11 = c.d11)
    (hVcnt : c'.vcnt = c.vcnt) (hPhase : c'.vPhase = c.vPhase) (hCpos : c'.cpos = c.cpos)
    (hNbits : c'.nbits = c.nbits) (hAcc : d'.buAcc = d.buAcc) (hMem : d'.nttMem = d.nttMem)
    (hMsg : d'.mR = d.mR) : VIn E c' d' m e := by
  obtain ⟨hCoef, hSecond, hNtt, hDone, hBehind, hBits⟩ := hIn
  constructor
  · rw [hVcnt]
    exact hCoef
  · exact hPhase.trans hSecond
  · rw [hMem, hNtt, suOf, suOf, accOf, accOf, hK, hD11]
  · rw [hMsg, hVcnt, messageOf, hK, hD11]
    exact hDone
  · rw [hK, hD11, hCpos]
    exact hBehind
  · rw [hK, hD11, hCpos, hAcc, hNbits]
    exact hBits

theorem VIn.buD {e : Nat} (hIn : VIn E c d m e) : c.buD = dv c.d11 := by
  rw [DecapsCtl.buD, hIn.phase]
  rfl

theorem VIn.inside (hIn : VIn E c d m c.vcnt) (hCt : HoldsC c d m.c) (hFew : ¬dv c.d11 ≤ c.nbits) :
    c.cpos - c1len c.k c.d11 < (m.c.drop (c1len c.k c.d11)).length := by
  have hCoef := hIn.coef
  have hRoom := hIn.bits.room
  have hLength := length_c2 hCt
  have hMore : dv c.d11 * (c.vcnt + 1) ≤ dv c.d11 * 256 := Nat.mul_le_mul_left _ hCoef
  rw [Nat.mul_succ] at hMore
  omega

theorem inv_vWait (hStart : x.start = false) (hSt : c.st = .vWait) (hInv : InvAt E c d m .vWait) :
    Steps E c d m x := by
  obtain ⟨hReady, hIn⟩ := hInv
  have hReadyNext := hReady.next hStart (by simp [hSt]) (by simp [hSt]) (by simp [hSt])
  have hNext : c.next x.toDecapsTiming = { c with st := .vStep } := by
    rw [next_quiet hStart (by simp [hSt]) (by simp [hSt])]
    simp only [DecapsCtl.step, hSt]
  have hMem := nttMem_quiet (c := c) (d := d) (E := E) (x := x) (by simp [hSt]) (by simp [hSt])
    (by simp [hSt]) (by simp [hSt])
  have hAcc := buAcc_quiet (c := c) (d := d) (E := E) (x := x) (by simp [hSt]) (by simp [hSt])
  have hMsg := mR_quiet (c := c) (d := d) (E := E) hStart (by simp [hSt])
  have hRd : (d.next E c x).nttRdData = d.nttMem (BitVec.ofNat 8 c.vcnt) := by
    change d.nttMem (DecapsData.nttRdAddr c) = _
    simp only [DecapsData.nttRdAddr, hSt]
  have hDoutNext (hInside : c.cpos < clen c.k c.d11) := cbbDout_next (E := E) (x := x) hReady.ct
    (by simp [hSt]) hInside
  rw [Steps, see_quiet hStart (by simp [hSt]) (by simp [hSt]) (by simp [hSt])]
  rw [hNext] at hReadyNext ⊢
  refine ⟨hReadyNext, hIn.keep rfl rfl rfl rfl rfl rfl hAcc hMem hMsg, ?_, hDoutNext⟩
  rw [hRd, hIn.ntt]
  rfl

theorem inv_vStep (hStart : x.start = false) (hSt : c.st = .vStep) (hInv : InvAt E c d m .vStep) :
    Steps E c d m x := by
  obtain ⟨hReady, hIn, hRd, hDout⟩ := hInv
  have hReg := regSt_run (c := c) hStart
  have hReadyNext := hReady.next hStart (by simp [hSt]) (by simp [hSt]) (by simp [hSt])
  have hMem := nttMem_quiet (c := c) (d := d) (E := E) (x := x) (by simp [hSt]) (by simp [hSt])
    (by simp [hSt]) (by simp [hSt])
  have hMsg := mR_quiet (c := c) (d := d) (E := E) hStart (by simp [hSt])
  have hD := hIn.buD
  have hRun : c.next x.toDecapsTiming = { c.step x.toDecapsTiming with nbits := c.nbitsNext } := by
    rw [DecapsCtl.next, hStart, if_neg Bool.false_ne_true]
  have hCoef := hIn.coef
  have hBehind := hIn.behind
  rw [Steps, see_quiet hStart (by simp [hSt]) (by simp [hSt]) (by simp [hSt])]
  by_cases hValid : dv c.d11 ≤ c.nbits
  · have hOutValid : c.buOutValid = true := by
      rw [DecapsCtl.buOutValid, hD]
      exact decide_eq_true hValid
    have hBits : c.nbitsNext = c.nbits - dv c.d11 := by
      simp only [DecapsCtl.nbitsNext, hSt, hOutValid, if_true, hD]
    have hAcc : (d.next E c x).buAcc = d.buAcc >>> dv c.d11 := by
      change d.buAccNext c = _
      simp only [DecapsData.buAccNext, hSt, hOutValid, if_true, hD]
    have hV : (d.next E c x).vR = vOf c m (BitVec.ofNat 8 c.vcnt) := by
      simp only [DecapsData.next, hReg, hSt, hOutValid, decide_true, Bool.and_self, if_true,
        DecapsData.buOutData, hD, hIn.bits.field hValid, vOf, vPoly, toNat_index hCoef]
    have hSu : (d.next E c x).suR = d.nttRdData := by
      simp only [DecapsData.next, hReg, hSt, hOutValid, decide_true, Bool.and_self, if_true]
    have hStep : c.step x.toDecapsTiming = { c with st := .vW } := by
      simp only [DecapsCtl.step, hSt, hOutValid, if_true]
    have hPop := hIn.bits.pop hValid
    rw [hRun, hStep, hBits] at hReadyNext ⊢
    refine ⟨hReadyNext, ⟨hCoef, hIn.phase, hMem.trans hIn.ntt, ?_, hBehind, ?_⟩, hV, hSu.trans hRd⟩
    · rw [hMsg]
      exact hIn.bitsDone
    · rw [hAcc]
      exact hPop
  · have hOutValid : c.buOutValid = false := by
      rw [DecapsCtl.buOutValid, hD]
      exact decide_eq_false hValid
    have hStep : c.step x.toDecapsTiming = { c with cpos := c.cpos + 1, st := .vWait } := by
      simp only [DecapsCtl.step, hSt, hOutValid, Bool.false_eq_true, if_false]
    have hBits : c.nbitsNext = c.nbits + 8 := by
      simp only [DecapsCtl.nbitsNext, hSt, hOutValid, Bool.false_eq_true, if_false]
    have hAcc : (d.next E c x).buAcc = d.buAcc ||| (d.cbbDout.toNat <<< c.nbits) := by
      change d.buAccNext c = _
      simp only [DecapsData.buAccNext, hSt, hOutValid, Bool.false_eq_true, if_false]
    have hLength := length_c2 hReady.ct
    have hInside := hIn.inside hReady.ct hValid
    have hWhole := hReady.ct.length
    have hPos : c.cpos < m.c.length := by
      rw [clen] at hWhole
      omega
    have hByte : (m.c.drop (c1len c.k c.d11))[c.cpos - c1len c.k c.d11] = d.cbbDout := by
      rw [hDout (by omega), List.getElem_drop, List.getD_eq_getElem _ _ hPos]
      congr 1
      omega
    have hFeed := hIn.bits.feed hInside
    have hCount : c.cpos - c1len c.k c.d11 + 1 = c.cpos + 1 - c1len c.k c.d11 := by omega
    rw [hByte, hCount] at hFeed
    rw [hRun, hStep, hBits] at hReadyNext ⊢
    refine ⟨hReadyNext, ⟨hCoef, hIn.phase, hMem.trans hIn.ntt, ?_, Nat.le_succ_of_le hBehind, ?_⟩⟩
    · rw [hMsg]
      exact hIn.bitsDone
    · rw [hAcc]
      exact hFeed

theorem inv_vW (hStart : x.start = false) (hSt : c.st = .vW) (hInv : InvAt E c d m .vW) :
    Steps E c d m x := by
  obtain ⟨hReady, hIn, hV, hSu⟩ := hInv
  have hReg := regSt_run (c := c) hStart
  have hReadyNext := hReady.next hStart (by simp [hSt]) (by simp [hSt]) (by simp [hSt])
  have hNext : c.next x.toDecapsTiming = { c with st := .vBit } := by
    rw [next_quiet hStart (by simp [hSt]) (by simp [hSt])]
    simp only [DecapsCtl.step, hSt]
  have hMem := nttMem_quiet (c := c) (d := d) (E := E) (x := x) (by simp [hSt]) (by simp [hSt])
    (by simp [hSt]) (by simp [hSt])
  have hAcc := buAcc_quiet (c := c) (d := d) (E := E) (x := x) (by simp [hSt]) (by simp [hSt])
  have hMsg := mR_quiet (c := c) (d := d) (E := E) hStart (by simp [hSt])
  have hW : (d.next E c x).wR = barrettReduce (d.vR - d.suR) := by
    simp only [DecapsData.next, hReg, hSt, if_true]
  rw [Steps, see_quiet hStart (by simp [hSt]) (by simp [hSt]) (by simp [hSt])]
  rw [hNext] at hReadyNext ⊢
  refine ⟨hReadyNext, hIn.keep rfl rfl rfl rfl rfl rfl hAcc hMem hMsg, ?_⟩
  rw [hW, hV, hSu]
  rfl

theorem inv_vBit (hStart : x.start = false) (hSt : c.st = .vBit) (hInv : InvAt E c d m .vBit) :
    Steps E c d m x := by
  obtain ⟨hReady, hIn, hW⟩ := hInv
  have hReg := regSt_run (c := c) hStart
  have hReadyNext := hReady.next hStart (by simp [hSt]) (by simp [hSt]) (by simp [hSt])
  have hRun := next_quiet (c := c) hStart (by simp [hSt]) (by simp [hSt])
  have hMem := nttMem_quiet (c := c) (d := d) (E := E) (x := x) (by simp [hSt]) (by simp [hSt])
    (by simp [hSt]) (by simp [hSt])
  have hAcc := buAcc_quiet (c := c) (d := d) (E := E) (x := x) (by simp [hSt]) (by simp [hSt])
  have hCoef := hIn.coef
  have hIndex := toNat_index hCoef
  have hMsg (n : BitVec 8) (hn : n.toNat < c.vcnt + 1) :
      (d.next E c x).mR n = messageOf E c m n := by
    have hNext : (d.next E c x).mR =
        Function.update d.mR (BitVec.ofNat 8 c.vcnt) (messageOf E c m (BitVec.ofNat 8 c.vcnt)) := by
      change d.mRNext c x = _
      simp only [DecapsData.mRNext, hReg, hSt, hW]
      rfl
    rw [hNext]
    by_cases hLast : n = BitVec.ofNat 8 c.vcnt
    · rw [hLast, Function.update_self]
    · have hNe : n.toNat ≠ c.vcnt := by
        intro hEq
        exact hLast (BitVec.eq_of_toNat_eq (hEq.trans hIndex.symm))
      rw [Function.update_of_ne hLast]
      exact hIn.bitsDone n (by omega)
  rw [Steps, see_quiet hStart (by simp [hSt]) (by simp [hSt]) (by simp [hSt])]
  by_cases hLast : c.vcnt = 255
  · have hStep : c.step x.toDecapsTiming = { c with vcnt := c.vcnt + 1, st := .reStart } := by
      simp only [DecapsCtl.step, hSt, hLast, if_true]
    have hDone := hIn.bits.finish (by
      rw [length_c2 hReady.ct, hLast]
      omega)
    rw [hRun, hStep] at hReadyNext ⊢
    refine ⟨hReadyNext, ⟨hDone.2.1, hAcc.trans hDone.2.2⟩, ?_⟩
    funext n
    have hn := n.isLt
    exact hMsg n (by omega)
  · have hStep : c.step x.toDecapsTiming = { c with vcnt := c.vcnt + 1, st := .vWait } := by
      simp only [DecapsCtl.step, hSt, hLast, if_false]
    rw [hRun, hStep] at hReadyNext ⊢
    refine ⟨hReadyNext, ⟨?_, hIn.phase, hMem.trans hIn.ntt, hMsg, hIn.behind, ?_⟩⟩
    · change c.vcnt + 1 < 256
      omega
    · rw [hAcc]
      exact hIn.bits

end PqcHsm
