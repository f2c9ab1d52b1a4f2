import PqcHsm.Rtl.FirewallServes
import PqcHsm.Rtl.MldsaAxi
import PqcHsm.Rtl.MlkemAxi
import PqcHsm.Rtl.SlaveServes

/-!
# Every bus transaction is answered once

Of either accelerator with its firewall, as long as ZEROIZE does not meet a packed read that is
still collecting its bytes. The answer to such a read never comes.
-/

namespace PqcHsm

section Transactions

variable (f : Firewall 8) (m : AxiMaster 8)

def arTaken : Bool := m.arvalid && f.toMaster.arready

def rGiven : Bool := f.toMaster.rvalid && m.rready

def awTaken : Bool := m.awvalid && f.toMaster.awready

def wTaken : Bool := m.wvalid && f.toMaster.wready

def bGiven : Bool := f.toMaster.bvalid && m.bready

/-- In the state before cycle `k`, at the bus of a module with the firewall `fw`: each answer is to
a transaction of its own, and of a transaction without answer the answer comes up by itself as soon
as all of it is there; the half that is missing is taken at once. -/
structure AnsweredOnce {ι σ : Type} (C : Clocked ι σ) (fw : σ → Firewall 8)
    (master : ι → AxiMaster 8) (ins : Nat → ι) (k : Nat) : Prop where
  reads : C.times (fun a x => rGiven (fw a) (master x)) ins k ≤
      C.times (fun a x => arTaken (fw a) (master x)) ins k ∧
    C.times (fun a x => arTaken (fw a) (master x)) ins k ≤
      C.times (fun a x => rGiven (fw a) (master x)) ins k + 1
  readComes : C.times (fun a x => rGiven (fw a) (master x)) ins k <
      C.times (fun a x => arTaken (fw a) (master x)) ins k →
    ∃ j, j ≤ k + 8 ∧ k ≤ j ∧ (fw (C.after ins j)).toMaster.rvalid = true
  addresses : C.times (fun a x => bGiven (fw a) (master x)) ins k ≤
      C.times (fun a x => awTaken (fw a) (master x)) ins k ∧
    C.times (fun a x => awTaken (fw a) (master x)) ins k ≤
      C.times (fun a x => bGiven (fw a) (master x)) ins k + 1
  data : C.times (fun a x => bGiven (fw a) (master x)) ins k ≤
      C.times (fun a x => wTaken (fw a) (master x)) ins k ∧
    C.times (fun a x => wTaken (fw a) (master x)) ins k ≤
      C.times (fun a x => bGiven (fw a) (master x)) ins k + 1
  writeComes : C.times (fun a x => bGiven (fw a) (master x)) ins k <
      C.times (fun a x => awTaken (fw a) (master x)) ins k →
    C.times (fun a x => bGiven (fw a) (master x)) ins k <
      C.times (fun a x => wTaken (fw a) (master x)) ins k →
    ∃ j, j ≤ k + 8 ∧ k ≤ j ∧ (fw (C.after ins j)).toMaster.bvalid = true
  dataWanted : C.times (fun a x => wTaken (fw a) (master x)) ins k <
      C.times (fun a x => awTaken (fw a) (master x)) ins k →
    (fw (C.after ins k)).toMaster.wready = true
  addressWanted : C.times (fun a x => awTaken (fw a) (master x)) ins k <
      C.times (fun a x => wTaken (fw a) (master x)) ins k →
    (fw (C.after ins k)).toMaster.awready = true

end Transactions

/-- What of a module its answers depend on: the firewall, the bus side behind it, and in how many
cycles a packed read has its last byte. -/
structure AccelView (aw : Nat) where
  fw : Firewall 8
  wr : WrPort
  pkw : PackedWrite aw
  rd : RdPort
  packed : Option Nat

namespace AccelView

variable {aw : Nat} {v : AccelView aw}

def reset (aw : Nat) : AccelView aw := ⟨.reset 8, .reset, .reset aw, .reset, none⟩

/-- What the bus side owes to the firewall for a read. -/
def rdInner (v : AccelView aw) : Option Nat := v.rd.owed v.packed

def wrInner (v : AccelView aw) : Option Nat := v.wr.owed v.pkw

/-- What is owed to the master for a read. -/
def rdOwed (v : AccelView aw) : Option Nat := v.fw.rd.owed 6 v.rdInner

def wrOwed (v : AccelView aw) : Option Nat := v.fw.wr.owed 4 v.wrInner

structure Served (v : AccelView aw) : Prop where
  rd : v.fw.rd.Fits v.rdInner
  rdApart : v.packed.isSome = true → v.rd.rvalid = false
  wr : v.fw.wr.Fits v.wrInner
  paired : v.wr.Paired

theorem served_reset : (reset aw).Served := by
  constructor
  · exact FwRead.fits_reset
  · simp [reset]
  · exact FwWrite.fits_reset
  · exact WrPort.paired_reset

theorem rdInner_zero_iff : v.rd.rvalid = decide (v.rdInner = some 0) := by
  unfold rdInner RdPort.owed
  cases v.rd.rvalid <;> cases v.packed <;> simp

theorem wrInner_zero_iff : v.wr.bvalid = decide (v.wrInner = some 0) := by
  unfold wrInner WrPort.owed
  cases v.wr.bvalid <;> cases v.wr.awGot <;> simp

section Cycle

variable {x : FwIn 8} {fp : Bool}

/-- One cycle of the read side. -/
theorem Served.read (h : v.Served) (v' : AccelView aw)
    (hOut : x.m = busOut v.wr v.rd v.packed.isSome)
    {packed : Option (BitVec 32)} {taken : Option (BitVec 32 × Bool)}
    (hTaken : taken.isSome = (v.fw.toSlave.arvalid && (!v.rd.rvalid && !v.packed.isSome)))
    (hPacks : Owes 5 (taken.any fun t => !t.2) packed.isSome v.packed v'.packed)
    (hLast : v.packed = some 0 → packed.isSome = true)
    (hFw : v'.fw.rd = v.fw.rd.next fp x) (hRd : v'.rd = v.rd.next v.fw.toSlave packed taken) :
    (v'.fw.rd.Fits v'.rdInner ∧ (v'.packed.isSome = true → v'.rd.rvalid = false)) ∧
      Owes 8 (arTaken v.fw x.s) (rGiven v.fw x.s) v.rdOwed v'.rdOwed := by
  obtain ⟨hApart, hSlave⟩ := RdPort.owes_next h.rdApart hTaken hPacks hLast
  have hAr : x.m.arready = (!v.rd.rvalid && !v.packed.isSome) := by rw [hOut]; rfl
  have hRv : x.m.rvalid = v.rd.rvalid := by rw [hOut]; rfl
  have hReady (ho : v.rdInner = none) : x.m.arready = true := by
    rw [hAr]
    unfold rdInner RdPort.owed at ho
    cases hUp : v.rd.rvalid <;> cases hp : v.packed <;> simp_all
  have hOwes : Owes 6 (v.fw.rd.mArvalid && x.m.arready) (x.m.rvalid && v.fw.rd.mRready) v.rdInner
      v'.rdInner := by
    rw [hAr, hRv, rdInner, rdInner, hRd]
    exact hSlave
  obtain ⟨hFits, hServes⟩ := FwRead.owes_next fp h.rd hReady
    (hRv.trans rdInner_zero_iff) hOwes
  rw [← hFw] at hFits hServes
  rw [← hRd] at hApart
  exact ⟨⟨hFits, hApart⟩, hServes⟩

/-- One cycle of the write side. -/
theorem Served.write (h : v.Served) (v' : AccelView aw) {pkrRun : Bool}
    (hOut : x.m = busOut v.wr v.rd pkrRun)
    {resp : Option (BitVec 2)} (hResp : resp.isSome = (v.wr.wrNow v.fw.toSlave v.pkw.run).isSome)
    {zeroizeAll : Bool} {start : Option (BitVec 24 × BitVec aw)}
    (hStart : resp = none → start = none)
    (hFw : v'.fw.wr = v.fw.wr.next fp x) (hWr : v'.wr = v.wr.next v.fw.toSlave resp)
    (hPkw : v'.pkw = v.pkw.next zeroizeAll start) :
    (v'.fw.wr.Fits v'.wrInner ∧ v'.wr.Paired) ∧
      Owes 6 (v.fw.wr.takes x) (bGiven v.fw x.s) v.wrOwed v'.wrOwed := by
  have hPair : v.fw.toSlave.wvalid = v.fw.toSlave.awvalid := h.wr.mWvalid.trans h.wr.mAwvalid.symm
  obtain ⟨hPaired, hSlave⟩ := h.paired.owes_next hPair hResp zeroizeAll hStart
  have hAw : x.m.awready = v.wr.awready := by rw [hOut]; rfl
  have hW : x.m.wready = v.wr.wready := by rw [hOut]; rfl
  have hB : x.m.bvalid = v.wr.bvalid := by rw [hOut]; rfl
  have hReady (ho : v.wrInner = none) : x.m.awready = true ∧ x.m.wready = true := by
    have hAwready := WrPort.owed_none_iff.mp ho
    rw [hAw, hW, WrPort.wready, h.paired.got]
    exact ⟨hAwready, hAwready⟩
  have hOwes : Owes 4 (v.fw.wr.mAwvalid && x.m.awready) (x.m.bvalid && v.fw.wr.mBready) v.wrInner
      v'.wrInner := by
    rw [hAw, hB, wrInner, wrInner, hWr, hPkw]
    exact hSlave
  obtain ⟨hFits, hServes⟩ := FwWrite.owes_next fp h.wr hReady
    (hB.trans wrInner_zero_iff) hOwes
  rw [← hFw] at hFits hServes
  rw [← hWr] at hPaired
  exact ⟨⟨hFits, hPaired⟩, hServes⟩

end Cycle

end AccelView

namespace KemPackedRead

variable {k : KemPackedRead} {zeroizeAll start : Bool} {dout : BitVec 8}

/-- In how many cycles the last byte is there. -/
def owed (k : KemPackedRead) : Option Nat :=
  if k.run then some (if k.i = 1 then 2 else if k.i = 2 then 1 else 0) else none

theorem isSome_owed : k.owed.isSome = k.run := by
  unfold owed
  cases k.run <;> simp

theorem word_of_owed_zero (h : k.owed = some 0) : (k.word dout).isSome = true := by
  unfold owed at h
  unfold word
  by_cases h1 : k.i = 1#3 <;> by_cases h2 : k.i = 2#3 <;> cases hRun : k.run <;> simp_all

/-- A packed read ends in time, unless ZEROIZE cuts it off. -/
theorem owes_next (hStart : start = true → k.run = false)
    (hCut : ¬(k.run = true ∧ zeroizeAll = true ∧ k.word dout = none)) :
    Owes 2 start (k.word dout).isSome k.owed (k.next zeroizeAll start dout).owed := by
  cases hRun : k.run with
  | false =>
    cases start <;> simp [owed, word, next, hRun, Owes]
  | true =>
    have hNo : start = false := by
      rw [Bool.eq_false_iff]
      intro hYes
      simp [hStart hYes] at hRun
    have hFree (hNone : k.word dout = none) : zeroizeAll = false := by
      rw [Bool.eq_false_iff]
      intro hZero
      exact hCut ⟨hRun, hZero, hNone⟩
    by_cases h1 : k.i = 1#3
    · have hNone : k.word dout = none := by simp [word, h1]
      simp [owed, next, hRun, hNo, hNone, h1, hFree hNone, Owes]
    · by_cases h2 : k.i = 2#3
      · have hNone : k.word dout = none := by simp [word, h2]
        simp [owed, next, hRun, hNo, hNone, h2, hFree hNone, Owes]
      · simp [owed, word, next, hRun, hNo, h1, h2, Owes]

end KemPackedRead

namespace DsaPackedRead

variable {k : DsaPackedRead} {zeroizeAll : Bool} {start : Option (BitVec 15)} {outData : BitVec 8}

/-- In how many cycles the last byte is there; each byte takes two of them. -/
def owed (k : DsaPackedRead) : Option Nat :=
  if k.run then
    some ((if k.i = 1 then 4 else if k.i = 2 then 2 else 0) + if k.ph then 0 else 1)
  else none

theorem isSome_owed : k.owed.isSome = k.run := by
  unfold owed
  cases k.run <;> simp

theorem word_of_owed_zero (h : k.owed = some 0) : (k.word outData).isSome = true := by
  unfold owed at h
  unfold word
  by_cases h1 : k.i = 1#2 <;> by_cases h2 : k.i = 2#2 <;> cases hRun : k.run <;>
    cases hPh : k.ph <;> simp_all

/-- A packed read ends in time, unless ZEROIZE cuts it off. -/
theorem owes_next (hStart : start.isSome = true → k.run = false)
    (hCut : ¬(k.run = true ∧ zeroizeAll = true ∧ k.word outData = none)) :
    Owes 5 start.isSome (k.word outData).isSome k.owed (k.next zeroizeAll start outData).owed := by
  cases hRun : k.run with
  | false =>
    cases start <;> cases zeroizeAll <;> simp [owed, word, next, cleared, hRun, Owes]
  | true =>
    have hNo : start = none := by
      rw [← Option.not_isSome_iff_eq_none]
      intro hYes
      simp [hStart hYes] at hRun
    have hFree (hNone : k.word outData = none) : zeroizeAll = false := by
      rw [Bool.eq_false_iff]
      intro hZero
      exact hCut ⟨hRun, hZero, hNone⟩
    cases hPh : k.ph with
    | false =>
      have hNone : k.word outData = none := by simp [word, hPh]
      by_cases h1 : k.i = 1#2 <;> by_cases h2 : k.i = 2#2 <;>
        simp [owed, next, cleared, hRun, hNo, hNone, hPh, h1, h2, hFree hNone, Owes]
    | true =>
      by_cases h1 : k.i = 1#2
      · have hNone : k.word outData = none := by simp [word, h1]
        simp [owed, next, cleared, hRun, hNo, hNone, hPh, h1, hFree hNone, Owes]
      · by_cases h2 : k.i = 2#2
        · have hNone : k.word outData = none := by simp [word, h2]
          simp [owed, next, cleared, hRun, hNo, hNone, hPh, h2, hFree hNone, Owes]
        · cases zeroizeAll <;> simp [owed, word, next, cleared, hRun, hNo, hPh, h1, h2, Owes]

end DsaPackedRead

section Halves

variable {aw : Nat} (w : FwWrite aw) (x : FwIn aw) (permitted : Bool)

theorem FwWrite.next_got_of_busy (hBusy : w.wst ≠ .idle) :
    (w.next permitted x).awGot = w.awGot ∧ (w.next permitted x).wGot = w.wGot := by
  cases hSt : w.wst with
  | idle => exact absurd hSt hBusy
  | fwd =>
    simp only [FwWrite.next, FwWrite.nextFwd, hSt]
    split <;> exact ⟨rfl, rfl⟩
  | waitb =>
    simp only [FwWrite.next, hSt]
    split <;> exact ⟨rfl, rfl⟩
  | err => simp [FwWrite.next, hSt]
  | resp =>
    simp only [FwWrite.next, hSt]
    split <;> exact ⟨rfl, rfl⟩

/-- Addresses taken, less whole writes, is what waits for its data. -/
theorem FwWrite.awGot_next :
    w.awGot.toNat + (x.s.awvalid && w.sAwready).toNat =
      (w.next permitted x).awGot.toNat + (w.takes x).toNat := by
  by_cases hSt : w.wst = .idle
  · simp only [FwWrite.next, FwWrite.nextIdle, FwWrite.takes, FwWrite.complete, FwWrite.awHandshake,
      FwWrite.sAwready, hSt]
    cases w.awGot <;> cases x.s.awvalid <;> cases (w.wGot || w.wHandshake x) <;> cases permitted <;>
      rfl
  · rw [(w.next_got_of_busy x permitted hSt).1]
    simp [FwWrite.takes, FwWrite.sAwready, hSt]

/-- The same for the data. -/
theorem FwWrite.wGot_next :
    w.wGot.toNat + (x.s.wvalid && w.sWready).toNat =
      (w.next permitted x).wGot.toNat + (w.takes x).toNat := by
  by_cases hSt : w.wst = .idle
  · simp only [FwWrite.next, FwWrite.nextIdle, FwWrite.takes, FwWrite.complete, FwWrite.wHandshake,
      FwWrite.sWready, hSt]
    cases w.wGot <;> cases x.s.wvalid <;> cases (w.awGot || w.awHandshake x) <;> cases permitted <;>
      rfl
  · rw [(w.next_got_of_busy x permitted hSt).2]
    simp [FwWrite.takes, FwWrite.sWready, hSt]

end Halves

namespace AccelView

variable {aw : Nat} {ι σ : Type} {C : Clocked ι σ} {view : σ → AccelView aw}
  {outside : σ → ι → FwIn 8} {master : ι → AxiMaster 8} {ins : Nat → ι}

/-- One cycle of a module keeps its channels in order. -/
structure Cycle (v v' : AccelView aw) (x : FwIn 8) : Prop where
  served : v'.Served
  rd : Owes 8 (arTaken v.fw x.s) (rGiven v.fw x.s) v.rdOwed v'.rdOwed
  wr : Owes 6 (v.fw.wr.takes x) (bGiven v.fw x.s) v.wrOwed v'.wrOwed
  fw : ∃ permitted, v'.fw.wr = v.fw.wr.next permitted x

theorem wrOwed_of_got {v : AccelView aw} (h : v.Served)
    (hGot : v.fw.wr.awGot = true ∨ v.fw.wr.wGot = true) : v.wrOwed = none := by
  have hIdle : v.fw.wr.wst = .idle := by
    rcases hGot with hGot | hGot
    · exact (h.wr.awGot hGot).1
    · exact (h.wr.wGot hGot).1
  simp [wrOwed, FwWrite.owed, hIdle]

section Runs

variable (hReset : view C.reset = reset aw) (hMaster : ∀ a x, (outside a x).s = master x)
  (hCycle : ∀ k, (view (C.after ins k)).Served →
    Cycle (view (C.after ins k)) (view (C.after ins (k + 1))) (outside (C.after ins k) (ins k)))

include hReset hCycle

theorem served_after (k : Nat) : (view (C.after ins k)).Served := by
  induction k with
  | zero =>
    show (view C.reset).Served
    rw [hReset]
    exact served_reset
  | succ k ih => exact (hCycle k ih).served

include hMaster

theorem owes_rd (k : Nat) : Owes 8 (arTaken (view (C.after ins k)).fw (master (ins k)))
    (rGiven (view (C.after ins k)).fw (master (ins k))) (view (C.after ins k)).rdOwed
    (view (C.after ins (k + 1))).rdOwed := by
  have hStep := (hCycle k (served_after hReset hCycle k)).rd
  rwa [hMaster] at hStep

theorem owes_wr (k : Nat) :
    Owes 6 ((view (C.after ins k)).fw.wr.takes (outside (C.after ins k) (ins k)))
      (bGiven (view (C.after ins k)).fw (master (ins k))) (view (C.after ins k)).wrOwed
      (view (C.after ins (k + 1))).wrOwed := by
  have hStep := (hCycle k (served_after hReset hCycle k)).wr
  rwa [hMaster] at hStep

/-- A whole write is an address and its data. -/
theorem times_awTaken (k : Nat) : C.times (fun a x => awTaken (view a).fw (master x)) ins k =
    C.times (fun a x => (view a).fw.wr.takes (outside a x)) ins k +
      (view (C.after ins k)).fw.wr.awGot.toNat := by
  induction k with
  | zero =>
    show 0 = 0 + (view C.reset).fw.wr.awGot.toNat
    rw [hReset]
    rfl
  | succ k ih =>
    obtain ⟨permitted, hFw⟩ := (hCycle k (served_after hReset hCycle k)).fw
    have hStep := FwWrite.awGot_next (view (C.after ins k)).fw.wr (outside (C.after ins k) (ins k))
      permitted
    rw [← hFw, hMaster] at hStep
    simp only [Clocked.times, awTaken, Firewall.toMaster] at ih ⊢
    omega

theorem times_wTaken (k : Nat) : C.times (fun a x => wTaken (view a).fw (master x)) ins k =
    C.times (fun a x => (view a).fw.wr.takes (outside a x)) ins k +
      (view (C.after ins k)).fw.wr.wGot.toNat := by
  induction k with
  | zero =>
    show 0 = 0 + (view C.reset).fw.wr.wGot.toNat
    rw [hReset]
    rfl
  | succ k ih =>
    obtain ⟨permitted, hFw⟩ := (hCycle k (served_after hReset hCycle k)).fw
    have hStep := FwWrite.wGot_next (view (C.after ins k)).fw.wr (outside (C.after ins k) (ins k))
      permitted
    rw [← hFw, hMaster] at hStep
    simp only [Clocked.times, wTaken, Firewall.toMaster] at ih ⊢
    omega

variable (view outside) in
/-- A module whose every cycle keeps its channels in order answers each transaction once. -/
theorem answeredOnce_after (k : Nat) : AnsweredOnce C (fun a => (view a).fw) master ins k := by
  have hServed := served_after hReset hCycle
  have hRdReset : (view C.reset).rdOwed = none := by rw [hReset]; rfl
  have hWrReset : (view C.reset).wrOwed = none := by rw [hReset]; rfl
  have hOwesRd := owes_rd hReset hMaster hCycle
  have hOwesWr := owes_wr hReset hMaster hCycle
  have hReads := Clocked.times_owed (fun a x => arTaken (view a).fw (master x))
    (fun a x => rGiven (view a).fw (master x)) (fun a => (view a).rdOwed) hRdReset hOwesRd k
  have hWrites := Clocked.times_owed (fun a x => (view a).fw.wr.takes (outside a x))
    (fun a x => bGiven (view a).fw (master x)) (fun a => (view a).wrOwed) hWrReset hOwesWr k
  have hAddresses := times_awTaken hReset hMaster hCycle k
  have hData := times_wTaken hReset hMaster hCycle k
  have hOneRd : (view (C.after ins k)).rdOwed.toList.length ≤ 1 := by
    cases (view (C.after ins k)).rdOwed <;> simp
  have hOneWr : (view (C.after ins k)).wrOwed.toList.length +
      (view (C.after ins k)).fw.wr.awGot.toNat + (view (C.after ins k)).fw.wr.wGot.toNat ≤ 1 := by
    cases hA : (view (C.after ins k)).fw.wr.awGot with
    | true =>
      rw [wrOwed_of_got (hServed k) (.inl hA), ((hServed k).wr.awGot hA).2]
      simp
    | false =>
      cases hD : (view (C.after ins k)).fw.wr.wGot with
      | true =>
        rw [wrOwed_of_got (hServed k) (.inr hD)]
        simp
      | false => cases (view (C.after ins k)).wrOwed <;> simp
  constructor
  · omega
  · intro hLess
    have hDue : (view (C.after ins k)).rdOwed.isSome = true := by
      cases hOwed : (view (C.after ins k)).rdOwed with
      | none =>
        rw [hOwed] at hReads
        simp at hReads
        omega
      | some n => rfl
    obtain ⟨j, hj, hLe, hUp⟩ := Clocked.owed_comes (fun a x => arTaken (view a).fw (master x))
      (fun a x => rGiven (view a).fw (master x)) (fun a => (view a).rdOwed) hRdReset hOwesRd hDue
    exact ⟨j, hj, hLe, FwRead.owed_zero (hServed j).rd hUp⟩
  · omega
  · omega
  · intro hLessA hLessD
    have hDue : (view (C.after ins k)).wrOwed.isSome = true := by
      cases hOwed : (view (C.after ins k)).wrOwed with
      | none =>
        rw [hOwed] at hWrites hOneWr
        simp at hWrites hOneWr
        omega
      | some n => rfl
    obtain ⟨j, hj, hLe, hUp⟩ := Clocked.owed_comes (fun a x => (view a).fw.wr.takes (outside a x))
      (fun a x => bGiven (view a).fw (master x)) (fun a => (view a).wrOwed) hWrReset hOwesWr hDue
    exact ⟨j, by omega, hLe, FwWrite.owed_zero (hServed j).wr hUp⟩
  · intro hLess
    have hGot : (view (C.after ins k)).fw.wr.awGot = true := by
      rw [← Bool.toNat_eq_one]
      omega
    obtain ⟨hIdle, hNo⟩ := (hServed k).wr.awGot hGot
    simp [Firewall.toMaster, FwWrite.sWready, hIdle, hNo]
  · intro hLess
    have hGot : (view (C.after ins k)).fw.wr.wGot = true := by
      rw [← Bool.toNat_eq_one]
      omega
    obtain ⟨hIdle, hNo⟩ := (hServed k).wr.wGot hGot
    simp [Firewall.toMaster, FwWrite.sAwready, hIdle, hNo]

end Runs

end AccelView

end PqcHsm
