import PqcHsm.Rtl.BusAnswers

/-!
# The accelerators answer each transaction once

Both modules, as long as no ZEROIZE meets a packed read before its last byte; and a run in which one
does, after which the read channel is dead.
-/

namespace PqcHsm

/-- The read that is taken makes the packed read begin, or does not. -/
theorem any_map_packed {taken : Option (BitVec 8)} {packed : BitVec 8 → Bool}
    {word : BitVec 8 → BitVec 32} :
    ((taken.map fun a => (word a, !taken.any packed)).any fun t => !t.2) = taken.any packed := by
  cases taken <;> simp

theorem arNow_isSome {r : RdPort} {m : AxiMaster 8} {run : Bool} :
    (r.arNow m run).isSome = (m.arvalid && (!r.rvalid && !run)) := by
  unfold RdPort.arNow
  split <;> simp_all

namespace KemRegs

/-- ZEROIZE meets a packed read that is still collecting. -/
def CutsRead (s : KemRegs) (x : KemIn) : Prop :=
  s.pkr.run = true ∧ s.zeroizeAll x = true ∧ s.pkr.word s.outbDout = none

end KemRegs

namespace DsaRegs

/-- ZEROIZE meets a packed read that is still collecting. -/
def CutsRead (s : DsaRegs) (x : DsaIn) : Prop :=
  s.pkr.run = true ∧ s.zeroizeAll x = true ∧ s.pkr.word (s.outData x) = none

end DsaRegs

namespace KemRegs

variable {s : KemRegs} {x : KemIn}

theorem not_run_of_rdOut4 (h : s.rdOut4 x = true) : s.pkr.run = false := by
  unfold rdOut4 arNow RdPort.arNow at h
  split at h <;> simp_all

/-- The packed read and the word it ends with. -/
theorem packs (hCut : ¬s.CutsRead x) :
    Owes 5 (s.rdOut4 x) (s.pkr.word s.outbDout).isSome s.pkr.owed
      (s.pkr.next (s.zeroizeAll x) (s.rdOut4 x) s.outbDout).owed :=
  (KemPackedRead.owes_next not_run_of_rdOut4 hCut).mono (by decide)

end KemRegs

namespace DsaRegs

variable {s : DsaRegs} {x : DsaIn}

theorem not_run_of_rdOut4 (h : s.rdOut4 x = true) : s.pkr.run = false := by
  unfold rdOut4 arNow RdPort.arNow at h
  split at h <;> simp_all

theorem packs (hCut : ¬s.CutsRead x) :
    Owes 5 (s.rdOut4 x) (s.pkr.word (s.outData x)).isSome s.pkr.owed
      (s.pkr.next (s.zeroizeAll x) (if s.rdOut4 x then some (s.outPtr.setWidth 15 + 1) else none)
        (s.outData x)).owed := by
  have hIs : (if s.rdOut4 x then some (s.outPtr.setWidth 15 + 1) else none).isSome =
      s.rdOut4 x := by
    cases s.rdOut4 x <;> rfl
  have hStart (h : (if s.rdOut4 x then some (s.outPtr.setWidth 15 + 1) else none).isSome = true) :
      s.pkr.run = false := not_run_of_rdOut4 (hIs.symm.trans h)
  have hPacks := DsaPackedRead.owes_next hStart hCut
  rwa [hIs] at hPacks

end DsaRegs

namespace MlkemAxi

variable {a : MlkemAxi} {x : MlkemIn}

def view (a : MlkemAxi) : AccelView 13 := ⟨a.fw, a.regs.wr, a.regs.pkw, a.regs.rd, a.regs.pkr.owed⟩

theorem cycle_view (h : a.view.Served) (hCut : ¬a.regs.CutsRead (a.inside x)) (secureOnly : Bool)
    (version : BitVec 32) : a.view.Cycle (a.next x secureOnly version).view (a.outside x) := by
  have hOut (run : Bool) (hRun : a.regs.pkr.run = run) :
      (a.outside x).m = busOut a.view.wr a.view.rd run := by
    rw [← hRun]
    rfl
  have hTaken : ((a.regs.arNow (a.inside x)).map fun i =>
      (a.regs.readWord (a.inside x) version i, !a.regs.rdOut4 (a.inside x))).isSome =
        (a.fw.toSlave.arvalid && (!a.regs.rd.rvalid && !a.view.packed.isSome)) := by
    rw [Option.isSome_map]
    simp only [view, KemPackedRead.isSome_owed]
    exact arNow_isSome
  have hPacks : Owes 5 (((a.regs.arNow (a.inside x)).map fun i =>
      (a.regs.readWord (a.inside x) version i, !a.regs.rdOut4 (a.inside x))).any fun t => !t.2)
        (a.regs.pkr.word a.regs.outbDout).isSome a.view.packed
        (a.next x secureOnly version).view.packed := by
    rw [KemRegs.rdOut4, any_map_packed]
    exact KemRegs.packs hCut
  obtain ⟨⟨hFitsRd, hApart⟩, hRd⟩ := h.read (a.next x secureOnly version).view
    (hOut _ KemPackedRead.isSome_owed.symm) hTaken hPacks KemPackedRead.word_of_owed_zero rfl rfl
  have hResp : (a.regs.wrResp (a.inside x)).isSome =
      (a.regs.wr.wrNow a.fw.toSlave a.regs.pkw.run).isSome := Option.isSome_map
  have hStart (hNone : a.regs.wrResp (a.inside x) = none) :
      a.regs.pkwStart (a.inside x) = none := by
    have hNot : a.regs.wrNow (a.inside x) = none := by simpa [KemRegs.wrResp] using hNone
    simp [KemRegs.pkwStart, hNot]
  obtain ⟨⟨hFitsWr, hPaired⟩, hWr⟩ := h.write (a.next x secureOnly version).view
    (hOut _ rfl) hResp hStart rfl rfl rfl
  exact ⟨⟨hFitsRd, hApart, hFitsWr, hPaired⟩, hRd, hWr, _, rfl⟩

theorem answeredOnce (secureOnly : Bool) (version : BitVec 32) {ins : Nat → MlkemIn}
    (hCut : ∀ k, ¬((circuit secureOnly version).after ins k).regs.CutsRead
      (((circuit secureOnly version).after ins k).inside (ins k))) (k : Nat) :
    AnsweredOnce (circuit secureOnly version) MlkemAxi.fw MlkemIn.s ins k :=
  AccelView.answeredOnce_after view outside rfl (fun _ _ => rfl)
    (fun k hServed => cycle_view hServed (hCut k) secureOnly version) k

end MlkemAxi

namespace MldsaAxi

variable {a : MldsaAxi} {x : MldsaIn}

def view (a : MldsaAxi) : AccelView 15 := ⟨a.fw, a.regs.wr, a.regs.pkw, a.regs.rd, a.regs.pkr.owed⟩

theorem cycle_view (h : a.view.Served) (hCut : ¬a.regs.CutsRead (a.inside x)) (secureOnly : Bool)
    (version : BitVec 32) : a.view.Cycle (a.next x secureOnly version).view (a.outside x) := by
  have hOut (run : Bool) (hRun : a.regs.pkr.run = run) :
      (a.outside x).m = busOut a.view.wr a.view.rd run := by
    rw [← hRun]
    rfl
  have hTaken : ((a.regs.arNow (a.inside x)).map fun i =>
      (a.regs.readWord (a.inside x) version i, !a.regs.rdOut4 (a.inside x))).isSome =
        (a.fw.toSlave.arvalid && (!a.regs.rd.rvalid && !a.view.packed.isSome)) := by
    rw [Option.isSome_map]
    simp only [view, DsaPackedRead.isSome_owed]
    exact arNow_isSome
  have hPacks : Owes 5 (((a.regs.arNow (a.inside x)).map fun i =>
      (a.regs.readWord (a.inside x) version i, !a.regs.rdOut4 (a.inside x))).any fun t => !t.2)
        (a.regs.pkr.word (a.regs.outData (a.inside x))).isSome a.view.packed
        (a.next x secureOnly version).view.packed := by
    rw [DsaRegs.rdOut4, any_map_packed]
    exact DsaRegs.packs hCut
  obtain ⟨⟨hFitsRd, hApart⟩, hRd⟩ := h.read (a.next x secureOnly version).view
    (hOut _ DsaPackedRead.isSome_owed.symm) hTaken hPacks DsaPackedRead.word_of_owed_zero rfl rfl
  have hResp : (a.regs.wrResp (a.inside x)).isSome =
      (a.regs.wr.wrNow a.fw.toSlave a.regs.pkw.run).isSome := Option.isSome_map
  have hStart (hNone : a.regs.wrResp (a.inside x) = none) :
      a.regs.pkwStart (a.inside x) = none := by
    have hNot : a.regs.wrNow (a.inside x) = none := by simpa [DsaRegs.wrResp] using hNone
    simp [DsaRegs.pkwStart, DsaRegs.written, hNot]
  obtain ⟨⟨hFitsWr, hPaired⟩, hWr⟩ := h.write (a.next x secureOnly version).view
    (hOut _ rfl) hResp hStart rfl rfl rfl
  exact ⟨⟨hFitsRd, hApart, hFitsWr, hPaired⟩, hRd, hWr, _, rfl⟩

theorem answeredOnce (secureOnly : Bool) (version : BitVec 32) {ins : Nat → MldsaIn}
    (hCut : ∀ k, ¬((circuit secureOnly version).after ins k).regs.CutsRead
      (((circuit secureOnly version).after ins k).inside (ins k))) (k : Nat) :
    AnsweredOnce (circuit secureOnly version) MldsaAxi.fw MldsaIn.s ins k :=
  AccelView.answeredOnce_after view outside rfl (fun _ _ => rfl)
    (fun k hServed => cycle_view hServed (hCut k) secureOnly version) k

end MldsaAxi

/-- At the bus of either accelerator, every transaction is answered once. -/
theorem each_answered_once (secureOnly : Bool) (version : BitVec 32) {kemIns : Nat → MlkemIn}
    {dsaIns : Nat → MldsaIn}
    (hKem : ∀ k, ¬((MlkemAxi.circuit secureOnly version).after kemIns k).regs.CutsRead
      (((MlkemAxi.circuit secureOnly version).after kemIns k).inside (kemIns k)))
    (hDsa : ∀ k, ¬((MldsaAxi.circuit secureOnly version).after dsaIns k).regs.CutsRead
      (((MldsaAxi.circuit secureOnly version).after dsaIns k).inside (dsaIns k))) (k : Nat) :
    AnsweredOnce (MlkemAxi.circuit secureOnly version) MlkemAxi.fw MlkemIn.s kemIns k ∧
      AnsweredOnce (MldsaAxi.circuit secureOnly version) MldsaAxi.fw MldsaIn.s dsaIns k :=
  ⟨MlkemAxi.answeredOnce secureOnly version hKem k, MldsaAxi.answeredOnce secureOnly version hDsa k⟩

section Examples

/-- A key is generated, and the first word of it is read. -/
def readMaster (k : Nat) : AxiMaster 8 where
  awaddr := if k = 32 then 0x04 else 0x40
  awprot := 0
  awvalid := decide (k ≤ 32) && decide (k % 4 = 0)
  wdata := 1
  wstrb := 0xF
  wvalid := decide (k ≤ 32) && decide (k % 4 = 0)
  bready := true
  araddr := 0x44
  arprot := 0
  arvalid := decide (k = 41)
  rready := true

/-- The run, with tampering in one cycle or in none. -/
def readIns (tampered : Option Nat) (k : Nat) : MldsaIn where
  s := readMaster k
  tamper := decide (tampered = some k)
  eng := ⟨true, true, false, false, 4, fun _ _ => 0, fun _ => 0⟩

/-- Cores that stay silent, and a master that only generates the key. -/
def keyIns (k : Nat) : MlkemIn where
  s := { readMaster k with arvalid := false }
  tamper := false
  xbarViolCount := 0
  cores :=
    let core : KemCore := ⟨false, 0, false, false⟩
    ⟨core, core, core, false, false, false, false⟩

/-- The module in that run, before cycle `k`. -/
abbrev readAfter (tampered : Option Nat) (k : Nat) : MldsaAxi :=
  (MldsaAxi.circuit true 0x10000).after (readIns tampered) k

namespace MlkemAxi

/-- Nothing is read. -/
def Parked (a : MlkemAxi) : Prop :=
  a.fw.rd.rst = .idle ∧ a.fw.rd.mArvalid = false ∧ a.regs.pkr.run = false

theorem parked_next {a : MlkemAxi} {x : MlkemIn} (h : a.Parked) (hNone : x.s.arvalid = false)
    (secureOnly : Bool) (version : BitVec 32) : (a.next x secureOnly version).Parked := by
  obtain ⟨hSt, hAr, hRun⟩ := h
  have hNot : a.regs.rdOut4 (a.inside x) = false := by
    simp [KemRegs.rdOut4, KemRegs.arNow, RdPort.arNow, inside, Firewall.toSlave, hAr]
  have hRd : (a.next x secureOnly version).fw.rd = a.fw.rd := by
    simp [next, Firewall.next, FwRead.next, FwRead.arHandshake, hSt, outside, hNone]
  refine ⟨?_, ?_, ?_⟩
  · rw [hRd, hSt]
  · rw [hRd, hAr]
  · simp [next, KemRegs.next, KemPackedRead.next, hNot, hRun]

end MlkemAxi

namespace MldsaAxi

/-- Nothing is read. -/
def Parked (a : MldsaAxi) : Prop :=
  a.fw.rd.rst = .idle ∧ a.fw.rd.mArvalid = false ∧ a.regs.pkr.run = false

/-- A read was passed on, and nothing will answer it. -/
def Dead (a : MldsaAxi) : Prop :=
  a.fw.rd.rst = .waitr ∧ a.fw.rd.mArvalid = false ∧ a.fw.rd.sRvalid = false ∧
    a.regs.rd.rvalid = false ∧ a.regs.pkr.run = false

variable {a : MldsaAxi} {x : MldsaIn}

theorem regs_next_run (hAr : a.fw.rd.mArvalid = false) (hRun : a.regs.pkr.run = false)
    (version : BitVec 32) : (a.regs.next (a.inside x) version).pkr.run = false := by
  have hNot : a.regs.rdOut4 (a.inside x) = false := by
    simp [DsaRegs.rdOut4, DsaRegs.arNow, RdPort.arNow, inside, Firewall.toSlave, hAr]
  cases hZero : a.regs.zeroizeAll (a.inside x) <;>
    simp [DsaRegs.next, DsaPackedRead.next, DsaPackedRead.cleared, hNot, hRun, hZero]

theorem parked_next (h : a.Parked) (hNone : x.s.arvalid = false) (secureOnly : Bool)
    (version : BitVec 32) : (a.next x secureOnly version).Parked := by
  obtain ⟨hSt, hAr, hRun⟩ := h
  have hRd : (a.next x secureOnly version).fw.rd = a.fw.rd := by
    simp [next, Firewall.next, FwRead.next, FwRead.arHandshake, hSt, outside, hNone]
  refine ⟨?_, ?_, regs_next_run hAr hRun version⟩
  · rw [hRd, hSt]
  · rw [hRd, hAr]

theorem dead_next (h : a.Dead) (secureOnly : Bool) (version : BitVec 32) :
    (a.next x secureOnly version).Dead := by
  obtain ⟨hSt, hAr, hUp, hValid, hRun⟩ := h
  have hRd : (a.next x secureOnly version).fw.rd = a.fw.rd := by
    simp [next, Firewall.next, FwRead.next, hSt, outside, DsaRegs.toFw, busOut, hValid]
  have hArNow : a.regs.arNow (a.inside x) = none := by
    simp [DsaRegs.arNow, RdPort.arNow, inside, Firewall.toSlave, hAr]
  refine ⟨?_, ?_, ?_, ?_, regs_next_run hAr hRun version⟩
  · rw [hRd, hSt]
  · rw [hRd, hAr]
  · rw [hRd, hUp]
  · simp [next, DsaRegs.next, RdPort.next, hArNow, DsaPackedRead.word, hRun, hValid]

end MldsaAxi

instance (s : DsaRegs) (x : DsaIn) : Decidable (s.CutsRead x) :=
  inferInstanceAs (Decidable (_ ∧ _ ∧ _))

instance (a : MldsaAxi) : Decidable a.Parked := inferInstanceAs (Decidable (_ ∧ _ ∧ _))

instance (a : MldsaAxi) : Decidable a.Dead := inferInstanceAs (Decidable (_ ∧ _ ∧ _ ∧ _ ∧ _))

theorem key_not_cut (k : Nat) : ¬((MlkemAxi.circuit true 0x10000).after keyIns k).regs.CutsRead
    (((MlkemAxi.circuit true 0x10000).after keyIns k).inside (keyIns k)) := by
  have hParked : ((MlkemAxi.circuit true 0x10000).after keyIns k).Parked := by
    induction k with
    | zero => exact ⟨rfl, rfl, rfl⟩
    | succ k ih => exact MlkemAxi.parked_next ih rfl true 0x10000
  intro hCut
  have hRun := hCut.1
  rw [hParked.2.2] at hRun
  exact Bool.false_ne_true hRun

theorem read_not_cut (k : Nat) :
    ¬(readAfter none k).regs.CutsRead ((readAfter none k).inside (readIns none k)) := by
  have hEarly : ∀ k < 60,
      ¬(readAfter none k).regs.CutsRead ((readAfter none k).inside (readIns none k)) := by
    decide +kernel
  by_cases hk : k < 60
  · exact hEarly k hk
  · have hParked (j : Nat) : (readAfter none (60 + j)).Parked := by
      induction j with
      | zero => decide +kernel
      | succ j ih =>
        have hNone : (readIns none (60 + j)).s.arvalid = false := decide_eq_false (by omega)
        exact MldsaAxi.parked_next ih hNone true 0x10000
    have hLate := hParked (k - 60)
    rw [Nat.add_sub_cancel' (by omega)] at hLate
    intro hCut
    have hRun := hCut.1
    rw [hLate.2.2] at hRun
    exact Bool.false_ne_true hRun

theorem each_answered_once_read :
    AnsweredOnce (MlkemAxi.circuit true 0x10000) MlkemAxi.fw MlkemIn.s keyIns 60 ∧
      AnsweredOnce (MldsaAxi.circuit true 0x10000) MldsaAxi.fw MldsaIn.s (readIns none) 60 :=
  each_answered_once true 0x10000 key_not_cut read_not_cut 60

theorem dead_after (j : Nat) : (readAfter (some 43) (44 + j)).Dead := by
  induction j with
  | zero => decide +kernel
  | succ j ih => exact MldsaAxi.dead_next ih true 0x10000

/-- Tampering two cycles after a packed read was taken: its answer never comes. -/
theorem cut_read_never_answered :
    arTaken (readAfter (some 43) 41).fw (readMaster 41) = true ∧
      (∀ j, (readAfter (some 43) j).fw.toMaster.rvalid = false) ∧
      ¬∀ k, AnsweredOnce (MldsaAxi.circuit true 0x10000) MldsaAxi.fw MldsaIn.s
        (readIns (some 43)) k := by
  have hSilent (j : Nat) : (readAfter (some 43) j).fw.toMaster.rvalid = false := by
    have hEarly : ∀ j < 44, (readAfter (some 43) j).fw.toMaster.rvalid = false := by
      decide +kernel
    by_cases hj : j < 44
    · exact hEarly j hj
    · have hDead := dead_after (j - 44)
      rw [Nat.add_sub_cancel' (by omega)] at hDead
      exact hDead.2.2.1
  refine ⟨by decide +kernel, hSilent, ?_⟩
  intro hOnce
  have hOpen :
      (MldsaAxi.circuit true 0x10000).times (fun a x => rGiven a.fw x.s) (readIns (some 43)) 44 <
      (MldsaAxi.circuit true 0x10000).times (fun a x => arTaken a.fw x.s) (readIns (some 43)) 44 := by
    decide +kernel
  obtain ⟨j, -, -, hUp⟩ := (hOnce 44).readComes hOpen
  rw [hSilent j] at hUp
  exact Bool.false_ne_true hUp

end Examples

end PqcHsm
