import PqcHsm.Rtl.CrossbarServes

/-!
# One register, one address

Which register each slave takes an access for, by the bits of the offset that its own decoder looks
at. Behind the crossbar an access names a register at most through one address, except where a slave
leaves address bit 6 out of a comparison.
-/

namespace PqcHsm

open Crossbar (offsetOf hitOf isSlave)

inductive BusDir where
  | write
  | read
  deriving DecidableEq

/-- The slaves of the board that hold keys, random bits or results. -/
inductive BusSlave where
  | trng
  | keyVault
  | sym
  | mlkem
  | mldsa
  deriving DecidableEq

/-- The registers under the names of their slave's map. -/
inductive BusReg where
  | version | ctrl | status | rdata | health | aptIdx | startup | blocks | words | param0 | param1
  | param2 | raw | drops | viol
  | slotSel | keyIn | slotCt | slotStat | validMap | lockMap | zeroCnt | violCnt | violInfo
  | loadRej | alg | slot | cmd | hashIn | din (n : Nat) | dout (n : Nat) | digest (n : Nat)
  | mode | inData | inPtr | outData | outLen | outRd | xbarViol | keyStat | seedData | seedStat
  | inData4 | outData4 | outPtr | msgLen | ctxLen
  deriving DecidableEq

/-- `addr[hi:lo]` as a number. -/
def addrBits (lo width : Nat) (o : BitVec 8) : Nat := (o.extractLsb' lo width).toNat

/-- The window of the firewall in front of a slave: the bits of the mask are 0. -/
def inWindow (mask : BitVec 8) (o : BitVec 8) : Bool := o &&& mask = 0

/-- `trng_axi` has no firewall and looks at `[5:2]`. -/
def trngReg : BusDir → BitVec 8 → Option BusReg
  | .write, o => if addrBits 2 4 o = 0 then some .ctrl else none
  | .read, o =>
    match addrBits 2 4 o with
    | 0x0 => some .ctrl
    | 0x1 => some .status
    | 0x2 => some .rdata
    | 0x3 => some .health
    | 0x4 => some .aptIdx
    | 0x5 => some .startup
    | 0x6 => some .blocks
    | 0x7 => some .words
    | 0x8 => some .version
    | 0x9 => some .param0
    | 0xA => some .param1
    | 0xB => some .param2
    | 0xC => some .raw
    | 0xD => some .drops
    | 0xE => some .viol
    | _ => none

/-- `key_vault_axi`: the window is 0x00 to 0x3F. -/
def keyVaultReg (d : BusDir) (o : BitVec 8) : Option BusReg :=
  if inWindow 0xC0 o then
    match d, addrBits 2 4 o with
    | .write, 0x1 => some .ctrl
    | .write, 0x3 => some .slotSel
    | .write, 0x4 => some .keyIn
    | .write, 0x5 => some .slotCt
    | .read, 0x0 => some .version
    | .read, 0x2 => some .status
    | .read, 0x3 => some .slotSel
    | .read, 0x6 => some .slotStat
    | .read, 0x7 => some .validMap
    | .read, 0x8 => some .lockMap
    | .read, 0x9 => some .zeroCnt
    | .read, 0xA => some .violCnt
    | .read, 0xB => some .violInfo
    | .read, 0xC => some .param0
    | .read, 0xD => some .loadRej
    | _, _ => none
  else none

/-- `sym_axi`: the window is 0x00 to 0x7F. The data windows are decoded by `[6:2]`, everything else
by `[5:2]`. -/
def symReg (d : BusDir) (o : BitVec 8) : Option BusReg :=
  if inWindow 0x80 o then
    match d with
    | .write =>
      if 8 ≤ addrBits 2 5 o && addrBits 2 5 o ≤ 11 then some (.din (addrBits 2 2 o))
      else
        match addrBits 2 4 o with
        | 0x1 => some .ctrl
        | 0x3 => some .alg
        | 0x4 => some .slot
        | 0x5 => some .cmd
        | 0x6 => some .hashIn
        | _ => none
    | .read =>
      if 12 ≤ addrBits 2 5 o && addrBits 2 5 o ≤ 15 then some (.dout (addrBits 2 2 o))
      else if 16 ≤ addrBits 2 5 o && addrBits 2 5 o ≤ 23 then some (.digest (addrBits 2 3 o))
      else
        match addrBits 2 4 o with
        | 0x0 => some .version
        | 0x2 => some .status
        | 0x3 => some .alg
        | 0x4 => some .slot
        | 0x7 => some .viol
        | 0xC => some .param0
        | _ => none
  else none

/-- `mlkem_axi`: the packed ports are decoded by `[7:2]`; the others by `[5:2]` where bit 6 is 0.
`wr_seed_addr` does not look at bit 6. -/
def mlkemReg (d : BusDir) (o : BitVec 8) : Option BusReg :=
  if inWindow 0x80 o then
    match d with
    | .write =>
      if addrBits 2 6 o = 0x10 then some .inData4
      else if addrBits 2 4 o = 0xE then some .seedData
      else if o.getLsbD 6 then none
      else
        match addrBits 2 4 o with
        | 0x1 => some .ctrl
        | 0x3 => some .mode
        | 0x4 => some .inData
        | _ => none
    | .read =>
      if addrBits 2 6 o = 0x11 then some .outData4
      else if o.getLsbD 6 then none
      else
        match addrBits 2 4 o with
        | 0x0 => some .version
        | 0x2 => some .status
        | 0x3 => some .mode
        | 0x5 => some .inPtr
        | 0x6 => some .outData
        | 0x7 => some .outLen
        | 0x8 => some .outRd
        | 0x9 => some .viol
        | 0xA => some .param0
        | 0xB => some .xbarViol
        | 0xC => some .keyStat
        | 0xF => some .seedStat
        | _ => none
  else none

/-- `mldsa_axi`, with the same habits. -/
def mldsaReg (d : BusDir) (o : BitVec 8) : Option BusReg :=
  if inWindow 0x80 o then
    match d with
    | .write =>
      if addrBits 2 6 o = 0x10 then some .inData4
      else if addrBits 2 4 o = 0xD then some .seedData
      else if o.getLsbD 6 then none
      else
        match addrBits 2 4 o with
        | 0x1 => some .ctrl
        | 0x2 => some .mode
        | 0x4 => some .inData
        | 0x5 => some .inPtr
        | 0x7 => some .outPtr
        | 0x9 => some .msgLen
        | 0xA => some .ctxLen
        | _ => none
    | .read =>
      if addrBits 2 6 o = 0x11 then some .outData4
      else if o.getLsbD 6 then none
      else
        match addrBits 2 4 o with
        | 0x0 => some .version
        | 0x2 => some .mode
        | 0x3 => some .status
        | 0x5 => some .inPtr
        | 0x6 => some .outData
        | 0x7 => some .outPtr
        | 0x8 => some .outLen
        | 0x9 => some .msgLen
        | 0xA => some .ctxLen
        | 0xB => some .keyStat
        | 0xC => some .viol
        | 0xE => some .seedStat
        | _ => none
  else none

def BusSlave.reg : BusSlave → BusDir → BitVec 8 → Option BusReg
  | .trng => trngReg
  | .keyVault => keyVaultReg
  | .sym => symReg
  | .mlkem => mlkemReg
  | .mldsa => mldsaReg

/-- The slots of the board. Slots 4 and 5 hold the canary and the fan. -/
def BusSlave.at? : Nat → Option BusSlave
  | 0 => some .trng
  | 1 => some .keyVault
  | 2 => some .sym
  | 3 => some .mlkem
  | 6 => some .mldsa
  | _ => none

variable {p : XbarParams}

/-- The slot and the register that an access reaches through the crossbar. -/
def reachedReg (p : XbarParams) (d : BusDir) (a : BitVec p.aw) : Option (BitVec 3 × BusReg) :=
  if hitOf p a then do
    let s ← BusSlave.at? (Crossbar.slotOf a).toNat
    let r ← s.reg d (offsetOf a)
    return (Crossbar.slotOf a, r)
  else none

/-- No second address reaches the register that this one reaches. -/
def Alone (p : XbarParams) (d : BusDir) (a : BitVec p.aw) : Prop :=
  ∀ b r, reachedReg p d a = some r → reachedReg p d b = some r → b = a

/-- Offsets at which a slave's comparison leaves out bit 6 (and `trng_axi` bit 7, too). -/
def mirrored : BusSlave → BusDir → BitVec 8 → Bool
  | .trng, .write, o => addrBits 2 4 o = 0x0
  | .trng, .read, o => addrBits 2 4 o ≠ 0xF
  | .sym, .write, o => !o.getLsbD 7 && addrBits 2 4 o ∈ [0x1, 0x3, 0x4, 0x5, 0x6]
  | .mlkem, .write, o => !o.getLsbD 7 && addrBits 2 4 o = 0xE
  | .mldsa, .write, o => !o.getLsbD 7 && addrBits 2 4 o = 0xD
  | _, _, _ => false

section Offsets

theorem reg_mirror : ∀ (s : BusSlave) (d : BusDir) (o : BitVec 8), mirrored s d o = true →
    (s.reg d o).isSome = true ∧ s.reg d (o ^^^ 0x40) = s.reg d o := by
  intro s d
  cases s <;> cases d <;> decide +kernel

/-- Word offsets apart from the mirrored ones. -/
theorem reg_inj (s : BusSlave) (d : BusDir) : ∀ i : Fin 64,
    mirrored s d (BitVec.ofNat 8 (4 * i)) = false →
    (s.reg d (BitVec.ofNat 8 (4 * i))).isSome = true → ∀ j : Fin 64,
    s.reg d (BitVec.ofNat 8 (4 * j)) = s.reg d (BitVec.ofNat 8 (4 * i)) → j = i := by
  cases s <;> cases d <;> decide +kernel

theorem aligned_eq {o : BitVec 8} (h : o.extractLsb' 0 2 = 0) :
    ∃ i : Fin 64, o = BitVec.ofNat 8 (4 * i) := by
  have hMod : o.toNat % 4 = 0 := by
    have := congrArg BitVec.toNat h
    simpa [BitVec.extractLsb'_toNat] using this
  have hLt := o.isLt
  refine ⟨⟨o.toNat / 4, by omega⟩, ?_⟩
  apply BitVec.eq_of_toNat_eq
  rw [BitVec.toNat_ofNat]
  show o.toNat = 4 * (o.toNat / 4) % 2 ^ 8
  omega

end Offsets

section Addresses

variable {a b : BitVec p.aw}

theorem hitOf_iff : hitOf p a = true ↔
    a.extractLsb' 19 (p.aw - 19) = p.baseAddr.extractLsb' 19 (p.aw - 19) ∧
      (Crossbar.slotOf a).toNat < p.ns ∧ a.extractLsb' 8 8 = 0 ∧ a.extractLsb' 0 2 = 0 := by
  simp [hitOf, and_assoc]

theorem offset_aligned (h : hitOf p a = true) : (offsetOf a).extractLsb' 0 2 = 0 := by
  have h0 := (hitOf_iff.mp h).2.2.2
  apply BitVec.eq_of_getLsbD_eq
  intro i hi
  have := congrArg (BitVec.getLsbD · i) h0
  simpa [offsetOf, hi] using this

/-- Slot and offset determine an address that hits. -/
theorem hit_inj (ha : hitOf p a = true) (hb : hitOf p b = true)
    (hSlot : Crossbar.slotOf a = Crossbar.slotOf b) (hOff : offsetOf a = offsetOf b) : a = b := by
  obtain ⟨hHighA, -, hMidA, -⟩ := hitOf_iff.mp ha
  obtain ⟨hHighB, -, hMidB, -⟩ := hitOf_iff.mp hb
  apply BitVec.eq_of_getLsbD_eq
  intro i hi
  by_cases h8 : i < 8
  · have := congrArg (BitVec.getLsbD · i) hOff
    simpa [offsetOf, h8] using this
  · by_cases h16 : i < 16
    · have := congrArg (BitVec.getLsbD · (i - 8)) (hMidA.trans hMidB.symm)
      simpa [show i - 8 < 8 by omega, show 8 + (i - 8) = i by omega] using this
    · by_cases h19 : i < 19
      · have := congrArg (BitVec.getLsbD · (i - 16)) hSlot
        simpa [Crossbar.slotOf, show i - 16 < 3 by omega, show 16 + (i - 16) = i by omega]
          using this
      · have := congrArg (BitVec.getLsbD · (i - 19)) (hHighA.trans hHighB.symm)
        simpa [show i - 19 < p.aw - 19 by omega, show 19 + (i - 19) = i by omega] using this

/-- The address that differs in bit 6. -/
def mirrorOf (a : BitVec p.aw) : BitVec p.aw := a ^^^ BitVec.ofNat p.aw 0x40

theorem getLsbD_mirrorOf (a : BitVec p.aw) (i : Nat) :
    (mirrorOf a).getLsbD i = (a.getLsbD i ^^ decide (i = 6)) := by
  have hAw := p.aw_ge
  rw [mirrorOf, BitVec.getLsbD_xor, BitVec.getLsbD_ofNat, show (0x40 : Nat) = 2 ^ 6 from rfl,
    Nat.testBit_two_pow]
  by_cases hi : i = 6
  · simp [hi, show 6 < p.aw by omega]
  · simp [hi, Ne.symm hi]

theorem extract_mirrorOf (a : BitVec p.aw) (lo width : Nat) (h : 7 ≤ lo ∨ lo + width ≤ 6) :
    (mirrorOf a).extractLsb' lo width = a.extractLsb' lo width := by
  apply BitVec.eq_of_getLsbD_eq
  intro i hi
  rw [BitVec.getLsbD_extractLsb', BitVec.getLsbD_extractLsb', getLsbD_mirrorOf]
  simp [show lo + i ≠ 6 by omega]

theorem offset_mirrorOf (a : BitVec p.aw) : offsetOf (mirrorOf a) = offsetOf a ^^^ 0x40 := by
  apply BitVec.eq_of_getLsbD_eq
  intro i hi
  have h40 : (0x40 : BitVec 8).getLsbD i = decide (i = 6) := by
    rw [show (0x40 : BitVec 8) = BitVec.twoPow 8 6 from rfl, BitVec.getLsbD_twoPow]
    by_cases h6 : i = 6
    · simp [h6]
    · simp [h6, Ne.symm h6]
  rw [BitVec.getLsbD_xor, h40]
  unfold offsetOf
  rw [BitVec.getLsbD_extractLsb', BitVec.getLsbD_extractLsb', Nat.zero_add, getLsbD_mirrorOf]
  simp [hi]

theorem hit_mirrorOf (h : hitOf p a = true) : hitOf p (mirrorOf a) = true := by
  obtain ⟨hHigh, hSlot, hMid, hLow⟩ := hitOf_iff.mp h
  rw [hitOf_iff]
  constructor
  · rw [extract_mirrorOf a _ _ (by omega), hHigh]
  · constructor
    · unfold Crossbar.slotOf at hSlot ⊢
      rw [extract_mirrorOf a _ _ (by omega)]
      exact hSlot
    · constructor
      · rw [extract_mirrorOf a _ _ (by omega), hMid]
      · rw [extract_mirrorOf a _ _ (by omega), hLow]

theorem mirrorOf_ne (a : BitVec p.aw) : mirrorOf a ≠ a := by
  intro h
  have := congrArg (BitVec.getLsbD · 6) h
  simp only [getLsbD_mirrorOf] at this
  simp at this

theorem reachedReg_eq_some {d : BusDir} {sl : BitVec 3} {r : BusReg} :
    reachedReg p d a = some (sl, r) ↔ hitOf p a = true ∧ sl = Crossbar.slotOf a ∧
      ∃ s, BusSlave.at? sl.toNat = some s ∧ s.reg d (offsetOf a) = some r := by
  unfold reachedReg
  constructor
  · intro h
    split at h
    · rename_i hHit
      simp only [Option.bind_eq_bind, Option.pure_def, Option.bind_eq_some_iff, Option.some.injEq,
        Prod.mk.injEq] at h
      obtain ⟨s, hAt, q, hReg, rfl, rfl⟩ := h
      exact ⟨hHit, rfl, s, hAt, hReg⟩
    · cases h
  · rintro ⟨hHit, rfl, s, hAt, hReg⟩
    rw [if_pos hHit, hAt]
    show (s.reg d (offsetOf a)).bind _ = _
    rw [hReg]
    rfl

/-- An access stands alone exactly when its slave compares all the bits of its offset. -/
theorem alone_iff {d : BusDir} : Alone p d a ↔ ¬(hitOf p a = true ∧
    ∃ s, BusSlave.at? (Crossbar.slotOf a).toNat = some s ∧ mirrored s d (offsetOf a) = true) := by
  constructor
  · rintro hAlone ⟨hHit, s, hAt, hMirrored⟩
    obtain ⟨hSome, hSame⟩ := reg_mirror s d (offsetOf a) hMirrored
    obtain ⟨r, hReg⟩ := Option.isSome_iff_exists.mp hSome
    have hSlot : Crossbar.slotOf (mirrorOf a) = Crossbar.slotOf a :=
      extract_mirrorOf a _ _ (by omega)
    apply mirrorOf_ne a
    apply hAlone (mirrorOf a) (Crossbar.slotOf a, r)
    · exact reachedReg_eq_some.mpr ⟨hHit, rfl, s, hAt, hReg⟩
    · rw [reachedReg_eq_some, offset_mirrorOf]
      exact ⟨hit_mirrorOf hHit, hSlot.symm, s, hAt, hSame.trans hReg⟩
  · rintro hNot b ⟨sl, r⟩ ha hb
    obtain ⟨hHitA, rfl, s, hAt, hRegA⟩ := reachedReg_eq_some.mp ha
    obtain ⟨hHitB, hSlot, s', hAt', hRegB⟩ := reachedReg_eq_some.mp hb
    cases Option.some.inj (hAt.symm.trans hAt')
    obtain ⟨i, hi⟩ := aligned_eq (offset_aligned hHitA)
    obtain ⟨j, hj⟩ := aligned_eq (offset_aligned hHitB)
    have hPlain : mirrored s d (BitVec.ofNat 8 (4 * i)) = false := by
      rw [← hi, Bool.eq_false_iff]
      exact fun hMirrored => hNot ⟨hHitA, s, hAt, hMirrored⟩
    apply hit_inj hHitB hHitA hSlot.symm
    rw [hi] at hRegA
    rw [hj] at hRegB
    rw [hi, hj, reg_inj s d i hPlain (by rw [hRegA]; rfl) j (hRegB.trans hRegA.symm)]

end Addresses

section Runs

/-- What a slave is shown, and what the master is told: in terms of the address taken last. -/
structure XbWrite.Serves (w : XbWrite p) (m : XbSeen p) : Prop where
  shown : ∀ i, w.mAwvalid i = true ∨ w.mWvalid i = true ∨ w.mBready i = true →
    ∃ a, m.last = some a ∧ hitOf p a = true ∧ isSlave (Crossbar.slotOf a) i = true ∧
      w.awAddr = offsetOf a
  answered : w.sBvalid = true → ∃ a, m.last = some a ∧ (hitOf p a = false → w.sBresp = RESP_OKAY) ∧
    w.decodeViolWrCount.toNat = min m.missed (2 ^ 16 - 1)

structure XbRead.Serves (r : XbRead p) (m : XbSeen p) : Prop where
  shown : ∀ i, r.mArvalid i = true ∨ r.mRready i = true →
    ∃ a, m.last = some a ∧ hitOf p a = true ∧ isSlave (Crossbar.slotOf a) i = true ∧
      r.arAddr = offsetOf a
  answered : r.sRvalid = true → ∃ a, m.last = some a ∧
    (hitOf p a = false → r.sRresp = RESP_OKAY ∧ r.sRdata = 0) ∧
    r.decodeViolRdCount.toNat = min m.missed (2 ^ 16 - 1)

theorem XbWrite.Tracks.serves {w : XbWrite p} {m : XbSeen p} (h : w.Tracks m) : w.Serves m := by
  constructor
  · intro i hi
    have hBusy : (w.wst = .fwd ∨ w.wst = .waitb) ∧ isSlave w.awSel i = true := by
      obtain hAw | hW | hB := hi
      · obtain ⟨hState, -, hSel⟩ := h.mAw i hAw
        exact ⟨.inl hState, hSel⟩
      · obtain ⟨hState, -, hSel⟩ := h.mW i hW
        exact ⟨.inl hState, hSel⟩
      · obtain ⟨hState, hSel⟩ := h.mB i hB
        exact ⟨.inr hState, hSel⟩
    obtain ⟨hState, hSel⟩ := hBusy
    have hNotIdle : w.wst ≠ .idle := by
      rintro hIdle
      simp [hIdle] at hState
    obtain ⟨a, hLast, hAddr, hSlot, hHit⟩ := h.held (.inr hNotIdle)
    exact ⟨a, hLast, hHit.symm.trans (h.hit hState), hSlot ▸ hSel, hAddr⟩
  · intro hValid
    have hState := h.valid.mp hValid
    obtain ⟨a, hLast, hAddr, hSlot, hHit⟩ := h.held (.inr (by simp [hState]))
    obtain ⟨n, hn, hMissed⟩ := h.count
    refine ⟨a, hLast, fun hMiss => h.okay hState (hHit.trans hMiss), ?_⟩
    have hPending : w.pending = 0 := by
      simp [XbWrite.pending, h.awGot_eq (by simp [hState]), hState]
    rw [hMissed, hPending]
    exact hn

theorem XbRead.Tracks.serves {r : XbRead p} {m : XbSeen p} (h : r.Tracks m) : r.Serves m := by
  constructor
  · intro i hi
    have hBusy : (r.rst = .fwd ∨ r.rst = .waitr) ∧ isSlave r.arSel i = true := by
      obtain hAr | hR := hi
      · obtain ⟨hState, hSel⟩ := h.mAr i hAr
        exact ⟨.inl hState, hSel⟩
      · obtain ⟨hState, hSel⟩ := h.mR i hR
        exact ⟨.inr hState, hSel⟩
    obtain ⟨hState, hSel⟩ := hBusy
    have hNotIdle : r.rst ≠ .idle := by
      rintro hIdle
      simp [hIdle] at hState
    obtain ⟨a, hLast, hAddr, hSlot, hHit⟩ := h.held hNotIdle
    exact ⟨a, hLast, hHit.symm.trans (h.hit hState), hSlot ▸ hSel, hAddr⟩
  · intro hValid
    have hState := h.valid.mp hValid
    obtain ⟨a, hLast, hAddr, hSlot, hHit⟩ := h.held (by simp [hState])
    obtain ⟨n, hn, hMissed⟩ := h.count
    refine ⟨a, hLast, fun hMiss => h.okay hState (hHit.trans hMiss), ?_⟩
    have hPending : r.pending = 0 := by simp [XbRead.pending, hState]
    rw [hMissed, hPending]
    exact hn

theorem XbWrite.Tracks.misses {w : XbWrite p} {m : XbSeen p} {x : XbIn p} {a : BitVec p.aw}
    (h : (w.next x).Tracks m) (hIdle : w.wst = .idle) (hC : w.complete x = true)
    (hLast : m.last = some a) (hMiss : hitOf p a = false) : (w.next x).wst = .err := by
  have hNext : w.next x = w.nextIdle x := by simp [XbWrite.next, hIdle]
  have hState : (w.next x).wst = .fwd ∨ (w.next x).wst = .err := by
    rw [hNext]
    unfold XbWrite.nextIdle
    simp only [hC, if_true]
    split
    · exact .inl rfl
    · exact .inr rfl
  obtain hFwd | hErr := hState
  · obtain ⟨b, hLastB, -, -, hHit⟩ := h.held (.inr (by simp [hFwd]))
    rw [hLast] at hLastB
    cases hLastB
    rw [h.hit (.inl hFwd), hMiss] at hHit
    cases hHit
  · exact hErr

theorem XbRead.Tracks.misses {r : XbRead p} {m : XbSeen p} {x : XbIn p} {a : BitVec p.aw}
    (h : (r.next x).Tracks m) (hA : r.arHandshake x = true)
    (hLast : m.last = some a) (hMiss : hitOf p a = false) : (r.next x).rst = .err := by
  have hIdle : r.rst = .idle := by
    unfold arHandshake sArready at hA
    simp at hA
    exact hA.2
  have hNext : r.next x = r.nextIdle x := by simp [XbRead.next, hIdle]
  have hState : (r.next x).rst = .fwd ∨ (r.next x).rst = .err := by
    rw [hNext]
    unfold XbRead.nextIdle
    simp only [hA, if_true]
    split
    · exact .inl rfl
    · exact .inr rfl
  obtain hFwd | hErr := hState
  · obtain ⟨b, hLastB, -, -, hHit⟩ := h.held (by simp [hFwd])
    rw [hLast] at hLastB
    cases hLastB
    rw [h.hit (.inl hFwd), hMiss] at hHit
    cases hHit
  · exact hErr

theorem Crossbar.tracks (ins : Nat → XbIn p) (k : Nat) :
    ((circuit p).after ins k).wr.Tracks ((circuit p).record (.empty p) XbSeen.seeWr ins k) ∧
      ((circuit p).after ins k).rd.Tracks ((circuit p).record (.empty p) XbSeen.seeRd ins k) := by
  constructor
  · exact Clocked.invariant_record (C := circuit p) (I := fun b m => b.wr.Tracks m)
      XbWrite.tracks_reset (fun _ _ _ h => h.next) k
  · exact Clocked.invariant_record (C := circuit p) (I := fun b m => b.rd.Tracks m)
      XbRead.tracks_reset (fun _ _ _ h => h.next) k

end Runs

/-- In every run a slave is only shown accesses that are decoded completely, and every other access
is answered with OKAY and 0 two edges after it is handed over, and counted. An address is the only
one of its register exactly when the slave compares all the bits of its offset. -/
theorem one_address_iff (p : XbarParams) (ins : Nat → XbIn p) (k : Nat) :
    let B := (Crossbar.circuit p).after ins
    let mw := (Crossbar.circuit p).record (.empty p) XbSeen.seeWr ins
    let mr := (Crossbar.circuit p).record (.empty p) XbSeen.seeRd ins
    (B k).wr.Serves (mw k) ∧ (B k).rd.Serves (mr k) ∧
      (∀ a, (B k).wr.wst = .idle → (B k).wr.complete (ins k) = true → (mw (k + 1)).last = some a →
        hitOf p a = false → (B (k + 2)).wr.sBvalid = true ∧ (mw (k + 2)).last = some a) ∧
      (∀ a, (B k).rd.arHandshake (ins k) = true → (mr (k + 1)).last = some a →
        hitOf p a = false → (B (k + 2)).rd.sRvalid = true ∧ (mr (k + 2)).last = some a) ∧
      ∀ d a, Alone p d a ↔ ¬(hitOf p a = true ∧
        ∃ s, BusSlave.at? (Crossbar.slotOf a).toNat = some s ∧
          mirrored s d (offsetOf a) = true) := by
  intro B mw mr
  obtain ⟨hWr, hRd⟩ := Crossbar.tracks ins k
  obtain ⟨hWr', hRd'⟩ := Crossbar.tracks ins (k + 1)
  constructor
  · exact hWr.serves
  · constructor
    · exact hRd.serves
    · constructor
      · intro a hIdle hC hLast hMiss
        have hErr : (B (k + 1)).wr.wst = .err := hWr'.misses hIdle hC hLast hMiss
        constructor
        · show ((B (k + 1)).wr.next (ins (k + 1))).sBvalid = true
          simp [XbWrite.next, hErr]
        · show (XbSeen.seeWr (mw (k + 1)) (B (k + 1)) (ins (k + 1))).last = some a
          simp [XbSeen.seeWr, XbWrite.awHandshake, XbWrite.sAwready, hErr, hLast]
      · constructor
        · intro a hA hLast hMiss
          have hErr : (B (k + 1)).rd.rst = .err := hRd'.misses hA hLast hMiss
          constructor
          · show ((B (k + 1)).rd.next (ins (k + 1))).sRvalid = true
            simp [XbRead.next, hErr]
          · show (XbSeen.seeRd (mr (k + 1)) (B (k + 1)) (ins (k + 1))).last = some a
            simp [XbSeen.seeRd, XbRead.arHandshake, XbRead.sArready, hErr, hLast]
        · intro d a
          exact alone_iff

/-- The crossbar for addresses of 32 bits, with the seven slots of the board. -/
def xbar32 : XbarParams := ⟨32, 7, 0x80000000, by decide, by decide⟩

/-- A read of 0x80000048 pops the random word of 0x80000008. -/
theorem second_address_pops : ¬ ∀ (d : BusDir) (a : BitVec xbar32.aw), Alone xbar32 d a := by
  intro h
  have hSame : reachedReg xbar32 .read (0x80000008 : BitVec 32) = some (0, .rdata) := by decide
  have hMirror : reachedReg xbar32 .read (0x80000048 : BitVec 32) = some (0, .rdata) := by decide
  have hNe : (0x80000008 : BitVec 32) ≠ 0x80000048 := by decide
  exact hNe (h .read (0x80000048 : BitVec 32) (0x80000008 : BitVec 32) _ hMirror hSame)

end PqcHsm
