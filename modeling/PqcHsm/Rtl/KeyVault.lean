import PqcHsm.Rtl.Firewall

/-!
# The key vault

`key_vault`, eight slots of eight words that are written through a load port and shown to the cores
only, and `key_vault_axi`, the firewall and the registers in front of it. Slots and words are
numbered by three bits; the parameters for their numbers are the defaults, which every instance has.
-/

namespace PqcHsm

structure KeyVault where
  keys : BitVec 3 → BitVec 3 → BitVec 32
  fill : BitVec 3 → BitVec 4
  validMap : BitVec 3 → Bool
  lockMap : BitVec 3 → Bool
  tamperLatched : Bool
  zeroizeCount : BitVec 8
  deny : Bool

/-- The load port. -/
structure LoadPort where
  slot : BitVec 3
  begin : Bool
  we : Bool
  wdata : BitVec 32
  commit : Bool
  lock : Bool
  erase : Bool

def WORDS : BitVec 4 := 8

/-- `f` with another value at `i`. -/
def setAt {α β : Type} [DecidableEq α] (f : α → β) (i : α) (b : β) : α → β :=
  fun j => if j = i then b else f j

namespace KeyVault

variable (v : KeyVault)

def reset : KeyVault := ⟨fun _ _ => 0, fun _ => 0, fun _ => false, fun _ => false, false, 0, false⟩

/-- The actions of the load port, one at a time. -/
def load (ld : LoadPort) : KeyVault :=
  let locked := v.lockMap ld.slot
  if ld.begin then
    if locked then { v with deny := true }
    else { v with fill := setAt v.fill ld.slot 0, validMap := setAt v.validMap ld.slot false }
  else if ld.we then
    if locked || WORDS ≤ v.fill ld.slot then { v with deny := true }
    else
      { v with
        keys := setAt v.keys ld.slot (setAt (v.keys ld.slot) ((v.fill ld.slot).setWidth 3) ld.wdata)
        fill := setAt v.fill ld.slot (v.fill ld.slot + 1) }
  else if ld.commit then
    if locked || v.fill ld.slot ≠ WORDS then { v with deny := true }
    else { v with validMap := setAt v.validMap ld.slot true }
  else if ld.lock then
    if !v.validMap ld.slot then { v with deny := true }
    else { v with lockMap := setAt v.lockMap ld.slot true }
  else if ld.erase then
    if locked then { v with deny := true }
    else
      { v with
        keys := setAt v.keys ld.slot fun _ => 0
        fill := setAt v.fill ld.slot 0
        validMap := setAt v.validMap ld.slot false }
  else v

def tamperNow (tamper : Bool) : Bool := tamper || v.tamperLatched

def next (ld : LoadPort) (zeroize tamper : Bool) : KeyVault :=
  let latched := { v with deny := false, tamperLatched := v.tamperLatched || tamper }
  if zeroize || tamper then
    { latched with
      keys := fun _ _ => 0
      fill := fun _ => 0
      validMap := fun _ => false
      lockMap := fun _ => false
      zeroizeCount := satIncr v.zeroizeCount }
  else if v.tamperNow tamper then
    { latched with deny := ld.begin || ld.we || ld.commit || ld.lock || ld.erase }
  else latched.load ld

end KeyVault

/-- Eight words, the first one highest. -/
def joinWords (w : BitVec 3 → BitVec 32) : BitVec 256 :=
  w 0 ++ (w 1 ++ (w 2 ++ (w 3 ++ (w 4 ++ (w 5 ++ (w 6 ++ w 7))))))

namespace KeyVault

variable (v : KeyVault)

def useKey (useSel : BitVec 3) (tamper : Bool) : BitVec 256 :=
  if v.tamperNow tamper then 0 else joinWords (v.keys useSel)

def useValid (useSel : BitVec 3) (tamper : Bool) : Bool := v.validMap useSel && !v.tamperNow tamper

end KeyVault

structure VaultParams where
  version : BitVec 32
  secureOnly : Bool

/-- The firewall of the vault: the window of the first 64 bytes. -/
def VaultParams.fw (p : VaultParams) : FwParams where
  aw := 8
  secureOnly := p.secureOnly
  privOnly := false
  allowWrite := true
  allowRead := true
  addrBase := 0
  addrMask := 0xC0

structure VaultIn where
  s : AxiMaster 8
  tamper : Bool
  extZeroize : Bool
  useSel : BitVec 3

/-- The registers between the firewall and the vault; `f_bresp` and `f_rresp` are always `RESP_OKAY`. -/
structure VaultFront where
  awGot : Bool
  wGot : Bool
  awAddr : BitVec 8
  awProt : BitVec 3
  wData : BitVec 32
  wStrb : BitVec 4
  fBvalid : Bool
  slotSel : BitVec 3
  ldBegin : Bool
  ldWe : Bool
  ldCommit : Bool
  ldLock : Bool
  ldErase : Bool
  doZeroize : Bool
  ldWdata : BitVec 32
  denySticky : Bool
  loadRej : BitVec 16
  fRvalid : Bool
  fRdata : BitVec 32

structure VaultAxi where
  fw : Firewall 8
  front : VaultFront
  vault : KeyVault

/-- `A_CTRL` and the others: bits 5 to 2 of the offset. -/
def A_VERSION : BitVec 4 := 0x0
def A_CTRL : BitVec 4 := 0x1
def A_STATUS : BitVec 4 := 0x2
def A_SLOT_SEL : BitVec 4 := 0x3
def A_KEY_IN : BitVec 4 := 0x4
def A_SLOT_CT : BitVec 4 := 0x5
def A_SLOT_STAT : BitVec 4 := 0x6
def A_VALID_MAP : BitVec 4 := 0x7
def A_LOCK_MAP : BitVec 4 := 0x8
def A_ZERO_CNT : BitVec 4 := 0x9
def A_VIOL_CNT : BitVec 4 := 0xA
def A_VIOL_INFO : BitVec 4 := 0xB
def A_PARAM0 : BitVec 4 := 0xC
def A_LOAD_REJ : BitVec 4 := 0xD

/-- The register that an offset selects. -/
def regOf (addr : BitVec 8) : BitVec 4 := addr.extractLsb' 2 4

namespace VaultFront

variable (r : VaultFront) (m : AxiMaster 8)

def reset : VaultFront :=
  ⟨false, false, 0, 0, 0, 0, false, 0, false, false, false, false, false, false, 0, false, 0, false,
    0⟩

def fAwready : Bool := !r.awGot && !r.fBvalid

def fWready : Bool := !r.wGot && !r.fBvalid

def fArready : Bool := !r.fRvalid

/-- What the firewall sees of its slave. -/
def toFirewall : AxiSlave where
  awready := r.fAwready
  wready := r.fWready
  bresp := RESP_OKAY
  bvalid := r.fBvalid
  arready := r.fArready
  rdata := r.fRdata
  rresp := RESP_OKAY
  rvalid := r.fRvalid

def wrNow : Bool :=
  (r.awGot || (m.awvalid && r.fAwready)) && (r.wGot || (m.wvalid && r.fWready)) && !r.fBvalid

def wrAddr : BitVec 8 := if m.awvalid && r.fAwready then m.awaddr else r.awAddr

def wrProt : BitVec 3 := if m.awvalid && r.fAwready then m.awprot else r.awProt

def wrData : BitVec 32 := if m.wvalid && r.fWready then m.wdata else r.wData

def wrStrb : BitVec 4 := if m.wvalid && r.fWready then m.wstrb else r.wStrb

/-- The load port of the bus: three registers that only a secure transaction may write. -/
def wrLoadAddr : Bool :=
  regOf (r.wrAddr m) = A_SLOT_SEL || regOf (r.wrAddr m) = A_KEY_IN || regOf (r.wrAddr m) = A_SLOT_CT

def wrLoadOk : Bool := !(r.wrProt m).getLsbD 1

def loadPort : LoadPort where
  slot := r.slotSel
  begin := r.ldBegin
  we := r.ldWe
  wdata := r.ldWdata
  commit := r.ldCommit
  lock := r.ldLock
  erase := r.ldErase

/-- The registers that the register table changes on a write; the pulses are low before it. -/
def write : VaultFront :=
  let addr := regOf (r.wrAddr m)
  let data := r.wrData m
  if (r.wrStrb m).getLsbD 0 && r.wrLoadAddr m && !r.wrLoadOk m then
    { r with loadRej := satIncr r.loadRej }
  else if (r.wrStrb m).getLsbD 0 then
    if addr = A_CTRL then
      { r with doZeroize := data.getLsbD 0, denySticky := r.denySticky && !data.getLsbD 0 }
    else if addr = A_SLOT_SEL then { r with slotSel := data.setWidth 3 }
    else if addr = A_KEY_IN then { r with ldWe := true, ldWdata := data }
    else if addr = A_SLOT_CT then
      { r with
        ldBegin := data.getLsbD 0
        ldCommit := data.getLsbD 1 && !data.getLsbD 0
        ldLock := data.getLsbD 2 && !data.getLsbD 0 && !data.getLsbD 1
        ldErase := data.getLsbD 3 && !data.getLsbD 0 && !data.getLsbD 1 && !data.getLsbD 2 }
    else r
  else r

/-- A register with one bit for each slot. -/
def slotBits (f : BitVec 3 → Bool) : BitVec 32 :=
  (BitVec.ofBoolListLE [f 0, f 1, f 2, f 3, f 4, f 5, f 6, f 7]).setWidth 32

/-- `f_rdata` for an offset: metadata of the front end, the vault and the firewall. -/
def readData (p : VaultParams) (v : KeyVault) (f : Firewall 8) (addr : BitVec 8) : BitVec 32 :=
  let reg := regOf addr
  if reg = A_VERSION then p.version
  else if reg = A_STATUS then
    (BitVec.ofBoolListLE [!v.tamperLatched, v.tamperLatched, r.denySticky]).setWidth 32
  else if reg = A_SLOT_SEL then r.slotSel.setWidth 32
  else if reg = A_KEY_IN then 0
  else if reg = A_SLOT_STAT then
    (0 : BitVec 24) ++ (v.fill r.slotSel ++ ((0 : BitVec 2) ++
      (BitVec.ofBool (v.lockMap r.slotSel) ++ BitVec.ofBool (v.validMap r.slotSel))))
  else if reg = A_VALID_MAP then slotBits v.validMap
  else if reg = A_LOCK_MAP then slotBits v.lockMap
  else if reg = A_ZERO_CNT then v.zeroizeCount.setWidth 32
  else if reg = A_VIOL_CNT then f.rd.violRdCount ++ f.wr.violWrCount
  else if reg = A_VIOL_INFO then
    (0 : BitVec 21) ++ (BitVec.ofBool f.first.valid ++ (BitVec.ofBool (f.first.prot.getLsbD 1) ++
      (BitVec.ofBool f.first.isWrite ++ f.first.addr)))
  else if reg = A_PARAM0 then 0x0808
  else if reg = A_LOAD_REJ then r.loadRej.setWidth 32
  else 0

/-- The write channel of the front end. -/
def nextWrite (deny extZeroize : Bool) : VaultFront :=
  let low : VaultFront :=
    { r with ldBegin := false, ldWe := false, ldCommit := false, ldLock := false, ldErase := false
             doZeroize := false
             denySticky := (r.denySticky || deny) && !extZeroize }
  let written := if r.wrNow m then low.write m else low
  { written with
    awGot := (r.awGot || (m.awvalid && r.fAwready)) && !r.wrNow m
    wGot := (r.wGot || (m.wvalid && r.fWready)) && !r.wrNow m
    awAddr := r.wrAddr m
    awProt := r.wrProt m
    wData := r.wrData m
    wStrb := r.wrStrb m
    fBvalid := (r.wrNow m || r.fBvalid) && !(r.fBvalid && m.bready) }

def next (p : VaultParams) (v : KeyVault) (f : Firewall 8) (extZeroize : Bool) : VaultFront :=
  { r.nextWrite m v.deny extZeroize with
    fRvalid := ((m.arvalid && r.fArready) || r.fRvalid) && !(r.fRvalid && m.rready)
    fRdata := if m.arvalid && r.fArready then r.readData p v f m.araddr else r.fRdata }

end VaultFront

namespace VaultAxi

variable (p : VaultParams) (V : VaultAxi) (x : VaultIn)

/-- What the firewall sees in a cycle. -/
def fwIn : FwIn 8 := ⟨x.tamper, x.s, V.front.toFirewall⟩

def zeroize : Bool := V.front.doZeroize || x.extZeroize

def reset : VaultAxi := ⟨.reset 8, .reset, .reset⟩

def next : VaultAxi where
  fw := Firewall.next p.fw V.fw (V.fwIn x)
  front := V.front.next V.fw.toSlave p V.vault V.fw x.extZeroize
  vault := V.vault.next V.front.loadPort (V.zeroize x) x.tamper

/-- The module as a circuit. -/
def circuit : Clocked VaultIn VaultAxi := ⟨VaultAxi.reset, VaultAxi.next p⟩

/-- What the firewall offers, the front end takes at once, address and data together. -/
structure InStep (V : VaultAxi) : Prop where
  awGot : V.front.awGot = false
  wGot : V.front.wGot = false
  phase : match V.fw.wr.wst with
    | .fwd => V.fw.wr.mAwvalid = true ∧ V.fw.wr.mWvalid = true ∧ V.front.fBvalid = false
    | .waitb => V.fw.wr.mAwvalid = false ∧ V.fw.wr.mWvalid = false ∧ V.fw.wr.mBready = true ∧
        V.front.fBvalid = true
    | _ => V.fw.wr.mAwvalid = false ∧ V.fw.wr.mWvalid = false ∧ V.front.fBvalid = false

variable {V} {x}

/-- The front end writes in the one cycle in which the firewall forwards. -/
theorem InStep.wrNow (h : V.InStep) :
    V.front.wrNow V.fw.toSlave = decide (V.fw.wr.wst = .fwd) := by
  have hPhase := h.phase
  cases hSt : V.fw.wr.wst <;> simp only [hSt] at hPhase <;>
    simp [VaultFront.wrNow, VaultFront.fAwready, VaultFront.fWready, Firewall.toSlave, h.awGot, h.wGot,
      hPhase]

theorem InStep.handshakes (h : V.InStep) (hSt : V.fw.wr.wst = .fwd) :
    V.fw.wr.mAwvalid = true ∧ V.fw.wr.mWvalid = true ∧ V.front.fAwready = true ∧
      V.front.fWready = true := by
  have hPhase := h.phase
  simp only [hSt] at hPhase
  obtain ⟨hAw, hW, hB⟩ := hPhase
  refine ⟨hAw, hW, ?_, ?_⟩
  · simp [VaultFront.fAwready, h.awGot, hB]
  · simp [VaultFront.fWready, h.wGot, hB]

theorem InStep.next (h : V.InStep) : (V.next p x).InStep := by
  have hNow := h.wrNow
  have hPhase := h.phase
  constructor
  · show ((V.front.awGot || _) && !V.front.wrNow V.fw.toSlave) = false
    rw [hNow, h.awGot]
    cases hSt : V.fw.wr.wst <;> simp only [hSt] at hPhase <;> simp [Firewall.toSlave, hPhase]
  · show ((V.front.wGot || _) && !V.front.wrNow V.fw.toSlave) = false
    rw [hNow, h.wGot]
    cases hSt : V.fw.wr.wst <;> simp only [hSt] at hPhase <;> simp [Firewall.toSlave, hPhase]
  · have hBvalid : (V.next p x).front.fBvalid =
        ((V.front.wrNow V.fw.toSlave || V.front.fBvalid) && !(V.front.fBvalid && V.fw.wr.mBready)) :=
      rfl
    have hWr : (V.next p x).fw.wr = V.fw.wr.next (V.fw.wrPermit p.fw (V.fwIn x)) (V.fwIn x) := rfl
    rw [hBvalid, hWr, hNow]
    cases hSt : V.fw.wr.wst with
    | idle =>
      simp only [hSt] at hPhase
      cases hC : V.fw.wr.complete (V.fwIn x) <;> cases V.fw.wrPermit p.fw (V.fwIn x) <;>
        simp [FwWrite.next, hSt, FwWrite.nextIdle, hC, hPhase]
    | fwd =>
      obtain ⟨hAw, hW, hAwReady, hWReady⟩ := h.handshakes hSt
      simp only [hSt] at hPhase
      simp [FwWrite.next, hSt, FwWrite.nextFwd, fwIn, VaultFront.toFirewall, hAw, hW, hAwReady, hWReady,
        hPhase]
    | waitb =>
      simp only [hSt] at hPhase
      simp [FwWrite.next, hSt, fwIn, VaultFront.toFirewall, hPhase]
    | err =>
      simp only [hSt] at hPhase
      simp [FwWrite.next, hSt, hPhase]
    | resp =>
      simp only [hSt] at hPhase
      cases hB : V.fw.wr.sBvalid <;> cases hR : x.s.bready <;>
        simp [FwWrite.next, hSt, hB, hR, fwIn, hPhase]

theorem inStep_reset : (VaultAxi.reset).InStep := by
  constructor
  · rfl
  · rfl
  · exact ⟨rfl, rfl, rfl⟩

end VaultAxi

end PqcHsm
