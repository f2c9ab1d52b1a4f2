import PqcHsm.Library.Clocked

/-!
# The bus firewall

`axi4lite_firewall`: the registers of its write channel, its read channel, its violation record and
its tamper latch, and what a clock edge makes of them. A wire is a function of the registers and the
inputs of the cycle. Codes that no state register takes are left out of the state types.
-/

namespace PqcHsm

/-- The parameters; the integers among them are only compared with 0. -/
structure FwParams where
  aw : Nat
  secureOnly : Bool
  privOnly : Bool
  allowWrite : Bool
  allowRead : Bool
  addrBase : BitVec 32
  addrMask : BitVec 32

def RESP_OKAY : BitVec 2 := 0

variable {aw : Nat}

/-- What the master drives. -/
structure AxiMaster (aw : Nat) where
  awaddr : BitVec aw
  awprot : BitVec 3
  awvalid : Bool
  wdata : BitVec 32
  wstrb : BitVec 4
  wvalid : Bool
  bready : Bool
  araddr : BitVec aw
  arprot : BitVec 3
  arvalid : Bool
  rready : Bool

/-- What a slave drives. -/
structure AxiSlave where
  awready : Bool
  wready : Bool
  bresp : BitVec 2
  bvalid : Bool
  arready : Bool
  rdata : BitVec 32
  rresp : BitVec 2
  rvalid : Bool

structure FwIn (aw : Nat) where
  tamper : Bool
  s : AxiMaster aw
  m : AxiSlave

/-- `W_IDLE`, `W_FWD`, `W_WAITB`, `W_ERR`, `W_RESP`. -/
inductive WSt where
  | idle
  | fwd
  | waitb
  | err
  | resp
  deriving DecidableEq

/-- `R_IDLE`, `R_FWD`, `R_WAITR`, `R_ERR`, `R_RESP`. -/
inductive RSt where
  | idle
  | fwd
  | waitr
  | err
  | resp
  deriving DecidableEq

structure FwWrite (aw : Nat) where
  wst : WSt
  awGot : Bool
  wGot : Bool
  awAddr : BitVec aw
  awProt : BitVec 3
  wData : BitVec 32
  wStrb : BitVec 4
  awSent : Bool
  wSent : Bool
  mAwvalid : Bool
  mWvalid : Bool
  mBready : Bool
  sBresp : BitVec 2
  sBvalid : Bool
  violWrCount : BitVec 16

structure FwRead (aw : Nat) where
  rst : RSt
  arAddr : BitVec aw
  arProt : BitVec 3
  mArvalid : Bool
  mRready : Bool
  sRdata : BitVec 32
  sRresp : BitVec 2
  sRvalid : Bool
  violRdCount : BitVec 16

structure FwFirst (aw : Nat) where
  valid : Bool
  addr : BitVec aw
  prot : BitVec 3
  isWrite : Bool

structure Firewall (aw : Nat) where
  wr : FwWrite aw
  rd : FwRead aw
  first : FwFirst aw
  tamperLatched : Bool

/-- Saturating increment of a counter. -/
def satIncr {w : Nat} (c : BitVec w) : BitVec w := if c ≠ BitVec.allOnes w then c + 1 else c

/-- `permit`, with `tamper || tamper_latched` as an argument. -/
def permit (p : FwParams) (tampered : Bool) (addr : BitVec p.aw) (prot : BitVec 3) (isWrite : Bool) :
    Bool :=
  !tampered && !(isWrite && !p.allowWrite) && !(!isWrite && !p.allowRead) &&
    !(p.secureOnly && prot.getLsbD 1) && !(p.privOnly && !prot.getLsbD 0) &&
    (p.addrMask = 0 || (addr.setWidth 32 &&& p.addrMask) = p.addrBase)

namespace FwWrite

variable (w : FwWrite aw)

def sAwready : Bool := w.wst = .idle && !w.awGot

def sWready : Bool := w.wst = .idle && !w.wGot

def awHandshake (x : FwIn aw) : Bool := x.s.awvalid && w.sAwready

def wHandshake (x : FwIn aw) : Bool := x.s.wvalid && w.sWready

/-- The address that is judged: the one of this cycle, or the one that was latched. -/
def reqAddr (x : FwIn aw) : BitVec aw := if w.awHandshake x then x.s.awaddr else w.awAddr

def reqProt (x : FwIn aw) : BitVec 3 := if w.awHandshake x then x.s.awprot else w.awProt

def reqData (x : FwIn aw) : BitVec 32 := if w.wHandshake x then x.s.wdata else w.wData

def reqStrb (x : FwIn aw) : BitVec 4 := if w.wHandshake x then x.s.wstrb else w.wStrb

/-- Address and data are both there. -/
def complete (x : FwIn aw) : Bool :=
  (w.awGot || w.awHandshake x) && (w.wGot || w.wHandshake x)

def reset (aw : Nat) : FwWrite aw :=
  ⟨.idle, false, false, 0, 0, 0, 0, false, false, false, false, false, RESP_OKAY, false, 0⟩

/-- `W_IDLE`, with the verdict on what is complete. -/
def nextIdle (permitted : Bool) (x : FwIn aw) : FwWrite aw :=
  let latched : FwWrite aw :=
    { w with awGot := w.awGot || w.awHandshake x, awAddr := w.reqAddr x, awProt := w.reqProt x
             wGot := w.wGot || w.wHandshake x, wData := w.reqData x, wStrb := w.reqStrb x }
  if w.complete x then
    if permitted then
      { latched with awGot := false, wGot := false, mAwvalid := true, mWvalid := true,
                     awSent := false, wSent := false, wst := .fwd }
    else
      { latched with awGot := false, wGot := false, violWrCount := satIncr w.violWrCount,
                     wst := .err }
  else latched

def nextFwd (x : FwIn aw) : FwWrite aw :=
  let awDone := w.mAwvalid && x.m.awready
  let wDone := w.mWvalid && x.m.wready
  let sent : FwWrite aw :=
    { w with mAwvalid := w.mAwvalid && !awDone, awSent := w.awSent || awDone
             mWvalid := w.mWvalid && !wDone, wSent := w.wSent || wDone }
  if (w.awSent || awDone) && (w.wSent || wDone) then { sent with mBready := true, wst := .waitb }
  else sent

def next (permitted : Bool) (x : FwIn aw) : FwWrite aw :=
  match w.wst with
  | .idle => w.nextIdle permitted x
  | .fwd => w.nextFwd x
  | .waitb =>
    if x.m.bvalid then { w with mBready := false, sBresp := x.m.bresp, sBvalid := true, wst := .resp }
    else w
  | .err => { w with sBresp := RESP_OKAY, sBvalid := true, wst := .resp }
  | .resp => if w.sBvalid && x.s.bready then { w with sBvalid := false, wst := .idle } else w

end FwWrite

namespace FwRead

variable (r : FwRead aw)

def sArready : Bool := r.rst = .idle

def arHandshake (x : FwIn aw) : Bool := x.s.arvalid && r.sArready

def reset (aw : Nat) : FwRead aw := ⟨.idle, 0, 0, false, false, 0, RESP_OKAY, false, 0⟩

def next (permitted : Bool) (x : FwIn aw) : FwRead aw :=
  match r.rst with
  | .idle =>
    if r.arHandshake x then
      let latched : FwRead aw := { r with arAddr := x.s.araddr, arProt := x.s.arprot }
      if permitted then { latched with mArvalid := true, rst := .fwd }
      else { latched with violRdCount := satIncr r.violRdCount, rst := .err }
    else r
  | .fwd =>
    if r.mArvalid && x.m.arready then { r with mArvalid := false, mRready := true, rst := .waitr }
    else r
  | .waitr =>
    if x.m.rvalid then
      { r with mRready := false, sRdata := x.m.rdata, sRresp := x.m.rresp, sRvalid := true,
               rst := .resp }
    else r
  | .err => { r with sRdata := 0, sRresp := RESP_OKAY, sRvalid := true, rst := .resp }
  | .resp => if r.sRvalid && x.s.rready then { r with sRvalid := false, rst := .idle } else r

end FwRead

namespace Firewall

variable (p : FwParams) (f : Firewall p.aw)

def tampered (x : FwIn p.aw) : Bool := x.tamper || f.tamperLatched

def wrPermit (x : FwIn p.aw) : Bool :=
  permit p (f.tampered p x) (f.wr.reqAddr x) (f.wr.reqProt x) true

def rdPermit (x : FwIn p.aw) : Bool := permit p (f.tampered p x) x.s.araddr x.s.arprot false

def wrViolNow (x : FwIn p.aw) : Bool := f.wr.wst = .idle && f.wr.complete x && !f.wrPermit p x

def rdViolNow (x : FwIn p.aw) : Bool :=
  f.rd.rst = .idle && f.rd.arHandshake x && !f.rdPermit p x

def reset (aw : Nat) : Firewall aw :=
  ⟨.reset aw, .reset aw, ⟨false, 0, 0, false⟩, false⟩

/-- The first violation stays; of two in one cycle it is the write. -/
def nextFirst (x : FwIn p.aw) : FwFirst p.aw :=
  if !f.first.valid && (f.wrViolNow p x || f.rdViolNow p x) then
    { valid := true
      isWrite := f.wrViolNow p x
      addr := if f.wrViolNow p x then f.wr.reqAddr x else x.s.araddr
      prot := if f.wrViolNow p x then f.wr.reqProt x else x.s.arprot }
  else f.first

def next (x : FwIn p.aw) : Firewall p.aw where
  wr := f.wr.next (f.wrPermit p x) x
  rd := f.rd.next (f.rdPermit p x) x
  first := f.nextFirst p x
  tamperLatched := f.tamperLatched || x.tamper

/-- The module as a circuit. -/
def circuit : Clocked (FwIn p.aw) (Firewall p.aw) := ⟨.reset p.aw, Firewall.next p⟩

variable {p}

/-- What the firewall drives to the slave. -/
def toSlave (f : Firewall aw) : AxiMaster aw where
  awaddr := f.wr.awAddr
  awprot := f.wr.awProt
  awvalid := f.wr.mAwvalid
  wdata := f.wr.wData
  wstrb := f.wr.wStrb
  wvalid := f.wr.mWvalid
  bready := f.wr.mBready
  araddr := f.rd.arAddr
  arprot := f.rd.arProt
  arvalid := f.rd.mArvalid
  rready := f.rd.mRready

/-- What the firewall drives to the master. -/
def toMaster (f : Firewall aw) : AxiSlave where
  awready := f.wr.sAwready
  wready := f.wr.sWready
  bresp := f.wr.sBresp
  bvalid := f.wr.sBvalid
  arready := f.rd.sArready
  rdata := f.rd.sRdata
  rresp := f.rd.sRresp
  rvalid := f.rd.sRvalid

end Firewall

end PqcHsm
