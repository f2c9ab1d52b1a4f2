import Mathlib.Data.Fintype.Basic
import PqcHsm.Rtl.Firewall

/-!
# The address decoder in front of the slaves

`axi4lite_xbar`: one master, up to eight slaves, one window of 64 KB each. An address is forwarded
to the slave of its slot when all of it is decoded; any other address is answered on the spot, reads
with 0 and writes dropped, and counted.
-/

namespace PqcHsm

/-- The parameters. `SEL_LSB` is 16 and `OFF_BITS` is 8 in every instance. -/
structure XbarParams where
  aw : Nat
  ns : Nat
  baseAddr : BitVec 64
  aw_ge : 20 ≤ aw
  ns_le : ns ≤ 8

/-- What the master and the slaves drive. -/
structure XbIn (p : XbarParams) where
  s : AxiMaster p.aw
  m : Fin p.ns → AxiSlave

namespace Crossbar

variable {p : XbarParams}

/-- `slot_of`. -/
def slotOf (a : BitVec p.aw) : BitVec 3 := a.extractLsb' 16 3

/-- The part of an address that a slave gets. -/
def offsetOf (a : BitVec p.aw) : BitVec 8 := a.extractLsb' 0 8

/-- `hit_of`: the aperture, the slot, the unused bits of the offset, the alignment. -/
def hitOf (p : XbarParams) (a : BitVec p.aw) : Bool :=
  a.extractLsb' 19 (p.aw - 19) = p.baseAddr.extractLsb' 19 (p.aw - 19) &&
    (slotOf a).toNat < p.ns && a.extractLsb' 8 8 = 0 && a.extractLsb' 0 2 = 0

/-- The slave that a slot number names. -/
def isSlave (sel : BitVec 3) (i : Fin p.ns) : Bool := i.val = sel.toNat

/-- What the slave of a slot number drives. -/
def ofSlave {α : Type} (sel : BitVec 3) (f : Fin p.ns → α) (held : α) : α :=
  if h : sel.toNat < p.ns then f ⟨sel.toNat, h⟩ else held

end Crossbar

open Crossbar (offsetOf hitOf isSlave ofSlave)

structure XbWrite (p : XbarParams) where
  wst : WSt
  awGot : Bool
  wGot : Bool
  awSent : Bool
  wSent : Bool
  awAddr : BitVec 8
  awProt : BitVec 3
  wData : BitVec 32
  wStrb : BitVec 4
  awSel : BitVec 3
  awHit : Bool
  mAwvalid : Fin p.ns → Bool
  mWvalid : Fin p.ns → Bool
  mBready : Fin p.ns → Bool
  sBresp : BitVec 2
  sBvalid : Bool
  decodeViolWrCount : BitVec 16

structure XbRead (p : XbarParams) where
  rst : RSt
  arAddr : BitVec 8
  arProt : BitVec 3
  arSel : BitVec 3
  arHit : Bool
  mArvalid : Fin p.ns → Bool
  mRready : Fin p.ns → Bool
  sRdata : BitVec 32
  sRresp : BitVec 2
  sRvalid : Bool
  decodeViolRdCount : BitVec 16

structure Crossbar (p : XbarParams) where
  wr : XbWrite p
  rd : XbRead p

variable {p : XbarParams}

namespace XbWrite

variable (w : XbWrite p) (x : XbIn p)

def sAwready : Bool := w.wst = .idle && !w.awGot

def sWready : Bool := w.wst = .idle && !w.wGot

def awHandshake : Bool := x.s.awvalid && w.sAwready

def wHandshake : Bool := x.s.wvalid && w.sWready

def complete : Bool := (w.awGot || w.awHandshake x) && (w.wGot || w.wHandshake x)

def reset (p : XbarParams) : XbWrite p where
  wst := .idle
  awGot := false
  wGot := false
  awSent := false
  wSent := false
  awAddr := 0
  awProt := 0
  wData := 0
  wStrb := 0
  awSel := 0
  awHit := false
  mAwvalid := fun _ => false
  mWvalid := fun _ => false
  mBready := fun _ => false
  sBresp := RESP_OKAY
  sBvalid := false
  decodeViolWrCount := 0

/-- The registers that hold the request, with what is handed over in this cycle. -/
def latch : XbWrite p :=
  let withAddr : XbWrite p :=
    if w.awHandshake x then
      { w with awGot := true, awAddr := offsetOf x.s.awaddr, awProt := x.s.awprot
               awSel := Crossbar.slotOf x.s.awaddr, awHit := hitOf p x.s.awaddr }
    else w
  if w.wHandshake x then { withAddr with wGot := true, wData := x.s.wdata, wStrb := x.s.wstrb }
  else withAddr

/-- `W_IDLE`. Address and data of this cycle count as much as the latched ones. -/
def nextIdle : XbWrite p :=
  let l := w.latch x
  if w.complete x then
    if l.awHit then
      { l with awGot := false, wGot := false, awSent := false, wSent := false
               mAwvalid := fun i => w.mAwvalid i || isSlave l.awSel i
               mWvalid := fun i => w.mWvalid i || isSlave l.awSel i
               wst := .fwd }
    else { l with awGot := false, wGot := false, wst := .err }
  else l

def nextFwd : XbWrite p :=
  let awDone : Bool := ∃ i, w.mAwvalid i && (x.m i).awready
  let wDone : Bool := ∃ i, w.mWvalid i && (x.m i).wready
  let sent : XbWrite p :=
    { w with mAwvalid := if awDone then fun _ => false else w.mAwvalid
             awSent := w.awSent || awDone
             mWvalid := if wDone then fun _ => false else w.mWvalid
             wSent := w.wSent || wDone }
  if (w.awSent || awDone) && (w.wSent || wDone) then
    { sent with mBready := fun i => w.mBready i || isSlave w.awSel i, wst := .waitb }
  else sent

def nextWaitb : XbWrite p :=
  if ∃ i, (x.m i).bvalid && w.mBready i then
    { w with mBready := fun _ => false, sBvalid := true, wst := .resp
             sBresp := ofSlave w.awSel (fun i => (x.m i).bresp) w.sBresp }
  else w

def next : XbWrite p :=
  match w.wst with
  | .idle => w.nextIdle x
  | .fwd => w.nextFwd x
  | .waitb => w.nextWaitb x
  | .err => { w with sBresp := RESP_OKAY, decodeViolWrCount := satIncr w.decodeViolWrCount
                     sBvalid := true, wst := .resp }
  | .resp => if w.sBvalid && x.s.bready then { w with sBvalid := false, wst := .idle } else w

end XbWrite

namespace XbRead

variable (r : XbRead p) (x : XbIn p)

def sArready : Bool := r.rst = .idle

def arHandshake : Bool := x.s.arvalid && r.sArready

def reset (p : XbarParams) : XbRead p where
  rst := .idle
  arAddr := 0
  arProt := 0
  arSel := 0
  arHit := false
  mArvalid := fun _ => false
  mRready := fun _ => false
  sRdata := 0
  sRresp := RESP_OKAY
  sRvalid := false
  decodeViolRdCount := 0

def nextIdle : XbRead p :=
  if r.arHandshake x then
    let l : XbRead p :=
      { r with arAddr := offsetOf x.s.araddr, arProt := x.s.arprot
               arSel := Crossbar.slotOf x.s.araddr, arHit := hitOf p x.s.araddr }
    if hitOf p x.s.araddr then
      { l with mArvalid := fun i => r.mArvalid i || isSlave (Crossbar.slotOf x.s.araddr) i
               rst := .fwd }
    else { l with rst := .err }
  else r

def nextFwd : XbRead p :=
  if ∃ i, r.mArvalid i && (x.m i).arready then
    { r with mArvalid := fun _ => false, mRready := fun i => r.mRready i || isSlave r.arSel i
             rst := .waitr }
  else r

def nextWaitr : XbRead p :=
  if ∃ i, (x.m i).rvalid && r.mRready i then
    { r with mRready := fun _ => false, sRvalid := true, rst := .resp
             sRdata := ofSlave r.arSel (fun i => (x.m i).rdata) r.sRdata
             sRresp := ofSlave r.arSel (fun i => (x.m i).rresp) r.sRresp }
  else r

def next : XbRead p :=
  match r.rst with
  | .idle => r.nextIdle x
  | .fwd => r.nextFwd x
  | .waitr => r.nextWaitr x
  | .err => { r with sRdata := 0, sRresp := RESP_OKAY, sRvalid := true, rst := .resp
                     decodeViolRdCount := satIncr r.decodeViolRdCount }
  | .resp => if r.sRvalid && x.s.rready then { r with sRvalid := false, rst := .idle } else r

end XbRead

namespace Crossbar

def reset (p : XbarParams) : Crossbar p := ⟨.reset p, .reset p⟩

def next (b : Crossbar p) (x : XbIn p) : Crossbar p := ⟨b.wr.next x, b.rd.next x⟩

/-- The module as a circuit. -/
def circuit (p : XbarParams) : Clocked (XbIn p) (Crossbar p) := ⟨reset p, next⟩

end Crossbar

end PqcHsm
