import PqcHsm.Rtl.Keccak

/-!
# The SHA-3 core

`sha3_core`: the sponge around the permutation core, with a byte stream in, a byte stream out, and a
port that lends the permutation core to the layer above while the sponge is idle. The codes that no
state register takes are left out of the state types.
-/

namespace PqcHsm

/-- `S_IDLE` and the others. -/
inductive Sha3St where
  | idle
  | clr
  | absorb
  | padSuf
  | padLast
  | permKick
  | permWait
  | squeeze
  | zwait
  deriving DecidableEq

/-- `R_ABSORB`, `R_SQUEEZE`, `R_IDLE`. -/
inductive Sha3Ret where
  | absorb
  | squeeze
  | idle
  deriving DecidableEq

structure Sha3In where
  rateBytes : BitVec 8
  suffix : BitVec 8
  start : Bool
  zeroize : Bool
  inValid : Bool
  inData : BitVec 8
  inFlush : Bool
  outReady : Bool
  extStart : Bool
  extWrEn : Bool
  extWrAddr : BitVec 5
  extWrData : BitVec 64
  extRdAddr : BitVec 5

structure Sha3Core where
  state : Sha3St
  ret : Sha3Ret
  rateR : BitVec 8
  suffixR : BitVec 8
  bpos : BitVec 8
  sqBpos : BitVec 8
  clrIdx : BitVec 5
  kecStartR : Bool
  permBusy : Bool
  zeroizeD : Bool
  kec : KeccakF1600

namespace Sha3Core

variable (c : Sha3Core) (x : Sha3In)

/-! ### The wires -/

def kecStart : Bool := c.kecStartR || (x.extStart && c.state = .idle)

def lastLane : BitVec 5 := c.rateR.extractLsb' 3 5 - 1

def kecRdAddr : BitVec 5 :=
  match c.state with
  | .squeeze => c.sqBpos.extractLsb' 3 5
  | .padLast => c.lastLane
  | .idle => x.extRdAddr
  | _ => c.bpos.extractLsb' 3 5

def kecRdData : BitVec 64 := c.kec.A.lane (c.kecRdAddr x).toNat

/-- A byte at the offset of `bpos` in a lane. -/
def atBpos (b : BitVec 8) : BitVec 64 := b.setWidth 64 <<< (8 * (c.bpos.extractLsb' 0 3).toNat)

def kecWrEn : Bool :=
  match c.state with
  | .idle => x.extWrEn
  | .clr | .padSuf | .padLast => true
  | .absorb => x.inValid
  | _ => false

def kecWrAddr : BitVec 5 :=
  match c.state with
  | .idle => x.extWrAddr
  | .clr => c.clrIdx
  | _ => c.kecRdAddr x

def kecWrData : BitVec 64 :=
  match c.state with
  | .idle => x.extWrData
  | .absorb => c.kecRdData x ^^^ c.atBpos x.inData
  | .padSuf => c.kecRdData x ^^^ c.atBpos c.suffixR
  | .padLast => c.kecRdData x ^^^ 0x8000000000000000
  | _ => 0

def kecIn : KeccakIn := ⟨c.kecStart x, c.kecWrEn x, c.kecWrAddr x, c.kecWrData x⟩

def inReady : Bool := c.state = .absorb

def outValid : Bool := c.state = .squeeze

def outData : BitVec 8 := (c.kecRdData x).extractLsb' (8 * (c.sqBpos.extractLsb' 0 3).toNat) 8

def busy : Bool := c.state ≠ .idle

def extRdData : BitVec 64 := if c.state = .idle then c.kecRdData x else 0

def extDone : Bool := c.kec.done

def zeroizeRise : Bool := x.zeroize && !c.zeroizeD

/-! ### The registers -/

def reset : Sha3Core := ⟨.idle, .absorb, 136, 0x1F, 0, 0, 0, false, false, false, .reset⟩

/-- A start, or a zeroization: both begin with the wait for a permutation that runs. -/
def restart : Sha3Core :=
  { c with
    state := .zwait
    ret := if x.start then .absorb else .idle
    rateR := if x.start then x.rateBytes else c.rateR
    suffixR := if x.start then x.suffix else c.suffixR
    bpos := 0
    sqBpos := 0
    clrIdx := 0
    kecStartR := false }

/-- The other cycles, by state. -/
def advance : Sha3Core :=
  match c.state with
  | .idle => { c with kecStartR := false }
  | .zwait => { c with kecStartR := false, state := if !c.permBusy then .clr else .zwait }
  | .clr =>
    if c.clrIdx = 24 then
      { c with kecStartR := false, clrIdx := 0, state := if c.ret = .idle then .idle else .absorb }
    else { c with kecStartR := false, clrIdx := c.clrIdx + 1 }
  | .absorb =>
    if x.inValid then
      if c.bpos + 1 = c.rateR then
        { c with kecStartR := false, bpos := 0, ret := .absorb, state := .permKick }
      else { c with kecStartR := false, bpos := c.bpos + 1 }
    else if x.inFlush then { c with kecStartR := false, state := .padSuf }
    else { c with kecStartR := false }
  | .padSuf => { c with kecStartR := false, state := .padLast }
  | .padLast =>
    { c with kecStartR := false, bpos := 0, sqBpos := 0, ret := .squeeze, state := .permKick }
  | .permKick => { c with kecStartR := true, state := .permWait }
  | .permWait =>
    if c.permBusy && c.kec.done then
      { c with kecStartR := false, state := if c.ret = .squeeze then .squeeze else .absorb }
    else { c with kecStartR := false }
  | .squeeze =>
    if x.outReady then
      if c.sqBpos + 1 = c.rateR then
        { c with kecStartR := false, sqBpos := 0, ret := .squeeze, state := .permKick }
      else { c with kecStartR := false, sqBpos := c.sqBpos + 1 }
    else { c with kecStartR := false }

/-- An edge. -/
def next : Sha3Core :=
  { (if x.start || c.zeroizeRise x then c.restart x else c.advance x) with
    kec := c.kec.next (c.kecIn x)
    permBusy := if c.kecStart x then true else if c.kec.done then false else c.permBusy
    zeroizeD := x.zeroize }

end Sha3Core

def sha3Circuit : Clocked Sha3In Sha3Core := ⟨.reset, Sha3Core.next⟩

end PqcHsm
