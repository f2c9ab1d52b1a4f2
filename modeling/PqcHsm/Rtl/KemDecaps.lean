import PqcHsm.Library.Clocked
import PqcHsm.Rtl.KemArith
import Mathlib.Logic.Function.Basic

/-!
# The decapsulation core of ML-KEM

`mlkem_decaps`, in two parts: the registers that decide where it goes next, and the data. Counters
are numbers, since none of them wraps. Of the sub-cores only what they compute is kept: they hold
what they have taken, and answer whenever the inputs of the model say that they are ready.
-/

namespace PqcHsm

open MlKem

/-! ### Control -/

inductive DecapsSt where
  | idle | hekStart | dkIn | hekFlush | hekSq | jStart | jZ | cIn | jFlush | jSq | accClr
  | uWait | uStep | uNtt | macA0 | macA1 | macC | macM | macT | macW0 | macW1
  | a2nRd | a2n | inv | vWait | vStep | vW | vBit | reStart | reRun | out | done
  deriving DecidableEq

/-- The handshakes of a cycle and what the sub-cores say. -/
structure DecapsTiming where
  paramSet : BitVec 2
  start : Bool
  dkValid : Bool
  cValid : Bool
  outReady : Bool
  shaInReady : Bool
  shaOutValid : Bool
  nttDone : Bool
  encEkReady : Bool
  encOutValid : Bool

structure DecapsCtl where
  st : DecapsSt
  done : Bool
  ps : BitVec 2
  k : Nat
  d11 : Bool
  dkcnt : Nat
  cpos : Nat
  cbcnt : Nat
  ekpos : Nat
  rbcnt : Nat
  ucnt : Nat
  vcnt : Nat
  acnt : Nat
  ocnt : Nat
  idxI : Nat
  tp : Nat
  tn : Nat
  grp : Nat
  pair : Nat
  nttKicked : Bool
  nttInverse : Bool
  vPhase : Bool
  ekbV : Bool
  ekbWait : Bool
  /-- The bits in `mlkem_bitunpack`. -/
  nbits : Nat

namespace DecapsCtl

variable (c : DecapsCtl) (t : DecapsTiming)

def reset : DecapsCtl where
  st := .idle
  done := false
  ps := 1
  k := 3
  d11 := false
  dkcnt := 0
  cpos := 0
  cbcnt := 0
  ekpos := 0
  rbcnt := 0
  ucnt := 0
  vcnt := 0
  acnt := 0
  ocnt := 0
  idxI := 0
  tp := 0
  tn := 0
  grp := 0
  pair := 0
  nttKicked := false
  nttInverse := false
  vPhase := false
  ekbV := false
  ekbWait := false
  nbits := 0

def inSRng : Bool := c.dkcnt < sbytes c.k
def inEkRng : Bool := sbytes c.k ≤ c.dkcnt && c.dkcnt < ekend c.k
def inHRng : Bool := ekend c.k ≤ c.dkcnt && c.dkcnt < hend c.k

def dkFire : Bool := c.st = .dkIn && t.dkValid && (!c.inEkRng || t.shaInReady)
def cFire : Bool := c.st = .cIn && t.cValid && t.shaInReady
def outFire : Bool := c.st = .out && t.outReady

def buD : Nat := if c.vPhase then dv c.d11 else du c.d11
def buOutValid : Bool := c.buD ≤ c.nbits

def nttStart : Bool := (c.st = .uNtt || c.st = .inv) && !c.nttKicked

def ekFire : Bool := c.st = .reRun && c.ekbV && t.encEkReady

/-- The inner core gives its bytes once it has the whole key, which `ekpos` counts. -/
def encOut : Bool := t.encOutValid && c.ekpos = eklen c.k

def cmpFire : Bool := c.st = .reRun && c.encOut t && 32 ≤ c.rbcnt

/-- A start, whatever the state. -/
def restart : DecapsCtl :=
  { reset with
    st := .hekStart
    ps := t.paramSet
    k := kNow t.paramSet
    d11 := d11Now t.paramSet
    nbits := c.nbits }

/-- The position in the polynomials of the key. -/
def stepPoly : DecapsCtl :=
  if c.grp = 2 then
    if c.tn = 254 then { c with grp := 0, tn := 0, tp := c.tp + 1 }
    else { c with grp := 0, tn := c.tn + 2 }
  else { c with grp := c.grp + 1 }

def stepPlace : DecapsCtl :=
  if c.inSRng then c.stepPoly
  else if c.inEkRng then { c with ekpos := c.ekpos + 1 }
  else c

def stepDk : DecapsCtl :=
  let c' := { c.stepPlace with dkcnt := c.dkcnt + 1 }
  if c.dkcnt + 1 = dklen c.k then { c' with ocnt := 0, st := .hekFlush } else c'

/-- The next byte of the key is there. -/
def ekLoad : Bool := !c.ekFire t && !c.ekbWait && !c.ekbV && c.ekpos < eklen c.k

/-- The key goes to the inner core byte by byte; a byte is read a cycle after its address. -/
def stepEk : DecapsCtl :=
  if c.ekFire t then { c with ekbV := false, ekpos := c.ekpos + 1, ekbWait := true }
  else if c.ekbWait then { c with ekbWait := false }
  else if c.ekLoad t then { c with ekbV := true }
  else c

def stepRe : DecapsCtl :=
  let c' := c.stepEk t
  if c.encOut t then
    let c'' :=
      { c' with
        rbcnt := c.rbcnt + 1
        cbcnt := if c.rbcnt < 32 then c.cbcnt else c.cbcnt + 1 }
    if c.rbcnt + 1 = clen c.k c.d11 + 32 then { c'' with ocnt := 0, st := .out } else c''
  else c'

/-- The registers of the state machine, when there is no start. -/
def step : DecapsCtl :=
  match c.st with
  | .idle => c
  | .hekStart => { c with st := .dkIn }
  | .dkIn => if c.dkFire t then c.stepDk else c
  | .hekFlush => { c with st := .hekSq }
  | .hekSq =>
    if t.shaOutValid then
      if c.ocnt = 31 then { c with ocnt := 0, st := .jStart } else { c with ocnt := c.ocnt + 1 }
    else c
  | .jStart => { c with ocnt := 0, st := .jZ }
  | .jZ =>
    if t.shaInReady then
      if c.ocnt = 31 then { c with ocnt := c.ocnt + 1, cpos := 0, st := .cIn }
      else { c with ocnt := c.ocnt + 1 }
    else c
  | .cIn =>
    if c.cFire t then
      if c.cpos + 1 = clen c.k c.d11 then { c with cpos := c.cpos + 1, st := .jFlush }
      else { c with cpos := c.cpos + 1 }
    else c
  | .jFlush => { c with ocnt := 0, st := .jSq }
  | .jSq =>
    if t.shaOutValid then
      if c.ocnt = 31 then { c with ocnt := c.ocnt + 1, acnt := 0, st := .accClr }
      else { c with ocnt := c.ocnt + 1 }
    else c
  | .accClr =>
    if c.acnt = 255 then
      { c with acnt := 0, cpos := 0, ucnt := 0, idxI := 0, vPhase := false, st := .uWait }
    else { c with acnt := c.acnt + 1 }
  | .uWait => { c with st := .uStep }
  | .uStep =>
    if c.buOutValid then
      if c.ucnt = 255 then
        { c with ucnt := 0, nttKicked := false, nttInverse := false, st := .uNtt }
      else { c with ucnt := c.ucnt + 1 }
    else { c with cpos := c.cpos + 1, st := .uWait }
  | .uNtt =>
    if t.nttDone && c.nttKicked then { c with pair := 0, st := .macA0 }
    else { c with nttKicked := true }
  | .macA0 => { c with st := .macA1 }
  | .macA1 => { c with st := .macC }
  | .macC => { c with st := .macM }
  | .macM => { c with st := .macT }
  | .macT => { c with st := .macW0 }
  | .macW0 => { c with st := .macW1 }
  | .macW1 =>
    if c.pair = 127 then
      if c.idxI + 1 = c.k then { c with acnt := 0, st := .a2nRd }
      else { c with idxI := c.idxI + 1, ucnt := 0, st := .uWait }
    else { c with pair := c.pair + 1, st := .macA0 }
  | .a2nRd => { c with acnt := 0, st := .a2n }
  | .a2n =>
    if c.acnt = 255 then { c with acnt := 0, nttKicked := false, nttInverse := true, st := .inv }
    else { c with acnt := c.acnt + 1 }
  | .inv =>
    if t.nttDone && c.nttKicked then { c with vcnt := 0, vPhase := true, st := .vWait }
    else { c with nttKicked := true }
  | .vWait => { c with st := .vStep }
  | .vStep =>
    if c.buOutValid then { c with st := .vW } else { c with cpos := c.cpos + 1, st := .vWait }
  | .vW => { c with st := .vBit }
  | .vBit =>
    if c.vcnt = 255 then { c with vcnt := c.vcnt + 1, st := .reStart }
    else { c with vcnt := c.vcnt + 1, st := .vWait }
  | .reStart =>
    { c with ekpos := 0, cbcnt := 0, rbcnt := 0, ekbV := false, ekbWait := true, st := .reRun }
  | .reRun => c.stepRe t
  | .out =>
    if c.outFire t then
      if c.ocnt = 31 then { c with ocnt := c.ocnt + 1, st := .done }
      else { c with ocnt := c.ocnt + 1 }
    else c
  | .done => { c with done := true, st := .idle }

/-- The bits in the unpacker, which gives a field if it has one and takes a byte otherwise. -/
def nbitsNext : Nat :=
  match c.st with
  | .uStep | .vStep => if c.buOutValid then c.nbits - c.buD else c.nbits + 8
  | _ => c.nbits

def next : DecapsCtl :=
  { (if t.start then c.restart t else c.step t) with nbits := c.nbitsNext }

end DecapsCtl

/-! ### Data -/

structure DecapsIn extends DecapsTiming where
  dkData : BitVec 8
  cData : BitVec 8

/-- `sha3_core`: what it has absorbed since its start, and how many bytes it has given. -/
structure KemSponge where
  suffix : BitVec 8
  absorbed : List (BitVec 8)
  taken : Nat

/-- `mlkem_encaps`: what it was started with, the key it has taken, and how many bytes it has
given. -/
structure KemEncaps where
  ps : BitVec 2
  m : BitVec 8 → Bool
  ek : List (BitVec 8)
  given : Nat

structure DecapsData where
  grpBuf : BitVec 16
  hR : BitVec 256
  zR : BitVec 256
  hekR : BitVec 256
  kbarR : BitVec 256
  kprimeR : BitVec 256
  mR : BitVec 8 → Bool
  dkHashOk : Bool
  /-- `u_bank`, by slot and index, with its two read registers. -/
  bank : Nat → Poly
  baDout : Coeff
  bbDout : Coeff
  ekbuf : Nat → BitVec 8
  ekbDout : BitVec 8
  cbuf : Nat → BitVec 8
  cbbDout : BitVec 8
  nttMem : Poly
  nttRdData : Coeff
  buAcc : Nat
  a0 : Coeff
  a1 : Coeff
  b0 : Coeff
  b1 : Coeff
  acc0 : Coeff
  acc1 : Coeff
  tAb : Coeff
  bm0 : Coeff
  bm1 : Coeff
  vR : Coeff
  suR : Coeff
  wR : Coeff
  cmpDiff : Bool
  ekbR : BitVec 8
  sha : KemSponge
  enc : KemEncaps

/-- A byte goes in at the top of a register of 32 bytes. -/
def shiftByte (r : BitVec 256) (b : BitVec 8) : BitVec 256 := b ++ r.extractLsb' 8 248

def regByte (r : BitVec 256) (i : Nat) : BitVec 8 := r.extractLsb' (8 * i) 8

/-- The slot of the accumulator. -/
def slAcc : Nat := 4

def writeBank (bank : Nat → Poly) (slot : Nat) (i : BitVec 8) (v : Coeff) : Nat → Poly :=
  Function.update bank slot (Function.update (bank slot) i v)

namespace DecapsData

variable (E : Cores) (c : DecapsCtl) (d : DecapsData) (x : DecapsIn)

def buOutData : Nat := d.buAcc % 2 ^ c.buD

/-- The registers do nothing of their state's in the cycle of a start. -/
def regSt : DecapsSt := if x.start then .idle else c.st

def shaOutData : BitVec 8 := E.sponge d.sha.suffix d.sha.absorbed d.sha.taken
def encOutData : BitVec 8 := E.encaps d.enc.ps d.enc.m d.enc.ek d.enc.given

/-- `kout`, chosen by a mask. -/
def kout : BitVec 256 :=
  let kmask : BitVec 256 := if d.cmpDiff then BitVec.allOnes 256 else 0
  (d.kprimeR &&& ~~~kmask) ||| (d.kbarR &&& kmask)

def outData : BitVec 8 := regByte d.kout c.ocnt

def bmR : Coeff × Coeff := basemulTail d.a0 d.a1 d.b0 d.b1 (bmzeta c.pair) d.tAb

/-! The memories and the sub-cores follow the signals of the state, also in the cycle of a start. -/

/-- The third byte of two coefficients. -/
def tripleFire : Bool := c.dkFire x.toDecapsTiming && c.inSRng && c.grp = 2

/-- A byte of the encapsulation key. -/
def ekInFire : Bool := c.dkFire x.toDecapsTiming && c.inEkRng

def baAddr : Nat × BitVec 8 :=
  match c.st with
  | .macA0 => (c.idxI, BitVec.ofNat 8 (2 * c.pair))
  | .macA1 => (c.idxI, BitVec.ofNat 8 (2 * c.pair + 1))
  | .dkIn => if tripleFire c x then (c.tp, BitVec.ofNat 8 c.tn) else (0, 0)
  | _ => (0, 0)

def bbAddr : Nat × BitVec 8 :=
  match c.st with
  | .dkIn => if tripleFire c x then (c.tp, BitVec.ofNat 8 (c.tn + 1)) else (0, 0)
  | .accClr => (slAcc, BitVec.ofNat 8 c.acnt)
  | .macA0 => (slAcc, BitVec.ofNat 8 (2 * c.pair))
  | .macA1 => (slAcc, BitVec.ofNat 8 (2 * c.pair + 1))
  | .macW0 => (slAcc, BitVec.ofNat 8 (2 * c.pair))
  | .macW1 => (slAcc, BitVec.ofNat 8 (2 * c.pair + 1))
  | .a2nRd => (slAcc, 0)
  | .a2n => (slAcc, BitVec.ofNat 8 (c.acnt + 1))
  | _ => (0, 0)

def bankNext : Nat → Poly :=
  match c.st with
  | .dkIn =>
    if tripleFire c x then
      let dec := decode12 (x.dkData ++ d.grpBuf)
      writeBank (writeBank d.bank c.tp (BitVec.ofNat 8 c.tn) (dec.1.setWidth 16))
        c.tp (BitVec.ofNat 8 (c.tn + 1)) (dec.2.setWidth 16)
    else d.bank
  | .accClr => writeBank d.bank slAcc (BitVec.ofNat 8 c.acnt) 0
  | .macW0 => writeBank d.bank slAcc (BitVec.ofNat 8 (2 * c.pair)) (barrettReduce (d.acc0 + d.bm0))
  | .macW1 =>
    writeBank d.bank slAcc (BitVec.ofNat 8 (2 * c.pair + 1)) (barrettReduce (d.acc1 + d.bm1))
  | _ => d.bank

def ekbufNext : Nat → BitVec 8 :=
  if ekInFire c x then Function.update d.ekbuf c.ekpos x.dkData else d.ekbuf

def cbufNext : Nat → BitVec 8 :=
  if c.cFire x.toDecapsTiming then Function.update d.cbuf c.cpos x.cData else d.cbuf

/-- `cbb_addr`: in the comparison it is a byte ahead whenever a byte is compared. -/
def cbbAddr : Nat :=
  if c.st = .reRun then c.cbcnt + (if c.cmpFire x.toDecapsTiming then 1 else 0) else c.cpos

def nttMemNext : Poly :=
  match c.st with
  | .uStep =>
    if c.buOutValid then
      Function.update d.nttMem (BitVec.ofNat 8 c.ucnt) (decompress (du c.d11) (d.buOutData c))
    else d.nttMem
  | .a2n => Function.update d.nttMem (BitVec.ofNat 8 c.acnt) d.bbDout
  | .uNtt | .inv => if c.nttStart then E.ntt c.nttInverse d.nttMem else d.nttMem
  | _ => d.nttMem

def nttRdAddr : BitVec 8 :=
  match c.st with
  | .macA0 => BitVec.ofNat 8 (2 * c.pair)
  | .macA1 => BitVec.ofNat 8 (2 * c.pair + 1)
  | .vWait | .vStep | .vW | .vBit => BitVec.ofNat 8 c.vcnt
  | _ => 0

def buAccNext : Nat :=
  match c.st with
  | .uStep | .vStep =>
    if c.buOutValid then d.buAcc >>> c.buD else d.buAcc ||| (d.cbbDout.toNat <<< c.nbits)
  | _ => d.buAcc

def shaNext : KemSponge :=
  match c.st with
  | .hekStart => ⟨0x06, [], 0⟩
  | .dkIn =>
    if ekInFire c x then { d.sha with absorbed := d.sha.absorbed ++ [x.dkData] } else d.sha
  | .hekSq => if x.shaOutValid then { d.sha with taken := d.sha.taken + 1 } else d.sha
  | .jStart => ⟨0x1f, [], 0⟩
  | .jZ =>
    if x.shaInReady then { d.sha with absorbed := d.sha.absorbed ++ [regByte d.zR c.ocnt] }
    else d.sha
  | .cIn =>
    if c.cFire x.toDecapsTiming then { d.sha with absorbed := d.sha.absorbed ++ [x.cData] }
    else d.sha
  | .jSq => if x.shaOutValid then { d.sha with taken := d.sha.taken + 1 } else d.sha
  | _ => d.sha

def encNext : KemEncaps :=
  if c.st = .reStart then ⟨c.ps, d.mR, [], 0⟩
  else
    { d.enc with
      ek := if c.ekFire x.toDecapsTiming then d.enc.ek ++ [d.ekbR] else d.enc.ek
      given := if c.encOut x.toDecapsTiming then d.enc.given + 1 else d.enc.given }

/-! The registers. -/

def zRNext : BitVec 256 :=
  match regSt c x with
  | .dkIn =>
    if c.dkFire x.toDecapsTiming && !c.inSRng && !c.inEkRng && !c.inHRng then
      shiftByte d.zR x.dkData
    else d.zR
  | _ => d.zR

def hRNext : BitVec 256 :=
  match regSt c x with
  | .dkIn => if c.dkFire x.toDecapsTiming && c.inHRng then shiftByte d.hR x.dkData else d.hR
  | _ => d.hR

def grpBufNext : BitVec 16 :=
  match regSt c x with
  | .dkIn =>
    if c.dkFire x.toDecapsTiming && c.inSRng && c.grp ≠ 2 then x.dkData ++ d.grpBuf.extractLsb' 8 8
    else d.grpBuf
  | _ => d.grpBuf

def kbarRNext : BitVec 256 :=
  match regSt c x with
  | .jSq => if x.shaOutValid then shiftByte d.kbarR (d.shaOutData E) else d.kbarR
  | _ => d.kbarR

def mRNext : BitVec 8 → Bool :=
  match regSt c x with
  | .vBit => Function.update d.mR (BitVec.ofNat 8 c.vcnt) (compress1 d.wR)
  | _ => d.mR

def kprimeRNext : BitVec 256 :=
  match regSt c x with
  | .reRun =>
    if c.encOut x.toDecapsTiming && c.rbcnt < 32 then shiftByte d.kprimeR (d.encOutData E)
    else d.kprimeR
  | _ => d.kprimeR

/-- Only ever set, and read by nothing but the choice of the key. -/
def cmpDiffNext : Bool :=
  if x.start then false
  else
    match c.st with
    | .reStart => false
    | .reRun =>
      if c.cmpFire x.toDecapsTiming then d.cmpDiff || (d.encOutData E ^^^ d.cbbDout) != 0
      else d.cmpDiff
    | _ => d.cmpDiff

def dkHashOkNext : Bool :=
  if x.start then false else if c.st = .jStart then d.hekR = d.hR else d.dkHashOk

def next : DecapsData where
  grpBuf := d.grpBufNext c x
  hR := d.hRNext c x
  zR := d.zRNext c x
  hekR := if regSt c x = .hekSq && x.shaOutValid then shiftByte d.hekR (d.shaOutData E) else d.hekR
  kbarR := d.kbarRNext E c x
  kprimeR := d.kprimeRNext E c x
  mR := d.mRNext c x
  dkHashOk := d.dkHashOkNext c x
  bank := d.bankNext c x
  baDout := d.bank (baAddr c x).1 (baAddr c x).2
  bbDout := d.bank (bbAddr c x).1 (bbAddr c x).2
  ekbuf := d.ekbufNext c x
  ekbDout := d.ekbuf c.ekpos
  cbuf := d.cbufNext c x
  cbbDout := d.cbuf (cbbAddr c x)
  nttMem := d.nttMemNext E c
  nttRdData := d.nttMem (nttRdAddr c)
  buAcc := d.buAccNext c
  a0 := if regSt c x = .macA1 then d.baDout else d.a0
  a1 := if regSt c x = .macC then d.baDout else d.a1
  b0 := if regSt c x = .macA1 then d.nttRdData else d.b0
  b1 := if regSt c x = .macC then d.nttRdData else d.b1
  acc0 := if regSt c x = .macA1 then d.bbDout else d.acc0
  acc1 := if regSt c x = .macC then d.bbDout else d.acc1
  tAb := if regSt c x = .macM then basemulHead d.a1 d.b1 else d.tAb
  bm0 := if regSt c x = .macT then (d.bmR c).1 else d.bm0
  bm1 := if regSt c x = .macT then (d.bmR c).2 else d.bm1
  vR :=
    if regSt c x = .vStep && c.buOutValid then decompress (dv c.d11) (d.buOutData c) else d.vR
  suR := if regSt c x = .vStep && c.buOutValid then d.nttRdData else d.suR
  wR := if regSt c x = .vW then barrettReduce (d.vR - d.suR) else d.wR
  cmpDiff := d.cmpDiffNext E c x
  ekbR := if regSt c x = .reRun && c.ekLoad x.toDecapsTiming then d.ekbDout else d.ekbR
  sha := d.shaNext c x
  enc := d.encNext c x

end DecapsData

/-- After a reset. The memories and what has been read from them stay. -/
def DecapsData.cleared (d : DecapsData) : DecapsData :=
  { d with
    grpBuf := 0
    hR := 0
    zR := 0
    hekR := 0
    kbarR := 0
    kprimeR := 0
    mR := fun _ => false
    dkHashOk := false
    buAcc := 0
    a0 := 0
    a1 := 0
    b0 := 0
    b1 := 0
    acc0 := 0
    acc1 := 0
    tAb := 0
    bm0 := 0
    bm1 := 0
    vR := 0
    suR := 0
    wR := 0
    cmpDiff := false
    ekbR := 0 }

structure Decaps where
  ctl : DecapsCtl
  data : DecapsData

/-- `mlkem_decaps`, with what the reset finds in the data. -/
def decaps (E : Cores) (data : DecapsData) : Clocked DecapsIn Decaps where
  reset := ⟨.reset, data.cleared⟩
  next s x := ⟨s.ctl.next x.toDecapsTiming, s.data.next E s.ctl x⟩

/-- What went in and came out since the last start. -/
structure DecapsLog where
  ps : BitVec 2
  dk : List (BitVec 8)
  c : List (BitVec 8)
  out : List (BitVec 8)

def DecapsLog.see (m : DecapsLog) (s : Decaps) (x : DecapsIn) : DecapsLog :=
  if x.start then ⟨x.paramSet, [], [], []⟩
  else
    { ps := m.ps
      dk := if s.ctl.dkFire x.toDecapsTiming then m.dk ++ [x.dkData] else m.dk
      c := if s.ctl.cFire x.toDecapsTiming then m.c ++ [x.cData] else m.c
      out := if s.ctl.outFire x.toDecapsTiming then m.out ++ [s.data.outData s.ctl] else m.out }

def decapsLog (E : Cores) (data : DecapsData) (ins : Nat → DecapsIn) : Nat → DecapsLog :=
  (decaps E data).record ⟨1, [], [], []⟩ DecapsLog.see ins

end PqcHsm
