import Mathlib.Logic.Function.Basic
import PqcHsm.Rtl.SlavePort

/-!
# The bus module of ML-DSA

`mldsa_axi`: its registers behind the firewall, and the module with the firewall in front. The
engine is abstract. It stores the bytes of its write port while it is idle and does what it likes
with the store otherwise; what its output port shows depends on the address of this cycle and on
that of the cycle before.
-/

namespace PqcHsm

namespace MldsaAxi

def A_VERSION : BitVec 4 := 0x0
def A_CTRL : BitVec 4 := 0x1
def A_MODE : BitVec 4 := 0x2
def A_STATUS : BitVec 4 := 0x3
def A_INDATA : BitVec 4 := 0x4
def A_INPTR : BitVec 4 := 0x5
def A_OUTDATA : BitVec 4 := 0x6
def A_OUTPTR : BitVec 4 := 0x7
def A_OUTLEN : BitVec 4 := 0x8
def A_MSGLEN : BitVec 4 := 0x9
def A_CTXLEN : BitVec 4 := 0xA
def A_KEYSTAT : BitVec 4 := 0xB
def A_VIOL : BitVec 4 := 0xC
def A_SEEDDATA : BitVec 4 := 0xD
def A_SEEDSTAT : BitVec 4 := 0xE

def OP_KEYGEN : BitVec 2 := 0
def OP_SIGN : BitVec 2 := 1
def OP_VERIFY : BitVec 2 := 2

def IN_CAP : Nat := 32768

def MSGMAX : Nat := 8192

end MldsaAxi

/-- What the engine drives, and what becomes of its input store while it is not idle. -/
structure DsaEngine where
  idle : Bool
  done : Bool
  vok : Bool
  wiping : Bool
  outLen : BitVec 16
  port : BitVec 15 → BitVec 15 → BitVec 8
  ib : BitVec 15 → BitVec 8

/-- What the registers behind the firewall see in a cycle. -/
structure DsaIn where
  m : AxiMaster 8
  tamper : Bool
  fwTampered : Bool
  violWrCount : BitVec 16
  violRdCount : BitVec 16
  eng : DsaEngine

/-- `S_IDLE`, `S_LOAD`, `S_KICK`, `S_RUN`, `S_STORE`, `S_FIN`, `S_SEED`. -/
inductive DsaSt where
  | idle
  | load
  | kick
  | run
  | store
  | fin
  | seed
  deriving DecidableEq

/-- `pkr_run` to `pkr_d`, the bytes of `pkr_d` one by one. -/
structure DsaPackedRead where
  run : Bool
  i : BitVec 2
  ph : Bool
  addr : BitVec 15
  d0 : BitVec 8
  d1 : BitVec 8
  d2 : BitVec 8

structure DsaRegs where
  wr : WrPort
  rd : RdPort
  pkw : PackedWrite 15
  pkr : DsaPackedRead
  op : BitVec 2
  pset : BitVec 2
  chain : Bool
  chainPh : Bool
  expWiping : Bool
  expWaddrW : BitVec 13
  seedStaged : Bool
  seedLock : Bool
  seedStage : BitVec 3 → BitVec 32
  seedWcnt : BitVec 4
  seedAddr : BitVec 6
  seedErr : Bool
  seedViol : BitVec 16
  seedOvf : Bool
  inPtr : BitVec 16
  outPtr : BitVec 16
  outLenR : BitVec 16
  msgLen : BitVec 16
  ctxLen : BitVec 16
  runDone : Bool
  verifyOkR : Bool
  paramErr : Bool
  lenErr : Bool
  zeroPulse : Bool
  wiping : Bool
  wipeAddr : BitVec 13
  zallD : Bool
  state : DsaSt
  cp : BitVec 13
  cpWait : Bool
  kickdly : BitVec 2
  inWe : Bool
  inAddr : BitVec 15
  inData : BitVec 8
  expand : BitVec 13 → BitVec 8
  expDout : BitVec 8
  /-- The input store of the engine. -/
  ib : BitVec 15 → BitVec 8
  /-- The address that the output port of the engine saw in the cycle before. -/
  outAddrR : BitVec 15

namespace DsaPackedRead

variable (k : DsaPackedRead)

def reset : DsaPackedRead := ⟨false, 0, false, 0, 0, 0, 0⟩

/-- The word, in the cycle in which its last byte is there. -/
def word (outData : BitVec 8) : Option (BitVec 32) :=
  if k.run ∧ k.ph ∧ k.i ≠ 1 ∧ k.i ≠ 2 then some (outData ++ k.d2 ++ k.d1 ++ k.d0) else none

/-- The registers as ZEROIZE leaves them. -/
def cleared (zeroizeAll : Bool) : DsaPackedRead :=
  if zeroizeAll then ⟨false, 0, false, k.addr, 0, 0, 0⟩ else k

def next (zeroizeAll : Bool) (start : Option (BitVec 15)) (outData : BitVec 8) : DsaPackedRead :=
  let c := k.cleared zeroizeAll
  match start with
  | some addr => ⟨true, 1, false, addr, outData, c.d1, c.d2⟩
  | none =>
    if k.run && k.ph then
      if k.i = 1 then { c with d1 := outData, addr := k.addr + 1, i := 2, ph := false }
      else if k.i = 2 then { c with d2 := outData, addr := k.addr + 1, i := 3, ph := false }
      else { c with run := false }
    else if k.run then { c with ph := true }
    else c

end DsaPackedRead

namespace DsaRegs

open MldsaAxi

variable (s : DsaRegs) (x : DsaIn)

def reset : DsaRegs where
  wr := .reset
  rd := .reset
  pkw := .reset 15
  pkr := .reset
  op := 0
  pset := 0
  chain := false
  chainPh := false
  expWiping := false
  expWaddrW := 0
  seedStaged := false
  seedLock := false
  seedStage := fun _ => 0
  seedWcnt := 0
  seedAddr := 0
  seedErr := false
  seedViol := 0
  seedOvf := false
  inPtr := 0
  outPtr := 0
  outLenR := 0
  msgLen := 0
  ctxLen := 0
  runDone := false
  verifyOkR := false
  paramErr := false
  lenErr := false
  zeroPulse := false
  wiping := false
  wipeAddr := 0
  zallD := false
  state := .idle
  cp := 0
  cpWait := false
  kickdly := 0
  inWe := false
  inAddr := 0
  inData := 0
  expand := fun _ => 0
  expDout := 0
  ib := fun _ => 0
  outAddrR := 0

section Wires

def zeroizeAll : Bool := s.zeroPulse || x.tamper || x.fwTampered

def wipingAny : Bool := s.wiping || x.eng.wiping

def seedReady : Bool := s.seedWcnt = 8

def pkLen : Nat := if s.pset = 0 then 1312 else if s.pset = 1 then 1952 else 2592

def skLen : Nat := if s.pset = 0 then 2560 else if s.pset = 1 then 4032 else 4896

def sigLen : Nat := if s.pset = 0 then 2420 else if s.pset = 1 then 3309 else 4627

def opOk : Bool := s.op = OP_KEYGEN || s.op = OP_SIGN || s.op = OP_VERIFY

def msgOk : Bool := s.msgLen.toNat ≤ MSGMAX

def paramsOk : Bool := s.opOk && s.pset ≠ 3 && s.ctxLen.toNat ≤ 255 && s.msgOk

def chainRun : Bool := s.chain && s.op = OP_SIGN

def hideSk : Bool := s.chain && s.op = OP_KEYGEN

def opEff : BitVec 2 := if s.chainRun && !s.chainPh then OP_KEYGEN else s.op

def takeSk : Bool := s.chainRun

def storeSk : Bool := s.opEff = OP_KEYGEN && (s.chainRun || s.hideSk)

def useStagedSrc : Bool := s.seedStaged || s.seedLock

def useStaged : Bool := s.opEff = OP_KEYGEN && s.useStagedSrc

def seedGateOk : Bool := !s.useStaged || s.seedReady

def chainGateOk : Bool := !(s.chainRun || s.hideSk) || (s.useStagedSrc && s.seedReady)

def varLen : Nat := s.ctxLen.toNat + s.msgLen.toNat

def needSw : Nat :=
  if s.opEff = OP_KEYGEN && !s.chainRun then if s.useStaged then 0 else 32
  else if s.op = OP_SIGN then 32 + s.varLen + if s.takeSk then 0 else s.skLen
  else s.varLen + s.pkLen + s.sigLen

def needTot : Nat := s.needSw + if s.takeSk then s.skLen else 0

def lenOk : Bool := s.needSw ≤ s.inPtr.toNat

def capOk : Bool := s.needTot ≤ IN_CAP

/-- Where a byte that software writes goes in the input store of the engine. -/
def swAddr : BitVec 15 :=
  s.inPtr.setWidth 15 + if s.takeSk then BitVec.ofNat 15 s.skLen else 0

def inFull : Bool := IN_CAP ≤ s.inPtr.toNat

def inRoom4 : Bool := s.inPtr.toNat + 4 ≤ IN_CAP

/-- `wr_now`, with the write -/
def wrNow : Option BusWrite := s.wr.wrNow x.m s.pkw.run

/-- `wr_indata` -/
def isIndata (b : BusWrite) : Bool :=
  b.strb.getLsbD 0 && !b.addr.getLsbD 6 && regField b.addr = A_INDATA && s.state = .idle &&
    !s.wipingAny x && !s.inFull

/-- `wr_indata4` -/
def isIndata4 (b : BusWrite) : Bool :=
  b.strb.getLsbD 0 && regField6 b.addr = A6_INDATA4 && s.state = .idle && !s.wipingAny x &&
    s.inRoom4

def isSeedAddr (b : BusWrite) : Bool :=
  b.strb.getLsbD 0 && regField b.addr = A_SEEDDATA && !s.wipingAny x

def isSeed (b : BusWrite) : Bool := s.isSeedAddr x b && !b.prot.getLsbD 1 && !s.seedReady

def isInptrBad (b : BusWrite) : Bool :=
  b.strb.getLsbD 0 && regField b.addr = A_INPTR && b.data ≠ 0

def isBusyReject (b : BusWrite) : Bool :=
  b.strb.getLsbD 0 && s.state ≠ .idle &&
    (regField b.addr = A_MODE || regField b.addr = A_MSGLEN || regField b.addr = A_CTXLEN ||
      regField b.addr = A_INDATA)

/-- A write that gets into the `case` of the registers, to the one at `a`. -/
def isReg (a : BitVec 4) (b : BusWrite) : Bool :=
  b.strb.getLsbD 0 && !s.wipingAny x && !b.addr.getLsbD 6 && regField b.addr = a

/-- A write that sets bit `i` of CTRL. -/
def isCtrl (i : Nat) (b : BusWrite) : Bool := s.isReg x MldsaAxi.A_CTRL b && b.data.getLsbD i

/-- A write to a register that is only taken while the module is idle. -/
def isIdleReg (a : BitVec 4) (b : BusWrite) : Bool := s.isReg x a b && s.state = .idle

/-- Whether the write of this cycle is of a kind. -/
def now (kind : BusWrite → Bool) : Bool := (s.wrNow x).any kind

/-- The data of the write of this cycle, if it is of a kind. -/
def written (kind : BusWrite → Bool) : Option (BitVec 32) :=
  ((s.wrNow x).filter kind).map BusWrite.data

/-- A START that is looked at. -/
def startTry : Bool :=
  s.now x (fun b => s.isCtrl x 0 b && !b.data.getLsbD 2) && s.state = .idle && !s.zeroizeAll x &&
    !s.wipingAny x

def startRefused : Bool :=
  !s.paramsOk || !s.capOk || !s.lenOk || s.expWiping || !s.seedGateOk || !s.chainGateOk

def startGo : Bool := s.startTry x && !s.startRefused

/-- CLEAR. -/
def clear : Bool := s.now x (s.isCtrl x 1)

/-- The read that is taken. -/
def arNow : Option (BitVec 8) := s.rd.arNow x.m s.pkr.run

/-- `rd_outdata` -/
def rdOutdata : Bool :=
  (s.arNow x).any fun a =>
    !a.getLsbD 6 && regField a = A_OUTDATA && !s.wipingAny x && s.outPtr.toNat < s.outLenR.toNat

/-- `rd_out4` -/
def rdOut4 : Bool :=
  (s.arNow x).any fun a =>
    regField6 a = A6_OUTDATA4 && !s.wipingAny x && s.outPtr.toNat + 4 ≤ s.outLenR.toNat

def outAddr : BitVec 15 :=
  if s.state = .store then
    BitVec.ofNat 15 s.pkLen + s.cp.setWidth 15 + (BitVec.ofBool !s.cpWait).setWidth 15
  else if s.pkr.run then s.pkr.addr
  else s.outPtr.setWidth 15

def outData : BitVec 8 := x.eng.port s.outAddrR s.outAddr

def rStatus : BitVec 32 :=
  0#24 ++ BitVec.ofBool s.seedErr ++ BitVec.ofBool (s.wipingAny x) ++ BitVec.ofBool x.fwTampered ++
    BitVec.ofBool s.lenErr ++ BitVec.ofBool s.paramErr ++ BitVec.ofBool s.verifyOkR ++
    BitVec.ofBool (s.state = .idle && s.runDone) ++ BitVec.ofBool (s.state ≠ .idle)

def rKeystat : BitVec 32 := 0#30 ++ BitVec.ofBool s.seedLock ++ BitVec.ofBool s.expWiping

def rSeedstat : BitVec 32 :=
  s.seedViol ++ 0#4 ++ BitVec.ofBool s.seedOvf ++ BitVec.ofBool s.seedStaged ++
    BitVec.ofBool s.seedLock ++ BitVec.ofBool s.seedReady ++ 0#4 ++ s.seedWcnt

/-- What a read of address `a` puts into `f_rdata` in the cycle in which it is taken. -/
def readWord (version : BitVec 32) (a : BitVec 8) : BitVec 32 :=
  if a.getLsbD 6 then 0
  else if regField a = MldsaAxi.A_VERSION then version
  else if regField a = MldsaAxi.A_STATUS then s.rStatus x
  else if regField a = A_MODE then
    0#21 ++ BitVec.ofBool s.seedStaged ++ 0#4 ++ 0#1 ++ BitVec.ofBool s.chain ++ s.pset ++ s.op
  else if regField a = A_INPTR then 0#16 ++ s.inPtr
  else if regField a = A_OUTDATA then if s.rdOutdata x then 0#24 ++ s.outData x else 0
  else if regField a = A_OUTPTR then 0#16 ++ s.outPtr
  else if regField a = A_OUTLEN then 0#16 ++ s.outLenR
  else if regField a = A_MSGLEN then 0#16 ++ s.msgLen
  else if regField a = A_CTXLEN then 0#16 ++ s.ctxLen
  else if regField a = A_KEYSTAT then s.rKeystat
  else if regField a = A_VIOL then x.violRdCount ++ x.violWrCount
  else if regField a = A_SEEDSTAT then s.rSeedstat
  else 0

end Wires

section Edge

/-- `f_bresp` for a write. -/
def respOf (b : BusWrite) : BitVec 2 :=
  if s.wiping ||
      (b.strb.getLsbD 0 && !b.addr.getLsbD 6 && regField b.addr = A_INDATA && s.state = .idle &&
        s.inFull) ||
      (b.strb.getLsbD 0 && regField6 b.addr = A6_INDATA4 && s.state = .idle && !s.inRoom4) ||
      isInptrBad b || s.isBusyReject b then
    RESP_SLVERR
  else RESP_OKAY

/-- The answer to the write of this cycle. -/
def wrResp : Option (BitVec 2) := (s.wrNow x).map s.respOf

/-- The bytes and the address of a packed write that begins. -/
def pkwStart : Option (BitVec 24 × BitVec 15) :=
  (s.written x (s.isIndata4 x)).map fun d => (d.extractLsb' 8 24, s.swAddr + 1)

/-- The sequencer is in a state and is not being erased. -/
def inSt (st : DsaSt) : Bool := s.state = st && !s.zeroizeAll x

/-- Another phase follows the one that is done. -/
def chains : Bool := s.chainRun && !s.chainPh

/-- The engine is done with what it runs. -/
def engDone : Bool := x.eng.done && s.kickdly = 0

/-- The last byte of the secret key is copied. -/
def copied : Bool := !s.cpWait && s.cp.toNat + 1 = s.skLen

def nextInPtr : BitVec 16 :=
  if s.now x (s.isIndata4 x) then s.inPtr + 4
  else if s.now x (s.isIndata x) then s.inPtr + 1
  else if s.clear x || s.now x (s.isIdleReg x A_MODE) ||
      s.now x (fun b => s.isReg x A_INPTR b && b.data = 0) then 0
  else if s.zeroizeAll x then 0
  else s.inPtr

def nextOutPtr : BitVec 16 :=
  if s.inSt x .fin then 0
  else if s.rdOutdata x then s.outPtr + 1
  else
    match s.written x (s.isReg x A_OUTPTR) with
    | some d => d.setWidth 16
    | none =>
      if s.clear x || s.startTry x then 0
      else if (s.pkr.word (s.outData x)).isSome then s.outPtr + 4
      else if s.zeroizeAll x then 0
      else s.outPtr

def nextOutLenR : BitVec 16 :=
  if s.inSt x .fin then
    if s.storeSk && s.pkLen < x.eng.outLen.toNat then BitVec.ofNat 16 s.pkLen else x.eng.outLen
  else if s.clear x || s.startTry x || s.zeroizeAll x then 0
  else s.outLenR

def nextState : DsaSt :=
  if s.zeroizeAll x then .idle
  else
    match s.state with
    | .idle =>
      if s.startGo x then
        if s.useStaged then .seed else if s.takeSk then .load else .kick
      else .idle
    | .seed => if s.seedAddr = 31 then .kick else .seed
    | .load => if s.copied then .kick else .load
    | .kick => .run
    | .run => if s.engDone x then if s.storeSk then .store else .fin else .run
    | .store => if s.copied then .fin else .store
    | .fin => if s.chains then .load else .idle

def nextCp : BitVec 13 :=
  if s.inSt x .kick || (s.inSt x .run && s.engDone x) || (s.inSt x .fin && s.chains) then 0
  else if (s.inSt x .load || s.inSt x .store) && !s.cpWait && !s.copied then s.cp + 1
  else if s.startGo x || s.zeroizeAll x then 0
  else s.cp

def nextCpWait : Bool :=
  if s.inSt x .kick || (s.inSt x .run && s.engDone x) || (s.inSt x .fin && s.chains) then true
  else if s.inSt x .load || s.inSt x .store then false
  else if s.startGo x then true
  else s.cpWait && !s.zeroizeAll x

/-- `in_we`, `in_addr` and `in_data` after the edge. -/
def nextIn : Bool × BitVec 15 × BitVec 8 :=
  if s.inSt x .seed then
    (true, s.seedAddr.setWidth 15,
      (s.seedStage (s.seedAddr.extractLsb' 2 3)).extractLsb'
        (8 * (s.seedAddr.extractLsb' 0 2).toNat) 8)
  else if s.inSt x .load && !s.cpWait then (true, s.cp.setWidth 15, s.expDout)
  else
    match s.written x (fun b => s.isIndata4 x b || s.isIndata x b) with
    | some d => (true, s.swAddr, d.setWidth 8)
    | none =>
      if s.pkw.run then (true, s.pkw.addr, s.pkw.data.setWidth 8) else (false, s.inAddr, s.inData)

def nextSeedWcnt : BitVec 4 :=
  if s.now x (fun b => s.isReg x A_SEEDDATA b && s.isSeed x b) then s.seedWcnt + 1
  else if s.now x (s.isCtrl x 6) || (s.startGo x && s.useStaged) || s.zeroizeAll x then 0
  else s.seedWcnt

def nextSeedStage : BitVec 3 → BitVec 32 :=
  if s.inSt x .seed && s.seedAddr = 31 then fun _ => 0
  else
    match s.written x (fun b => s.isReg x A_SEEDDATA b && s.isSeed x b) with
    | some d =>
      Function.update (if s.zeroizeAll x then fun _ => 0 else s.seedStage) (s.seedWcnt.setWidth 3) d
    | none => if s.now x (s.isCtrl x 6) || s.zeroizeAll x then fun _ => 0 else s.seedStage

def nextExpand : BitVec 13 → BitVec 8 :=
  if s.wiping then Function.update s.expand s.wipeAddr 0
  else if s.expWiping then Function.update s.expand s.expWaddrW 0
  else if s.state = .store && !s.cpWait then Function.update s.expand s.cp (s.outData x)
  else s.expand

def next (version : BitVec 32) : DsaRegs where
  wr := s.wr.next x.m (s.wrResp x)
  rd := s.rd.next x.m (s.pkr.word (s.outData x))
    ((s.arNow x).map fun a => (s.readWord x version a, !s.rdOut4 x))
  pkw := s.pkw.next (s.zeroizeAll x) (s.pkwStart x)
  pkr := s.pkr.next (s.zeroizeAll x)
    (if s.rdOut4 x then some (s.outPtr.setWidth 15 + 1) else none) (s.outData x)
  op := ((s.written x (s.isIdleReg x A_MODE)).map fun d => d.extractLsb' 0 2).getD s.op
  pset := ((s.written x (s.isIdleReg x A_MODE)).map fun d => d.extractLsb' 2 2).getD s.pset
  chain := ((s.written x (s.isIdleReg x A_MODE)).map fun d => d.getLsbD 4).getD s.chain
  chainPh := if s.inSt x .fin then s.chains else s.chainPh && !s.zeroizeAll x
  expWiping :=
    if s.inSt x .fin && !s.chains then true
    else s.expWiping && s.expWaddrW ≠ 0x1FFF && !s.zeroizeAll x
  expWaddrW :=
    if s.inSt x .fin && !s.chains then 0
    else if s.expWiping && s.expWaddrW ≠ 0x1FFF then s.expWaddrW + 1
    else s.expWaddrW
  seedStaged := ((s.written x (s.isIdleReg x A_MODE)).map fun d => d.getLsbD 10).getD s.seedStaged
  seedLock := s.seedLock || s.now x (s.isCtrl x 5)
  seedStage := s.nextSeedStage x
  seedWcnt := s.nextSeedWcnt x
  seedAddr :=
    if s.inSt x .seed && s.seedAddr ≠ 31 then s.seedAddr + 1
    else if s.startGo x || s.zeroizeAll x then 0
    else s.seedAddr
  seedErr := if s.startTry x then s.startRefused && !s.seedGateOk else s.seedErr && !s.zeroizeAll x
  seedViol :=
    if s.now x (fun b => s.isSeedAddr x b && b.prot.getLsbD 1) then satIncr s.seedViol
    else s.seedViol
  seedOvf := s.seedOvf || s.now x (fun b => s.isSeedAddr x b && !b.prot.getLsbD 1 && s.seedReady)
  inPtr := s.nextInPtr x
  outPtr := s.nextOutPtr x
  outLenR := s.nextOutLenR x
  msgLen := ((s.written x (s.isIdleReg x A_MSGLEN)).map fun d => d.setWidth 16).getD s.msgLen
  ctxLen := ((s.written x (s.isIdleReg x A_CTXLEN)).map fun d => d.setWidth 16).getD s.ctxLen
  runDone :=
    if s.inSt x .fin && !s.chains then true
    else s.runDone && !s.clear x && !s.startTry x && !s.zeroizeAll x
  verifyOkR :=
    if s.inSt x .run && s.engDone x then x.eng.vok
    else s.verifyOkR && !s.clear x && !s.startTry x && !s.zeroizeAll x
  paramErr := if s.startTry x then s.startRefused else s.paramErr && !s.clear x && !s.zeroizeAll x
  lenErr :=
    if s.startTry x then s.startRefused && (!s.lenOk || !s.capOk || !s.msgOk)
    else s.lenErr && !s.clear x && !s.zeroizeAll x
  zeroPulse := s.now x (s.isCtrl x 2)
  wiping :=
    if s.zeroizeAll x && !s.zallD then true else s.wiping && s.wipeAddr ≠ 0x1FFF
  wipeAddr :=
    if s.zeroizeAll x && !s.zallD then 0
    else if s.wiping && s.wipeAddr ≠ 0x1FFF then s.wipeAddr + 1
    else s.wipeAddr
  zallD := s.zeroizeAll x
  state := s.nextState x
  cp := s.nextCp x
  cpWait := s.nextCpWait x
  kickdly :=
    if s.inSt x .kick then 3
    else if s.inSt x .run && s.kickdly ≠ 0 then s.kickdly - 1
    else s.kickdly
  inWe := (s.nextIn x).1
  inAddr := (s.nextIn x).2.1
  inData := (s.nextIn x).2.2
  expand := s.nextExpand x
  expDout := s.expand (s.cp + if s.cpWait then 0 else 1)
  ib :=
    if x.eng.idle then if s.inWe then Function.update s.ib s.inAddr s.inData else s.ib
    else x.eng.ib
  outAddrR := s.outAddr

/-- What the registers drive to the firewall. -/
def toFw : AxiSlave := busOut s.wr s.rd s.pkr.run

end Edge

end DsaRegs

/-- `mldsa_axi` -/
structure MldsaAxi where
  fw : Firewall 8
  regs : DsaRegs

structure MldsaIn where
  s : AxiMaster 8
  tamper : Bool
  eng : DsaEngine

namespace MldsaAxi

variable (a : MldsaAxi) (x : MldsaIn)

def reset : MldsaAxi := ⟨.reset 8, .reset⟩

/-- What the registers see behind the firewall. -/
def inside : DsaIn where
  m := a.fw.toSlave
  tamper := x.tamper
  fwTampered := a.fw.tamperLatched
  violWrCount := a.fw.wr.violWrCount
  violRdCount := a.fw.rd.violRdCount
  eng := x.eng

/-- What the firewall sees of the master and of the registers. -/
def outside : FwIn 8 := ⟨x.tamper, x.s, a.regs.toFw⟩

def next (secureOnly : Bool) (version : BitVec 32) : MldsaAxi where
  fw := a.fw.next (accelFw secureOnly) (a.outside x)
  regs := a.regs.next (a.inside x) version

/-- The module as a circuit. -/
def circuit (secureOnly : Bool) (version : BitVec 32) : Clocked MldsaIn MldsaAxi :=
  ⟨.reset, fun a x => a.next x secureOnly version⟩

end MldsaAxi

end PqcHsm
