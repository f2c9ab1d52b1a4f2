import Mathlib.Logic.Function.Basic
import PqcHsm.Rtl.SlavePort

/-!
# The bus module of ML-KEM

`mlkem_axi`: its registers behind the firewall, and the module with the firewall in front. The three
cores are abstract: what they drive is an input of every cycle. Registers that are only handed to
the cores are left out (the seed bytes, `fb_r`, the contents of the expansion area, the start
pulses).
-/

namespace PqcHsm

namespace MlkemAxi

def A_VERSION : BitVec 4 := 0x0
def A_CTRL : BitVec 4 := 0x1
def A_STATUS : BitVec 4 := 0x2
def A_MODE : BitVec 4 := 0x3
def A_INDATA : BitVec 4 := 0x4
def A_INPTR : BitVec 4 := 0x5
def A_OUTDATA : BitVec 4 := 0x6
def A_OUTLEN : BitVec 4 := 0x7
def A_OUTRD : BitVec 4 := 0x8
def A_VIOL : BitVec 4 := 0x9
def A_PARAM0 : BitVec 4 := 0xA
def A_XBAR_VIOL : BitVec 4 := 0xB
def A_KEYSTAT : BitVec 4 := 0xC
def A_KEYPSET : BitVec 4 := 0xD
def A_SEEDDATA : BitVec 4 := 0xE
def A_SEEDSTAT : BitVec 4 := 0xF

def M_KEYGEN : BitVec 2 := 0
def M_ENCAPS : BitVec 2 := 1
def M_DECAPS : BitVec 2 := 2

end MlkemAxi

/-- What one core drives. -/
structure KemCore where
  ov : Bool
  od : BitVec 8
  done : Bool
  wiping : Bool

structure KemCores where
  kg : KemCore
  en : KemCore
  de : KemCore
  enEkr : Bool
  deDkr : Bool
  deCr : Bool
  deHashOk : Bool

/-- What the registers behind the firewall see in a cycle. -/
structure KemIn where
  m : AxiMaster 8
  tamper : Bool
  fwTampered : Bool
  violWrCount : BitVec 16
  violRdCount : BitVec 16
  xbarViolCount : BitVec 32
  cores : KemCores

/-- `S_IDLE`, `S_PRE`, `S_KICK`, `S_RUN`, `S_FIN`. -/
inductive KemSt where
  | idle
  | pre
  | kick
  | run
  | fin
  deriving DecidableEq

/-- `pkr_run` to `pkr_d`, the bytes of `pkr_d` one by one. -/
structure KemPackedRead where
  run : Bool
  i : BitVec 3
  d0 : BitVec 8
  d1 : BitVec 8
  d2 : BitVec 8

structure KemRegs where
  wr : WrPort
  rd : RdPort
  pkw : PackedWrite 13
  pkr : KemPackedRead
  mode : BitVec 2
  pset : BitVec 2
  chain : Bool
  chainPh : Bool
  expWiping : Bool
  expWaddrW : BitVec 12
  seedStaged : Bool
  seedLock : Bool
  seedWcnt : BitVec 5
  seedErr : Bool
  seedViol : BitVec 16
  seedOvf : Bool
  inPtr : BitVec 13
  outLen : BitVec 13
  outRd : BitVec 13
  ocnt : BitVec 14
  zeroPulse : Bool
  wiping : Bool
  wipeAddr : BitVec 13
  zallD : Bool
  paramErr : Bool
  runDone : Bool
  state : KemSt
  preCnt : BitVec 7
  fp : BitVec 13
  kickdly : BitVec 2
  fbV : Bool
  fbWait : Bool
  inbuf : BitVec 13 → BitVec 8
  outbuf : BitVec 13 → BitVec 8
  outbDout : BitVec 8

namespace KemPackedRead

variable (k : KemPackedRead)

def reset : KemPackedRead := ⟨false, 0, 0, 0, 0⟩

/-- The word, in the cycle in which its last byte is there. -/
def word (dout : BitVec 8) : Option (BitVec 32) :=
  if k.run ∧ k.i ≠ 1 ∧ k.i ≠ 2 then some (dout ++ k.d2 ++ k.d1 ++ k.d0) else none

/-- `pkr_d` as ZEROIZE leaves it. -/
def cleared (zeroizeAll : Bool) : KemPackedRead :=
  if zeroizeAll then { k with d0 := 0, d1 := 0, d2 := 0 } else k

def next (zeroizeAll start : Bool) (dout : BitVec 8) : KemPackedRead :=
  let c := k.cleared zeroizeAll
  if start then ⟨true, 1, dout, c.d1, c.d2⟩
  else if k.run then
    if k.i = 1 then ⟨!zeroizeAll, k.i + 1, c.d0, dout, c.d2⟩
    else if k.i = 2 then ⟨!zeroizeAll, k.i + 1, c.d0, c.d1, dout⟩
    else ⟨false, k.i + 1, c.d0, c.d1, c.d2⟩
  else ⟨false, if zeroizeAll then 0 else k.i, c.d0, c.d1, c.d2⟩

end KemPackedRead

namespace KemRegs

open MlkemAxi

variable (s : KemRegs) (x : KemIn)

def reset : KemRegs where
  wr := .reset
  rd := .reset
  pkw := .reset 13
  pkr := .reset
  mode := 0
  pset := 1
  chain := false
  chainPh := false
  expWiping := false
  expWaddrW := 0
  seedStaged := false
  seedLock := false
  seedWcnt := 0
  seedErr := false
  seedViol := 0
  seedOvf := false
  inPtr := 0
  outLen := 0
  outRd := 0
  ocnt := 0
  zeroPulse := false
  wiping := false
  wipeAddr := 0
  zallD := false
  paramErr := false
  runDone := false
  state := .idle
  preCnt := 0
  fp := 0
  kickdly := 0
  fbV := false
  fbWait := false
  inbuf := fun _ => 0
  outbuf := fun _ => 0
  outbDout := 0

section Wires

def zeroizeAll : Bool := s.zeroPulse || x.tamper || x.fwTampered

def wipingAny : Bool :=
  s.wiping || (x.cores.kg.wiping || x.cores.en.wiping || x.cores.de.wiping)

def seedReady : Bool := s.seedWcnt = 16

def paramsOk : Bool := s.mode ≠ 3 && s.pset ≠ 3

def chainRun : Bool := s.chain && s.mode = M_DECAPS

def hideSk : Bool := s.chain && s.mode = M_KEYGEN

def modeEff : BitVec 2 := if s.chainRun && !s.chainPh then M_KEYGEN else s.mode

def useStagedSrc : Bool := s.seedStaged || s.seedLock

def useStaged : Bool := s.modeEff = M_KEYGEN && s.useStagedSrc

def k : Nat := if s.pset = 0 then 2 else if s.pset = 1 then 3 else 4

def eklen : Nat := 384 * s.k + 32

def dklen : Nat := 768 * s.k + 96

def c1len : Nat := 320 * s.k + if s.pset = 2 then 32 * s.k else 0

def clen : Nat := s.c1len + 32 * if s.pset = 2 then 5 else 4

def feedLen : Nat :=
  if s.modeEff = M_ENCAPS then 32 + s.eklen
  else if s.modeEff = M_DECAPS then s.dklen + s.clen
  else 0

def preLen : Nat := if s.modeEff = M_KEYGEN then 64 else if s.modeEff = M_ENCAPS then 32 else 0

def storeDk : Bool := s.modeEff = M_KEYGEN && (s.chainRun || s.hideSk)

def outToVault : Bool := s.storeDk && s.eklen ≤ s.ocnt.toNat

def takeDk : Bool := s.modeEff = M_DECAPS && s.chainRun && s.chainPh

def needEff : Nat := if s.takeDk then s.clen else if s.useStaged then 0 else max s.feedLen s.preLen

def lenOk : Bool := s.needEff ≤ s.inPtr.toNat

def seedGateOk : Bool := !s.useStaged || s.seedReady

def chainGateOk : Bool := !(s.chainRun || s.hideSk) || (s.useStagedSrc && s.seedReady)

/-- The core of the current phase. -/
def core : KemCore :=
  if s.modeEff = M_KEYGEN then x.cores.kg
  else if s.modeEff = M_ENCAPS then x.cores.en else x.cores.de

def feedFire : Bool :=
  if s.modeEff = M_ENCAPS then s.fbV && 32 ≤ s.fp.toNat && x.cores.enEkr
  else if s.modeEff = M_DECAPS then
    s.fbV && if s.fp.toNat < s.dklen then x.cores.deDkr else x.cores.deCr
  else false

/-- `wr_now`, with the write -/
def wrNow : Option BusWrite := s.wr.wrNow x.m s.pkw.run

/-- `wr_indata` -/
def isIndata (b : BusWrite) : Bool :=
  b.strb.getLsbD 0 && !b.addr.getLsbD 6 && regField b.addr = A_INDATA && s.state = .idle &&
    !s.wiping

/-- `wr_indata4` -/
def isIndata4 (b : BusWrite) : Bool :=
  b.strb.getLsbD 0 && regField6 b.addr = A6_INDATA4 && s.state = .idle && !s.wiping

def isSeedAddr (b : BusWrite) : Bool :=
  b.strb.getLsbD 0 && regField b.addr = A_SEEDDATA && !s.wiping

def isSeed (b : BusWrite) : Bool := s.isSeedAddr b && !b.prot.getLsbD 1 && !s.seedReady

/-- A write that gets into the `case` of the registers, to the one at `a`. -/
def isReg (a : BitVec 4) (b : BusWrite) : Bool :=
  b.strb.getLsbD 0 && !s.wiping && !b.addr.getLsbD 6 && regField b.addr = a

/-- A write that sets bit `i` of CTRL. -/
def isCtrl (i : Nat) (b : BusWrite) : Bool := s.isReg MlkemAxi.A_CTRL b && b.data.getLsbD i

/-- Whether the write of this cycle is of a kind. -/
def now (kind : BusWrite → Bool) : Bool := (s.wrNow x).any kind

/-- A START that is looked at. -/
def startTry : Bool :=
  s.now x (s.isCtrl 0) && s.state = .idle && !s.zeroizeAll x && !s.wipingAny x

def startRefused : Bool :=
  !s.paramsOk || !s.lenOk || !s.seedGateOk || s.expWiping || !s.chainGateOk

def startGo : Bool := s.startTry x && !s.startRefused

/-- The read that is taken. -/
def arNow : Option (BitVec 8) := s.rd.arNow x.m s.pkr.run

/-- `rd_outdata` -/
def rdOutdata : Bool :=
  (s.arNow x).any fun a =>
    !a.getLsbD 6 && regField a = A_OUTDATA && !s.wipingAny x && s.outRd.toNat < s.outLen.toNat

/-- `rd_out4` -/
def rdOut4 : Bool :=
  (s.arNow x).any fun a =>
    regField6 a = A6_OUTDATA4 && !s.wipingAny x && s.outRd.toNat + 4 ≤ s.outLen.toNat

def outbAddr : BitVec 13 :=
  if s.pkr.run then s.outRd + s.pkr.i.setWidth 13 + 1
  else if s.rdOut4 x then s.outRd + 1
  else s.outRd + (BitVec.ofBool (s.rdOutdata x)).setWidth 13

def rStatus : BitVec 32 :=
  0#25 ++ BitVec.ofBool s.seedErr ++ BitVec.ofBool s.paramErr ++ BitVec.ofBool (s.wipingAny x) ++
    BitVec.ofBool x.fwTampered ++ BitVec.ofBool x.cores.deHashOk ++
    BitVec.ofBool (s.state = .idle && s.runDone) ++ BitVec.ofBool (s.state ≠ .idle)

def rSeedstat : BitVec 32 :=
  s.seedViol ++ 0#4 ++ BitVec.ofBool s.seedOvf ++ BitVec.ofBool s.seedStaged ++
    BitVec.ofBool s.seedLock ++ BitVec.ofBool s.seedReady ++ 0#3 ++ s.seedWcnt

/-- What a read of address `a` puts into `f_rdata` in the cycle in which it is taken. -/
def readWord (version : BitVec 32) (a : BitVec 8) : BitVec 32 :=
  if a.getLsbD 6 then 0
  else if regField a = MlkemAxi.A_VERSION then version
  else if regField a = MlkemAxi.A_STATUS then s.rStatus x
  else if regField a = A_MODE then
    0#21 ++ BitVec.ofBool s.seedStaged ++ 0#4 ++ 0#1 ++ BitVec.ofBool s.chain ++ s.pset ++ s.mode
  else if regField a = A_INPTR then 0#19 ++ s.inPtr
  else if regField a = A_OUTDATA then if s.wipingAny x then 0 else 0#24 ++ s.outbDout
  else if regField a = A_OUTLEN then 0#19 ++ s.outLen
  else if regField a = A_OUTRD then 0#19 ++ s.outRd
  else if regField a = A_VIOL then x.violRdCount ++ x.violWrCount
  else if regField a = A_XBAR_VIOL then x.xbarViolCount
  else if regField a = A_KEYSTAT then
    0#30 ++ BitVec.ofBool s.seedLock ++ BitVec.ofBool s.expWiping
  else if regField a = MlkemAxi.A_PARAM0 then 0x20002000
  else if regField a = A_SEEDSTAT then s.rSeedstat
  else 0

end Wires

section Edge

/-- The answer to the write of this cycle. -/
def wrResp : Option (BitVec 2) :=
  (s.wrNow x).map fun _ => if s.wiping then RESP_SLVERR else RESP_OKAY

/-- The bytes and the address of a packed write that begins. -/
def pkwStart : Option (BitVec 24 × BitVec 13) :=
  (s.wrNow x).bind fun b =>
    if s.isIndata4 b then some (b.data.extractLsb' 8 24, s.inPtr + 1) else none

def nextInPtr : BitVec 13 :=
  if s.now x s.isIndata4 then s.inPtr + 4
  else if s.now x s.isIndata then s.inPtr + 1
  else if s.now x (s.isCtrl 2) then 0
  else if s.zeroizeAll x then 0
  else s.inPtr

def nextInbuf : BitVec 13 → BitVec 8 :=
  if s.wiping then Function.update s.inbuf s.wipeAddr 0
  else if s.pkw.run then Function.update s.inbuf s.pkw.addr (s.pkw.data.setWidth 8)
  else
    match s.wrNow x with
    | some b =>
      if s.isIndata b || s.isIndata4 b then Function.update s.inbuf s.inPtr (b.data.setWidth 8)
      else s.inbuf
    | none => s.inbuf

def nextOutbuf : BitVec 13 → BitVec 8 :=
  if s.wiping then Function.update s.outbuf s.wipeAddr 0
  else if s.state = .run && (s.core x).ov && !s.outToVault then
    Function.update s.outbuf (s.ocnt.setWidth 13) (s.core x).od
  else s.outbuf

/-- Another phase follows the one that is done. -/
def chains : Bool := s.chainRun && !s.chainPh

/-- The sequencer is in a state and is not being erased. -/
def inSt (st : KemSt) : Bool := s.state = st && !s.zeroizeAll x

def nextOutRd : BitVec 13 :=
  if s.inSt x .fin then 0
  else if s.rdOutdata x then s.outRd + 1
  else if (s.pkr.word s.outbDout).isSome then s.outRd + 4
  else if s.startTry x || s.now x (s.isCtrl 3) then 0
  else if s.zeroizeAll x then 0
  else s.outRd

def nextOutLen : BitVec 13 :=
  if s.inSt x .fin && s.chains then 0
  else if s.inSt x .run && (s.core x).ov && !s.outToVault then s.outLen + 1
  else if s.startTry x || s.zeroizeAll x then 0
  else s.outLen

def nextOcnt : BitVec 14 :=
  if s.inSt x .fin && s.chains then 0
  else if s.inSt x .run && (s.core x).ov then s.ocnt + 1
  else if s.startGo x || s.zeroizeAll x then 0
  else s.ocnt

def nextRunDone : Bool :=
  if s.inSt x .fin && s.chains then false
  else if s.inSt x .run && (s.core x).done && s.kickdly = 0 then true
  else s.runDone && !s.startTry x && !s.zeroizeAll x

def nextState : KemSt :=
  if s.zeroizeAll x then .idle
  else
    match s.state with
    | .idle =>
      if s.startGo x then if s.useStaged || s.mode = M_DECAPS then .kick else .pre else .idle
    | .pre => if !s.fbWait && (s.preCnt + 1).toNat = s.preLen then .kick else .pre
    | .kick => .run
    | .run => if (s.core x).done && s.kickdly = 0 then .fin else .run
    | .fin => if s.chains then .kick else .idle

def nextPreCnt : BitVec 7 :=
  if s.inSt x .fin && s.chains then 0
  else if s.inSt x .pre && !s.fbWait && (s.preCnt + 1).toNat ≠ s.preLen then s.preCnt + 1
  else if s.startGo x then 0
  else s.preCnt

def nextFp : BitVec 13 :=
  if s.inSt x .fin && s.chains then 0
  else if s.inSt x .run && s.feedFire x then s.fp + 1
  else if s.inSt x .kick then if s.modeEff = M_ENCAPS then 32 else 0
  else if s.startGo x then 0
  else s.fp

def nextFbV : Bool :=
  if s.inSt x .fin && s.chains then false
  else if s.inSt x .run then
    if s.feedFire x then false
    else s.fbV || (!s.fbWait && s.fp.toNat < s.feedLen)
  else if s.inSt x .kick then false
  else s.fbV && !s.startGo x && !s.zeroizeAll x

def nextFbWait : Bool :=
  if s.inSt x .fin && s.chains then false
  else if s.inSt x .run then s.feedFire x
  else if s.inSt x .kick then true
  else if s.inSt x .pre then false
  else if s.startGo x then true
  else s.fbWait && !s.zeroizeAll x

def nextSeedWcnt : BitVec 5 :=
  if s.now x fun b => s.isReg A_SEEDDATA b && s.isSeed b then s.seedWcnt + 1
  else if s.now x (s.isCtrl 6) || (s.startGo x && s.useStaged) || s.zeroizeAll x then 0
  else s.seedWcnt

/-- The data of a write to MODE. -/
def modeWrite : Option (BitVec 32) := ((s.wrNow x).filter (s.isReg A_MODE)).map BusWrite.data

def next (version : BitVec 32) : KemRegs where
  wr := s.wr.next x.m (s.wrResp x)
  rd := s.rd.next x.m (s.pkr.word s.outbDout)
    ((s.arNow x).map fun a => (s.readWord x version a, !s.rdOut4 x))
  pkw := s.pkw.next (s.zeroizeAll x) (s.pkwStart x)
  pkr := s.pkr.next (s.zeroizeAll x) (s.rdOut4 x) s.outbDout
  mode := ((s.modeWrite x).map fun d => d.extractLsb' 0 2).getD s.mode
  pset := ((s.modeWrite x).map fun d => d.extractLsb' 2 2).getD s.pset
  chain := ((s.modeWrite x).map fun d => d.getLsbD 4).getD s.chain
  chainPh := if s.inSt x .fin then s.chains else s.chainPh && !s.zeroizeAll x
  expWiping :=
    if s.inSt x .fin && !s.chains then true
    else s.expWiping && s.expWaddrW ≠ 0xFFF && !s.zeroizeAll x
  expWaddrW :=
    if s.inSt x .fin && !s.chains then 0
    else if s.expWiping && s.expWaddrW ≠ 0xFFF then s.expWaddrW + 1
    else s.expWaddrW
  seedStaged := ((s.modeWrite x).map fun d => d.getLsbD 10).getD s.seedStaged
  seedLock := s.seedLock || s.now x (s.isCtrl 5)
  seedWcnt := s.nextSeedWcnt x
  seedErr := if s.startTry x then s.startRefused && !s.seedGateOk else s.seedErr && !s.zeroizeAll x
  seedViol :=
    if s.now x fun b => s.isSeedAddr b && b.prot.getLsbD 1 then satIncr s.seedViol else s.seedViol
  seedOvf := s.seedOvf || s.now x fun b => s.isSeedAddr b && !b.prot.getLsbD 1 && s.seedReady
  inPtr := s.nextInPtr x
  outLen := s.nextOutLen x
  outRd := s.nextOutRd x
  ocnt := s.nextOcnt x
  zeroPulse := s.now x (s.isCtrl 1)
  wiping :=
    if s.zeroizeAll x && !s.zallD then true else s.wiping && s.wipeAddr ≠ 0x1FFF
  wipeAddr :=
    if s.zeroizeAll x && !s.zallD then 0
    else if s.wiping && s.wipeAddr ≠ 0x1FFF then s.wipeAddr + 1
    else s.wipeAddr
  zallD := s.zeroizeAll x
  paramErr := if s.startTry x then s.startRefused else s.paramErr && !s.zeroizeAll x
  runDone := s.nextRunDone x
  state := s.nextState x
  preCnt := s.nextPreCnt x
  fp := s.nextFp x
  kickdly :=
    if s.inSt x .kick then 3
    else if s.inSt x .run && s.kickdly ≠ 0 then s.kickdly - 1
    else s.kickdly
  fbV := s.nextFbV x
  fbWait := s.nextFbWait x
  inbuf := s.nextInbuf x
  outbuf := s.nextOutbuf x
  outbDout := s.outbuf (s.outbAddr x)

/-- What the registers drive to the firewall. -/
def toFw : AxiSlave := busOut s.wr s.rd s.pkr.run

end Edge

end KemRegs

/-- `mlkem_axi` -/
structure MlkemAxi where
  fw : Firewall 8
  regs : KemRegs

structure MlkemIn where
  s : AxiMaster 8
  tamper : Bool
  xbarViolCount : BitVec 32
  cores : KemCores

namespace MlkemAxi

variable (a : MlkemAxi) (x : MlkemIn)

def reset : MlkemAxi := ⟨.reset 8, .reset⟩

/-- What the registers see behind the firewall. -/
def inside : KemIn where
  m := a.fw.toSlave
  tamper := x.tamper
  fwTampered := a.fw.tamperLatched
  violWrCount := a.fw.wr.violWrCount
  violRdCount := a.fw.rd.violRdCount
  xbarViolCount := x.xbarViolCount
  cores := x.cores

/-- What the firewall sees of the master and of the registers. -/
def outside : FwIn 8 := ⟨x.tamper, x.s, a.regs.toFw⟩

def next (secureOnly : Bool) (version : BitVec 32) : MlkemAxi where
  fw := a.fw.next (accelFw secureOnly) (a.outside x)
  regs := a.regs.next (a.inside x) version

/-- The module as a circuit. -/
def circuit (secureOnly : Bool) (version : BitVec 32) : Clocked MlkemIn MlkemAxi :=
  ⟨.reset, fun a x => a.next x secureOnly version⟩

end MlkemAxi

end PqcHsm
