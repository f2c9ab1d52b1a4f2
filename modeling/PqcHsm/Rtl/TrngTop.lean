import PqcHsm.Rtl.SyncFifo
import PqcHsm.Rtl.TrngCond

/-!
# The random number generator

`trng_top` with its default parameters: the sampler behind the ring oscillators, the two health tests,
the start-up test, the sample FIFO, the conditioner with the reset made for it, and the output FIFO.
What the oscillators give is an input; the tap for raw samples, which feeds nothing else, is left out.
-/

namespace PqcHsm

/-! ### The sampler -/

/-- `trng_source` behind its synchronizer, with `DECIM` 8. -/
structure TrngSource where
  dcnt : BitVec 3
  sampleValid : Bool
  sample : BitVec 1

namespace TrngSource

def reset : TrngSource := ⟨0, false, 0⟩

def next (s : TrngSource) (enable : Bool) (rawBit : BitVec 1) : TrngSource :=
  if !enable then { s with dcnt := 0, sampleValid := false }
  else if s.dcnt = 7 then ⟨0, true, rawBit⟩
  else { s with dcnt := s.dcnt + 1, sampleValid := false }

end TrngSource

/-! ### The health tests -/

def RCT_CUTOFF : BitVec 16 := 47

def APT_WINDOW : BitVec 16 := 1024

def APT_CUTOFF : BitVec 16 := 672

structure TrngHealth where
  rctAlarm : Bool
  aptAlarm : Bool
  rctRun : BitVec 16
  aptCount : BitVec 16
  aptIndex : BitVec 16
  prev : BitVec 1
  refVal : BitVec 1
  started : Bool

namespace TrngHealth

variable (h : TrngHealth)

def reset : TrngHealth := ⟨false, false, 0, 0, 0, 0, 0, false⟩

def alarm : Bool := h.rctAlarm || h.aptAlarm

/-- The repetition count test. -/
def rct (sample : BitVec 1) : TrngHealth :=
  if !(h.started && sample = h.prev) then { h with prev := sample, rctRun := 1 }
  else
    { h with
      rctRun := h.rctRun + 1
      rctAlarm := h.rctAlarm || RCT_CUTOFF ≤ h.rctRun + 1 }

/-- The adaptive proportion test. -/
def apt (sample : BitVec 1) : TrngHealth :=
  if !h.started || h.aptIndex = APT_WINDOW then
    { h with refVal := sample, aptCount := 1, aptIndex := 1 }
  else if sample = h.refVal then
    { h with
      aptIndex := h.aptIndex + 1
      aptCount := h.aptCount + 1
      aptAlarm := h.aptAlarm || APT_CUTOFF < h.aptCount + 1 }
  else { h with aptIndex := h.aptIndex + 1 }

def next (clear sampleValid : Bool) (sample : BitVec 1) : TrngHealth :=
  let cleared := if clear then { h with rctAlarm := false, aptAlarm := false } else h
  if sampleValid then { (cleared.apt sample).rct sample with started := true } else cleared

end TrngHealth

/-! ### The generator -/

def STARTUP_SAMPLES : BitVec 32 := 1024

structure TrngIn where
  enable : Bool
  zeroize : Bool
  clearAlarm : Bool
  rdEn : Bool
  rawBit : BitVec 1

structure TrngTop where
  zeroHold : BitVec 3
  src : TrngSource
  health : TrngHealth
  startupCount : BitVec 32
  startupDone : Bool
  alarmD : Bool
  condRstN : Bool
  sfifo : SyncFifo 5 1
  sampleDrops : BitVec 16
  cond : TrngCond
  fifo : SyncFifo 4 32
  wordsOut : BitVec 32

namespace TrngTop

variable (t : TrngTop) (x : TrngIn)

def reset : TrngTop :=
  ⟨0, .reset, .reset, 0, false, false, false, .reset, 0, .reset, .reset, 0⟩

/-! The wires. -/

def zeroizeActive : Bool := t.zeroHold ≠ 0

def alarm : Bool := t.health.alarm

def alarmRise : Bool := t.alarm && !t.alarmD

def fifoFlush : Bool := x.zeroize || x.clearAlarm || t.alarmRise

/-- What makes the start-up test begin again. -/
def restarts : Bool := x.zeroize || x.clearAlarm || t.alarm

def srcGate : Bool := t.src.sampleValid && t.startupDone && !t.alarm

def condTake : Bool := t.sfifo.rdValid && t.cond.bitReady && t.condRstN

def rdValid : Bool := t.fifo.rdValid

def rdData : BitVec 32 := t.fifo.rdData

def ready : Bool := t.startupDone && !t.alarm && !t.zeroizeActive && !t.fifo.wipeRun

def sfifoIn : FifoIn 1 where
  flush := t.fifoFlush x
  wrEn := t.srcGate && t.sfifo.wrReady
  wrData := t.src.sample
  rdEn := t.condTake

def condIn : CondIn := ⟨t.condTake, t.sfifo.rdData, true⟩

def fifoIn : FifoIn 32 where
  flush := t.fifoFlush x
  wrEn := t.cond.wordValid && t.fifo.wrReady
  wrData := t.cond.wordOut
  rdEn := x.rdEn && t.rdValid

/-! The registers. -/

def zeroHoldNext : BitVec 3 :=
  if x.zeroize then 7 else if t.zeroHold ≠ 0 then t.zeroHold - 1 else t.zeroHold

def startupCountNext : BitVec 32 :=
  if t.restarts x then 0
  else if !t.startupDone && t.src.sampleValid && t.startupCount ≠ STARTUP_SAMPLES - 1 then
    t.startupCount + 1
  else t.startupCount

def startupDoneNext : Bool :=
  if t.restarts x then false
  else
    t.startupDone || (t.src.sampleValid && t.startupCount = STARTUP_SAMPLES - 1)

def condRstNNext : Bool := t.startupDone && !t.alarm && !t.zeroizeActive

/-- The reset of the conditioner is asynchronous: it holds in the cycles before and after the edge. -/
def condNext : TrngCond :=
  if t.condRstN && t.condRstNNext then t.cond.next t.condIn else .reset

def sampleDropsNext : BitVec 16 :=
  if x.zeroize || x.clearAlarm then 0
  else if t.srcGate && !t.sfifo.wrReady && t.sampleDrops ≠ 0xFFFF then t.sampleDrops + 1
  else t.sampleDrops

def wordsOutNext : BitVec 32 :=
  if x.zeroize then 0 else if x.rdEn && t.rdValid then t.wordsOut + 1 else t.wordsOut

def next : TrngTop where
  zeroHold := t.zeroHoldNext x
  src := t.src.next (x.enable && !t.zeroizeActive) x.rawBit
  health := t.health.next (x.clearAlarm || x.zeroize) t.src.sampleValid t.src.sample
  startupCount := t.startupCountNext x
  startupDone := t.startupDoneNext x
  alarmD := t.alarm
  condRstN := t.condRstNNext
  sfifo := t.sfifo.next (t.sfifoIn x)
  sampleDrops := t.sampleDropsNext x
  cond := t.condNext
  fifo := t.fifo.next (t.fifoIn x)
  wordsOut := t.wordsOutNext x

end TrngTop

def trngCircuit : Clocked TrngIn TrngTop := ⟨.reset, TrngTop.next⟩

end PqcHsm
