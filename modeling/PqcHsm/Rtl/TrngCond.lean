import PqcHsm.Rtl.Keccak

/-!
# The conditioner

`trng_cond` with the parameters of `trng_top`: bits are put together to lanes, the lanes of a block
go into the sponge one by one, and after a permutation eight words come out. The codes that no state
register takes are left out.
-/

namespace PqcHsm

def RATE_LANES : BitVec 5 := 17

def ABSORB_BLOCKS : BitVec 16 := 1

def OUT_LANES : BitVec 5 := 4

/-- `S_ABSORB`, `S_XOR`, `S_PERM_KICK`, `S_PERM_WAIT`, `S_SQUEEZE`. -/
inductive CondSt where
  | absorb
  | xor
  | permKick
  | permWait
  | squeeze
  deriving DecidableEq

structure CondIn where
  bitValid : Bool
  bitIn : BitVec 1
  wordReady : Bool

structure TrngCond where
  state : CondSt
  laneSr : BitVec 64
  bitCnt : BitVec 6
  laneIdx : BitVec 5
  blkCnt : BitVec 16
  sqLane : BitVec 5
  sqHalf : Bool
  kecStart : Bool
  kecWrEn : Bool
  kecWrAddr : BitVec 5
  kecWrData : BitVec 64
  blocksAbsorbed : BitVec 32
  kec : KeccakF1600

namespace TrngCond

variable (c : TrngCond) (x : CondIn)

def reset : TrngCond := ⟨.absorb, 0, 0, 0, 0, 0, false, false, false, 0, 0, 0, .reset⟩

def kecRdAddr : BitVec 5 := if c.state = .squeeze then c.sqLane else c.laneIdx

def kecRdData : BitVec 64 := c.kec.A.lane c.kecRdAddr.toNat

def wordValid : Bool := c.state = .squeeze

def wordOut : BitVec 32 :=
  if c.sqHalf then c.kecRdData.extractLsb' 32 32 else c.kecRdData.extractLsb' 0 32

def bitReady : Bool := c.state = .absorb

def lastSq : Bool := c.sqLane = OUT_LANES - 1 && c.sqHalf

/-- The first bit of a lane ends up lowest. -/
def shiftIn (sr : BitVec 64) (b : BitVec 1) : BitVec 64 := (b ++ sr.extractLsb' 1 63 : BitVec (1 + 63))

/-- The registers beside the permutation core. -/
def advance : TrngCond :=
  match c.state with
  | .absorb =>
    if x.bitValid then
      { c with
        kecStart := false
        kecWrEn := false
        laneSr := shiftIn c.laneSr x.bitIn
        bitCnt := if c.bitCnt = 63 then 0 else c.bitCnt + 1
        state := if c.bitCnt = 63 then .xor else .absorb }
    else { c with kecStart := false, kecWrEn := false }
  | .xor =>
    { c with
      kecStart := false
      kecWrEn := true
      kecWrAddr := c.laneIdx
      kecWrData := c.kecRdData ^^^ c.laneSr
      laneSr := 0
      laneIdx := if c.laneIdx = RATE_LANES - 1 then 0 else c.laneIdx + 1
      blocksAbsorbed := if c.laneIdx = RATE_LANES - 1 then c.blocksAbsorbed + 1 else c.blocksAbsorbed
      blkCnt :=
        if c.laneIdx = RATE_LANES - 1 then
          if c.blkCnt = ABSORB_BLOCKS - 1 then 0 else c.blkCnt + 1
        else c.blkCnt
      state := if c.laneIdx = RATE_LANES - 1 then .permKick else .absorb }
  | .permKick => { c with kecStart := true, kecWrEn := false, state := .permWait }
  | .permWait =>
    if !c.kecStart && c.kec.done then
      { c with
        kecStart := false
        kecWrEn := false
        sqLane := 0
        sqHalf := false
        state := if c.blkCnt = 0 then .squeeze else .absorb }
    else { c with kecStart := false, kecWrEn := false }
  | .squeeze =>
    if x.wordReady then
      if c.lastSq then { c with kecStart := false, kecWrEn := false, state := .absorb }
      else if c.sqHalf then
        { c with kecStart := false, kecWrEn := false, sqHalf := false, sqLane := c.sqLane + 1 }
      else { c with kecStart := false, kecWrEn := false, sqHalf := true }
    else { c with kecStart := false, kecWrEn := false }

/-- An edge out of reset. -/
def next : TrngCond :=
  { c.advance x with kec := c.kec.next ⟨c.kecStart, c.kecWrEn, c.kecWrAddr, c.kecWrData⟩ }

end TrngCond

end PqcHsm
