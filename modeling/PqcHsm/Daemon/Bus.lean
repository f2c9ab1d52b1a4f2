import PqcHsm.Library.ByteCodec
import PqcHsm.Library.Stateful

/-!
# Register access of the hardware daemon

Every register access goes through EL3 and may be rejected. A rejected access sets the fault flag of
the request and reads as zero. The bus keeps what was accessed and how it was answered.
-/

namespace PqcHsm

open ByteCodec

def PL_BASE : Nat := 0x80000000
def S_TRNG : Nat := 0x00000
def S_SYM : Nat := 0x20000
def S_MLKEM : Nat := 0x30000
def S_MLDSA : Nat := 0x60000

def TR_CTRL : Nat := S_TRNG + 0x00
def TR_STATUS : Nat := S_TRNG + 0x04
def TR_RDATA : Nat := S_TRNG + 0x08
def TRS_DVALID : UInt32 := 0x02
def TRS_STARTUP : UInt32 := 0x20

def SY_VER : Nat := S_SYM + 0x00
def SY_CTRL : Nat := S_SYM + 0x04
def SY_STATUS : Nat := S_SYM + 0x08
def SY_ALG : Nat := S_SYM + 0x0C
def SY_SLOT : Nat := S_SYM + 0x10
def SY_CMD : Nat := S_SYM + 0x14
def SY_HASHIN : Nat := S_SYM + 0x18
def SY_DIN0 : Nat := S_SYM + 0x20
def SY_DOUT0 : Nat := S_SYM + 0x30
def SY_DIG0 : Nat := S_SYM + 0x40
def SYC_ZEROIZE : UInt32 := 1
def SYC_HSTART : UInt32 := 4
def SYC_HFINAL : UInt32 := 8
def SY_ALG_SM3 : UInt32 := 3
def SYS_DONE : UInt32 := 0x02
def SYS_KRDY : UInt32 := 0x04
def SYS_KVOK : UInt32 := 0x08

def MK_VER : Nat := S_MLKEM + 0x00
def MK_CTRL : Nat := S_MLKEM + 0x04
def MK_STATUS : Nat := S_MLKEM + 0x08
def MK_MODE : Nat := S_MLKEM + 0x0C
def MK_INDATA : Nat := S_MLKEM + 0x10
def MK_INPTR : Nat := S_MLKEM + 0x14
def MK_OUTDAT : Nat := S_MLKEM + 0x18
def MK_OUTLEN : Nat := S_MLKEM + 0x1C
def MK_KEYSTAT : Nat := S_MLKEM + 0x30
def MK_INDATA4 : Nat := S_MLKEM + 0x40
def MK_OUTDAT4 : Nat := S_MLKEM + 0x44
def MKC_START : UInt32 := 1
def MKC_ZEROIZE : UInt32 := 2
def MKC_INRST : UInt32 := 4
def MKC_SEEDCLR : UInt32 := 0x40
def MKS_EXPWIPE : UInt32 := 1
def MKS_DONE : UInt32 := 0x02
def MKS_WIPING : UInt32 := 0x10
def MKS_PARER : UInt32 := 0x20
def MKM_CHAIN : UInt32 := 0x10
def MKM_SEED_STAGED : UInt32 := 0x400

def MD_VER : Nat := S_MLDSA + 0x00
def MD_CTRL : Nat := S_MLDSA + 0x04
def MD_MODE : Nat := S_MLDSA + 0x08
def MD_STATUS : Nat := S_MLDSA + 0x0C
def MD_INDATA : Nat := S_MLDSA + 0x10
def MD_INPTR : Nat := S_MLDSA + 0x14
def MD_OUTDAT : Nat := S_MLDSA + 0x18
def MD_OUTPTR : Nat := S_MLDSA + 0x1C
def MD_OUTLEN : Nat := S_MLDSA + 0x20
def MD_MSGLEN : Nat := S_MLDSA + 0x24
def MD_CTXLEN : Nat := S_MLDSA + 0x28
def MD_KEYSTAT : Nat := S_MLDSA + 0x2C
def MD_INDATA4 : Nat := S_MLDSA + 0x40
def MD_OUTDAT4 : Nat := S_MLDSA + 0x44
def MDC_START : UInt32 := 1
def MDC_CLEAR : UInt32 := 2
def MDC_ZEROIZE : UInt32 := 4
def MDC_SEEDCLR : UInt32 := 0x40
def MDS_EXPWIPE : UInt32 := 1
def MDS_DONE : UInt32 := 0x02
def MDS_VEROK : UInt32 := 0x04
def MDS_PARER : UInt32 := 0x08
def MDS_LENER : UInt32 := 0x10
def MDS_WIPING : UInt32 := 0x40
def MDO_KEYGEN : UInt32 := 0
def MDO_SIGN : UInt32 := 1
def MDO_VERIFY : UInt32 := 2
def MDM_CHAIN : UInt32 := 0x10
def MDM_SEED_STAGED : UInt32 := 0x400

/-! ### Accesses -/

inductive HwAccess where
  | read (addr : Nat) (v : Option UInt32)
  | write (addr : Nat) (v : UInt32) (ok : Bool)

def HwAccess.Ok : HwAccess → Prop
  | .read _ v => v.isSome
  | .write _ _ ok => ok

instance (a : HwAccess) : Decidable a.Ok := by
  unfold HwAccess.Ok
  split <;> infer_instance

structure Bus where
  trace : List HwAccess
  fault : Bool

/-- The answers to the accesses of one request in their order (nothing: rejected), how often the
clock is looked at before the deadline of an ML-DSA command has passed, and the bytes of a buffer to
which nothing has been written. -/
structure BusEnv where
  answer : Nat → Option UInt32
  looks : Nat
  stale : Nat → UInt8

abbrev BusM := Stateful BusEnv Bus

/-- `hw_rd_abs` -/
def hwRdAbs (addr : Nat) : BusM (Option UInt32) where
  run e b :=
    (e.answer b.trace.length,
      { b with trace := b.trace ++ [.read addr (e.answer b.trace.length)] })

def rd (off : Nat) : BusM UInt32 where
  run e b :=
    match e.answer b.trace.length with
    | some v => (v, { b with trace := b.trace ++ [.read (PL_BASE + off) (some v)] })
    | none => (0, ⟨b.trace ++ [.read (PL_BASE + off) none], true⟩)

def wr (off : Nat) (v : UInt32) : BusM Unit where
  run e b :=
    match e.answer b.trace.length with
    | some _ => ((), { b with trace := b.trace ++ [.write (PL_BASE + off) v true] })
    | none => ((), ⟨b.trace ++ [.write (PL_BASE + off) v false], true⟩)

def hwFault : BusM Bool := do
  let b ← Stateful.get
  pure b.fault

/-! ### Waiting -/

/-- Waits for a bit of a register until the limit or a fault. -/
def spinUntil (reg : Nat) (bit : UInt32) : Nat → BusM Unit
  | 0 => pure ()
  | limit + 1 => do
    if ← hwFault then pure ()
    else if (← rd reg) &&& bit ≠ 0 then pure ()
    else spinUntil reg bit limit

/-- `wait_exp_idle` and `wait_not_wiping`: whether the bit has fallen within the limit. -/
def waitClear (reg : Nat) (bit : UInt32) : Nat → BusM Bool
  | 0 => pure false
  | limit + 1 => do
    let v ← rd reg
    if ← hwFault then pure false
    else if v &&& bit = 0 then pure true
    else waitClear reg bit limit

def waitExpIdle (keystatReg : Nat) (bit : UInt32) : BusM Bool := waitClear keystatReg bit 200000

def waitNotWiping (reg : Nat) (bit : UInt32) : BusM Bool := waitClear reg bit 200000

/-! ### The noise source -/

def trngWords : Nat → BusM (Except Int Bytes)
  | 0 => pure (.ok [])
  | words + 1 => do
    spinUntil TR_STATUS TRS_DVALID 20000000
    if (← rd TR_STATUS) &&& TRS_DVALID = 0 then pure (.error (-1))
    else do
      let w ← rd TR_RDATA
      let rest ← trngWords words
      pure (rest.map (putU32 w ++ ·))

/-- The last word may be taken in part. -/
def trngBytes (n : Nat) : BusM (Except Int Bytes) := do
  wr TR_CTRL 1
  spinUntil TR_STATUS TRS_STARTUP 20000000
  if (← rd TR_STATUS) &&& TRS_STARTUP = 0 then pure (.error (-1))
  else do
    let got ← trngWords ((n + 3) / 4)
    pure (got.map (·.take n))

/-! ### Packed transfer -/

def feedBytes (reg1 : Nat) : Bytes → BusM Unit
  | [] => pure ()
  | b :: rest => do
    if ← hwFault then pure ()
    else do
      wr reg1 b.toUInt32
      feedBytes reg1 rest

def feedPacked (reg4 reg1 : Nat) : Bytes → BusM Unit
  | a :: b :: c :: d :: rest => do
    if ← hwFault then pure ()
    else do
      wr reg4 (a.toUInt32 ||| b.toUInt32 <<< 8 ||| c.toUInt32 <<< 16 ||| d.toUInt32 <<< 24)
      feedPacked reg4 reg1 rest
  | rest => feedBytes reg1 rest

def drainBytes (reg1 : Nat) : Nat → BusM Bytes
  | 0 => pure []
  | n + 1 => do
    if ← hwFault then pure []
    else do
      let v ← rd reg1
      let rest ← drainBytes reg1 n
      pure (v.toUInt8 :: rest)

/-- What was read before the end or a fault. -/
def drainRead (reg4 reg1 : Nat) : Nat → BusM Bytes
  | n + 4 => do
    if ← hwFault then pure []
    else do
      let v ← rd reg4
      let rest ← drainRead reg4 reg1 n
      pure (putU32 v ++ rest)
  | n => drainBytes reg1 n

/-- After a fault the rest of the buffer stays as it was. -/
def drainPacked (reg4 reg1 n : Nat) : BusM Bytes := do
  let got ← drainRead reg4 reg1 n
  let e ← Stateful.read
  pure (got ++ (List.range (n - got.length)).map fun i => e.stale (got.length + i))

/-! ### ML-KEM -/

structure MlkemLen where
  ek : Nat
  ct : Nat

def mlkemLen (pset : UInt32) : MlkemLen :=
  let k := if pset = 0 then 2 else if pset = 1 then 3 else 4
  let du := if pset = 2 then 11 else 10
  let dv := if pset = 2 then 5 else 4
  ⟨384 * k + 32, 32 * (du * k + dv)⟩

/-- Reads the status until the command is done or refused, at most so often. -/
def mlkemPoll : Nat → BusM (Except Int Unit)
  | 0 => pure (.ok ())
  | spins + 1 => do
    let st ← rd MK_STATUS
    if st &&& MKS_PARER ≠ 0 then pure (.error (-2))
    else if st &&& MKS_DONE ≠ 0 then pure (.ok ())
    else mlkemPoll spins

def mlkemResult (cap : Nat) : BusM (Except Int Bytes) := do
  if (← rd MK_STATUS) &&& MKS_DONE = 0 then pure (.error (-3))
  else do
    let n ← rd MK_OUTLEN
    if n.toNat > cap then pure (.error (-4))
    else do
      let out ← drainPacked MK_OUTDAT4 MK_OUTDAT n.toNat
      pure (.ok out)

def mlkemRun (mode pset modeExtra : UInt32) (input : Bytes) (cap : Nat) :
    BusM (Except Int Bytes) := do
  if !(← waitExpIdle MK_KEYSTAT MKS_EXPWIPE) then pure (.error (-1))
  else do
    wr MK_MODE (mode ||| pset <<< 2 ||| modeExtra)
    wr MK_CTRL MKC_INRST
    feedPacked MK_INDATA4 MK_INDATA input
    if (← rd MK_INPTR).toNat ≠ input.length then do
      -- the log line reads the register once more
      let _ ← rd MK_INPTR
      pure (.error (-1))
    else do
      wr MK_CTRL MKC_START
      match ← mlkemPoll 3000000 with
      | .error e => pure (.error e)
      | .ok () => mlkemResult cap

/-! ### ML-DSA -/

structure MldsaLen where
  pk : Nat
  sig : Nat

def mldsaLen (pset : UInt32) : MldsaLen :=
  if pset = 0 then ⟨1312, 2420⟩ else if pset = 1 then ⟨1952, 3309⟩ else ⟨2592, 4627⟩

/-- The last status read; the clock is looked at after every 4096 reads. -/
def mldsaPoll : Nat → UInt32 → BusM (Except Int UInt32)
  | 0, _ => pure (.error (-3))
  | polls + 1, st => do
    if ← hwFault then pure (.ok st)
    else do
      let st ← rd MD_STATUS
      if st &&& (MDS_PARER ||| MDS_LENER) ≠ 0 then pure (.error (-2))
      else if st &&& MDS_DONE ≠ 0 then pure (.ok st)
      else mldsaPoll polls st

/-- The output and whether a signature was accepted. -/
def mldsaResult (st : UInt32) (cap : Nat) : BusM (Except Int (Bytes × Bool)) := do
  if (← hwFault) || st &&& MDS_DONE = 0 then pure (.error (-3))
  else do
    let n ← rd MD_OUTLEN
    if n.toNat > cap then pure (.error (-4))
    else do
      let out ← drainPacked MD_OUTDAT4 MD_OUTDAT n.toNat
      if ← hwFault then pure (.error (-3))
      else pure (.ok (out, st &&& MDS_VEROK ≠ 0))

def mldsaRun (op pset modeExtra : UInt32) (input : Bytes) (msgLen ctxLen : UInt32) (cap : Nat) :
    BusM (Except Int (Bytes × Bool)) := do
  wr MD_MODE (op ||| pset <<< 2 ||| modeExtra)
  if !(← waitExpIdle MD_KEYSTAT MDS_EXPWIPE) then pure (.error (-1))
  else do
    wr MD_CTRL MDC_CLEAR
    wr MD_INPTR 0
    wr MD_OUTPTR 0
    wr MD_MSGLEN msgLen
    wr MD_CTXLEN ctxLen
    feedPacked MD_INDATA4 MD_INDATA input
    if ← hwFault then pure (.error (-3))
    else if (← rd MD_INPTR).toNat ≠ input.length then do
      let _ ← rd MD_INPTR
      pure (.error (-1))
    else do
      wr MD_CTRL MDC_START
      let e ← Stateful.read
      match ← mldsaPoll (4096 * (e.looks + 1)) 0 with
      | .error rc => pure (.error rc)
      | .ok st => mldsaResult st cap

/-! ### The symmetric core -/

def beWords : Bytes → List UInt32
  | a :: b :: c :: d :: rest =>
    (a.toUInt32 <<< 24 ||| b.toUInt32 <<< 16 ||| c.toUInt32 <<< 8 ||| d.toUInt32) :: beWords rest
  | _ => []

def beBytes (w : UInt32) : Bytes := (putU32 w).reverse

def writeWords : Nat → List UInt32 → BusM Unit
  | _, [] => pure ()
  | reg, w :: ws => do
    wr reg w
    writeWords (reg + 4) ws

def readWords : Nat → Nat → BusM Bytes
  | _, 0 => pure []
  | reg, n + 1 => do
    let w ← rd reg
    let rest ← readWords (reg + 4) n
    pure (beBytes w ++ rest)

def symBlock (alg slot : UInt32) (dec : Bool) (input : Bytes) : BusM (Except Int Bytes) := do
  wr SY_ALG (alg ||| if dec then 4 else 0)
  wr SY_SLOT slot
  if (← rd SY_STATUS) &&& SYS_KVOK = 0 then pure (.error (-1))
  else do
    wr SY_CMD 1
    spinUntil SY_STATUS SYS_KRDY 200000
    if (← rd SY_STATUS) &&& SYS_KRDY = 0 then pure (.error (-2))
    else do
      writeWords SY_DIN0 (beWords input)
      wr SY_CMD 2
      spinUntil SY_STATUS SYS_DONE 200000
      if (← rd SY_STATUS) &&& SYS_DONE = 0 then pure (.error (-3))
      else do
        let out ← readWords SY_DOUT0 4
        pure (.ok out)

inductive SymMode where
  | ecb
  | cbc
  | ctr
  | cfb
  | ofb
  deriving DecidableEq

def SymMode.ofCode (c : UInt32) : Option SymMode :=
  match c.toNat with
  | 0 => some ecb
  | 1 => some cbc
  | 2 => some ctr
  | 3 => some cfb
  | 4 => some ofb
  | _ => none

def xorBlock (a b : Bytes) : Bytes := List.zipWith (· ^^^ ·) a b

def incBytes : Bytes → Bytes
  | [] => []
  | b :: rest => if b + 1 ≠ 0 then (b + 1) :: rest else 0 :: incBytes rest

/-- The counter block is big-endian. -/
def ctrInc (ctr : Bytes) : Bytes := (incBytes ctr.reverse).reverse

theorem length_xorBlock (a b : Bytes) : (xorBlock a b).length = min a.length b.length :=
  List.length_zipWith

theorem length_incBytes (b : Bytes) : (incBytes b).length = b.length := by
  induction b with
  | nil => rfl
  | cons c rest ih =>
    rw [incBytes]
    split
    · rfl
    · rw [List.length_cons, List.length_cons, ih]

theorem length_ctrInc (b : Bytes) : (ctrInc b).length = b.length := by
  rw [ctrInc, List.length_reverse, length_incBytes, List.length_reverse]

/-- One block of a mode: its output and the feedback for the next one. -/
def symStep (alg slot : UInt32) (dec : Bool) (mode : SymMode) (fb block : Bytes) :
    BusM (Except Int (Bytes × Bytes)) := do
  match mode with
  | .ecb => do
    let out ← symBlock alg slot dec block
    pure (out.map (·, fb))
  | .cbc =>
    if dec then do
      let out ← symBlock alg slot true block
      pure (out.map fun out => (xorBlock out fb, block))
    else do
      let out ← symBlock alg slot false (xorBlock block fb)
      pure (out.map fun out => (out, out))
  | .ctr => do
    let ks ← symBlock alg slot false fb
    pure (ks.map fun ks => (xorBlock block ks, ctrInc fb))
  | .ofb => do
    let ks ← symBlock alg slot false fb
    pure (ks.map fun ks => (xorBlock block ks, ks))
  | .cfb => do
    let ks ← symBlock alg slot false fb
    pure (ks.map fun ks =>
      let out := xorBlock block ks
      let ct := if dec then block else out
      (out, if block.length = 16 then ct else fb))

/-- So many blocks, the last one possibly short. -/
def symCrypt (alg slot : UInt32) (dec : Bool) (mode : SymMode) :
    Nat → Bytes → Bytes → BusM (Except Int Bytes)
  | 0, _, _ => pure (.ok [])
  | blocks + 1, fb, data => do
    match ← symStep alg slot dec mode fb (data.take 16) with
    | .error _ => pure (.error (-1))
    | .ok (out, fb) => do
      let rest ← symCrypt alg slot dec mode blocks fb (data.drop 16)
      pure (rest.map (out ++ ·))

def hashBytes : Bytes → BusM Bool
  | [] => pure true
  | b :: rest => do
    wr SY_HASHIN b.toUInt32
    if ← hwFault then pure false
    else hashBytes rest

def symSm3 (input : Bytes) : BusM (Except Int Bytes) := do
  wr SY_ALG SY_ALG_SM3
  wr SY_CMD SYC_HSTART
  if !(← hashBytes input) then pure (.error (-1))
  else do
    wr SY_CMD SYC_HFINAL
    spinUntil SY_STATUS SYS_DONE 200000
    if (← rd SY_STATUS) &&& SYS_DONE = 0 then pure (.error (-2))
    else do
      let out ← readWords SY_DIG0 8
      pure (.ok out)

/-! ### The seed stage and the end of a session -/

inductive SeedTgt where
  | mlkem
  | mldsa
  deriving DecidableEq

/-- Whether the staged seed has been discarded. -/
def seedClr (tgt : SeedTgt) : BusM Bool :=
  match tgt with
  | .mlkem => do
    if !(← waitNotWiping MK_STATUS MKS_WIPING) then pure false
    else if !(← waitExpIdle MK_KEYSTAT MKS_EXPWIPE) then pure false
    else do
      wr MK_CTRL MKC_SEEDCLR
      let fault ← hwFault
      pure !fault
  | .mldsa => do
    if !(← waitNotWiping MD_STATUS MDS_WIPING) then pure false
    else if !(← waitExpIdle MD_KEYSTAT MDS_EXPWIPE) then pure false
    else do
      wr MD_CTRL MDC_SEEDCLR
      let fault ← hwFault
      pure !fault

/-- The accesses of `session_end`. -/
def sessionWipe : BusM Unit := do
  if ← waitNotWiping MK_STATUS MKS_WIPING then wr MK_CTRL MKC_ZEROIZE
  if ← waitNotWiping MD_STATUS MDS_WIPING then wr MD_CTRL MDC_ZEROIZE
  wr SY_CTRL SYC_ZEROIZE
  let _ ← rd SY_STATUS
  let _ ← waitNotWiping MK_STATUS MKS_WIPING
  let _ ← waitNotWiping MD_STATUS MDS_WIPING

end PqcHsm
