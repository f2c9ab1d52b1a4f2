import PqcHsm.Library.Exclusion
import PqcHsm.Slot.Types

/-!
# The accelerator backend

The registers and buffers of the transport are shared by all threads; each register or data access
is one step on them. What the core computes on a start is a function of the mode, the parameter and
the input it is given. A pointer argument is the stream of the bytes from its address on.
-/

namespace PqcHsm

open ByteCodec Exclusion

def ACCEL_BUF_MAX : Nat := 16384

def ACCEL_SHAKE_MAX : Nat := 512

def ACCEL_MODE_KEM_KEYGEN : UInt32 := 1
def ACCEL_MODE_KEM_ENCAPS : UInt32 := 2
def ACCEL_MODE_KEM_DECAPS : UInt32 := 3
def ACCEL_MODE_SIG_KEYGEN : UInt32 := 4
def ACCEL_MODE_SIG_SIGN : UInt32 := 5
def ACCEL_MODE_SIG_VERIFY : UInt32 := 6
def ACCEL_MODE_NTT_FWD : UInt32 := 7
def ACCEL_MODE_NTT_INV : UInt32 := 8
def ACCEL_MODE_KECCAK_F1600 : UInt32 := 9
def ACCEL_MODE_SHAKE : UInt32 := 10

def ACCEL_ST_DONE : UInt32 := 1
def ACCEL_ST_BUSY : UInt32 := 2
def ACCEL_ST_ERR : UInt32 := 4

def accelShakeParam (rate : UInt32) (suffix : UInt8) (outLen : UInt32) : UInt32 :=
  outLen <<< 16 ||| rate <<< 8 ||| suffix.toUInt32

inductive PqcStatus where
  | ok
  | errBadArg
  | errUnsupported
  | errBackend
  | errVerify
  deriving DecidableEq

/-! ### The transport -/

inductive AccelResult where
  | done (outLen : UInt32) (out : Bytes)
  | failed (code : UInt32)
  | hung

abbrev AccelCore := UInt32 → UInt32 → Bytes → AccelResult

/-- The registers, the input and output shadow buffers and the output stream of the core. -/
structure AccelTransport where
  mode : UInt32
  param : UInt32
  inLen : UInt32
  input : Bytes
  status : UInt32
  errCode : UInt32
  outLen : UInt32
  stream : Bytes
  outValid : Bool
  output : Bytes

/-- A start gives the core this input. -/
inductive AccelEvent where
  | start (mode param : UInt32) (input : Bytes)
  deriving DecidableEq

abbrev AccelThread := Thread AccelTransport AccelEvent

namespace AccelTransport

/-- `ax_write_data` -/
def writeData (t : AccelTransport) (off : Nat) (src : Bytes) : AccelTransport :=
  if off < ACCEL_BUF_MAX ∧ src.length ≤ ACCEL_BUF_MAX - off then
    { t with input := t.input.take off ++ src ++ t.input.drop (off + src.length) }
  else t

/-- The first read of a result moves the stream into the shadow buffer. -/
def fetch (t : AccelTransport) : AccelTransport :=
  if t.outValid then t
  else { t with
    output := t.stream.take (min t.outLen.toNat ACCEL_BUF_MAX)
    outValid := true }

/-- `ax_read_data` -/
def readData (t : AccelTransport) (off n : Nat) : Bytes :=
  if off < t.fetch.output.length ∧ n ≤ t.fetch.output.length - off then
    (t.fetch.output.drop off).take n
  else List.replicate n 0

def startInput (t : AccelTransport) : Bytes :=
  t.input.take (min t.inLen.toNat ACCEL_BUF_MAX)

/-- `ax_write_reg` of `ACCEL_CTRL_START` -/
def start (core : AccelCore) (t : AccelTransport) : AccelTransport :=
  match core t.mode t.param t.startInput with
  | .done outLen out =>
    { t with
      status := ACCEL_ST_DONE
      outLen := outLen
      stream := out
      outValid := false
      output := [] }
  | .failed code =>
    { t with
      status := ACCEL_ST_DONE ||| ACCEL_ST_ERR
      errCode := code
      outValid := false
      output := [] }
  | .hung => { t with status := ACCEL_ST_BUSY, outValid := false, output := [] }

end AccelTransport

section Accesses

variable (core : AccelCore)

def axWriteMode (v : UInt32) : AccelThread Unit :=
  .access fun t => ((), { t with mode := v }, [])

def axWriteParam (v : UInt32) : AccelThread Unit :=
  .access fun t => ((), { t with param := v }, [])

def axWriteInLen (v : UInt32) : AccelThread Unit :=
  .access fun t => ((), { t with inLen := v }, [])

def axWriteData (off : Nat) (src : Bytes) : AccelThread Unit :=
  .access fun t => ((), t.writeData off src, [])

def axStart : AccelThread Unit :=
  .access fun t => ((), t.start core, [.start t.mode t.param t.startInput])

def axReadStatus : AccelThread UInt32 := .access fun t => (t.status, t, [])

def axReadErrCode : AccelThread UInt32 := .access fun t => (t.errCode, t, [])

def axReadOutLen : AccelThread UInt32 := .access fun t => (t.outLen, t, [])

def axReadData (off n : Nat) : AccelThread Bytes :=
  .access fun t => (t.readData off n, t.fetch, [])

end Accesses

/-! ### The command handshake -/

/-- Reads the status until it is done, at most so often; `st` is the last status read. -/
def pollDone : Nat → UInt32 → AccelThread UInt32
  | 0, st => pure st
  | spins + 1, _ => do
    let st ← axReadStatus
    if st &&& ACCEL_ST_DONE ≠ 0 then pure st else pollDone spins st

/-- The second half of a handshake: the status of the command and the output length it reports. -/
def commandResult : AccelThread (PqcStatus × UInt32) := do
  let st ← pollDone 1000000 0
  if st &&& ACCEL_ST_DONE = 0 then pure (.errBackend, 0)
  else if st &&& ACCEL_ST_ERR ≠ 0 then do
    let e ← axReadErrCode
    pure (if e = 3 then .errUnsupported else .errBackend, 0)
  else do
    let outLen ← axReadOutLen
    pure (.ok, outLen)

def runParam (core : AccelCore) (mode param : UInt32) (input : Bytes) :
    AccelThread (PqcStatus × UInt32) :=
  if input.length > ACCEL_BUF_MAX then pure (.errBadArg, 0) else do
    axWriteMode mode
    axWriteParam param
    axWriteInLen (UInt32.ofNat input.length)
    if input.length ≠ 0 then axWriteData 0 input
    axStart core
    commandResult

def runAlg (core : AccelCore) (mode : UInt32) (alg : PqcAlg) (input : Bytes) :
    AccelThread (PqcStatus × UInt32) :=
  runParam core mode alg.toCode input

/-! ### The operations -/

abbrev Mem := Nat → UInt8

def bytesAt (p : Mem) (n : Nat) : Bytes := (List.range n).map p

/-- What an operation of the backend gives back: its status and what it wrote to its buffers. -/
structure AccelReply where
  status : PqcStatus
  out : List Bytes
  deriving DecidableEq

def acKeypairFromSeed (core : AccelCore) (alg : PqcAlg) (seed : Mem) (seedLen : Nat) :
    AccelThread AccelReply :=
  match pqcAlgInfo alg with
  | none => pure ⟨.errBadArg, []⟩
  | some info =>
    if seedLen ≠ info.seedLen then pure ⟨.errBadArg, []⟩ else
    let mode := if info.kind = .kem then ACCEL_MODE_KEM_KEYGEN else ACCEL_MODE_SIG_KEYGEN
    .bracket false do
      let (st, out) ← runAlg core mode alg (bytesAt seed seedLen)
      if st ≠ .ok then pure ⟨st, []⟩
      else if out.toNat ≠ info.pkLen + info.skLen then pure ⟨.errBackend, []⟩
      else do
        let pk ← axReadData 0 info.pkLen
        let sk ← axReadData info.pkLen info.skLen
        pure ⟨.ok, [pk, sk]⟩

def acKeypair (core : AccelCore) (alg : PqcAlg) (random : Option Mem) : AccelThread AccelReply :=
  match pqcAlgInfo alg, random with
  | none, _ => pure ⟨.errBadArg, []⟩
  | some _, none => pure ⟨.errBackend, []⟩
  | some info, some seed => acKeypairFromSeed core alg seed info.seedLen

def acEncapsDerand (core : AccelCore) (alg : PqcAlg) (pk m : Mem) (mLen : Nat) :
    AccelThread AccelReply :=
  match pqcAlgInfo alg with
  | none => pure ⟨.errBadArg, []⟩
  | some info =>
    if info.kind ≠ .kem ∨ mLen ≠ 32 then pure ⟨.errBadArg, []⟩
    else if info.pkLen + 32 > ACCEL_BUF_MAX then pure ⟨.errBadArg, []⟩
    else .bracket true do
      let (st, _) ← runAlg core ACCEL_MODE_KEM_ENCAPS alg (bytesAt pk info.pkLen ++ bytesAt m 32)
      if st ≠ .ok then pure ⟨st, []⟩
      else do
        let ct ← axReadData 0 info.ctLen
        let ss ← axReadData info.ctLen info.ssLen
        pure ⟨.ok, [ct, ss]⟩

def acEncaps (core : AccelCore) (alg : PqcAlg) (pk : Mem) (random : Option Mem) :
    AccelThread AccelReply :=
  match random with
  | none => pure ⟨.errBackend, []⟩
  | some m => acEncapsDerand core alg pk m 32

def acDecaps (core : AccelCore) (alg : PqcAlg) (sk ct : Mem) : AccelThread AccelReply :=
  match pqcAlgInfo alg with
  | none => pure ⟨.errBadArg, []⟩
  | some info =>
    if info.kind ≠ .kem then pure ⟨.errBadArg, []⟩
    else if info.skLen + info.ctLen > ACCEL_BUF_MAX then pure ⟨.errBadArg, []⟩
    else .bracket true do
      let (st, _) ← runAlg core ACCEL_MODE_KEM_DECAPS alg
        (bytesAt sk info.skLen ++ bytesAt ct info.ctLen)
      if st ≠ .ok then pure ⟨st, []⟩
      else do
        let ss ← axReadData 0 info.ssLen
        pure ⟨.ok, [ss]⟩

/-- A missing `rnd` is sent as zeros; `sigLen` is the room for the signature, if it is given. -/
def acSign (core : AccelCore) (alg : PqcAlg) (sk msg : Mem) (msgLen : Nat) (ctx : Mem)
    (ctxLen : Nat) (rnd : Option Mem) (sigLen : Option Nat) : AccelThread AccelReply :=
  match pqcAlgInfo alg with
  | none => pure ⟨.errBadArg, []⟩
  | some info =>
    if info.kind ≠ .sig ∨ ctxLen > 255 then pure ⟨.errBadArg, []⟩
    else if info.skLen + 32 + 4 + ctxLen + msgLen > ACCEL_BUF_MAX then pure ⟨.errBadArg, []⟩
    else .bracket true do
      let rnd := match rnd with
        | some rnd => bytesAt rnd 32
        | none => List.replicate 32 0
      let (st, out) ← runAlg core ACCEL_MODE_SIG_SIGN alg
        (bytesAt sk info.skLen ++ rnd ++ toLe 4 ctxLen ++ bytesAt ctx ctxLen ++ bytesAt msg msgLen)
      if st ≠ .ok then pure ⟨st, []⟩
      else if sigLen.all (out.toNat > ·) then pure ⟨.errBadArg, []⟩
      else do
        let sig ← axReadData 0 out.toNat
        pure ⟨.ok, [sig]⟩

def acVerify (core : AccelCore) (alg : PqcAlg) (pk msg : Mem) (msgLen : Nat) (ctx : Mem)
    (ctxLen : Nat) (sig : Mem) (sigLen : Nat) : AccelThread AccelReply :=
  match pqcAlgInfo alg with
  | none => pure ⟨.errBadArg, []⟩
  | some info =>
    if info.kind ≠ .sig ∨ ctxLen > 255 then pure ⟨.errBadArg, []⟩
    else if info.pkLen + 4 + sigLen + 4 + ctxLen + msgLen > ACCEL_BUF_MAX then
      pure ⟨.errBadArg, []⟩
    else do
      let (st, out) ← .bracket true (runAlg core ACCEL_MODE_SIG_VERIFY alg
        (bytesAt pk info.pkLen ++ toLe 4 sigLen ++ bytesAt sig sigLen ++ toLe 4 ctxLen ++
          bytesAt ctx ctxLen ++ bytesAt msg msgLen))
      if st ≠ .ok then pure ⟨st, []⟩
      else pure ⟨if out ≠ 0 then .ok else .errVerify, []⟩

/-! ### The helpers

The return codes 0 and -1 of a helper are those of `PQC_OK` and `PQC_ERR_BAD_ARG`. -/

/-- A block goes in and one of the same size comes out. -/
def accelBlock (core : AccelCore) (mode : UInt32) (block : Bytes) : AccelThread (Option Bytes) :=
  .bracket false do
    let (st, olen) ← runAlg core mode .mlKem768 block
    if st ≠ .ok ∨ olen.toNat ≠ block.length then pure none
    else do
      let out ← axReadData 0 block.length
      pure (some out)

/-- `hasOut`: whether there is an output buffer. -/
def accelNtt (core : AccelCore) (input : Option Mem) (hasOut inverse : Bool) :
    AccelThread (Option Bytes) :=
  match input, hasOut with
  | some input, true =>
    accelBlock core (if inverse then ACCEL_MODE_NTT_INV else ACCEL_MODE_NTT_FWD)
      (bytesAt input 512)
  | _, _ => pure none

def accelKeccakF1600 (core : AccelCore) (stateIn : Option Mem) (hasOut : Bool) :
    AccelThread (Option Bytes) :=
  match stateIn, hasOut with
  | some stateIn, true => accelBlock core ACCEL_MODE_KECCAK_F1600 (bytesAt stateIn 200)
  | _, _ => pure none

inductive ShakeInPl where
  | done (out : Bytes)
  | notThere
  | failed

def shakeInPl (core : AccelCore) (rate : UInt32) (suffix : UInt8) (msg : Bytes) (outLen : Nat) :
    AccelThread ShakeInPl :=
  if outLen = 0 ∨ msg.length > ACCEL_SHAKE_MAX ∨ outLen > ACCEL_SHAKE_MAX then pure .notThere
  else .bracket false do
    let (st, olen) ← runParam core ACCEL_MODE_SHAKE
      (accelShakeParam rate suffix (UInt32.ofNat outLen)) msg
    if st = .errUnsupported then pure .notThere
    else if st ≠ .ok ∨ olen.toNat ≠ outLen then pure .failed
    else do
      let out ← axReadData 0 outLen
      pure (.done out)

def xorBytes (state block : Bytes) : Bytes :=
  List.zipWith (· ^^^ ·) state block ++ state.drop block.length

/-- The permutation of the sponge state of 200 bytes. -/
def permuteState (core : AccelCore) (state : Bytes) : AccelThread (Option Bytes) :=
  accelKeccakF1600 core (some fun i => state.getD i 0) true

/-- Absorbs so many whole blocks of the message. -/
def shakeAbsorb (core : AccelCore) (rate : Nat) : Nat → Bytes → Bytes → AccelThread (Option Bytes)
  | 0, _, state => pure (some state)
  | blocks + 1, msg, state => do
    match ← permuteState core (xorBytes state (msg.take rate)) with
    | none => pure none
    | some state => shakeAbsorb core rate blocks (msg.drop rate) state

/-- The last block with its padding. -/
def shakePad (rate : Nat) (suffix : UInt8) (rest : Bytes) : Bytes :=
  xorBytes ((rest ++ [suffix] ++ List.replicate 200 0).take rate)
    (List.replicate (rate - 1) 0 ++ [0x80])

/-- Squeezes the rest of the output behind `out`; the count is that of the permutations still due.
A failure leaves the output so far. -/
def shakeSqueeze (core : AccelCore) (rate outLen : Nat) : Nat → Bytes → Bytes → AccelThread AccelReply
  | 0, out, state => pure ⟨.ok, [out ++ state.take (outLen - out.length)]⟩
  | blocks + 1, out, state => do
    let out := out ++ state.take (min (outLen - out.length) rate)
    match ← permuteState core state with
    | none => pure ⟨.errBadArg, [out]⟩
    | some state => shakeSqueeze core rate outLen blocks out state

def shakeInSoftware (core : AccelCore) (rate : Nat) (suffix : UInt8) (msg : Bytes) (outLen : Nat) :
    AccelThread AccelReply := do
  let blocks := msg.length / rate
  match ← shakeAbsorb core rate blocks msg (List.replicate 200 0) with
  | none => pure ⟨.errBadArg, []⟩
  | some state =>
    match ← permuteState core (xorBytes state (shakePad rate suffix (msg.drop (blocks * rate)))) with
    | none => pure ⟨.errBadArg, []⟩
    | some state => shakeSqueeze core rate outLen ((outLen - 1) / rate) [] state

/-- The helper without an output buffer, or without a message where one is due, is refused. -/
def accelShake (core : AccelCore) (rate : Int) (suffix : UInt8) (msg : Option Mem) (msgLen : Nat)
    (hasOut : Bool) (outLen : Nat) : AccelThread AccelReply :=
  if rate ≤ 0 ∨ 200 < rate ∨ rate % 8 ≠ 0 ∨ (msg.isNone ∧ msgLen ≠ 0) ∨ hasOut = false then
    pure ⟨.errBadArg, []⟩
  else do
    let bytes := bytesAt (msg.getD fun _ => 0) msgLen
    match ← shakeInPl core (UInt32.ofNat rate.toNat) suffix bytes outLen with
    | .done out => pure ⟨.ok, [out]⟩
    | .failed => pure ⟨.errBadArg, []⟩
    | .notThere => shakeInSoftware core rate.toNat suffix bytes outLen

/-! ### Calls -/

inductive AccelCall where
  | keypair (alg : PqcAlg) (random : Option Mem)
  | keypairFromSeed (alg : PqcAlg) (seed : Mem) (seedLen : Nat)
  | encaps (alg : PqcAlg) (pk : Mem) (random : Option Mem)
  | encapsDerand (alg : PqcAlg) (pk m : Mem) (mLen : Nat)
  | decaps (alg : PqcAlg) (sk ct : Mem)
  | sign (alg : PqcAlg) (sk msg : Mem) (msgLen : Nat) (ctx : Mem) (ctxLen : Nat)
      (rnd : Option Mem) (sigLen : Option Nat)
  | verify (alg : PqcAlg) (pk msg : Mem) (msgLen : Nat) (ctx : Mem) (ctxLen : Nat) (sig : Mem)
      (sigLen : Nat)
  | ntt (input : Option Mem) (hasOut inverse : Bool)
  | keccakF1600 (stateIn : Option Mem) (hasOut : Bool)
  | shake (rate : Int) (suffix : UInt8) (msg : Option Mem) (msgLen : Nat) (hasOut : Bool)
      (outLen : Nat)

def helperReply : Option Bytes → AccelReply
  | some out => ⟨.ok, [out]⟩
  | none => ⟨.errBadArg, []⟩

def AccelCall.thread (core : AccelCore) : AccelCall → AccelThread AccelReply
  | keypair alg random => acKeypair core alg random
  | keypairFromSeed alg seed seedLen => acKeypairFromSeed core alg seed seedLen
  | encaps alg pk random => acEncaps core alg pk random
  | encapsDerand alg pk m mLen => acEncapsDerand core alg pk m mLen
  | decaps alg sk ct => acDecaps core alg sk ct
  | sign alg sk msg msgLen ctx ctxLen rnd sigLen =>
    acSign core alg sk msg msgLen ctx ctxLen rnd sigLen
  | verify alg pk msg msgLen ctx ctxLen sig sigLen =>
    acVerify core alg pk msg msgLen ctx ctxLen sig sigLen
  | ntt input hasOut inverse => helperReply <$> accelNtt core input hasOut inverse
  | keccakF1600 stateIn hasOut => helperReply <$> accelKeccakF1600 core stateIn hasOut
  | shake rate suffix msg msgLen hasOut outLen =>
    accelShake core rate suffix msg msgLen hasOut outLen

end PqcHsm
