import PqcHsm.Slot.Manager
import PqcHsm.Store.Keystore
import PqcHsm.Wrap.Host

/-!
# Data model of the PKCS#11 front end

The session table, the accumulators of multi-part operations, the contexts of authenticated
encryption and the table of secret objects. Handles are 64-bit words. One lock is held over every
function, so that each runs the programs of the token alone.
-/

namespace PqcHsm

open ByteCodec Sections

inductive CkRv where
  | ok
  | hostMemory
  | generalError
  | functionFailed
  | argumentsBad
  | attributeSensitive
  | attributeTypeInvalid
  | attributeValueInvalid
  | deviceError
  | encryptedDataInvalid
  | encryptedDataLenRange
  | keyHandleInvalid
  | keySizeRange
  | keyTypeInconsistent
  | keyFunctionNotPermitted
  | mechanismInvalid
  | mechanismParamInvalid
  | objectHandleInvalid
  | operationActive
  | operationNotInitialized
  | pinIncorrect
  | pinLocked
  | sessionCount
  | sessionHandleInvalid
  | sessionParallelNotSupported
  | signatureInvalid
  | templateIncomplete
  | userNotLoggedIn
  | actionProhibited
  | bufferTooSmall
  | cryptokiNotInitialized
  | cryptokiAlreadyInitialized
  deriving DecidableEq

/-- `map_status`. -/
def mapStatus : HsmStatus → CkRv
  | .ok => .ok
  | .errBadArg => .argumentsBad
  | .errBadState => .operationNotInitialized
  | .errNotAuthorized => .userNotLoggedIn
  | .errPinIncorrect => .pinIncorrect
  | .errPinLocked => .pinLocked
  | .errBadHandle => .objectHandleInvalid
  | .errUsageDenied => .keyFunctionNotPermitted
  | .errPolicy => .actionProhibited
  | .errIntegrity => .deviceError
  | .errSlotBusy => .operationActive
  | .errCrypto => .deviceError
  | .errNomem => .hostMemory
  | .errFull => .sessionCount

theorem mapStatus_eq_ok_iff (st : HsmStatus) : mapStatus st = .ok ↔ st = .ok := by
  cases st <;> decide

/-- `CK_OBJECT_HANDLE` and `CK_SESSION_HANDLE`. -/
abbrev CkHandle := UInt64

def P11_IDX_BITS : UInt64 := 12
def P11_IDX_MASK : CkHandle := 0xfff
def P11_GEN_MASK : CkHandle := 0x3ffff
def PUB_BIT : CkHandle := 0x80000000
def SECRET_BIT : CkHandle := 0x40000000

def MAX_P11_SESSIONS : Nat := 32
def MAX_SECRETS : Nat := 32
def SECRET_MAX_LEN : Nat := 64

def CKM_ML_DSA : UInt64 := 0x1d
def CKM_ML_KEM : UInt64 := 0x17
def CKM_AES_GCM : UInt64 := 0x1087
def CKK_GENERIC_SECRET : UInt64 := 0x10
def CKK_AES : UInt64 := 0x1f
def CKK_ML_KEM : UInt64 := 0x49
def CKK_ML_DSA : UInt64 := 0x4a

/-! ### Byte buffers -/

/-- The loop `while (cap < need) cap *= 2`, which from a positive `cap` ends within `need`
rounds. -/
def growCap (need : Nat) : Nat → Nat → Nat
  | 0, cap => cap
  | fuel + 1, cap => if cap < need then growCap need fuel (cap * 2) else cap

theorem le_growCap {need fuel cap : Nat} (hPos : 0 < cap) (hFuel : need ≤ cap + fuel) :
    need ≤ growCap need fuel cap := by
  induction fuel generalizing cap with
  | zero => exact hFuel
  | succ fuel ih =>
    unfold growCap
    split
    · exact ih (by omega) (by omega)
    · omega

/-- `p11_buf_t`. -/
structure P11Buf where
  data : Bytes
  cap : Nat
  fits : data.length ≤ cap
  deriving DecidableEq

/-- `buf_free`. -/
def P11Buf.empty : P11Buf := ⟨[], 0, Nat.le_refl 0⟩

/-- `buf_append`; `malloc` says whether an allocation succeeds. -/
def bufAppend (malloc : Bool) (b : P11Buf) (d : Bytes) : Option P11Buf :=
  if d = [] then some b
  else if h : (b.data ++ d).length ≤ b.cap then some ⟨b.data ++ d, b.cap, h⟩
  else if malloc then
    let cap := if b.cap = 0 then 256 else b.cap * 2
    some ⟨b.data ++ d, growCap (b.data ++ d).length (b.data ++ d).length cap,
      le_growCap (by dsimp only [cap]; split <;> omega) (by omega)⟩
  else none

theorem data_of_bufAppend {malloc : Bool} {b b' : P11Buf} {d : Bytes}
    (h : bufAppend malloc b d = some b') : b'.data = b.data ++ d := by
  unfold bufAppend at h
  split at h
  · rename_i hNil
    cases h
    rw [hNil, List.append_nil]
  split at h
  · cases h
    rfl
  split at h
  · cases h
    rfl
  · cases h

/-! ### Sessions and secret objects -/

/-- A signature or verification operation of a session: `sign_active`, `sign_key` and `sign_acc`, or
their counterparts for the verification. -/
structure P11MsgOp where
  active : Bool
  key : CkHandle
  acc : P11Buf

def P11MsgOp.idle : P11MsgOp := ⟨false, 0, .empty⟩

/-- `p11_aead_ctx`. -/
structure P11AeadCtx where
  active : Bool
  key : CkHandle
  iv : Bytes
  aad : Bytes
  taglen : Nat

/-- `aead_ctx_reset`. -/
def P11AeadCtx.idle : P11AeadCtx := ⟨false, 0, [], [], 0⟩

/-- `p11_session_t`. -/
structure P11Session where
  sess : HsmSession
  slot : Nat
  inUse : Bool
  sign : P11MsgOp
  verify : P11MsgOp
  enc : P11AeadCtx
  dec : P11AeadCtx

def P11Session.closed : P11Session := ⟨⟨0, 0⟩, 0, false, .idle, .idle, .idle, .idle⟩

/-- The entry of a session that has just been opened. -/
def P11Session.opened (sess : HsmSession) (slot : Nat) : P11Session :=
  ⟨sess, slot, true, .idle, .idle, .idle, .idle⟩

/-- `p11_secret_t`. -/
structure P11Secret where
  owner : CkHandle
  val : Bytes
  keyType : UInt64
  sensitive : Bool
  extractable : Bool
  label : Label
  deriving DecidableEq

/-- The globals of the module. An entry of the table of secrets that is not in use is zero. -/
structure P11State (n : Nat) where
  gInit : Bool
  gTok : Device n
  gSessions : Fin MAX_P11_SESSIONS → P11Session
  gSecrets : Fin MAX_SECRETS → Option P11Secret

/-- A buffer of the caller: whether its pointer is there, and the length behind the length
pointer. -/
structure OutBuf where
  ptr : Bool
  len : Option Nat
  deriving DecidableEq

/-- What a call returns. Besides what the caller sees, the message it had signed or verified and the
key it had used. -/
structure P11Out where
  rv : CkRv
  handle : Option CkHandle := none
  len : Option Nat := none
  /-- What was written to the buffer of the caller, with offsets. -/
  written : List (Nat × Bytes) := []
  message : Option Bytes := none
  keyUsed : Option Bytes := none
  deriving DecidableEq

/-- The functions of the cryptographic library that work without the token. -/
structure P11Lib where
  /-- `pqc_verify` with an empty context. -/
  verify : PqcAlg → Bytes → Bytes → Bytes → Bool
  /-- `pqc_encaps`: ciphertext and shared secret. -/
  encaps : PqcAlg → Bytes → Env → Option (Bytes × Bytes)
  /-- AES-GCM for keys of 16, 24 and 32 bytes. -/
  gcm : StreamAead Bytes Bytes (ByteVec PWRP_TAG_LEN)

section Tables

variable {n : Nat}

/-- The entry of the session table that a handle names. -/
def sessionSlot (h : CkHandle) : Option (Fin MAX_P11_SESSIONS) :=
  if hRange : 0 < h.toNat ∧ h.toNat ≤ MAX_P11_SESSIONS then some ⟨h.toNat - 1, by omega⟩ else none

theorem sessionSlot_inj {h h' : CkHandle} {i : Fin MAX_P11_SESSIONS}
    (hs : sessionSlot h = some i) (hs' : sessionSlot h' = some i) : h = h' := by
  unfold sessionSlot at hs hs'
  split at hs
  · split at hs'
    · cases hs
      have hVal := congrArg Fin.val (Option.some.inj hs')
      exact UInt64.toNat_inj.mp (by dsimp only at hVal; omega)
    · cases hs'
  · cases hs

/-- The handle of an entry. -/
def sessionHandle (i : Fin MAX_P11_SESSIONS) : CkHandle := UInt64.ofNat (i + 1)

def P11State.sessAt (st : P11State n) (h : CkHandle) : Option (Fin MAX_P11_SESSIONS) :=
  (sessionSlot h).filter fun i => (st.gSessions i).inUse

/-- What every function on a session checks first. -/
def P11State.enter (st : P11State n) (h : CkHandle) (argsThere : Bool) :
    Except CkRv (Fin MAX_P11_SESSIONS) :=
  if !st.gInit then .error .cryptokiNotInitialized
  else match st.sessAt h with
  | none => .error .sessionHandleInvalid
  | some i => if argsThere then .ok i else .error .argumentsBad

def P11State.setSession (st : P11State n) (i : Fin MAX_P11_SESSIONS) (s : P11Session) :
    P11State n :=
  { st with gSessions := Function.update st.gSessions i s }

/-- The entry of the table of secrets that a handle names, whatever its upper bits are. -/
def secretSlot (h : CkHandle) : Option (Fin MAX_SECRETS) :=
  if h &&& SECRET_BIT = 0 then none
  else if hRange : 0 < (h &&& P11_IDX_MASK).toNat ∧ (h &&& P11_IDX_MASK).toNat ≤ MAX_SECRETS then
    some ⟨(h &&& P11_IDX_MASK).toNat - 1, by omega⟩
  else none

def P11State.secretAt (st : P11State n) (h : CkHandle) : Option P11Secret :=
  (secretSlot h).bind st.gSecrets

/-- The first free entry of the table of secrets. -/
def P11State.freeSecret (st : P11State n) : Option (Fin MAX_SECRETS) :=
  (List.finRange MAX_SECRETS).find? fun j => (st.gSecrets j).isNone

def secretHandle (j : Fin MAX_SECRETS) : CkHandle := SECRET_BIT ||| UInt64.ofNat (j + 1)

/-- `secrets_drop_owner`. -/
def secretsDropOwner (owner : CkHandle) (secrets : Fin MAX_SECRETS → Option P11Secret) :
    Fin MAX_SECRETS → Option P11Secret :=
  fun j => (secrets j).filter fun k => !(owner = 0 || k.owner = owner)

def slotOfHandle (h : CkHandle) : Nat := ((h &&& P11_IDX_MASK) - 1).toUInt32.toNat

/-- `core_handle_of`; `none` is `HSM_INVALID_HANDLE`. -/
def coreHandleOf (S : Setup) (h : CkHandle) : DevProg n HsmHandle :=
  if h &&& SECRET_BIT ≠ 0 then pure HSM_INVALID_HANDLE
  else
    let idx := h &&& P11_IDX_MASK
    if idx = 0 then pure HSM_INVALID_HANDLE
    else do
      match ← hsmSlotGetMeta S (idx - 1).toUInt32.toNat with
      | .error _ => pure HSM_INVALID_HANDLE
      | .ok m =>
        if (h >>> P11_IDX_BITS) &&& P11_GEN_MASK ≠ m.generation.toUInt64 &&& P11_GEN_MASK then
          pure HSM_INVALID_HANDLE
        else pure ⟨m.generation, idx.toUInt32⟩

/-- `p11_handle_of_core`. -/
def p11HandleOfCore (core : HsmHandle) : CkHandle :=
  if core = HSM_INVALID_HANDLE then 0
  else
    let idx := core.sid.toUInt64
    if idx = 0 ∨ P11_IDX_MASK < idx then 0
    else ((core.gen.toUInt64 &&& P11_GEN_MASK) <<< P11_IDX_BITS) ||| idx

/-- `persist`, whose result is dropped. -/
def persist (S : Setup) : DevProg n Unit := do
  let _ ← hsmKeystoreSave S
  pure ()

end Tables

end PqcHsm
