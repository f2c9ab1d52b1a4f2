import PqcHsm.Library.Program
import PqcHsm.Slot.Persist

/-!
# The device and its critical sections

The state shared by the threads of the process: the token with its slots and its
session table, the accelerator handles of the process, and the files. A section
holds one lock: the session table (and the flags kept under the audit lock), or one
slot, or one slot while it talks to the accelerator, or one file-system step.
-/

namespace PqcHsm

open ByteCodec Sections

structure FileSys where
  /-- The key store file. -/
  file : Option Bytes
  /-- The temporary file next to it. -/
  tmp : Option Bytes
  /-- The value of the rollback anchor. An anchor file that is missing or empty reads as 0. -/
  anchor : UInt64
  /-- What the temporary file next to an anchor file reads as. -/
  anchorTmp : Option UInt64
  deriving DecidableEq

structure Device (n : Nat) where
  tok : Token n
  hw : HwTable
  fs : FileSys

/-- The key of a slot: algorithm, public key and private representation. -/
structure KeyMaterial where
  alg : PqcAlg
  pk : Option Bytes
  sk : Option Bytes
  seed : Option Bytes
  hwHandle : Option UInt32
  deriving DecidableEq

def Slot.key (s : Slot) : KeyMaterial := ⟨s.metadata.alg, s.pk, s.sk, s.seed, s.hwHandle⟩

/-- What a PIN of a role is checked against. -/
structure PinMaterial where
  pinKey : ByteVec 32
  salt : ByteVec PIN_SALT_LEN
  verifier : ByteVec VERIFIER_LEN
  deriving DecidableEq

/-- The PIN material of a role, if its PIN has been set. -/
def Slot.pinMaterial (s : Slot) : HsmRole → Option PinMaterial
  | .so => if s.hasSoPin then some ⟨s.pinKey, s.soSalt, s.soVerifier⟩ else none
  | _ => if s.hasUserPin then some ⟨s.pinKey, s.userSalt, s.userVerifier⟩ else none

/-- What can be observed of a section. -/
inductive Event where
  | sessionOpened (sess : HsmSession)
  /-- A session was looked up: its slot and the role it holds. -/
  | sessionRead (sess : HsmSession) (slot : Nat) (role : HsmRole)
  /-- A PIN was compared with the stored verifier of a role. -/
  | pinCompared (sess : HsmSession) (slot : Nat) (role : HsmRole) (pin : CString) (good : Bool)
  /-- The session was given the role. -/
  | roleSet (sess : HsmSession) (role : HsmRole)
  | sessionsDropped (slot : Nat)
  /-- `hsm_slot_init_token` moved the slot to empty. -/
  | initStarted (slot : Nat)
  | lockedOut (slot : Nat) (was : SlotState)
  | unlocked (slot : Nat)
  /-- An SO replaced the material of the User PIN. -/
  | userPinSet (slot : Nat) (old new : Option PinMaterial)
  /-- `hsm_slot_set_user_pin` cleared the failure counter. -/
  | userFailsReset (slot : Nat)
  | destroyed (slot : Nat)
  | zeroized (slot : Nat)
  /-- An operation changed the slot and still has to commit the change. -/
  | slotChanged (slot : Nat)
  | handleIssued (slot : Nat) (h : HsmHandle) (key : KeyMaterial)
  | handleAccepted (slot : Nat) (h : HsmHandle) (key : KeyMaterial)
  /-- A private-key operation or a destroy, authorised by a role, acted on the key of the slot. -/
  | keyUsed (slot : Nat)
  /-- A record authenticated and is being installed in the slot. -/
  | recordRead (slot : Nat) (m : SlotMeta) (r : SlotRecord)
  | persistEntered
  | persistSkipped
  | persistLeft (done : Bool)
  /-- The accelerator connection broke and was opened again. -/
  | connectionLost
  /-- A blob was written from the slot. -/
  | serialized (slot : Nat) (m : SlotMeta) (r : SlotRecord)
  | tmpOpened
  /-- The temporary file has grown to the content. -/
  | tmpWritten (content : Bytes)
  /-- The temporary file took the place of the key store. -/
  | saved
  | anchorSet (v : UInt64)
  deriving DecidableEq

abbrev DevProg (n : Nat) := Prog Env (Device n) Event

variable {n : Nat} {β : Type}

def slotAt (n : Nat) (id : Nat) : Option (Fin n) :=
  if h : id < n then some ⟨id, h⟩ else none

theorem slotAt_val {id : Nat} {i : Fin n} (h : slotAt n id = some i) : i.val = id := by
  unfold slotAt at h
  split at h
  · cases h
    rfl
  · cases h

def Device.setSlot (d : Device n) (i : Fin n) (s : Slot) : Device n :=
  { d with tok := { d.tok with slots := Function.update d.tok.slots i s } }

@[simp] theorem setSlot_slots (d : Device n) (i : Fin n) (s : Slot) :
    (d.setSlot i s).tok.slots = Function.update d.tok.slots i s := rfl

@[simp] theorem setSlot_self (d : Device n) (i : Fin n) : d.setSlot i (d.tok.slots i) = d := by
  simp [Device.setSlot]

@[simp] theorem setSlot_sessions (d : Device n) (i : Fin n) (s : Slot) :
    (d.setSlot i s).tok.sessions = d.tok.sessions := rfl

@[simp] theorem setSlot_persistBusy (d : Device n) (i : Fin n) (s : Slot) :
    (d.setSlot i s).tok.persistBusy = d.tok.persistBusy := rfl

@[simp] theorem setSlot_persistFn (d : Device n) (i : Fin n) (s : Slot) :
    (d.setSlot i s).tok.persistFn = d.tok.persistFn := rfl

@[simp] theorem setSlot_fs (d : Device n) (i : Fin n) (s : Slot) : (d.setSlot i s).fs = d.fs := rfl

@[simp] theorem setSlot_hw (d : Device n) (i : Fin n) (s : Slot) : (d.setSlot i s).hw = d.hw := rfl

/-- A section under the lock of slot `i`. -/
def slotSection (i : Fin n) (body : Env → Slot → β × Slot × List Event) : DevProg n β :=
  Prog.atomic fun e d =>
    let r := body e (d.tok.slots i)
    (r.1, d.setSlot i r.2.1, r.2.2)

/-- A section under the lock of slot `i` that calls the accelerator backend. -/
def hwSection (i : Fin n) (body : Env → HwTable → Slot → β × (HwTable × Slot) × List Event) :
    DevProg n β :=
  Prog.atomic fun e d =>
    let r := body e d.hw (d.tok.slots i)
    (r.1, { d.setSlot i r.2.1.2 with hw := r.2.1.1 }, r.2.2)

/-- A section under the lock of the session table or the audit lock. -/
def tokenSection (body : Token n → β × Token n × List Event) : DevProg n β :=
  Prog.atomic fun _ d =>
    let r := body d.tok
    (r.1, { d with tok := r.2.1 }, r.2.2)

/-- One file-system or anchor step. -/
def fileSection (body : Env → FileSys → β × FileSys × List Event) : DevProg n β :=
  Prog.atomic fun e d =>
    let r := body e d.fs
    (r.1, { d with fs := r.2.1 }, r.2.2)

/-- An accelerator connection that broke takes every handle of the process with it. -/
def HwTable.after (hw : HwTable) (e : Env) : HwTable :=
  if e.hwDropped then fun _ _ => none else hw

def HwTable.insert (hw : HwTable) (kind : PqcKind) (h : UInt32) (pk : Bytes) : HwTable :=
  Function.update hw kind (Function.update (hw kind) h (some pk))

section Blobs

variable (S : Setup)

/-- `hsm_slot_serialize`. -/
def hsmSlotSerialize (id : Nat) (kek : ByteVec 32) (cap : Nat) :
    DevProg n (Except HsmStatus Bytes) :=
  match slotAt n id with
  | none => pure (.error .errBadArg)
  | some i => slotSection i fun e s =>
    match slotCheckIntegrity S.crypto e 0 s with
    | .ok =>
      match slotSerializeLocked S.crypto e kek cap s with
      | .ok blob => (.ok blob, s, [.serialized id s.metadata s.record])
      | .error st => (.error st, s, [])
    | st => (.error st, s, [])

/-- `hsm_slot_deserialize`. -/
def hsmSlotDeserialize (id : Nat) (kek : ByteVec 32) (blob : Bytes) : DevProg n HsmStatus :=
  match slotAt n id with
  | none => pure .errBadArg
  | some i => slotSection i fun e s =>
    let r := slotDeserializeLocked S.crypto e kek blob s
    (r.1, r.2, match slotBlobRead S.crypto e kek blob s.metadata.slotId with
      | .ok (m, rec) => [.recordRead id m rec]
      | .error _ => [])

end Blobs

end PqcHsm
