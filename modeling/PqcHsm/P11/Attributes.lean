import PqcHsm.Backup.InjectTarget
import PqcHsm.P11.TokenSteps

/-!
# Attributes of objects

`C_GetAttributeValue` answers a template attribute by attribute. The attributes of a key pair come
from the metadata of the slot that the handle names, and only the public key is asked for through the
session, with a handle that is checked.
-/

namespace PqcHsm

open ByteCodec Sections Transition

variable {n : Nat}

def CKK_VENDOR_DEFINED : UInt64 := 0x80000000

/-- `CK_UNAVAILABLE_INFORMATION`. -/
def CK_UNAVAILABLE_INFORMATION : UInt64 := 0xffffffffffffffff

/-- `CK_BBOOL`. -/
def ckBool (b : Bool) : Bytes := [if b then 1 else 0]

/-- The bytes of a label that `strlen` counts. -/
def Label.text (l : Label) : Bytes := l.val.toList.takeWhile (· ≠ 0)

def paramFromAlg : PqcAlg → UInt64
  | .mlDsa44 => 1
  | .mlDsa65 => 2
  | .mlDsa87 => 3
  | .mlKem512 => 1
  | .mlKem768 => 2
  | .mlKem1024 => 3
  | .none => 0

def keytypeFromAlg (alg : PqcAlg) : UInt64 :=
  match pqcAlgInfo alg with
  | none => CKK_VENDOR_DEFINED
  | some info =>
    match info.kind with
    | .kem => CKK_ML_KEM
    | .sig => CKK_ML_DSA

/-- An attribute of the template: whether its pointer is there, and the length before the call. -/
structure AttrQuery where
  type : UInt64
  ptr : Bool
  len : UInt64
  deriving DecidableEq

/-- What became of an attribute: the bytes copied to its buffer, and its length after the call. -/
structure AttrAnswer where
  rv : CkRv
  value : Option Bytes
  len : UInt64
  deriving DecidableEq

def fillAttr (a : AttrQuery) (v : Bytes) : AttrAnswer :=
  if !a.ptr then ⟨.ok, none, UInt64.ofNat v.length⟩
  else if a.len.toNat < v.length then ⟨.bufferTooSmall, none, CK_UNAVAILABLE_INFORMATION⟩
  else ⟨.ok, some v, UInt64.ofNat v.length⟩

def AttrAnswer.unavailable (rv : CkRv) : AttrAnswer := ⟨rv, none, CK_UNAVAILABLE_INFORMATION⟩

/-- The first error of an attribute; the attributes after it are answered all the same. -/
def firstError : List AttrAnswer → CkRv
  | [] => .ok
  | r :: rs => if r.rv ≠ .ok then r.rv else firstError rs

structure AttrOut where
  rv : CkRv
  attrs : List AttrAnswer
  deriving DecidableEq

/-! ### The two kinds of objects -/

/-- The attributes of a secret object, but for its value. -/
def secretValue (k : P11Secret) (type : UInt64) : Option Bytes :=
  if type = CKA_CLASS then some (putU64 CKO_SECRET_KEY)
  else if type = CKA_KEY_TYPE then some (putU64 k.keyType)
  else if type = CKA_VALUE_LEN then some (putU64 (UInt64.ofNat k.val.length))
  else if type = CKA_LABEL then some k.label.text
  else if type = CKA_TOKEN then some (ckBool false)
  else if type = CKA_PRIVATE then some (ckBool true)
  else if type = CKA_SENSITIVE then some (ckBool k.sensitive)
  else if type = CKA_EXTRACTABLE then some (ckBool k.extractable)
  else none

def secretAttr (k : P11Secret) (a : AttrQuery) : AttrAnswer :=
  if a.type = CKA_VALUE then
    if !k.extractable || k.sensitive then .unavailable .attributeSensitive
    else fillAttr a k.val
  else match secretValue k a.type with
  | some v => fillAttr a v
  | none => .unavailable .attributeTypeInvalid

/-- The attributes of a key of a slot, but for its value. -/
def keyValue (isPub : Bool) (m : SlotMeta) (type : UInt64) : Option Bytes :=
  if type = CKA_CLASS then some (putU64 (if isPub then CKO_PUBLIC_KEY else CKO_PRIVATE_KEY))
  else if type = CKA_KEY_TYPE then some (putU64 (keytypeFromAlg m.alg))
  else if type = CKA_PARAMETER_SET then some (putU64 (paramFromAlg m.alg))
  else if type = CKA_LABEL then some m.label.text
  else if type = CKA_ID then some [m.slotId.toUInt8]
  else if type = CKA_TOKEN then some (ckBool true)
  else if type = CKA_PRIVATE then some (ckBool !isPub)
  else if type = CKA_SENSITIVE then some (ckBool !isPub)
  else if type = CKA_EXTRACTABLE then some (ckBool (m.policy &&& SLOT_POLICY_EXTRACTABLE ≠ 0))
  else if type = CKA_SIGN then some (ckBool (!isPub && m.usage &&& KEY_USAGE_SIGN ≠ 0))
  else if type = CKA_VERIFY then some (ckBool (isPub && m.usage &&& KEY_USAGE_SIGN ≠ 0))
  else if type = CKA_DECAPSULATE then some (ckBool (!isPub && m.usage &&& KEY_USAGE_DECAP ≠ 0))
  else if type = CKA_ENCAPSULATE then some (ckBool (isPub && m.usage &&& KEY_USAGE_DECAP ≠ 0))
  else if type = CKA_PQCHSM_BACKUPABLE then
    some (ckBool (m.policy &&& SLOT_POLICY_BACKUPABLE ≠ 0))
  else if type = CKA_PQCHSM_SEED_STORAGE then
    some (ckBool (m.policy &&& SLOT_POLICY_SEED_STORAGE ≠ 0))
  else none

/-- An attribute of a key of a slot, but for its value. -/
def keyAttr (isPub : Bool) (m : SlotMeta) (a : AttrQuery) : AttrAnswer :=
  match keyValue isPub m a.type with
  | some v => fillAttr a v
  | none => .unavailable .attributeTypeInvalid

section Token

variable (S : Setup)

/-- `CKA_VALUE` of a key of a slot. -/
def keyValueAttr (sess : HsmSession) (isPub : Bool) (priv : HsmHandle) (info : PqcAlgInfo)
    (a : AttrQuery) : DevProg n AttrAnswer :=
  if !isPub then pure (.unavailable .attributeSensitive)
  else do
    let alloc ← Prog.ask Env.allocOk
    if !alloc then pure ⟨.hostMemory, none, a.len⟩
    else do
      match ← hsmObjectPublicKey S sess priv (some info.pkLen) with
      | (.ok, pk) => pure (fillAttr a (pk.getD []))
      | _ => pure ⟨.objectHandleInvalid, none, a.len⟩

def slotAttr (sess : HsmSession) (isPub : Bool) (priv : HsmHandle) (m : SlotMeta)
    (info : PqcAlgInfo) (a : AttrQuery) : DevProg n AttrAnswer :=
  if a.type = CKA_VALUE then keyValueAttr S sess isPub priv info a
  else pure (keyAttr isPub m a)

def slotAttrs (sess : HsmSession) (isPub : Bool) (priv : HsmHandle) (m : SlotMeta)
    (info : PqcAlgInfo) : List AttrQuery → DevProg n (List AttrAnswer)
  | [] => pure []
  | a :: t => do
    let r ← slotAttr S sess isPub priv m info a
    let rs ← slotAttrs sess isPub priv m info t
    pure (r :: rs)

/-- The branch for keys of slots: the checked handle is for the public key alone. -/
def slotAttributes (sess : HsmSession) (hObject : CkHandle) (t : List AttrQuery) :
    DevProg n AttrOut := do
  let priv ← coreHandleOf S hObject
  match ← hsmSlotGetMeta S (slotOfHandle hObject) with
  | .error _ => pure ⟨.objectHandleInvalid, []⟩
  | .ok m =>
    match pqcAlgInfo m.alg with
    | none => pure ⟨.objectHandleInvalid, []⟩
    | some info => do
      let rs ← slotAttrs S sess (hObject &&& PUB_BIT ≠ 0) priv m info t
      pure ⟨firstError rs, rs⟩

def cGetAttributeValue (st : P11State n) (hSession hObject : CkHandle)
    (template : Option (List AttrQuery)) (env : Nat → Env) : AttrOut × P11State n :=
  match st.enter hSession template.isSome with
  | .error rv => (⟨rv, []⟩, st)
  | .ok i =>
    let t := template.getD []
    if hObject &&& SECRET_BIT ≠ 0 then
      match st.secretAt hObject with
      | none => (⟨.objectHandleInvalid, []⟩, st)
      | some k => (⟨firstError (t.map (secretAttr k)), t.map (secretAttr k)⟩, st)
    else
      let r := (slotAttributes S (st.gSessions i).sess hObject t).run env st.gTok
      (r.1, { st with gTok := r.2.1 })

end Token

/-! ### Objects -/

/-- The objects of a token: the two keys of a slot, and the secret objects. -/
inductive P11Object (n : Nat) where
  | key (s : Fin n) (isPub : Bool)
  | secret (j : Fin MAX_SECRETS)
  deriving DecidableEq

/-- The slot that a session works on. -/
def P11State.slotOf (st : P11State n) (i : Fin MAX_P11_SESSIONS) : Option (Fin n) :=
  st.gTok.tok.slotOf (st.gSessions i).sess

/-- A handle carries the generation of a key that is there. -/
def SlotMeta.NamedBy (m : SlotMeta) (h : CkHandle) : Prop :=
  (m.state = .loaded ∨ m.state = .inUse) ∧
    (h >>> P11_IDX_BITS) &&& P11_GEN_MASK = m.generation.toUInt64 &&& P11_GEN_MASK

instance (m : SlotMeta) (h : CkHandle) : Decidable (m.NamedBy h) :=
  inferInstanceAs (Decidable (_ ∧ _))

/-- The object of slot `s` that a handle denotes. A secret object is one of the slot of the session
that owns it. -/
def P11State.objectOf (st : P11State n) (s : Fin n) (h : CkHandle) : Option (P11Object n) :=
  if h &&& SECRET_BIT ≠ 0 then
    (secretSlot h).bind fun j => (st.gSecrets j).bind fun k =>
      if (st.sessAt k.owner).bind st.slotOf = some s then some (.secret j) else none
  else if slotOfHandle h = s ∧ (st.gTok.tok.slots s).metadata.NamedBy h then
    some (.key s (h &&& PUB_BIT ≠ 0))
  else none

/-- The object of the slot of session `i` that a handle denotes. -/
def P11State.objectAt (st : P11State n) (i : Fin MAX_P11_SESSIONS) (h : CkHandle) :
    Option (P11Object n) :=
  (st.slotOf i).bind fun s => st.objectOf s h

/-- The readable attributes of a key of a slot. -/
def Slot.attrOf (s : Slot) (isPub : Bool) (type : UInt64) : Option Bytes :=
  if type = CKA_VALUE then if isPub then some (s.pk.getD []) else none
  else keyValue isPub s.metadata type

def P11Secret.attrOf (k : P11Secret) (type : UInt64) : Option Bytes :=
  if type = CKA_VALUE then if k.extractable && !k.sensitive then some k.val else none
  else secretValue k type

/-- The readable attributes of an object. -/
def P11State.attrOf (st : P11State n) : P11Object n → UInt64 → Option Bytes
  | .key s isPub => (st.gTok.tok.slots s).attrOf isPub
  | .secret j => fun type => (st.gSecrets j).bind fun k => k.attrOf type

end PqcHsm
