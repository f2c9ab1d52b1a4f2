import Mathlib.Logic.Function.Basic
import PqcHsm.Library.ByteCodec

/-!
# Data model of the slot manager

Algorithms, status codes, slot metadata, slots, the session table and the token,
with the fields the slot layer reads. Integers of the record keep their width;
a pointer with its length is an optional byte string; fixed arrays are byte
vectors. Everything the code obtains from outside (random bytes, the clock, calls
that may fail) comes from an `Env`, one for each critical section.
-/

namespace PqcHsm

open ByteCodec

inductive PqcAlg where
  | none
  | mlKem512
  | mlKem768
  | mlKem1024
  | mlDsa44
  | mlDsa65
  | mlDsa87
  deriving DecidableEq

inductive PqcKind where
  | kem
  | sig
  deriving DecidableEq

structure PqcAlgInfo where
  kind : PqcKind
  pkLen : Nat
  skLen : Nat
  ctLen : Nat
  ssLen : Nat
  sigLen : Nat
  seedLen : Nat

def pqcAlgInfo : PqcAlg → Option PqcAlgInfo
  | .none => Option.none
  | .mlKem512 => some ⟨.kem, 800, 1632, 768, 32, 0, 64⟩
  | .mlKem768 => some ⟨.kem, 1184, 2400, 1088, 32, 0, 64⟩
  | .mlKem1024 => some ⟨.kem, 1568, 3168, 1568, 32, 0, 64⟩
  | .mlDsa44 => some ⟨.sig, 1312, 2560, 0, 0, 2420, 32⟩
  | .mlDsa65 => some ⟨.sig, 1952, 4032, 0, 0, 3309, 32⟩
  | .mlDsa87 => some ⟨.sig, 2592, 4896, 0, 0, 4627, 32⟩

theorem pqcAlgInfo_isSome_iff (alg : PqcAlg) : (pqcAlgInfo alg).isSome ↔ alg ≠ .none := by
  cases alg <;> decide

theorem pqcAlgInfo_eq_none_iff (alg : PqcAlg) : pqcAlgInfo alg = Option.none ↔ alg = .none := by
  cases alg <;> simp [pqcAlgInfo]

namespace PqcAlg

def toCode : PqcAlg → UInt32
  | none => 0
  | mlKem512 => 1
  | mlKem768 => 2
  | mlKem1024 => 3
  | mlDsa44 => 4
  | mlDsa65 => 5
  | mlDsa87 => 6

def ofCode (c : UInt32) : Option PqcAlg :=
  match c.toNat with
  | 0 => some none
  | 1 => some mlKem512
  | 2 => some mlKem768
  | 3 => some mlKem1024
  | 4 => some mlDsa44
  | 5 => some mlDsa65
  | 6 => some mlDsa87
  | _ => Option.none

@[simp] theorem ofCode_toCode (alg : PqcAlg) : ofCode alg.toCode = some alg := by
  cases alg <;> rfl

end PqcAlg

inductive HsmStatus where
  | ok
  | errBadArg
  | errBadState
  | errNotAuthorized
  | errPinIncorrect
  | errPinLocked
  | errBadHandle
  | errUsageDenied
  | errPolicy
  | errIntegrity
  | errSlotBusy
  | errCrypto
  | errNomem
  | errFull
  deriving DecidableEq

inductive HsmRole where
  | pub
  | so
  | user
  deriving DecidableEq

namespace HsmRole

def toCode : HsmRole → UInt32
  | pub => 0
  | so => 1
  | user => 2

end HsmRole

inductive SlotState where
  | uninit
  | empty
  | loaded
  | inUse
  | locked
  deriving DecidableEq

namespace SlotState

def toCode : SlotState → UInt32
  | uninit => 0
  | empty => 1
  | loaded => 2
  | inUse => 3
  | locked => 4

def ofCode (c : UInt32) : Option SlotState :=
  match c.toNat with
  | 0 => some uninit
  | 1 => some empty
  | 2 => some loaded
  | 3 => some inUse
  | 4 => some locked
  | _ => none

@[simp] theorem ofCode_toCode (s : SlotState) : ofCode s.toCode = some s := by
  cases s <;> rfl

end SlotState

inductive SlotEvent where
  | initToken
  | generate
  | load
  | useBegin
  | useEnd
  | destroy
  | zeroize
  | pinLockout
  | soUnlock
  deriving DecidableEq

def SLOT_LABEL_MAX : Nat := 32
def SLOT_META_VERSION : UInt32 := 1
def MAX_SESSIONS : Nat := 16
def PIN_SALT_LEN : Nat := 16
def VERIFIER_LEN : Nat := 32
def HSM_PIN_MIN_LEN : Nat := 4
def HSM_PIN_MAX_LEN : Nat := 64
def HSM_PIN_MAX_FAILS : Nat := 3
def SLOT_META_TAG_LEN : Nat := 32
def PQC_KEK_LEN : Nat := 32

def KEY_USAGE_ENCAP : UInt32 := 1
def KEY_USAGE_DECAP : UInt32 := 2
def KEY_USAGE_SIGN : UInt32 := 4
def KEY_USAGE_VERIFY : UInt32 := 8

def SLOT_POLICY_EXTRACTABLE : UInt32 := 1
def SLOT_POLICY_BACKUPABLE : UInt32 := 2
def SLOT_POLICY_INJECTABLE : UInt32 := 4
def SLOT_POLICY_SEED_STORAGE : UInt32 := 8

/-- The bytes of a C string, without the terminator. -/
abbrev CString := Bytes

/-- The index of the last byte of a label buffer. -/
def labelLast : Fin SLOT_LABEL_MAX := ⟨31, by decide⟩

/-- A label buffer: `SLOT_LABEL_MAX` bytes, the last one NUL. -/
abbrev Label := { v : ByteVec SLOT_LABEL_MAX // v.get labelLast = 0 }

namespace Label

/-- The buffer with its last byte overwritten by NUL. -/
def terminate (v : ByteVec SLOT_LABEL_MAX) : Label :=
  ⟨v.set labelLast 0, List.Vector.get_set_same v _ 0⟩

@[simp] theorem terminate_val (l : Label) : terminate l.val = l := by
  apply Subtype.ext
  apply List.Vector.ext
  intro i
  by_cases hi : labelLast = i
  · subst i
    exact (List.Vector.get_set_same l.val labelLast 0).trans l.property.symm
  · exact List.Vector.get_set_of_ne hi 0

/-- `memset` and `strncpy` of at most 31 bytes. -/
def ofCString (s : CString) : Label := terminate (takeVec SLOT_LABEL_MAX (s.take 31))

def blank : Label := terminate (zeros SLOT_LABEL_MAX)

end Label

structure SlotMeta where
  version : UInt32
  slotId : UInt32
  label : Label
  alg : PqcAlg
  usage : UInt32
  policy : UInt32
  state : SlotState
  useCount : UInt64
  soPinFails : UInt32
  userPinFails : UInt32
  createdAt : UInt64
  lastUsedAt : UInt64
  generation : UInt32
  deriving DecidableEq

structure Slot where
  metadata : SlotMeta
  metaTag : Bytes
  preLock : SlotState
  pinKey : ByteVec 32
  soSalt : ByteVec PIN_SALT_LEN
  soVerifier : ByteVec VERIFIER_LEN
  userSalt : ByteVec PIN_SALT_LEN
  userVerifier : ByteVec VERIFIER_LEN
  hasSoPin : Bool
  hasUserPin : Bool
  /-- The handle of a key that stays in hardware (`hw_resident` with `hw_handle`). -/
  hwHandle : Option UInt32
  pk : Option Bytes
  sk : Option Bytes
  /-- The stored seed (`has_seed` with the first `seed_len` bytes of `seed`). -/
  seed : Option Bytes
  deriving DecidableEq

structure Session where
  isOpen : Bool
  slot : Nat
  role : HsmRole
  gen : UInt32
  deriving DecidableEq

/-- A session handle: the low word is the table index plus one, the high word the
generation; both zero is the invalid handle. -/
structure HsmSession where
  gen : UInt32
  idx : UInt32
  deriving DecidableEq

/-- An object handle: the low word is the slot number plus one, the high word the
generation of the slot; both zero is `HSM_INVALID_HANDLE`. -/
structure HsmHandle where
  gen : UInt32
  sid : UInt32
  deriving DecidableEq

def HSM_INVALID_HANDLE : HsmHandle := ⟨0, 0⟩

structure Token (n : Nat) where
  slots : Fin n → Slot
  sessions : Fin MAX_SESSIONS → Session
  sessionGen : UInt32
  /-- A persist hook is attached. -/
  persistFn : Bool
  persistBusy : Bool

/-- The key handles alive in the accelerator session of this process: for each kind of
algorithm, the public key behind a handle. -/
abbrev HwTable := PqcKind → UInt32 → Option Bytes

/-- What `keypair_hw` of the backend did. -/
inductive HwKeypair where
  | unsupported
  | failed
  | made (pk : Bytes) (handle : UInt32)

/-- What a critical section obtains from outside. -/
structure Env where
  /-- The `k`-th computation of a metadata tag in the section succeeds. -/
  sealOk : Nat → Bool
  /-- The `k`-th `pqc_random_bytes` of the section: its bytes, or a failure. -/
  random : Nat → Option (Nat → UInt8)
  /-- Key derivation, MAC and wrapping calls of the section succeed. -/
  cryptoOk : Bool
  allocOk : Bool
  now : UInt64
  hwKeypair : HwKeypair
  /-- The result of `sign_hw`, `decaps_hw` or a hedged software signature. -/
  opResult : Option Bytes
  /-- The accelerator connection broke during the section. -/
  hwDropped : Bool
  /-- The file-system call of the section succeeds. -/
  ioOk : Bool
  /-- The number of bytes `write` accepts, at least one when it succeeds, or `fread` delivers. -/
  wrote : Nat

namespace Env

def bytes (e : Env) (k n : Nat) : Option (ByteVec n) :=
  (e.random k).map (ofStream n)

end Env

/-- The cryptography the slot layer rests on, with what it relies on. -/
structure Crypto where
  kdrDerive : String → Bytes → ByteVec 32
  kdf : Bytes → Bytes → String → ByteVec 32
  kmac256 : Bytes → Bytes → String → ByteVec 32
  wrap : ByteVec 32 → Bytes → Bytes → ByteVec 12 → Bytes
  unwrap : ByteVec 32 → Bytes → Bytes → Option Bytes
  keypairFromSeed : PqcAlg → Bytes → Bytes × Bytes
  sign : PqcAlg → Bytes → Bytes → Bytes → Bytes → Bytes
  decaps : PqcAlg → Bytes → Bytes → Bytes
  sha3_256 : Bytes → ByteVec 32
  unwrap_wrap : ∀ kek aad pt nonce, unwrap kek aad (wrap kek aad pt nonce) = some pt
  length_wrap : ∀ kek aad pt nonce, (wrap kek aad pt nonce).length = pt.length + 44
  length_pk : ∀ alg info seed, pqcAlgInfo alg = some info →
    (keypairFromSeed alg seed).1.length = info.pkLen
  length_sk : ∀ alg info seed, pqcAlgInfo alg = some info →
    (keypairFromSeed alg seed).2.length = info.skLen

/-- A cryptography without secrets, which meets the laws: a MAC shows the end of its message,
wrapping appends padding, and a key pair repeats the first byte of its seed. -/
def Crypto.clear : Crypto where
  kdrDerive _ _ := zeros 32
  kdf _ _ _ := zeros 32
  kmac256 _ msg _ := takeVec 32 msg.reverse
  wrap _ _ pt _ := pt ++ List.replicate 44 0
  unwrap _ _ blob := if blob.length < 44 then none else some (blob.take (blob.length - 44))
  keypairFromSeed alg seed :=
    match pqcAlgInfo alg with
    | none => ([], [])
    | some info => (List.replicate info.pkLen (seed.headD 0), List.replicate info.skLen (seed.headD 0))
  sign _ sk msg _ _ := sk.take 1 ++ msg
  decaps _ sk ct := sk.take 1 ++ ct
  sha3_256 msg := takeVec 32 msg
  unwrap_wrap kek aad pt nonce := by simp
  length_wrap kek aad pt nonce := by simp
  length_pk alg info seed h := by simp [h]
  length_sk alg info seed h := by simp [h]

instance : Inhabited Crypto := ⟨.clear⟩

/-- Where the rollback anchor is kept: in a file next to the key store, or in hardware. -/
inductive AnchorProvider where
  | file
  | hardware
  deriving DecidableEq

/-- What a build and its configuration fix. -/
structure Setup where
  crypto : Crypto
  /-- `pqc_backend_has_hw_keys_kind` for one kind. -/
  hasHwKeys : PqcKind → Bool
  /-- `pqc_profile_is_production`. -/
  production : Bool
  anchorProvider : AnchorProvider

end PqcHsm
