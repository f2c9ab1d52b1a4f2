import PqcHsm.Slot.Device

/-!
# What the operations do under the lock of a slot

Each definition is the body of one critical section: from the environment of the
section and the slot to a status, the slot left behind and the observable events.
Every early exit leaves behind what had been changed before it.
-/

namespace PqcHsm

open ByteCodec

/-- `slot_wipe_key_material`. -/
@[simps]
def slotWipeKeyMaterial (s : Slot) : Slot :=
  { s with pk := none, sk := none, seed := none, hwHandle := none }

/-- `slot_wipe_pins`. -/
@[simps]
def slotWipePins (s : Slot) : Slot :=
  { s with
    pinKey := zeros 32
    soSalt := zeros PIN_SALT_LEN
    soVerifier := zeros VERIFIER_LEN
    userSalt := zeros PIN_SALT_LEN
    userVerifier := zeros VERIFIER_LEN
    hasSoPin := false
    hasUserPin := false }

def makeHandle (s : Slot) : HsmHandle := ⟨s.metadata.generation, s.metadata.slotId + 1⟩

/-- `validate_usage`: a key serves one kind of operation only. -/
def validateUsage (alg : PqcAlg) (usage : UInt32) : HsmStatus :=
  match pqcAlgInfo alg with
  | none => .errBadArg
  | some info =>
    if usage = 0 then .errBadArg
    else
      let allowed := match info.kind with
        | .kem => KEY_USAGE_ENCAP ||| KEY_USAGE_DECAP
        | .sig => KEY_USAGE_SIGN ||| KEY_USAGE_VERIFY
      if usage &&& ~~~allowed ≠ 0 then .errUsageDenied else .ok

def validPin (pin : CString) : Bool :=
  HSM_PIN_MIN_LEN ≤ pin.length ∧ pin.length ≤ HSM_PIN_MAX_LEN

/-- The verifier of a PIN: a MAC under the PIN key of the slot. -/
def pinVerifierValue (C : Crypto) (pinKey : ByteVec 32) (slotId : UInt32) (role : HsmRole)
    (salt : ByteVec PIN_SALT_LEN) (pin : CString) : ByteVec VERIFIER_LEN :=
  C.kmac256 pinKey.toList (putU32 slotId ++ putU32 role.toCode ++ salt.toList ++ pin)
    "pqc-hsm/pin-verifier"

def pinVerifier (C : Crypto) (e : Env) (pinKey : ByteVec 32) (slotId : UInt32) (role : HsmRole)
    (salt : ByteVec PIN_SALT_LEN) (pin : CString) : Option (ByteVec VERIFIER_LEN) :=
  if HSM_PIN_MAX_LEN < pin.length then none
  else if e.cryptoOk then some (pinVerifierValue C pinKey slotId role salt pin)
  else none

/-- Salt, verifier and flag of a role. -/
def Slot.pinOf (s : Slot) : HsmRole → ByteVec PIN_SALT_LEN × ByteVec VERIFIER_LEN × Bool
  | .so => (s.soSalt, s.soVerifier, s.hasSoPin)
  | _ => (s.userSalt, s.userVerifier, s.hasUserPin)

section Bodies

variable (S : Setup)

/-- `hsm_slot_init_token` under the slot lock. -/
def initTokenLocked (id : Nat) (label soPin : CString) (e : Env) (s : Slot) :
    HsmStatus × Slot × List Event :=
  match slotCheckIntegrity S.crypto e 0 s with
  | .ok =>
    match fsmApply s .initToken with
    | none => (.errBadState, s, [])
    | some s =>
      match e.bytes 0 32 with
      | none => (.errCrypto, s, [.initStarted id])
      | some pinKey =>
        let s := { s with pinKey }
        match e.bytes 1 PIN_SALT_LEN with
        | none => (.errCrypto, s, [.initStarted id])
        | some soSalt =>
          let s := { s with soSalt }
          match pinVerifier S.crypto e s.pinKey s.metadata.slotId .so s.soSalt soPin with
          | none => (.errCrypto, s, [.initStarted id])
          | some soVerifier =>
            let s := { s with
              soVerifier
              hasSoPin := true
              metadata := { s.metadata with
                label := Label.ofCString label
                createdAt := e.now
                soPinFails := 0
                userPinFails := 0
                useCount := 0 } }
            let r := slotReseal S.crypto e 1 s
            (r.1, r.2, .initStarted id :: if r.1 = .ok then [.slotChanged id] else [])
  | st => (st, s, [])

/-- `hsm_slot_set_user_pin` under the slot lock. -/
def setUserPinLocked (id : Nat) (userPin : CString) (e : Env) (s : Slot) :
    HsmStatus × Slot × List Event :=
  match slotCheckIntegrity S.crypto e 0 s with
  | .ok =>
    if s.metadata.state = .uninit then (.errBadState, s, [])
    else
      match e.bytes 0 PIN_SALT_LEN with
      | none => (.errCrypto, s, [])
      | some userSalt =>
        -- from here on the salt is the new one, whether or not the rest succeeds
        let s₁ := { s with userSalt }
        match pinVerifier S.crypto e s.pinKey s.metadata.slotId .user userSalt userPin with
        | none => (.errCrypto, s₁, [.userPinSet id (s.pinMaterial .user) (s₁.pinMaterial .user)])
        | some userVerifier =>
          let s₂ := { s₁ with
            userVerifier
            hasUserPin := true
            metadata := { s.metadata with userPinFails := 0 } }
          let r := slotReseal S.crypto e 1 s₂
          (r.1, r.2, .userPinSet id (s.pinMaterial .user) (s₂.pinMaterial .user) ::
            .userFailsReset id :: if r.1 = .ok then [.slotChanged id] else [])
  | st => (st, s, [])

structure LoginOut where
  st : HsmStatus
  loginOk : Bool
  metaChanged : Bool

/-- `hsm_session_login` under the slot lock: the comparison, the failure counter and the
lockout. An SO failure is counted but never locks. -/
def loginLocked (sess : HsmSession) (id : Nat) (role : HsmRole) (pin : CString) (e : Env)
    (s : Slot) : LoginOut × Slot × List Event :=
  match slotCheckIntegrity S.crypto e 0 s with
  | .ok =>
    if s.metadata.state = .uninit then (⟨.errBadState, false, false⟩, s, [])
    else if s.metadata.state = .locked ∧ role = .user then (⟨.errPinLocked, false, false⟩, s, [])
    else
      let (salt, want, has) := s.pinOf role
      if !has then (⟨.errNotAuthorized, false, false⟩, s, [])
      else
        match pinVerifier S.crypto e s.pinKey s.metadata.slotId role salt pin with
        | none => (⟨.errCrypto, false, false⟩, s, [])
        | some got =>
          if got = want then
            let s := { s with metadata := if role = .so then { s.metadata with soPinFails := 0 }
              else { s.metadata with userPinFails := 0 } }
            let r := slotReseal S.crypto e 1 s
            (⟨r.1, true, true⟩, r.2, [.pinCompared sess id role pin true, .slotChanged id])
          else if role = .so then
            let s := { s with metadata :=
              { s.metadata with soPinFails := s.metadata.soPinFails + 1 } }
            (⟨.errPinIncorrect, false, true⟩, (slotReseal S.crypto e 1 s).2,
              [.pinCompared sess id role pin false, .slotChanged id])
          else
            let s := { s with metadata :=
              { s.metadata with userPinFails := s.metadata.userPinFails + 1 } }
            if HSM_PIN_MAX_FAILS ≤ s.metadata.userPinFails.toNat then
              match fsmApply s .pinLockout with
              | some s' => (⟨.errPinLocked, false, true⟩, (slotReseal S.crypto e 1 s').2,
                  [.pinCompared sess id role pin false, .lockedOut id s.metadata.state,
                    .slotChanged id])
              | none => (⟨.errPinIncorrect, false, true⟩, (slotReseal S.crypto e 1 s).2,
                  [.pinCompared sess id role pin false, .slotChanged id])
            else (⟨.errPinIncorrect, false, true⟩, (slotReseal S.crypto e 1 s).2,
              [.pinCompared sess id role pin false, .slotChanged id])
  | st => (⟨st, false, false⟩, s, [])

/-- Metadata of a slot that has just received a key. -/
@[simps]
def newKeyMeta (m : SlotMeta) (alg : PqcAlg) (usage policy : UInt32) : SlotMeta :=
  { m with alg, usage, policy, useCount := 0, lastUsedAt := 0 }

/-- The part of `install_key` that puts the key into the slot and seals the metadata. -/
def sealKey (e : Env) (s : Slot) : (HsmStatus × Option HsmHandle) × Slot :=
  let r := slotReseal S.crypto e 1 s
  if r.1 = .ok then ((.ok, some (makeHandle r.2)), r.2) else ((r.1, none), r.2)

/-- `install_key` on the software path: the key pair is always expanded from a seed. -/
def installSoftKey (info : PqcAlgInfo) (alg : PqcAlg) (usage policy : UInt32)
    (seed : Option Bytes) (e : Env) (s : Slot) : (HsmStatus × Option HsmHandle) × Slot :=
  if !e.allocOk then ((.errNomem, none), s)
  else
    match seed with
    | some seed =>
      if seed.length ≠ info.seedLen then ((.errBadArg, none), s)
      else fromSeed seed
    | none =>
      match e.bytes 0 info.seedLen with
      | none => ((.errCrypto, none), s)
      | some seed => fromSeed seed.toList
where
  fromSeed (seed : Bytes) : (HsmStatus × Option HsmHandle) × Slot :=
    if !e.cryptoOk then ((.errCrypto, none), s)
    else
      let (pk, sk) := S.crypto.keypairFromSeed alg seed
      let s := slotWipeKeyMaterial s
      let s := if policy &&& SLOT_POLICY_SEED_STORAGE ≠ 0 then
          { s with pk := some pk, seed := some seed }
        else { s with pk := some pk, sk := some sk }
      sealKey S e { s with metadata := newKeyMeta s.metadata alg usage policy }

/-- `install_key`. -/
def installKey (alg : PqcAlg) (usage policy : UInt32) (seed : Option Bytes) (e : Env)
    (hw : HwTable) (s : Slot) : (HsmStatus × Option HsmHandle) × HwTable × Slot :=
  match validateUsage alg usage, pqcAlgInfo alg with
  | .ok, some info =>
    let soft := fun hw => let r := installSoftKey S info alg usage policy seed e s; (r.1, hw, r.2)
    if seed.isNone ∧ policy &&& SLOT_POLICY_SEED_STORAGE = 0 ∧ S.hasHwKeys info.kind then
      if !e.allocOk then ((.errNomem, none), hw, s)
      else
        match e.hwKeypair with
        | .unsupported => soft hw
        | .failed => ((.errCrypto, none), hw.after e, s)
        | .made pk h =>
          if pk.length ≠ info.pkLen then ((.errCrypto, none), hw.after e, s)
          else
            let s := { slotWipeKeyMaterial s with pk := some pk, hwHandle := some h }
            let r := sealKey S e { s with metadata := newKeyMeta s.metadata alg usage policy }
            (r.1, hw.insert info.kind h pk, r.2)
    else soft hw
  | .ok, none => ((.errBadArg, none), hw, s)
  | st, _ => ((st, none), hw, s)

/-- `create_object` under the slot lock; a failed installation goes back to the old state. -/
def createObjectLocked (id : Nat) (alg : PqcAlg) (usage policy : UInt32) (seed : Option Bytes)
    (ev : SlotEvent) (e : Env) (hw : HwTable) (s : Slot) :
    (HsmStatus × Option HsmHandle) × (HwTable × Slot) × List Event :=
  match slotCheckIntegrity S.crypto e 0 s with
  | .ok =>
    match fsmApply s ev with
    | none => ((.errBadState, none), (hw, s), [])
    | some s' =>
      match installKey S alg usage policy seed e hw s' with
      | ((.ok, some h), hw, s') =>
        ((.ok, some h), (hw, s'), [.handleIssued id h s'.key, .slotChanged id])
      | ((st, _), hw, s') =>
        let s' := { s' with metadata := { s'.metadata with state := s.metadata.state } }
        ((st, none), (hw, (slotReseal S.crypto e 2 s').2), [])
  | st => ((st, none), (hw, s), [])

/-- `check_handle`: generation and state must both fit. -/
def checkHandle (e : Env) (s : Slot) (h : HsmHandle) : HsmStatus :=
  if h = HSM_INVALID_HANDLE ∨ h.sid ≠ s.metadata.slotId + 1 ∨ h.gen ≠ s.metadata.generation then
    .errBadHandle
  else if s.metadata.state ≠ .loaded ∧ s.metadata.state ≠ .inUse then .errBadHandle
  else slotCheckIntegrity S.crypto e 0 s

/-- `hsm_object_public_key` under the slot lock; `cap` is the caller's buffer. -/
def publicKeyLocked (id : Nat) (h : HsmHandle) (cap : Option Nat) (e : Env) (s : Slot) :
    (HsmStatus × Option Bytes) × Slot × List Event :=
  match checkHandle S e s h with
  | .ok =>
    match cap with
    | none => ((.errBadArg, none), s, [.handleAccepted id h s.key])
    | some cap =>
      if cap < (s.pk.getD []).length then ((.errBadArg, none), s, [.handleAccepted id h s.key])
      else ((.ok, some (s.pk.getD [])), s, [.handleAccepted id h s.key])
  | st => ((st, none), s, [])

/-- `borrow_secret`: the secret key for the operation, `none` for a key in hardware. -/
def borrowSecret (e : Env) (s : Slot) : Except HsmStatus (Option Bytes) :=
  match s.hwHandle, s.sk, s.seed with
  | some _, _, _ => .ok none
  | none, some sk, _ => .ok (some sk)
  | none, none, none => .error .errBadState
  | none, none, some seed =>
    if !e.allocOk then .error .errNomem
    else if e.cryptoOk then .ok (some (S.crypto.keypairFromSeed s.metadata.alg seed).2)
    else .error .errCrypto

/-- `begin_use`; the slot is in use exactly when it succeeds. -/
def beginUse (h : HsmHandle) (needUsage : UInt32) (e : Env) (s : Slot) :
    Except HsmStatus (Option Bytes) × Slot :=
  match checkHandle S e s h with
  | .ok =>
    if s.metadata.usage &&& needUsage = 0 then (.error .errUsageDenied, s)
    else
      match fsmApply s .useBegin with
      | none => (.error .errBadState, s)
      | some s =>
        match borrowSecret S e s with
        | .ok sk => (.ok sk, s)
        | .error st => (.error st, (fsmApply s .useEnd).getD s)
  | st => (.error st, s)

/-- `end_use`. -/
def endUse (opSt : HsmStatus) (e : Env) (s : Slot) : HsmStatus × Slot :=
  let s := (fsmApply s .useEnd).getD s
  let s := if opSt = .ok then
      { s with metadata :=
        { s.metadata with useCount := s.metadata.useCount + 1, lastUsedAt := e.now } }
    else s
  let r := slotReseal S.crypto e 1 s
  (if opSt ≠ .ok then opSt else r.1, r.2)

/-- `hsm_object_sign` under the slot lock; `cap` is the caller's buffer. -/
def signLocked (id : Nat) (h : HsmHandle) (msg ctx : Bytes) (cap : Option Nat) (e : Env)
    (hw : HwTable) (s : Slot) :
    (HsmStatus × Option Bytes) × (HwTable × Slot) × List Event :=
  match beginUse S h KEY_USAGE_SIGN e s with
  | (.error st, s) => ((st, none), (hw, s), [])
  | (.ok sk, s) =>
    let op : (HsmStatus × Option Bytes) × HwTable :=
      match pqcAlgInfo s.metadata.alg, cap with
      | some info, some cap =>
        if cap < info.sigLen then ((.errBadArg, none), hw)
        else
          match s.hwHandle, sk with
          | some hh, _ =>
            -- only the handle goes down; it must still be alive in the accelerator session
            if 255 < ctx.length ∨ info.kind ≠ .sig then ((.errCrypto, none), hw)
            else
              match hw .sig hh, e.opResult with
              | some _, some sig => ((.ok, some sig), hw)
              | _, _ => ((.errCrypto, none), hw.after e)
          | none, some sk =>
            match info.kind, e.bytes 0 32, e.cryptoOk && ctx.length ≤ 255 with
            | .sig, some rnd, true =>
              ((.ok, some (S.crypto.sign s.metadata.alg sk msg ctx rnd.toList)), hw)
            | _, _, _ => ((.errCrypto, none), hw)
          | none, none => ((.errCrypto, none), hw)
      | _, _ => ((.errBadArg, none), hw)
    let r := endUse S op.1.1 e s
    ((r.1, op.1.2), (op.2, r.2), [.handleAccepted id h s.key, .keyUsed id])

/-- `hsm_object_decaps` under the slot lock. -/
def decapsLocked (id : Nat) (h : HsmHandle) (ct : Bytes) (cap : Option Nat) (e : Env)
    (hw : HwTable) (s : Slot) :
    (HsmStatus × Option Bytes) × (HwTable × Slot) × List Event :=
  match beginUse S h KEY_USAGE_DECAP e s with
  | (.error st, s) => ((st, none), (hw, s), [])
  | (.ok sk, s) =>
    let op : (HsmStatus × Option Bytes) × HwTable :=
      match pqcAlgInfo s.metadata.alg, cap with
      | some info, some cap =>
        if ct.length ≠ info.ctLen ∨ cap < info.ssLen then ((.errBadArg, none), hw)
        else
          match s.hwHandle, sk with
          | some hh, _ =>
            match hw .kem hh, e.opResult with
            | some _, some ss => ((.ok, some ss), hw)
            | _, _ => ((.errCrypto, none), hw.after e)
          | none, some sk =>
            if e.cryptoOk ∧ info.kind = .kem then
              ((.ok, some (S.crypto.decaps s.metadata.alg sk ct)), hw)
            else ((.errCrypto, none), hw)
          | none, none => ((.errCrypto, none), hw)
      | _, _ => ((.errBadArg, none), hw)
    let r := endUse S op.1.1 e s
    ((r.1, op.1.2), (op.2, r.2), [.handleAccepted id h s.key, .keyUsed id])

/-- `hsm_object_destroy` under the slot lock; the generation invalidates the old handle. -/
def destroyLocked (id : Nat) (h : HsmHandle) (e : Env) (s : Slot) :
    HsmStatus × Slot × List Event :=
  match checkHandle S e s h with
  | .ok =>
    match fsmApply s .destroy with
    | none => (.errBadState, s, [])
    | some s' =>
      let s' := slotWipeKeyMaterial s'
      let s' := { s' with metadata := { s'.metadata with
        alg := .none
        usage := 0
        policy := 0
        generation := s'.metadata.generation + 1 } }
      let r := slotReseal S.crypto e 1 s'
      (r.1, r.2, .handleAccepted id h s.key :: .keyUsed id :: .destroyed id ::
        if r.1 = .ok then [.slotChanged id] else [])
  | st => (st, s, [])

/-- The metadata of a zeroized slot. -/
@[simps]
def zeroizedMeta (m : SlotMeta) : SlotMeta where
  version := SLOT_META_VERSION
  slotId := m.slotId
  label := Label.blank
  alg := .none
  usage := 0
  policy := 0
  state := .uninit
  useCount := 0
  soPinFails := 0
  userPinFails := 0
  createdAt := 0
  lastUsedAt := 0
  generation := m.generation + 1

/-- `do_zeroize`: legal in every state, without an integrity check. -/
def doZeroize (id : Nat) (e : Env) (s : Slot) : HsmStatus × Slot × List Event :=
  match fsmApply s .zeroize with
  | none => (.errBadState, s, [])
  | some s =>
    let s := slotWipePins (slotWipeKeyMaterial s)
    let r := slotReseal S.crypto e 0
      { s with metadata := zeroizedMeta s.metadata, preLock := .empty }
    (r.1, r.2, .zeroized id :: if r.1 = .ok then [.slotChanged id] else [])

/-- `hsm_slot_unlock` under the slot lock. -/
def unlockLocked (id : Nat) (e : Env) (s : Slot) : HsmStatus × Slot × List Event :=
  match slotCheckIntegrity S.crypto e 0 s with
  | .ok =>
    match fsmApply s .soUnlock with
    | none => (.errBadState, s, [])
    | some s =>
      let r := slotReseal S.crypto e 1 { s with metadata := { s.metadata with userPinFails := 0 } }
      (r.1, r.2, .unlocked id :: if r.1 = .ok then [.slotChanged id] else [])
  | st => (st, s, [])

end Bodies

end PqcHsm
