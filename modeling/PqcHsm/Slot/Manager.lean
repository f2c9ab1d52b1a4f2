import PqcHsm.Slot.Locked

/-!
# The slot manager

The operations of the slot layer as programs of critical sections, in the order in
which the code takes and drops its locks: the role is checked under the session
lock, the work is done under the slot lock, then the change is committed through the
persist hook, and a login sets its role last. The hook is a parameter, as in the code.
-/

namespace PqcHsm

open ByteCodec Sections

variable {n : Nat}

/-- The table entry a session handle points at. -/
def sessionIndex (sess : HsmSession) : Option (Fin MAX_SESSIONS) :=
  if h : sess.idx ≠ 0 ∧ sess.idx.toNat ≤ MAX_SESSIONS then
    some ⟨sess.idx.toNat - 1, by
      have hPos : sess.idx.toNat ≠ 0 := fun h0 => h.1 (UInt32.toNat_inj.mp h0)
      omega⟩
  else none

/-- The entry is the open session the handle was issued for. -/
def Session.matches (s : Session) (sess : HsmSession) : Bool :=
  s.isOpen && s.gen == sess.gen

def Token.setSession (tok : Token n) (i : Fin MAX_SESSIONS) (s : Session) : Token n :=
  { tok with sessions := Function.update tok.sessions i s }

def sessionInfo (sess : HsmSession) : DevProg n (Except HsmStatus (Nat × HsmRole)) :=
  match sessionIndex sess with
  | none => pure (.error .errBadArg)
  | some i => tokenSection fun tok =>
    let s := tok.sessions i
    if s.matches sess then (.ok (s.slot, s.role), tok, [.sessionRead sess s.slot s.role])
    else (.error .errBadArg, tok, [])

def requireRole (sess : HsmSession) (need : HsmRole) : DevProg n (Except HsmStatus Nat) := do
  match ← sessionInfo sess with
  | .error st => pure (.error st)
  | .ok (slot, role) => pure (if role = need then .ok slot else .error .errNotAuthorized)

def setSessionRole (sess : HsmSession) (role : HsmRole) : DevProg n Unit :=
  match sessionIndex sess with
  | none => pure ()
  | some i => tokenSection fun tok =>
    let s := tok.sessions i
    if s.matches sess then ((), tok.setSession i { s with role }, [.roleSet sess role])
    else ((), tok, [])

def dropSessionsOnSlot (id : Nat) : DevProg n Unit :=
  tokenSection fun tok =>
    ((), { tok with sessions := fun i =>
      let s := tok.sessions i
      if s.isOpen ∧ s.slot = id then { s with role := .pub } else s }, [.sessionsDropped id])

section Persist

variable (hook : DevProg n Bool)

/-- `slot_persist`: the hook is skipped while a call of it is in flight. `true` is the
return value 0. -/
def slotPersist : DevProg n Bool := do
  let enter ← tokenSection fun tok =>
    if !tok.persistBusy && tok.persistFn then
      (true, { tok with persistBusy := true }, [.persistEntered])
    else (false, tok, [.persistSkipped])
  if enter then
    let rc ← hook
    tokenSection fun tok => (rc, { tok with persistBusy := false }, [.persistLeft rc])
  else pure true

/-- `commit_security_state`: a failed save fails the operation, a failed operation keeps
its own error. -/
def commitSecurityState (st : HsmStatus) : DevProg n HsmStatus := do
  let rc ← slotPersist hook
  pure (if !rc && st = .ok then .errCrypto else st)

variable (S : Setup)

def hsmSlotInitToken (id : Nat) (label soPin : Option CString) : DevProg n HsmStatus :=
  match slotAt n id, label, soPin with
  | some i, some label, some soPin =>
    if !validPin soPin then pure .errBadArg
    else do
      let st ← slotSection i (initTokenLocked S id label soPin)
      commitSecurityState hook st
  | _, _, _ => pure .errBadArg

def hsmSlotSetUserPin (sess : HsmSession) (userPin : Option CString) : DevProg n HsmStatus := do
  match ← requireRole sess .so with
  | .error st => pure st
  | .ok id =>
    match userPin, slotAt n id with
    | some userPin, some i =>
      if !validPin userPin then pure .errBadArg
      else do
        let st ← slotSection i (setUserPinLocked S id userPin)
        commitSecurityState hook st
    | _, _ => pure .errBadArg

/-- The first free entry of the session table. -/
def freeSession (tok : Token n) : Option (Fin MAX_SESSIONS) :=
  (List.finRange MAX_SESSIONS).find? fun i => !(tok.sessions i).isOpen

def hsmSessionOpen (id : Nat) : DevProg n (HsmStatus × Option HsmSession) :=
  match slotAt n id with
  | none => pure (.errBadArg, none)
  | some _ => tokenSection fun tok =>
    match freeSession tok with
    | none => ((.errFull, none), tok, [])
    | some i =>
      let gen := tok.sessionGen + 1
      let sess : HsmSession := ⟨gen, UInt32.ofNat (i + 1)⟩
      ((.ok, some sess), { tok.setSession i ⟨true, id, .pub, gen⟩ with sessionGen := gen },
        [.sessionOpened sess])

/-- `hsm_session_close`: check and clear are one section. -/
def hsmSessionClose (sess : HsmSession) : DevProg n HsmStatus :=
  match sessionIndex sess with
  | none => pure .errBadArg
  | some i => tokenSection fun tok =>
    if (tok.sessions i).matches sess then (.ok, tok.setSession i ⟨false, 0, .pub, 0⟩, [])
    else (.errBadArg, tok, [])

def hsmSessionRole (sess : HsmSession) : DevProg n (Except HsmStatus HsmRole) := do
  match ← sessionInfo sess with
  | .error st => pure (.error st)
  | .ok (_, role) => pure (.ok role)

def hsmSessionLogout (sess : HsmSession) : DevProg n HsmStatus := do
  match ← sessionInfo sess with
  | .error st => pure st
  | .ok _ => do
    setSessionRole sess .pub
    pure .ok

/-- The part of a login after the slot lock was dropped. -/
def finishLogin (sess : HsmSession) (role : HsmRole) (out : LoginOut) : DevProg n HsmStatus := do
  let st ← (if out.metaChanged then commitSecurityState hook out.st else pure out.st)
  if out.loginOk then
    setSessionRole sess role
    pure st
  else pure st

def hsmSessionLogin (sess : HsmSession) (role : HsmRole) (pin : Option CString) :
    DevProg n HsmStatus := do
  match ← sessionInfo sess with
  | .error st => pure st
  | .ok (id, _) =>
    match pin, slotAt n id with
    | some pin, some i =>
      if role = .pub then pure .errBadArg
      else do
        let out ← slotSection i (loginLocked S sess id role pin)
        finishLogin hook sess role out
    | _, _ => pure .errBadArg

/-- `policy_denied_by_profile`: no seed storage in production. -/
def policyDeniedByProfile (policy : UInt32) : Bool :=
  S.production && policy &&& SLOT_POLICY_SEED_STORAGE != 0

def createObject (sess : HsmSession) (alg : PqcAlg) (usage policy : UInt32)
    (seed : Option Bytes) (ev : SlotEvent) : DevProg n (HsmStatus × Option HsmHandle) := do
  match ← requireRole sess .user with
  | .error st => pure (st, none)
  | .ok id =>
    if alg = .none then pure (.errBadArg, none)
    else if policyDeniedByProfile S policy then pure (.errPolicy, none)
    else
      match slotAt n id with
      | none => pure (.errBadArg, none)
      | some i => do
        let r ← hwSection i (createObjectLocked S id alg usage policy seed ev)
        let st ← commitSecurityState hook r.1
        pure (st, r.2)

def hsmSlotGenerate (sess : HsmSession) (alg : PqcAlg) (usage policy : UInt32) :
    DevProg n (HsmStatus × Option HsmHandle) :=
  createObject hook S sess alg usage policy none .generate

def hsmSlotLoadSeed (sess : HsmSession) (alg : PqcAlg) (usage policy : UInt32) (seed : Bytes) :
    DevProg n (HsmStatus × Option HsmHandle) :=
  match pqcAlgInfo alg with
  | none => pure (.errBadArg, none)
  | some info =>
    if seed.length ≠ info.seedLen then pure (.errBadArg, none)
    else createObject hook S sess alg usage policy (some seed) .load

def hsmObjectPublicKey (sess : HsmSession) (h : HsmHandle) (cap : Option Nat) :
    DevProg n (HsmStatus × Option Bytes) := do
  match ← sessionInfo sess with
  | .error st => pure (st, none)
  | .ok (id, _) =>
    match slotAt n id with
    | none => pure (.errBadArg, none)
    | some i => slotSection i (publicKeyLocked S id h cap)

def hsmObjectSign (sess : HsmSession) (h : HsmHandle) (msg ctx : Bytes) (cap : Option Nat) :
    DevProg n (HsmStatus × Option Bytes) := do
  match ← requireRole sess .user with
  | .error st => pure (st, none)
  | .ok id =>
    match slotAt n id with
    | none => pure (.errBadArg, none)
    | some i => hwSection i (signLocked S id h msg ctx cap)

def hsmObjectDecaps (sess : HsmSession) (h : HsmHandle) (ct : Bytes) (cap : Option Nat) :
    DevProg n (HsmStatus × Option Bytes) := do
  match ← requireRole sess .user with
  | .error st => pure (st, none)
  | .ok id =>
    match slotAt n id with
    | none => pure (.errBadArg, none)
    | some i => hwSection i (decapsLocked S id h ct cap)

def hsmObjectDestroy (sess : HsmSession) (h : HsmHandle) : DevProg n HsmStatus := do
  match ← requireRole sess .user with
  | .error st => pure st
  | .ok id =>
    match slotAt n id with
    | none => pure .errBadArg
    | some i => do
      let st ← slotSection i (destroyLocked S id h)
      commitSecurityState hook st

/-- The part of both zeroize operations after the authorisation. -/
def zeroizeAt (i : Fin n) (id : Nat) : DevProg n HsmStatus := do
  let st ← slotSection i (doZeroize S id)
  if st = .ok then
    dropSessionsOnSlot id
    commitSecurityState hook st
  else commitSecurityState hook st

def hsmSlotZeroize (sess : HsmSession) (id : Nat) : DevProg n HsmStatus := do
  match ← requireRole sess .so with
  | .error st => pure st
  | .ok sid =>
    match slotAt n id with
    | none => pure .errBadArg
    | some i => if sid ≠ id then pure .errNotAuthorized else zeroizeAt hook S i id

def hsmSlotZeroizeForced (id : Nat) : DevProg n HsmStatus :=
  match slotAt n id with
  | none => pure .errBadArg
  | some i => zeroizeAt hook S i id

def hsmSlotUnlock (sess : HsmSession) (id : Nat) : DevProg n HsmStatus := do
  match ← requireRole sess .so with
  | .error st => pure st
  | .ok sid =>
    match slotAt n id with
    | none => pure .errBadArg
    | some i =>
      if sid ≠ id then pure .errNotAuthorized
      else do
        let st ← slotSection i (unlockLocked S id)
        commitSecurityState hook st

def hsmSlotGetMeta (id : Nat) : DevProg n (Except HsmStatus SlotMeta) :=
  match slotAt n id with
  | none => pure (.error .errBadArg)
  | some i => slotSection i fun e s =>
    match slotCheckIntegrity S.crypto e 0 s with
    | .ok => (.ok s.metadata, s, [])
    | st => (.error st, s, [])

end Persist

/-- A slot as `hsm_token_new` makes it. -/
def freshSlot (C : Crypto) (id : Nat) : Slot :=
  let m : SlotMeta :=
    { version := SLOT_META_VERSION, slotId := UInt32.ofNat id, label := Label.blank, alg := .none,
      usage := 0, policy := 0, state := .uninit, useCount := 0, soPinFails := 0,
      userPinFails := 0, createdAt := 0, lastUsedAt := 0, generation := 0 }
  { metadata := m, metaTag := slotMetaSeal C m, preLock := .empty, pinKey := zeros 32,
    soSalt := zeros PIN_SALT_LEN, soVerifier := zeros VERIFIER_LEN,
    userSalt := zeros PIN_SALT_LEN, userVerifier := zeros VERIFIER_LEN, hasSoPin := false,
    hasUserPin := false, hwHandle := none, pk := none, sk := none, seed := none }

/-- `hsm_token_new`, with the hook attached or not. -/
def hsmTokenNew (C : Crypto) (n : Nat) (persistFn : Bool) : Token n where
  slots i := freshSlot C i
  sessions _ := ⟨false, 0, .pub, 0⟩
  sessionGen := 0
  persistFn := persistFn
  persistBusy := false

end PqcHsm
