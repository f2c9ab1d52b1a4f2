import PqcHsm.Library.Transition
import PqcHsm.P11.Secrets
import PqcHsm.Slot.Machine

/-!
# The front end as a transition system

One step is one call of the interface. A run keeps the calls it has made, each with the state before
it and what it returned.
-/

namespace PqcHsm

open ByteCodec Sections Transition

variable {n : Nat}

section Sessions

variable (S : Setup)

/-- `hsm_token_new` and `hsm_keystore_load`: whether the token may be used. -/
def openToken : DevProg n Bool := do
  Prog.atomic fun _ d => ((), { d with tok := hsmTokenNew S.crypto n false }, [])
  let st ← hsmKeystoreLoad S
  let absent ← fileSection fun _ fs => (fs.file.isNone, fs, [])
  pure (st = .ok || absent)

/-- `C_Initialize`; `audit` says that the audit log was opened or is not wanted. -/
def cInitialize (st : P11State n) (audit : Bool) (env : Nat → Env) : P11Out × P11State n :=
  if st.gInit then ({ rv := .cryptokiAlreadyInitialized }, st)
  else
    let r := (openToken S).run env st.gTok
    if r.1 && audit then
      ({ rv := .ok },
        { st with gInit := true, gTok := r.2.1, gSessions := fun _ => .closed })
    else ({ rv := .deviceError }, { st with gTok := r.2.1 })

def cFinalize (st : P11State n) (pReserved : Bool) (env : Nat → Env) : P11Out × P11State n :=
  if pReserved then ({ rv := .argumentsBad }, st)
  else if !st.gInit then ({ rv := .cryptokiNotInitialized }, st)
  else
    ({ rv := .ok },
      { gInit := false
        gTok := ((persist S).run env st.gTok).2.1
        gSessions := fun _ => .closed
        gSecrets := secretsDropOwner 0 st.gSecrets })

/-- The first free entry of the session table. -/
def P11State.freeSession (st : P11State n) : Option (Fin MAX_P11_SESSIONS) :=
  (List.finRange MAX_P11_SESSIONS).find? fun i => !(st.gSessions i).inUse

def cOpenSession (st : P11State n) (slotID : Nat) (serial phSession : Bool) (env : Nat → Env) :
    P11Out × P11State n :=
  if !st.gInit then ({ rv := .cryptokiNotInitialized }, st)
  else if n ≤ slotID ∨ !phSession then ({ rv := .argumentsBad }, st)
  else if !serial then ({ rv := .sessionParallelNotSupported }, st)
  else match st.freeSession with
  | none => ({ rv := .sessionCount }, st)
  | some i =>
    let r := (hsmSessionOpen slotID).run env st.gTok
    match r.1 with
    | (.ok, hs) =>
      ({ rv := .ok, handle := some (sessionHandle i) },
        { st with gTok := r.2.1 }.setSession i (.opened (hs.getD ⟨0, 0⟩) slotID))
    | (status, _) => ({ rv := mapStatus status }, { st with gTok := r.2.1 })

/-- What closing the session of an entry does. -/
def P11State.closeEntry (st : P11State n) (i : Fin MAX_P11_SESSIONS) (env : Nat → Env) :
    P11State n × (Nat → Env) :=
  let r := (hsmSessionClose (st.gSessions i).sess).run env st.gTok
  ({ st with
      gTok := r.2.1
      gSessions := Function.update st.gSessions i .closed
      gSecrets := secretsDropOwner (sessionHandle i) st.gSecrets }, r.2.2)

def cCloseSession (st : P11State n) (hSession : CkHandle) (env : Nat → Env) :
    P11Out × P11State n :=
  match st.enter hSession true with
  | .error rv => ({ rv }, st)
  | .ok i => ({ rv := .ok }, (st.closeEntry i env).1)

/-- `C_CloseAllSessions` closes the sessions of one slot. -/
def cCloseAllSessions (st : P11State n) (slotID : Nat) (env : Nat → Env) : P11Out × P11State n :=
  ({ rv := .ok },
    ((List.finRange MAX_P11_SESSIONS).foldl (fun acc i =>
      if (acc.1.gSessions i).inUse ∧ (acc.1.gSessions i).slot = slotID then
        acc.1.closeEntry i acc.2
      else acc) (st, env)).1)

end Sessions

/-- The calls of the interface. The functions that work on the token alone are calls of the slot
manager. -/
inductive P11Call where
  | moduleInit (audit : Bool)
  | moduleFinal (pReserved : Bool)
  | openSession (slotID : Nat) (serial phSession : Bool)
  | closeSession (hSession : CkHandle)
  | closeAllSessions (slotID : Nat)
  | onToken (c : Call)
  | init (k : MsgKind) (hSession : CkHandle) (mechanism : Option UInt64) (hKey : CkHandle)
  | update (k : MsgKind) (hSession : CkHandle) (part : Span) (malloc : Bool)
  | sign (hSession : CkHandle) (data : Bytes) (sig : OutBuf)
  | signFinal (hSession : CkHandle) (sig : OutBuf)
  | verify (hSession : CkHandle) (data sig : Bytes)
  | verifyFinal (hSession : CkHandle) (sig : Option Bytes)
  | createObject (hSession : CkHandle) (t : Option (List CkAttribute)) (phObject : Bool)
  | encapsulateKey (hSession : CkHandle) (mechanism : Option UInt64) (hPublicKey : CkHandle)
      (t : List CkAttribute) (out : OutBuf) (phKey : Bool)
  | decapsulateKey (hSession : CkHandle) (mechanism : Option UInt64) (hPrivateKey : CkHandle)
      (t : List CkAttribute) (ct : Option Bytes) (phKey : Bool)
  | destroyObject (hSession hObject : CkHandle)
  | aeadInit (d : AeadDir) (hSession : CkHandle) (mechanism : Option CkMechanism)
      (hKey : CkHandle) (malloc : Bool)
  | encrypt (hSession : CkHandle) (data : Bytes) (out : OutBuf) (lib : Bool)
  | decrypt (hSession : CkHandle) (data : Bytes) (out : OutBuf) (lib : Bool)
  deriving DecidableEq

section Step

variable (S : Setup) (L : P11Lib)

def p11Step (st : P11State n) (env : Nat → Env) : P11Call → P11Out × P11State n
  | .moduleInit audit => cInitialize S st audit env
  | .moduleFinal pReserved => cFinalize S st pReserved env
  | .openSession slotID serial phSession => cOpenSession st slotID serial phSession env
  | .closeSession hSession => cCloseSession st hSession env
  | .closeAllSessions slotID => cCloseAllSessions st slotID env
  | .onToken c => ({ rv := .ok }, { st with gTok := ((c.prog S).run env st.gTok).2.1 })
  | .init .sign hSession mechanism hKey => cSignInit st hSession mechanism hKey
  | .init .verify hSession mechanism hKey => cVerifyInit st hSession mechanism hKey
  | .update .sign hSession part malloc => cSignUpdate st hSession part malloc
  | .update .verify hSession part malloc => cVerifyUpdate st hSession part malloc
  | .sign hSession data sig => cSign S st hSession data sig env
  | .signFinal hSession sig => cSignFinal S st hSession sig env
  | .verify hSession data sig => cVerify S L st hSession data sig env
  | .verifyFinal hSession sig => cVerifyFinal S L st hSession sig env
  | .createObject hSession t phObject => cCreateObject S st hSession t phObject env
  | .encapsulateKey hSession mechanism hPublicKey t out phKey =>
    cEncapsulateKey S L st hSession mechanism hPublicKey t out phKey env
  | .decapsulateKey hSession mechanism hPrivateKey t ct phKey =>
    cDecapsulateKey S st hSession mechanism hPrivateKey t ct phKey env
  | .destroyObject hSession hObject => cDestroyObject S st hSession hObject env
  | .aeadInit .encrypt hSession mechanism hKey malloc =>
    cEncryptInit st hSession mechanism hKey malloc
  | .aeadInit .decrypt hSession mechanism hKey malloc =>
    cDecryptInit st hSession mechanism hKey malloc
  | .encrypt hSession data out lib => cEncrypt L st hSession data out lib
  | .decrypt hSession data out lib => cDecrypt L st hSession data out lib

/-- A call of a run, with the state it found and what it returned. -/
structure P11Entry (n : Nat) where
  before : P11State n
  call : P11Call
  out : P11Out

structure P11Run (n : Nat) where
  st : P11State n
  /-- The calls so far, the latest first. -/
  past : List (P11Entry n)

def P11Run.next (r : P11Run n) (a : P11Call × (Nat → Env)) : P11Run n :=
  ⟨(p11Step S L r.st a.2 a.1).2, ⟨r.st, a.1, (p11Step S L r.st a.2 a.1).1⟩ :: r.past⟩

/-- A process that has loaded the module and not called it. -/
def P11Run.Start (r : P11Run n) : Prop :=
  0 < n ∧ n ≤ TOKEN_MAX_SLOTS ∧ r.past = [] ∧ r.st.gInit = false ∧
    (r.st.gSessions = fun _ => .closed) ∧ r.st.gSecrets = fun _ => none

def p11System (n : Nat) : System (P11Run n) (P11Call × (Nat → Env)) :=
  .ofFun P11Run.Start (P11Run.next S L)

end Step

section Concrete

/-! ### Concrete inputs for runs -/

/-- A library without secrets: every signature is valid, a ciphertext shows its plaintext, and a tag
shows the start of its key. -/
def P11Lib.clear : P11Lib where
  verify _ _ _ _ := true
  encaps _ _ _ := some ([], [])
  gcm :=
    { crypt := fun _ _ p => p
      tag := fun key _ _ _ => takeVec PWRP_TAG_LEN key
      crypt_crypt := fun _ _ _ => rfl
      length_crypt := fun _ _ _ => rfl }

/-- A process that has loaded the module, with no key store file. -/
def P11Run.loaded (S : Setup) (n : Nat) : P11Run n where
  st :=
    { gInit := false
      gTok := ⟨hsmTokenNew S.crypto n false, fun _ _ => none, none, none, 0, none⟩
      gSessions := fun _ => .closed
      gSecrets := fun _ => none }
  past := []

theorem P11Run.start_loaded (S : Setup) {n : Nat} (hPos : 0 < n) (hMax : n ≤ TOKEN_MAX_SLOTS) :
    (P11Run.loaded S n).Start :=
  ⟨hPos, hMax, rfl, rfl, rfl, rfl⟩

theorem init_loaded : (p11System .clear .clear 1).init (.loaded .clear 1) :=
  P11Run.start_loaded .clear (by decide) (by decide)

/-- Calls in an environment in which everything succeeds. -/
def calmly (calls : List P11Call) : List (P11Call × (Nat → Env)) :=
  calls.map fun c => (c, fun _ => .calm 7)

/-- The first session has a logged-in User. -/
def userCalls : List P11Call :=
  [.moduleInit true, .openSession 0 true true, .onToken (.initToken 0 (some []) (some [1, 2, 3, 4])),
    .onToken (.sessionLogin firstSession .so (some [1, 2, 3, 4])),
    .onToken (.setUserPin firstSession (some [5, 6, 7, 8])),
    .onToken (.sessionLogin firstSession .user (some [5, 6, 7, 8]))]

end Concrete

end PqcHsm
