import PqcHsm.P11.Types

/-!
# Signatures and verifications of the front end

A one-shot call and the end of a multi-part operation make the same attempt, on the data of the
call and on what the session has accumulated.
-/

namespace PqcHsm

open ByteCodec Sections

/-- The two operations on messages. -/
inductive MsgKind where
  | sign
  | verify
  deriving DecidableEq

variable {n : Nat}

def P11Session.op (s : P11Session) : MsgKind → P11MsgOp
  | .sign => s.sign
  | .verify => s.verify

def P11Session.setOp (s : P11Session) (k : MsgKind) (o : P11MsgOp) : P11Session :=
  match k with
  | .sign => { s with sign := o }
  | .verify => { s with verify := o }

def P11State.setOp (st : P11State n) (i : Fin MAX_P11_SESSIONS) (k : MsgKind) (o : P11MsgOp) :
    P11State n :=
  st.setSession i ((st.gSessions i).setOp k o)

/-- How an attempt to sign ends: before the token is asked, with the length of a signature only, or
with the answer of the token. -/
inductive SignOutcome where
  | refused (rv : CkRv)
  | length (rv : CkRv) (len : Nat)
  | tried (st : HsmStatus) (sig : Option Bytes)

section Token

variable (S : Setup)

def signAttempt (sess : HsmSession) (key : CkHandle) (data : Bytes) (sig : OutBuf) :
    DevProg n SignOutcome := do
  match ← hsmSlotGetMeta S (slotOfHandle key) with
  | .error _ => pure (.refused .objectHandleInvalid)
  | .ok m =>
    match pqcAlgInfo m.alg with
    | none => pure (.refused .keyTypeInconsistent)
    | some info =>
      if info.kind ≠ .sig then pure (.refused .keyTypeInconsistent)
      else if !sig.ptr then pure (.length .ok info.sigLen)
      else if sig.len.getD 0 < info.sigLen then pure (.length .bufferTooSmall info.sigLen)
      else do
        let h ← coreHandleOf S key
        let r ← hsmObjectSign S sess h data [] (some (sig.len.getD 0))
        if r.1 = .ok then persist S
        pure (.tried r.1 r.2)

/-- `verify_with_pubkey`, with the message it had verified. -/
def verifyWithPubkey (L : P11Lib) (sess : HsmSession) (key : CkHandle) (data sig : Bytes) :
    DevProg n (CkRv × Option Bytes) := do
  match ← hsmSlotGetMeta S (slotOfHandle key) with
  | .error _ => pure (.objectHandleInvalid, none)
  | .ok m =>
    match pqcAlgInfo m.alg with
    | none => pure (.keyTypeInconsistent, none)
    | some info =>
      if info.kind ≠ .sig then pure (.keyTypeInconsistent, none)
      else do
        let alloc ← Prog.ask Env.allocOk
        if !alloc then pure (.hostMemory, none)
        else do
          let h ← coreHandleOf S key
          match ← hsmObjectPublicKey S sess h (some info.pkLen) with
          | (.ok, some pk) =>
            pure (if L.verify m.alg pk data sig then .ok else .signatureInvalid, some data)
          | _ => pure (.objectHandleInvalid, none)

end Token

/-! ### The functions of the interface -/

/-- The checks of `C_SignInit` and `C_VerifyInit`: only the first refuses a public key. -/
def initCheck (k : MsgKind) (st : P11State n) (hSession : CkHandle) (mechanism : Option UInt64)
    (hKey : CkHandle) : Except CkRv (Fin MAX_P11_SESSIONS) :=
  match st.enter hSession mechanism.isSome with
  | .error rv => .error rv
  | .ok i =>
    if mechanism ≠ some CKM_ML_DSA then .error .mechanismInvalid
    else if k = .sign ∧ hKey &&& PUB_BIT ≠ 0 then .error .keyTypeInconsistent
    else .ok i

/-- An operation starts; what it has accumulated stays. -/
def opInit (k : MsgKind) (st : P11State n) (hSession : CkHandle) (mechanism : Option UInt64)
    (hKey : CkHandle) : P11Out × P11State n :=
  match initCheck k st hSession mechanism hKey with
  | .error rv => ({ rv }, st)
  | .ok i => ({ rv := .ok }, st.setOp i k ⟨true, hKey, ((st.gSessions i).op k).acc⟩)

def cSignInit (st : P11State n) (hSession : CkHandle) (mechanism : Option UInt64)
    (hKey : CkHandle) : P11Out × P11State n :=
  opInit .sign st hSession mechanism hKey

def cVerifyInit (st : P11State n) (hSession : CkHandle) (mechanism : Option UInt64)
    (hKey : CkHandle) : P11Out × P11State n :=
  opInit .verify st hSession mechanism hKey

def opUpdate (k : MsgKind) (st : P11State n) (hSession : CkHandle) (part : Span) (malloc : Bool) :
    P11Out × P11State n :=
  match st.enter hSession true with
  | .error rv => ({ rv }, st)
  | .ok i =>
    let o := (st.gSessions i).op k
    if !o.active then ({ rv := .operationNotInitialized }, st)
    else if part.dangling then ({ rv := .argumentsBad }, st)
    else match bufAppend malloc o.acc part.toBytes with
    | some acc => ({ rv := .ok }, st.setOp i k ⟨true, o.key, acc⟩)
    | none => ({ rv := .hostMemory }, st.setOp i k ⟨false, o.key, .empty⟩)

def cSignUpdate (st : P11State n) (hSession : CkHandle) (part : Span) (malloc : Bool) :
    P11Out × P11State n :=
  opUpdate .sign st hSession part malloc

def cVerifyUpdate (st : P11State n) (hSession : CkHandle) (part : Span) (malloc : Bool) :
    P11Out × P11State n :=
  opUpdate .verify st hSession part malloc

section Ends

variable (S : Setup) (L : P11Lib)

/-- What the caller of an attempt to sign `data` sees. -/
def SignOutcome.out (data : Bytes) : SignOutcome → P11Out
  | refused rv => { rv }
  | length rv len => { rv, len := some len }
  | tried .ok sig =>
    { rv := .ok, len := sig.map List.length, written := sig.toList.map (0, ·), message := some data }
  | tried st _ => { rv := mapStatus st, message := some data }

/-- `C_Sign` ends the operation when the token has signed. -/
def cSign (st : P11State n) (hSession : CkHandle) (data : Bytes) (sig : OutBuf)
    (env : Nat → Env) : P11Out × P11State n :=
  match st.enter hSession sig.len.isSome with
  | .error rv => ({ rv }, st)
  | .ok i =>
    let s := st.gSessions i
    if !s.sign.active then ({ rv := .operationNotInitialized }, st)
    else
      let r := (signAttempt S s.sess s.sign.key data sig).run env st.gTok
      (r.1.out data,
        match r.1 with
        | .tried .ok _ => { st with gTok := r.2.1 }.setOp i .sign ⟨false, s.sign.key, s.sign.acc⟩
        | _ => { st with gTok := r.2.1 })

/-- `C_SignFinal` ends the operation when the token has been asked. -/
def cSignFinal (st : P11State n) (hSession : CkHandle) (sig : OutBuf) (env : Nat → Env) :
    P11Out × P11State n :=
  match st.enter hSession sig.len.isSome with
  | .error rv => ({ rv }, st)
  | .ok i =>
    let s := st.gSessions i
    if !s.sign.active then ({ rv := .operationNotInitialized }, st)
    else
      let r := (signAttempt S s.sess s.sign.key s.sign.acc.data sig).run env st.gTok
      (r.1.out s.sign.acc.data,
        match r.1 with
        | .tried _ _ => { st with gTok := r.2.1 }.setOp i .sign ⟨false, s.sign.key, .empty⟩
        | _ => { st with gTok := r.2.1 })

def cVerify (st : P11State n) (hSession : CkHandle) (data sig : Bytes) (env : Nat → Env) :
    P11Out × P11State n :=
  match st.enter hSession true with
  | .error rv => ({ rv }, st)
  | .ok i =>
    let s := st.gSessions i
    if !s.verify.active then ({ rv := .operationNotInitialized }, st)
    else
      let r := (verifyWithPubkey S L s.sess s.verify.key data sig).run env st.gTok
      ({ rv := r.1.1, message := r.1.2 },
        { st with gTok := r.2.1 }.setOp i .verify ⟨false, s.verify.key, s.verify.acc⟩)

/-- The signature may be a null pointer, which `C_Verify` does not check. -/
def cVerifyFinal (st : P11State n) (hSession : CkHandle) (sig : Option Bytes)
    (env : Nat → Env) : P11Out × P11State n :=
  match st.enter hSession sig.isSome with
  | .error rv => ({ rv }, st)
  | .ok i =>
    let s := st.gSessions i
    if !s.verify.active then ({ rv := .operationNotInitialized }, st)
    else
      let r := (verifyWithPubkey S L s.sess s.verify.key s.verify.acc.data
        (sig.getD [])).run env st.gTok
      ({ rv := r.1.1, message := r.1.2 },
        { st with gTok := r.2.1 }.setOp i .verify ⟨false, s.verify.key, .empty⟩)

end Ends

end PqcHsm
