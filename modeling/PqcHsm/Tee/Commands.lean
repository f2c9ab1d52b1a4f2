import PqcHsm.Library.Transition
import PqcHsm.Wrap.TrustedApp

/-!
# The commands of the trusted application

Keys leave the application only in blobs sealed under its KEK. Two kinds of commands seal blobs
without associated data, private keys and seeds for the accelerator; a third seals symmetric keys
under a label.
-/

namespace PqcHsm

open ByteCodec Transition Wrap

inductive TaResult where
  | success
  | badParameters
  | badState
  | shortBuffer
  | generic
  | macInvalid
  | accessDenied
  /-- What a call of another trusted application returned. -/
  | other (code : UInt32)
  deriving DecidableEq

def TA_PQCHSM_MAX_SALT : Nat := 64
def TA_PQCHSM_MAX_PT : Nat := 8192
def TA_PQCHSM_MAX_BLOB : Nat := TA_PQCHSM_MAX_PT + 64
def TA_PQCHSM_MAX_MSG : Nat := 64 * 1024
def TA_SEED_LEN_MLKEM : Nat := 64
def TA_SEED_LEN_MLDSA : Nat := 32
def TA_SYM_SLOT_MAX : UInt32 := 6
def TA_SYM_KAT_SLOT : UInt32 := 7

/-- `pqchsm/symkey/v1`. -/
def TA_SYMKEY_AAD : Bytes :=
  [0x70, 0x71, 0x63, 0x68, 0x73, 0x6d, 0x2f, 0x73, 0x79, 0x6d, 0x6b, 0x65, 0x79, 0x2f, 0x76, 0x31]

def PQCHSM_KEK_LABEL : String := "pqc-hsm/storage-kek"

/-- The cryptography of the application. -/
structure TaLib where
  gcm : AesGcm
  backend : GcmBackend
  /-- `ta_kdf_derive`. -/
  kdf : ByteVec 32 → Bytes → String → ByteVec PQC_KEK_LEN
  /-- `ta_pqc_keypair`, from random bytes. -/
  keypair : PqcAlg → (Nat → UInt8) → Option (Bytes × Bytes)
  keypairFromSeed : PqcAlg → Bytes → Option (Bytes × Bytes)
  /-- `ta_pqc_decaps`, from a key and a ciphertext. -/
  decaps : PqcAlg → Bytes → Bytes → Option Bytes
  /-- `ta_pqc_sign`, from a key, a message, a context and random bytes. -/
  sign : PqcAlg → Bytes → Bytes → Bytes → (Nat → UInt8) → Option Bytes
  length_keypair : ∀ alg info rnd pk sk, pqcAlgInfo alg = some info →
    keypair alg rnd = some (pk, sk) → sk.length = info.skLen
  length_keypairFromSeed : ∀ alg info seed pk sk, pqcAlgInfo alg = some info →
    keypairFromSeed alg seed = some (pk, sk) → sk.length = info.skLen

/-- What a command obtains from outside. -/
structure TaEnv where
  /-- The unique key of device and application, when the system derives it. -/
  kdr : Except UInt32 (ByteVec 32)
  random : Nat → UInt8
  /-- The nonce of a sealing. -/
  nonce : ByteVec PWRP_NONCE_LEN
  /-- The calls of the cipher that depend on memory alone succeed. -/
  lib : Bool
  /-- `ta_key_entropy`. -/
  entropy : Except UInt32 (Nat → UInt8)
  /-- The error that ends a push into the accelerator. -/
  push : Option UInt32
  /-- What the stack holds where a buffer is declared. -/
  stack : Nat → UInt8

/-- `g_kdr` and `g_kek`, when they are ready. -/
structure TaState where
  gKdr : Option (ByteVec 32)
  gKek : Option (ByteVec PQC_KEK_LEN)

/-- What a blob was sealed for; both commands that make key pairs seal for their algorithm. -/
inductive TaMaker where
  | keygen (alg : PqcAlg)
  | seedNew (tgt : UInt32)
  | symkeyNew
  deriving DecidableEq

/-- A sealing: who sealed what under which key. -/
structure TaSealing where
  maker : TaMaker
  kek : ByteVec PQC_KEK_LEN
  nonce : ByteVec PWRP_NONCE_LEN
  aad : Bytes
  pt : Bytes
  deriving DecidableEq

/-- What a command returns: its result, what it wrote to its parameters and the sizes or values it
left there. Besides, what it sealed, and the bytes it used as a key after opening a blob. -/
structure TaOut where
  rc : TaResult
  written : List (Nat × Bytes) := []
  size : Option (Nat × Nat) := none
  value : Option UInt32 := none
  sealing : Option TaSealing := none
  keyUsed : Option Bytes := none

/-- `ta_pqc_dims`, whose table is that of the host. -/
def taPqcDims (alg : UInt32) : Option (PqcAlg × PqcAlgInfo) :=
  (PqcAlg.ofCode alg).bind fun a => (pqcAlgInfo a).map fun d => (a, d)

/-- A buffer on the stack that nothing has written yet. -/
def TaEnv.buffer (e : TaEnv) (len : Nat) : Bytes := (ofStream len e.stack).toList

section Commands

variable (T : TaLib) (st : TaState) (e : TaEnv)

def cmdKekSet (salt : Span) : TaOut × TaState :=
  if salt.isNull || salt.len = 0 || TA_PQCHSM_MAX_SALT < salt.len then
    ({ rc := .badParameters }, st)
  else match st.gKdr.elim e.kdr .ok with
  | .error code => ({ rc := .other code }, st)
  | .ok kdr => ({ rc := .success }, ⟨some kdr, some (T.kdf kdr salt.toBytes PQCHSM_KEK_LABEL)⟩)

/-- `unwrap_sk` into a buffer of `skLen` bytes. The length of the plaintext is not reported. -/
def unwrapSk (kek : ByteVec PQC_KEK_LEN) (blob : Span) (skLen : Nat) : Except TaResult Bytes :=
  if blob.isNull || TA_PQCHSM_MAX_BLOB < blob.len then .error .badParameters
  else
    let o := taWrapOpen T.backend T.gcm e.lib kek (.null 0) blob (.mem (e.buffer skLen)) skLen
    if o.rc = 0 then .ok o.pt.toBytes
    else if o.rc = -2 then .error .macInvalid
    else .error .generic

/-- `keygen_finish`: the blob of a private key goes to parameter `param`. -/
def keygenFinish (kek : ByteVec PQC_KEK_LEN) (alg : PqcAlg) (pk sk : Bytes) (param cap : Nat) :
    TaOut :=
  if cap < taWrapBlobLen sk.length then
    { rc := .shortBuffer, written := [(param - 1, pk)],
      size := some (param, taWrapBlobLen sk.length) }
  else match taWrapSeal T.backend T.gcm e.lib kek (.null 0) (.mem sk) e.nonce cap with
  | none => { rc := .generic, written := [(param - 1, pk)] }
  | some blob =>
    { rc := .success, written := [(param - 1, pk), (param, blob)],
      sealing := some ⟨.keygen alg, kek, e.nonce, [], sk⟩ }

def cmdKeygen (alg : UInt32) (pkCap blobCap : Nat) : TaOut :=
  match st.gKek, taPqcDims alg with
  | none, _ => { rc := .badState }
  | some _, none => { rc := .badParameters }
  | some kek, some (a, d) =>
    if pkCap < d.pkLen then { rc := .shortBuffer, size := some (1, d.pkLen) }
    else match T.keypair a e.random with
    | none => { rc := .generic }
    | some (pk, sk) => keygenFinish T e kek a pk sk 2 blobCap

def cmdKeygenFromSeed (alg : UInt32) (seed : Span) (pkCap blobCap : Nat) : TaOut :=
  match st.gKek, taPqcDims alg with
  | none, _ => { rc := .badState }
  | some _, none => { rc := .badParameters }
  | some kek, some (a, d) =>
    if seed.isNull || seed.len ≠ d.seedLen then { rc := .badParameters }
    else if pkCap < d.pkLen then { rc := .shortBuffer, size := some (2, d.pkLen) }
    else match T.keypairFromSeed a seed.toBytes with
    | none => { rc := .generic }
    | some (pk, sk) => keygenFinish T e kek a pk sk 3 blobCap

def cmdDecaps (alg : UInt32) (blob ct : Span) (ssCap : Nat) : TaOut :=
  match st.gKek, taPqcDims alg with
  | none, _ => { rc := .badState }
  | some _, none => { rc := .badParameters }
  | some kek, some (a, d) =>
    if d.kind ≠ .kem then { rc := .badParameters }
    else if ct.isNull || ct.len ≠ d.ctLen then { rc := .badParameters }
    else if ssCap < d.ssLen then { rc := .shortBuffer, size := some (3, d.ssLen) }
    else match unwrapSk T e kek blob d.skLen with
    | .error rc => { rc }
    | .ok sk =>
      match T.decaps a sk ct.toBytes with
      | none => { rc := .generic, keyUsed := some sk }
      | some ss =>
        { rc := .success, written := [(3, ss)], size := some (3, d.ssLen), keyUsed := some sk }

/-- A frame is the length of a context, the context and a message. -/
def parseFrame (frame : Span) : Option (Bytes × Bytes) :=
  if frame.isNull || frame.len < 1 || TA_PQCHSM_MAX_MSG + 1 < frame.len then none
  else
    let ctxLen := (frame.toBytes.headD 0).toNat
    if frame.len < 1 + ctxLen then none
    else some ((frame.toBytes.drop 1).take ctxLen, frame.toBytes.drop (1 + ctxLen))

def cmdSign (alg : UInt32) (blob frame : Span) (sigCap : Nat) : TaOut :=
  match st.gKek, taPqcDims alg with
  | none, _ => { rc := .badState }
  | some _, none => { rc := .badParameters }
  | some kek, some (a, d) =>
    if d.kind ≠ .sig then { rc := .badParameters }
    else match parseFrame frame with
    | none => { rc := .badParameters }
    | some (ctx, msg) =>
      if sigCap < d.sigLen then { rc := .shortBuffer, size := some (3, d.sigLen) }
      else match unwrapSk T e kek blob d.skLen with
      | .error rc => { rc }
      | .ok sk =>
        match T.sign a sk msg ctx e.random with
        | none => { rc := .generic, keyUsed := some sk }
        | some sig =>
          { rc := .success, written := [(3, sig)], size := some (3, sig.length),
            keyUsed := some sk }

/-- `seed_words`: the words and the bytes of a seed for a target. -/
def seedWords (tgt : UInt32) : Option (UInt32 × Nat) :=
  if tgt = 0 then some (16, TA_SEED_LEN_MLKEM)
  else if tgt = 1 then some (8, TA_SEED_LEN_MLDSA)
  else none

/-- The result of `seed_push` and of the word loop of `sym_push`. -/
def TaEnv.pushResult (e : TaEnv) : TaResult := e.push.elim .success .other

/-- `seed_new_or_to_pl`; `wantBlob` is the capacity for the blob, if one is wanted. -/
def seedNewOrToPl (tgt : UInt32) (wantBlob : Option Nat) : TaOut :=
  match seedWords tgt, wantBlob, st.gKek with
  | none, _, _ => { rc := .badParameters }
  | some _, some _, none => { rc := .badState }
  | some (words, nbytes), wantBlob, gKek =>
    match e.entropy with
    | .error code => { rc := .other code }
    | .ok entropy =>
      let seed := (ofStream nbytes entropy).toList
      match e.pushResult, wantBlob, gKek with
      | .success, some cap, some kek =>
        match taWrapSeal T.backend T.gcm e.lib kek (.null 0) (.mem seed) e.nonce cap with
        | none => { rc := .shortBuffer }
        | some blob =>
          { rc := .success, written := [(1, blob)], value := some words,
            sealing := some ⟨.seedNew tgt, kek, e.nonce, [], seed⟩ }
      | .success, _, _ => { rc := .success, value := some words }
      | rc, _, _ => { rc }

def cmdSeedReplay (tgt : UInt32) (blob : Span) : TaOut :=
  match st.gKek, seedWords tgt with
  | none, _ => { rc := .badState }
  | some _, none => { rc := .badParameters }
  | some kek, some (words, nbytes) =>
    let o := taWrapOpen T.backend T.gcm e.lib kek (.null 0) blob (.mem (e.buffer 64)) 0
    if o.rc ≠ 0 then { rc := .macInvalid }
    else if o.ptLen ≠ nbytes then { rc := .badParameters }
    else
      -- the words that are pushed
      let seed := o.pt.toBytes.take (4 * words.toNat)
      match e.pushResult with
      | .success => { rc := .success, value := some words, keyUsed := some seed }
      | rc => { rc, keyUsed := some seed }

/-- `sym_push`. -/
def symPush (slot : UInt32) (len : Nat) : TaResult :=
  if 7 < slot ∨ (len ≠ 16 ∧ len ≠ 32) then .badParameters else e.pushResult

def cmdSymkeyNew (slot : UInt32) (len : Nat) (blobCap : Nat) : TaOut :=
  match st.gKek with
  | none => { rc := .badState }
  | some kek =>
    if TA_SYM_SLOT_MAX < slot ∨ (len ≠ 16 ∧ len ≠ 32) then { rc := .badParameters }
    else if blobCap < taWrapBlobLen len then
      { rc := .shortBuffer, size := some (1, taWrapBlobLen len) }
    else match e.entropy with
    | .error code => { rc := .other code }
    | .ok entropy =>
      let key := (ofStream len entropy).toList
      match taWrapSeal T.backend T.gcm e.lib kek (.mem TA_SYMKEY_AAD) (.mem key) e.nonce
          blobCap with
      | none => { rc := .generic }
      | some blob =>
        { rc := symPush e slot len, written := [(1, blob)],
          sealing := some ⟨.symkeyNew, kek, e.nonce, TA_SYMKEY_AAD, key⟩ }

def cmdSymkeyLoad (slot : UInt32) (blob : Span) : TaOut :=
  match st.gKek with
  | none => { rc := .badState }
  | some kek =>
    if TA_SYM_SLOT_MAX < slot then { rc := .badParameters }
    else if blob.isNull || TA_PQCHSM_MAX_BLOB < blob.len then { rc := .badParameters }
    else
      let o := taWrapOpen T.backend T.gcm e.lib kek (.mem TA_SYMKEY_AAD) blob
        (.mem (e.buffer 32)) 0
      if o.rc ≠ 0 then { rc := .macInvalid }
      else if o.ptLen ≠ 16 ∧ o.ptLen ≠ 32 then { rc := .badParameters }
      else { rc := symPush e slot o.ptLen, keyUsed := some (o.pt.toBytes.take o.ptLen) }

/-- `cmd_symkey_kat`: a published key goes to its own slot only. -/
def cmdSymkeyKat (slot id : UInt32) : TaOut :=
  if slot ≠ TA_SYM_KAT_SLOT then { rc := .accessDenied }
  else match id.toNat with
  | 0 => { rc := symPush e TA_SYM_KAT_SLOT 16 }
  | 1 => { rc := symPush e TA_SYM_KAT_SLOT 16 }
  | 2 => { rc := symPush e TA_SYM_KAT_SLOT 32 }
  | _ => { rc := .badParameters }

end Commands

/-- The commands with their parameters, and the end of the instance. -/
inductive TaCmd where
  | getInfo
  | kekSet (salt : Span)
  | keygen (alg : UInt32) (pkCap blobCap : Nat)
  | keygenFromSeed (alg : UInt32) (seed : Span) (pkCap blobCap : Nat)
  | decaps (alg : UInt32) (blob ct : Span) (ssCap : Nat)
  | sign (alg : UInt32) (blob frame : Span) (sigCap : Nat)
  | seedToPl (tgt : UInt32)
  | seedNew (tgt : UInt32) (blobCap : Nat)
  | seedReplay (tgt : UInt32) (blob : Span)
  | symkeyNew (slot : UInt32) (len blobCap : Nat)
  | symkeyLoad (slot : UInt32) (blob : Span)
  | symkeyKat (slot id : UInt32)
  | destroy
  deriving DecidableEq

section Run

variable (T : TaLib)

def taStep (st : TaState) (e : TaEnv) : TaCmd → TaOut × TaState
  | .getInfo => ({ rc := .success, value := some 0x1c }, st)
  | .kekSet salt => cmdKekSet T st e salt
  | .keygen alg pkCap blobCap => (cmdKeygen T st e alg pkCap blobCap, st)
  | .keygenFromSeed alg seed pkCap blobCap => (cmdKeygenFromSeed T st e alg seed pkCap blobCap, st)
  | .decaps alg blob ct ssCap => (cmdDecaps T st e alg blob ct ssCap, st)
  | .sign alg blob frame sigCap => (cmdSign T st e alg blob frame sigCap, st)
  | .seedToPl tgt => (seedNewOrToPl T st e tgt none, st)
  | .seedNew tgt blobCap => (seedNewOrToPl T st e tgt (some blobCap), st)
  | .seedReplay tgt blob => (cmdSeedReplay T st e tgt blob, st)
  | .symkeyNew slot len blobCap => (cmdSymkeyNew T st e slot len blobCap, st)
  | .symkeyLoad slot blob => (cmdSymkeyLoad T st e slot blob, st)
  | .symkeyKat slot id => (cmdSymkeyKat e slot id, st)
  | .destroy => ({ rc := .success }, ⟨none, none⟩)

/-- A run, with all that has been sealed in it. -/
structure TaRun where
  st : TaState
  seals : List TaSealing

def TaRun.next (r : TaRun) (a : TaCmd × TaEnv) : TaRun :=
  ⟨(taStep T r.st a.2 a.1).2, (taStep T r.st a.2 a.1).1.sealing.toList ++ r.seals⟩

/-- An instance that has just been created. -/
def TaRun.fresh : TaRun := ⟨⟨none, none⟩, []⟩

def taSystem : System TaRun (TaCmd × TaEnv) :=
  .ofFun (· = .fresh) (TaRun.next T)

end Run

end PqcHsm
