import PqcHsm.P11.Signing

/-!
# Secret objects and authenticated encryption of the front end

Three functions make a secret object, and one takes it away. An encryption keeps the handle of its
key and asks the table again when it runs.
-/

namespace PqcHsm

open ByteCodec Sections

/-! ### Attributes -/

/-- `CK_ATTRIBUTE`; a null pointer has no value. -/
structure CkAttribute where
  type : UInt64
  value : Option Bytes
  deriving DecidableEq

def CKA_CLASS : UInt64 := 0
def CKA_TOKEN : UInt64 := 1
def CKA_PRIVATE : UInt64 := 2
def CKA_LABEL : UInt64 := 3
def CKA_VALUE : UInt64 := 0x11
def CKA_KEY_TYPE : UInt64 := 0x100
def CKA_ID : UInt64 := 0x102
def CKA_SENSITIVE : UInt64 := 0x103
def CKA_SIGN : UInt64 := 0x108
def CKA_VERIFY : UInt64 := 0x10a
def CKA_VALUE_LEN : UInt64 := 0x161
def CKA_EXTRACTABLE : UInt64 := 0x162
def CKA_PARAMETER_SET : UInt64 := 0x61d
def CKA_ENCAPSULATE : UInt64 := 0x633
def CKA_DECAPSULATE : UInt64 := 0x634
def CKA_SEED : UInt64 := 0x637
def CKA_PQCHSM_BACKUPABLE : UInt64 := 0x80000001
def CKA_PQCHSM_SEED_STORAGE : UInt64 := 0x80000002
def CKO_PUBLIC_KEY : UInt64 := 2
def CKO_PRIVATE_KEY : UInt64 := 3
def CKO_SECRET_KEY : UInt64 := 4

/-- `(CK_ULONG)-1`. -/
def CK_NONE : UInt64 := 0xffffffffffffffff

def findAttr (t : List CkAttribute) (type : UInt64) : Option CkAttribute :=
  t.find? fun a => a.type == type

def attrBool (t : List CkAttribute) (type : UInt64) (dflt : Bool) : Bool :=
  match (findAttr t type).bind CkAttribute.value with
  | some [b] => b ≠ 0
  | _ => dflt

def attrUlong (a : Option CkAttribute) (dflt : UInt64) : UInt64 :=
  match a.bind CkAttribute.value with
  | some v => if v.length = 8 then (getU64 v).1 else dflt
  | none => dflt

/-- `alg_from_param` for the two families of keys. -/
def algFromParam (keyType paramSet : UInt64) : PqcAlg :=
  if keyType = CKK_ML_DSA then
    match paramSet with
    | 1 => .mlDsa44
    | 2 => .mlDsa65
    | 3 => .mlDsa87
    | _ => .none
  else if keyType = CKK_ML_KEM then
    match paramSet with
    | 1 => .mlKem512
    | 2 => .mlKem768
    | 3 => .mlKem1024
    | _ => .none
  else .none

variable {n : Nat}

/-! ### Making and destroying objects -/

/-- `secret_alloc` and the fields set after it. -/
def P11State.keepSecret (st : P11State n) (k : P11Secret) : Option (CkHandle × P11State n) :=
  st.freeSecret.map fun j =>
    (secretHandle j, { st with gSecrets := Function.update st.gSecrets j (some k) })

/-- What a function does before it allocates a secret object: a refusal, or the object with what the
caller sees otherwise. -/
abbrev SecretRequest := Except P11Out (P11Secret × P11Out)

/-- The end of a function that makes a secret object. -/
def finishSecret (st : P11State n) : SecretRequest → P11Out × P11State n
  | .error out => (out, st)
  | .ok (k, out) =>
    match st.keepSecret k with
    | none => ({ out with rv := .hostMemory, len := none }, st)
    | some (h, st) => ({ out with handle := some h }, st)

def secretKeyType (t : List CkAttribute) : UInt64 :=
  attrUlong (findAttr t CKA_KEY_TYPE) CKK_GENERIC_SECRET

/-- The fields of a secret object that a template gives. -/
def secretObject (owner : CkHandle) (val : Bytes) (t : List CkAttribute) (label : Label) :
    P11Secret :=
  { owner, val, label
    keyType := secretKeyType t
    sensitive := attrBool t CKA_SENSITIVE true
    extractable := attrBool t CKA_EXTRACTABLE false }

/-- The label buffer of an imported key: at most 31 bytes, padded with zeros. -/
def secretLabel (t : List CkAttribute) : Label :=
  match (findAttr t CKA_LABEL).bind CkAttribute.value with
  | some v => Label.ofCString v
  | none => Label.blank

/-- The checks of `C_CreateObject` for a secret key. -/
def secretImport (owner : CkHandle) (t : List CkAttribute) : SecretRequest :=
  match (findAttr t CKA_VALUE).bind CkAttribute.value with
  | none => .error { rv := .templateIncomplete }
  | some [] => .error { rv := .templateIncomplete }
  | some v =>
    if SECRET_MAX_LEN < v.length then .error { rv := .attributeValueInvalid }
    else .ok (secretObject owner v t (secretLabel t), { rv := .ok })

/-- A key pair to be made from a seed. -/
structure SeedImport where
  alg : PqcAlg
  usage : UInt32
  policy : UInt32
  seed : Bytes

/-- The checks of `C_CreateObject` for a private key: only a seed comes in. -/
def seedImport (t : List CkAttribute) : Except CkRv SeedImport :=
  if (findAttr t CKA_VALUE).isSome then .error .attributeTypeInvalid
  else match (findAttr t CKA_SEED).bind CkAttribute.value with
  | none => .error .templateIncomplete
  | some seed =>
    let kt := attrUlong (findAttr t CKA_KEY_TYPE) CK_NONE
    let pset := attrUlong (findAttr t CKA_PARAMETER_SET) 0
    if kt ≠ CKK_ML_KEM ∧ kt ≠ CKK_ML_DSA then
      .error (if kt = CK_NONE then .templateIncomplete else .attributeValueInvalid)
    else match pqcAlgInfo (algFromParam kt pset) with
    | none => .error (if pset = 0 then .templateIncomplete else .attributeValueInvalid)
    | some info =>
      if seed.length ≠ info.seedLen then .error .attributeValueInvalid
      else
        .ok {
          alg := algFromParam kt pset
          usage := match info.kind with
            | .sig => KEY_USAGE_SIGN
            | .kem => KEY_USAGE_DECAP
          policy :=
            (if attrBool t CKA_PQCHSM_BACKUPABLE true then SLOT_POLICY_BACKUPABLE else 0) |||
            (if attrBool t CKA_PQCHSM_SEED_STORAGE false then SLOT_POLICY_SEED_STORAGE else 0)
          seed := seed }

section Token

variable (S : Setup)

/-- The slot manager has no persist hook here. -/
def noHook : DevProg n Bool := pure true

def loadSeedObject (sess : HsmSession) (q : SeedImport) : DevProg n P11Out := do
  match ← hsmSlotLoadSeed noHook S sess q.alg q.usage q.policy q.seed with
  | (.ok, h) => do
    persist S
    let h := p11HandleOfCore (h.getD HSM_INVALID_HANDLE)
    pure (if h = 0 then { rv := .generalError } else { rv := .ok, handle := some h })
  | (st, _) => pure { rv := mapStatus st }

def cCreateObject (st : P11State n) (hSession : CkHandle) (template : Option (List CkAttribute))
    (phObject : Bool) (env : Nat → Env) : P11Out × P11State n :=
  match st.enter hSession (template.isSome && phObject) with
  | .error rv => ({ rv }, st)
  | .ok i =>
    let t := template.getD []
    let cls := attrUlong (findAttr t CKA_CLASS) CK_NONE
    if cls = CKO_SECRET_KEY then finishSecret st (secretImport hSession t)
    else if cls ≠ CKO_PRIVATE_KEY then
      ({ rv := if cls = CK_NONE then .templateIncomplete else .attributeValueInvalid }, st)
    else match seedImport t with
    | .error rv => ({ rv }, st)
    | .ok q =>
      let r := (loadSeedObject S (st.gSessions i).sess q).run env st.gTok
      (r.1, { st with gTok := r.2.1 })

/-- `C_EncapsulateKey` up to `secret_alloc`; `phKey` says whether that pointer is there. -/
def encapsRequest (L : P11Lib) (sess : HsmSession) (owner hPublicKey : CkHandle)
    (t : List CkAttribute) (out : OutBuf) (phKey : Bool) : DevProg n SecretRequest := do
  if hPublicKey &&& PUB_BIT = 0 then pure (.error { rv := .keyTypeInconsistent })
  else
    match ← hsmSlotGetMeta S (slotOfHandle hPublicKey) with
    | .error _ => pure (.error { rv := .objectHandleInvalid })
    | .ok m =>
      match pqcAlgInfo m.alg with
      | none => pure (.error { rv := .keyTypeInconsistent })
      | some info =>
        if info.kind ≠ .kem then pure (.error { rv := .keyTypeInconsistent })
        else if !out.ptr then pure (.error { rv := .ok, len := some info.ctLen })
        else if out.len.getD 0 < info.ctLen then
          pure (.error { rv := .bufferTooSmall, len := some info.ctLen })
        else if !phKey then pure (.error { rv := .argumentsBad })
        else if SECRET_MAX_LEN < info.ssLen then pure (.error { rv := .generalError })
        else do
          let alloc ← Prog.ask Env.allocOk
          if !alloc then pure (.error { rv := .hostMemory })
          else do
            let h ← coreHandleOf S hPublicKey
            match ← hsmObjectPublicKey S sess h (some info.pkLen) with
            | (.ok, pk) => do
              match ← Prog.ask (L.encaps m.alg (pk.getD [])) with
              | none => pure (.error { rv := .deviceError })
              | some (ct, ss) =>
                pure (.ok (secretObject owner (ss.take info.ssLen) t Label.blank,
                  { rv := .ok, len := some info.ctLen, written := [(0, ct)] }))
            | (st, _) => pure (.error { rv := mapStatus st })

def cEncapsulateKey (L : P11Lib) (st : P11State n) (hSession : CkHandle)
    (mechanism : Option UInt64) (hPublicKey : CkHandle) (t : List CkAttribute) (out : OutBuf)
    (phKey : Bool) (env : Nat → Env) : P11Out × P11State n :=
  match st.enter hSession (mechanism.isSome && out.len.isSome) with
  | .error rv => ({ rv }, st)
  | .ok i =>
    if mechanism ≠ some CKM_ML_KEM then ({ rv := .mechanismInvalid }, st)
    else
      let r := (encapsRequest S L (st.gSessions i).sess hSession hPublicKey t out phKey).run
        env st.gTok
      finishSecret { st with gTok := r.2.1 } r.1

/-- `C_DecapsulateKey` up to `secret_alloc`. -/
def decapsRequest (sess : HsmSession) (owner hPrivateKey : CkHandle) (t : List CkAttribute)
    (ct : Bytes) : DevProg n SecretRequest := do
  if hPrivateKey &&& PUB_BIT ≠ 0 then pure (.error { rv := .keyTypeInconsistent })
  else
    match ← hsmSlotGetMeta S (slotOfHandle hPrivateKey) with
    | .error _ => pure (.error { rv := .objectHandleInvalid })
    | .ok m =>
      match pqcAlgInfo m.alg with
      | none => pure (.error { rv := .keyTypeInconsistent })
      | some info =>
        if info.kind ≠ .kem then pure (.error { rv := .keyTypeInconsistent })
        else if ct.length ≠ info.ctLen then pure (.error { rv := .encryptedDataLenRange })
        else do
          let h ← coreHandleOf S hPrivateKey
          match ← hsmObjectDecaps S sess h ct (some SECRET_MAX_LEN) with
          | (.ok, ss) => pure (.ok (secretObject owner (ss.getD []) t Label.blank, { rv := .ok }))
          | (st, _) => pure (.error { rv := mapStatus st })

def cDecapsulateKey (st : P11State n) (hSession : CkHandle) (mechanism : Option UInt64)
    (hPrivateKey : CkHandle) (t : List CkAttribute) (ct : Option Bytes) (phKey : Bool)
    (env : Nat → Env) : P11Out × P11State n :=
  match st.enter hSession (mechanism.isSome && ct.isSome && phKey) with
  | .error rv => ({ rv }, st)
  | .ok i =>
    if mechanism ≠ some CKM_ML_KEM then ({ rv := .mechanismInvalid }, st)
    else
      let r := (decapsRequest S (st.gSessions i).sess hSession hPrivateKey t (ct.getD [])).run
        env st.gTok
      let fin := finishSecret { st with gTok := r.2.1 } r.1
      (fin.1,
        if fin.1.rv = .ok then { fin.2 with gTok := ((persist S).run r.2.2 fin.2.gTok).2.1 }
        else fin.2)

def destroyObject (sess : HsmSession) (h : CkHandle) : DevProg n CkRv := do
  let core ← coreHandleOf S h
  if core = HSM_INVALID_HANDLE then pure .objectHandleInvalid
  else do
    let st ← hsmObjectDestroy noHook S sess core
    if st = .ok then persist S
    pure (mapStatus st)

/-- `C_DestroyObject`: any session destroys any secret object. -/
def cDestroyObject (st : P11State n) (hSession hObject : CkHandle) (env : Nat → Env) :
    P11Out × P11State n :=
  match st.enter hSession true with
  | .error rv => ({ rv }, st)
  | .ok i =>
    if hObject &&& SECRET_BIT ≠ 0 then
      match secretSlot hObject with
      | none => ({ rv := .objectHandleInvalid }, st)
      | some j =>
        if (st.gSecrets j).isNone then ({ rv := .objectHandleInvalid }, st)
        else ({ rv := .ok }, { st with gSecrets := Function.update st.gSecrets j none })
    else
      let r := (destroyObject S (st.gSessions i).sess hObject).run env st.gTok
      ({ rv := r.1 }, { st with gTok := r.2.1 })

end Token

/-! ### Authenticated encryption -/

inductive AeadDir where
  | encrypt
  | decrypt
  deriving DecidableEq

def P11Session.ctx (s : P11Session) : AeadDir → P11AeadCtx
  | .encrypt => s.enc
  | .decrypt => s.dec

def P11State.setCtx (st : P11State n) (i : Fin MAX_P11_SESSIONS) (d : AeadDir)
    (c : P11AeadCtx) : P11State n :=
  st.setSession i <|
    match d with
    | .encrypt => { st.gSessions i with enc := c }
    | .decrypt => { st.gSessions i with dec := c }

/-- `CK_GCM_PARAMS`. -/
structure GcmParams where
  iv : Span
  aad : Span
  tagBits : Nat
  deriving DecidableEq

/-- `CK_MECHANISM`, with the parameter when it is there and has the length of `CK_GCM_PARAMS`. -/
structure CkMechanism where
  mechanism : UInt64
  gcm : Option GcmParams
  deriving DecidableEq

/-- The checks of `aead_init` on its parameters. -/
def GcmParams.valid (p : GcmParams) : Bool :=
  !p.iv.isNull && 1 ≤ p.iv.len && p.iv.len ≤ 16 &&
    p.tagBits % 8 = 0 && 96 ≤ p.tagBits && p.tagBits ≤ 128 && !p.aad.dangling

/-- The checks of `aead_init`. -/
def aeadCheck (st : P11State n) (m : CkMechanism) (hKey : CkHandle) (c : P11AeadCtx) :
    Except CkRv GcmParams :=
  if m.mechanism ≠ CKM_AES_GCM then .error .mechanismInvalid
  else if c.active then .error .operationActive
  else match st.secretAt hKey with
  | none => .error .keyHandleInvalid
  | some k =>
    if k.keyType ≠ CKK_GENERIC_SECRET ∧ k.keyType ≠ CKK_AES then .error .keyTypeInconsistent
    else if k.val.length ≠ 16 ∧ k.val.length ≠ 24 ∧ k.val.length ≠ 32 then .error .keySizeRange
    else match m.gcm with
    | none => .error .mechanismParamInvalid
    | some p => if p.valid then .ok p else .error .mechanismParamInvalid

/-- `C_EncryptInit` and `C_DecryptInit`. -/
def aeadInit (d : AeadDir) (st : P11State n) (hSession : CkHandle) (mechanism : Option CkMechanism)
    (hKey : CkHandle) (malloc : Bool) : P11Out × P11State n :=
  match st.enter hSession mechanism.isSome, mechanism with
  | .error rv, _ => ({ rv }, st)
  | .ok _, none => ({ rv := .argumentsBad }, st)
  | .ok i, some m =>
    match aeadCheck st m hKey ((st.gSessions i).ctx d) with
    | .error rv => ({ rv }, st)
    | .ok p =>
      if p.aad.len ≠ 0 ∧ !malloc then
        ({ rv := .hostMemory }, st.setCtx i d ⟨false, 0, p.iv.toBytes, [], p.tagBits / 8⟩)
      else
        ({ rv := .ok }, st.setCtx i d ⟨true, hKey, p.iv.toBytes, p.aad.toBytes, p.tagBits / 8⟩)

def cEncryptInit (st : P11State n) (hSession : CkHandle) (mechanism : Option CkMechanism)
    (hKey : CkHandle) (malloc : Bool) : P11Out × P11State n :=
  aeadInit .encrypt st hSession mechanism hKey malloc

def cDecryptInit (st : P11State n) (hSession : CkHandle) (mechanism : Option CkMechanism)
    (hKey : CkHandle) (malloc : Bool) : P11Out × P11State n :=
  aeadInit .decrypt st hSession mechanism hKey malloc

/-- `gcm_by_keylen` finds a cipher. -/
def gcmByKeylen (klen : Nat) : Bool := klen = 16 || klen = 24 || klen = 32

section Aead

variable (L : P11Lib)

/-- Ciphertext and tag; `lib` says that the calls which depend on memory alone succeed. -/
def aeadSeal (lib : Bool) (key : Bytes) (c : P11AeadCtx) (pt : Bytes) : Option (Bytes × Bytes) :=
  if !gcmByKeylen key.length || !lib then none
  else (Wrap.evpUpdate (2 ^ 61) c.aad).bind fun aad => (Wrap.evpUpdate Wrap.GCM_DATA_MAX pt).map fun pt =>
    let r := L.gcm.encrypt key c.iv aad pt
    (r.1, r.2.toList.take c.taglen)

/-- What is written to the buffer, and whether the tag fits. -/
def aeadOpen (lib : Bool) (key : Bytes) (c : P11AeadCtx) (ct tag : Bytes) :
    Option (Bytes × Bool) :=
  if !gcmByKeylen key.length || !lib then none
  else (Wrap.evpUpdate (2 ^ 61) c.aad).bind fun aad => (Wrap.evpUpdate Wrap.GCM_DATA_MAX ct).map fun ct =>
    (L.gcm.crypt key c.iv ct, (L.gcm.tag key c.iv aad ct).toList.take c.taglen = tag)

def cEncrypt (st : P11State n) (hSession : CkHandle) (data : Bytes) (out : OutBuf)
    (lib : Bool) : P11Out × P11State n :=
  match st.enter hSession out.len.isSome with
  | .error rv => ({ rv }, st)
  | .ok i =>
    let c := (st.gSessions i).enc
    if !c.active then ({ rv := .operationNotInitialized }, st)
    else
      let need := data.length + c.taglen
      if !out.ptr then ({ rv := .ok, len := some need }, st)
      else if out.len.getD 0 < need then ({ rv := .bufferTooSmall, len := some need }, st)
      else match st.secretAt c.key with
      | none => ({ rv := .keyHandleInvalid }, st)
      | some k =>
        match aeadSeal L lib k.val c data with
        | none => ({ rv := .functionFailed, keyUsed := some k.val }, st)
        | some (ct, tag) =>
          ({ rv := .ok, len := some need, written := [(0, ct), (data.length, tag)],
             keyUsed := some k.val }, st.setCtx i .encrypt .idle)

def cDecrypt (st : P11State n) (hSession : CkHandle) (data : Bytes) (out : OutBuf)
    (lib : Bool) : P11Out × P11State n :=
  match st.enter hSession out.len.isSome with
  | .error rv => ({ rv }, st)
  | .ok i =>
    let c := (st.gSessions i).dec
    if !c.active then ({ rv := .operationNotInitialized }, st)
    else if data.length < c.taglen then ({ rv := .encryptedDataLenRange }, st)
    else
      let ptLen := data.length - c.taglen
      if !out.ptr then ({ rv := .ok, len := some ptLen }, st)
      else if out.len.getD 0 < ptLen then ({ rv := .bufferTooSmall, len := some ptLen }, st)
      else match st.secretAt c.key with
      | none => ({ rv := .keyHandleInvalid }, st)
      | some k =>
        match aeadOpen L lib k.val c (data.take ptLen) (data.drop ptLen) with
        | some (pt, true) =>
          ({ rv := .ok, len := some ptLen, written := [(0, pt)], keyUsed := some k.val },
            st.setCtx i .decrypt .idle)
        -- a refused tag leaves what was decrypted in the buffer of the caller
        | some (pt, false) =>
          ({ rv := .encryptedDataInvalid, written := [(0, pt)], keyUsed := some k.val },
            st.setCtx i .decrypt .idle)
        | none =>
          ({ rv := .encryptedDataInvalid, keyUsed := some k.val }, st.setCtx i .decrypt .idle)

end Aead

end PqcHsm
