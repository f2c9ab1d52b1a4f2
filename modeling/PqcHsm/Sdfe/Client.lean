import PqcHsm.Sdfe.Wire

/-!
# The client library

`call` sends one request and takes one response; every function of the library refuses on its
own or makes one call and works on what the call returned.
-/

namespace PqcHsm

open ByteCodec

/-- What is asked for, and the capacity of the buffer for the answer. -/
structure Exchange where
  req : PqcsReq
  outCap : UInt32
  deriving DecidableEq

/-- What a call took for the response to its request, and where. -/
structure Reading where
  sentAt : Nat
  takenAt : Nat
  status : UInt32
  len : UInt32
  payload : Bytes
  deriving DecidableEq

/-- What `call` returns, with the bytes of the output buffer. -/
structure Called where
  rv : UInt32
  out : Bytes
  reading : Option Reading
  deriving DecidableEq

def Called.failed (rv : UInt32) : Called := ⟨rv, [], none⟩

/-- The writes of `call`. -/
def callSend (daemon : Daemon) (q : PqcsReq) (io : Nat → Option Nat) (l : Link) : Bool × Link :=
  match devWrite daemon true (io 0) q.header l with
  | (false, l) => (false, l)
  | (true, l) => if q.payload.len = 0 then (true, l) else devWrite daemon false (io 1) q.payload.val l

/-- The reads of `call`, for a request that began at the given place. -/
def callTake (outCap : UInt32) (sentAt : Nat) (io : Nat → Option Nat) (l : Link) : Called × Link :=
  match devRead (io 2) RESP_HDR l with
  | (none, l₁) => (.failed SDR_COMMFAIL, l₁)
  | (some header, l₁) =>
    let (magic, p) := getU32 header
    let (status, p) := getU32 p
    let (len, _) := getU32 p
    if magic ≠ PQCS_MAGIC then (.failed SDR_COMMFAIL, l₁)
    -- the payload of the response stays in the stream
    else if outCap < len then (.failed SDR_INARGERR, l₁)
    else if len = 0 then (⟨status, [], some ⟨sentAt, l.taken, status, len, []⟩⟩, l₁)
    else
      match devRead (io 3) len.toNat l₁ with
      | (none, l₂) => (.failed SDR_COMMFAIL, l₂)
      | (some out, l₂) => (⟨status, out, some ⟨sentAt, l.taken, status, len, out⟩⟩, l₂)

/-- `call` on an open handle. Each of its four transfers is complete or cut. -/
def call (daemon : Daemon) (x : Exchange) (io : Nat → Option Nat) (l : Link) : Called × Link :=
  match callSend daemon x.req io l with
  | (false, l₁) => (.failed SDR_COMMFAIL, l₁)
  | (true, l₁) => callTake x.outCap l.sent io l₁

/-- A function of the library: refused before a request is sent, one call and what is made of its
status and its output, or a local buffer overrun. -/
inductive Sdfe (α : Type) where
  | ret (a : α)
  | ask (x : Exchange) (finish : UInt32 → Bytes → α)
  | overrun

namespace Sdfe

variable {α β : Type}

def map (f : α → β) : Sdfe α → Sdfe β
  | ret a => ret (f a)
  | ask x finish => ask x fun rv out => f (finish rv out)
  | overrun => overrun

def exchange : Sdfe α → Option Exchange
  | ask x _ => some x
  | _ => none

end Sdfe

section Functions

/-! ### The functions

Outputs are optional: a function that does not write them returns `none`. -/

/-- `(uint32_t)cap - 1` bytes are left for the text; for `cap = 0` that is the largest value. -/
def sdfeGetDeviceInfo (cap : Nat) : Sdfe (UInt32 × Bytes) :=
  .ask ⟨⟨OP_PING, 0, 0, .empty⟩, UInt32.ofNat cap - 1⟩ fun rv out => (rv, out)

def sdfeGenerateRandom (len : UInt32) : Sdfe (UInt32 × Bytes) :=
  .ask ⟨⟨OP_RANDOM, len, 0, .empty⟩, len⟩ fun rv out => (rv, out)

/-- A handle and a public key, where the public key fits. -/
structure KeypairOut where
  rv : UInt32
  handle : Option UInt32
  pk : Option Bytes

/-- The response to a key generation: four bytes of handle and the public key. -/
def takeKeypair (cap : UInt32) (pkLen : Option Nat) (rv : UInt32) (out : Bytes) : KeypairOut :=
  if rv ≠ SDR_OK then ⟨rv, none, none⟩
  else if out.length < 4 then ⟨SDR_COMMFAIL, none, none⟩
  else
    let (handle, pk) := getU32 out
    if cap.toNat < pk.length then ⟨SDR_INARGERR, some handle, none⟩
    else if pkLen.any (pk.length ≠ ·) then ⟨SDR_HARDFAIL, some handle, none⟩
    else ⟨SDR_OK, some handle, some pk⟩

/-- `ekCap` is absent where one of the output pointers is null. -/
def sdfeGenerateKeyPairMlkem (pset : UInt32) (ekCap : Option UInt32) : Sdfe KeypairOut :=
  match ekCap with
  | none => .ret ⟨SDR_INARGERR, none, none⟩
  | some cap => .ask ⟨⟨OP_MLKEM_KEYGEN, pset, 0, .empty⟩, 2048⟩ (takeKeypair cap none)

structure EncapsOut where
  rv : UInt32
  ss : Option Bytes
  ct : Option Bytes

def sdfeEncapsulateMlkem (pset : UInt32) (ek : Buf32) (ssCap ctCap : UInt32) : Sdfe EncapsOut :=
  .ask ⟨⟨OP_MLKEM_ENCAPS, pset, 0, ek⟩, 2048⟩ fun rv out =>
    if rv ≠ SDR_OK then ⟨rv, none, none⟩
    else if out.length < 32 ∨ ctCap.toNat < out.length - 32 ∨ ssCap < 32 then
      ⟨SDR_INARGERR, none, none⟩
    else ⟨SDR_OK, some (out.take 32), some (out.drop 32)⟩

/-- What the call wrote into the buffer of the secret, and the new value of `*ss_len`. -/
structure DecapsOut where
  rv : UInt32
  ss : Bytes
  ssLen : UInt32

def sdfeDecapsulateMlkem (handle : UInt32) (ct : Buf32) (ssCap : UInt32) : Sdfe DecapsOut :=
  .ask ⟨⟨OP_MLKEM_DECAPS, handle, 0, ct⟩, ssCap⟩ fun rv out =>
    ⟨rv, out, if rv = SDR_OK then UInt32.ofNat out.length else ssCap⟩

def sdfeMldsaPk (pset : UInt32) : Nat := if pset = 0 then 1312 else if pset = 1 then 1952 else 2592
def sdfeMldsaSig (pset : UInt32) : Nat := if pset = 0 then 2420 else if pset = 1 then 3309 else 4627

def sdfeGenerateKeyPairMldsa (pset : UInt32) (pkCap : Option UInt32) : Sdfe KeypairOut :=
  match pkCap with
  | none => .ret ⟨SDR_INARGERR, none, none⟩
  | some cap =>
    if 2 < pset then .ret ⟨SDR_INARGERR, none, none⟩
    else .ask ⟨⟨OP_MLDSA_KEYGEN, pset, 0, .empty⟩, 4 + 2592⟩
      (takeKeypair cap (some (sdfeMldsaPk pset)))

/-- A null message with a length is absent. -/
def sdfeSignMldsa (handle : UInt32) (msg : Option Buf32) (ctxLen : UInt32) (sigCap : Option UInt32) :
    Sdfe (UInt32 × Bytes) :=
  match sigCap, msg with
  | some cap, some msg =>
    if ctxLen ≠ 0 then .ret (SDR_INARGERR, [])
    else if PQCS_MAXPAY < msg.len then .ret (SDR_INARGERR, [])
    else .ask ⟨⟨OP_MLDSA_SIGN, handle, ctxLen, msg⟩, cap⟩ fun rv out => (rv, out)
  | _, _ => .ret (SDR_INARGERR, [])

def sdfeVerifyMldsa (pset : UInt32) (pk msg : Option Buf32) (ctxLen : UInt32) (sig : Option Buf32)
    (allocOk : Bool) : Sdfe UInt32 :=
  match pk, sig, msg with
  | some pk, some sig, some msg =>
    if 2 < pset then .ret SDR_INARGERR
    else if ctxLen ≠ 0 then .ret SDR_INARGERR
    else if pk.val.length ≠ sdfeMldsaPk pset ∨ sig.val.length ≠ sdfeMldsaSig pset then
      .ret SDR_INARGERR
    else if h : PQCS_MAXPAY.toNat < (pk.val ++ (sig.val ++ msg.val)).length then .ret SDR_INARGERR
    else if !allocOk then .ret SDR_UNKNOWERR
    else .ask ⟨⟨OP_MLDSA_VERIFY, pset, ctxLen, pk.val ++ (sig.val ++ msg.val),
      Nat.lt_of_le_of_lt (Nat.not_lt.mp h) PQCS_MAXPAY.toNat_lt⟩, 0⟩ fun rv _ => rv
  | _, _, _ => .ret SDR_INARGERR

def PQCS_SYMKEY_BLOB_MAX : UInt32 := 128

/-- The response that is a wrapped key. -/
def takeBlob (cap rv : UInt32) (out : Bytes) : UInt32 × Option Bytes :=
  if rv ≠ SDR_OK then (rv, none)
  else if out.length = 0 ∨ cap.toNat < out.length then (SDR_INARGERR, none)
  else (SDR_OK, some out)

/-- The response of a fixed length. -/
def takeExact (len : Nat) (rv : UInt32) (out : Bytes) : UInt32 :=
  if rv ≠ SDR_OK then rv else if out.length = len then SDR_OK else SDR_UNKNOWERR

def sdfeImportKey : Sdfe UInt32 := .ret SDR_NOTSUPPORT

def sdfeGenerateKey (slot keyLen : UInt32) (blobCap : Option UInt32) :
    Sdfe (UInt32 × Option Bytes) :=
  match blobCap with
  | none => .ret (SDR_INARGERR, none)
  | some cap =>
    if keyLen ≠ 16 ∧ keyLen ≠ 32 then .ret (SDR_INARGERR, none)
    else .ask ⟨⟨OP_SYMKEY_GEN, slot, keyLen, .empty⟩, PQCS_SYMKEY_BLOB_MAX⟩ (takeBlob cap)

def sdfeLoadKey (slot : UInt32) (blob : Option Buf32) : Sdfe UInt32 :=
  match blob with
  | none => .ret SDR_INARGERR
  | some blob =>
    if blob.len = 0 ∨ PQCS_SYMKEY_BLOB_MAX < blob.len then .ret SDR_INARGERR
    else .ask ⟨⟨OP_SYMKEY_LOAD, slot, 0, blob⟩, 0⟩ fun rv _ => rv

def sdfeExportKeyBlob (kind handle : UInt32) (blobCap : Option UInt32) :
    Sdfe (UInt32 × Option Bytes) :=
  match blobCap with
  | none => .ret (SDR_INARGERR, none)
  | some cap => .ask ⟨⟨OP_PQC_BLOB_EXPORT, kind, handle, .empty⟩, 256⟩ (takeBlob cap)

/-- `wantsHandle` is false where the pointer for the handle is null. -/
def sdfeImportKeyBlob (kind pset : UInt32) (blob : Option Buf32) (wantsHandle : Bool) :
    Sdfe (UInt32 × Option UInt32) :=
  match blob with
  | none => .ret (SDR_INARGERR, none)
  | some blob =>
    if blob.len = 0 ∨ !wantsHandle then .ret (SDR_INARGERR, none)
    else .ask ⟨⟨OP_PQC_BLOB_IMPORT, kind, pset, blob⟩, 4⟩ fun rv out =>
      if rv ≠ SDR_OK then (rv, none)
      else if out.length ≠ 4 then (SDR_COMMFAIL, none)
      else (SDR_OK, some (getU32 out).1)

def sdfeLoadKatKey (katId : UInt32) : Sdfe UInt32 :=
  .ask ⟨⟨OP_SYMKEY_KAT, katId, 0, .empty⟩, 0⟩ fun rv _ => rv

/-- One block, `sym`. -/
def sdfeSym (alg slot : UInt32) (dec : Bool) (block : ByteVec 16) : Sdfe (UInt32 × Bytes) :=
  .ask ⟨⟨OP_SYM_BLOCK, alg, slot ||| (if dec then 0x100 else 0 : UInt32), block.toList, by
    rw [block.toList_length]
    decide⟩, 16⟩ fun rv out => (rv, out)

def sdfeEncrypt (alg slot : UInt32) (block : ByteVec 16) := sdfeSym alg slot false block
def sdfeDecrypt (alg slot : UInt32) (block : ByteVec 16) := sdfeSym alg slot true block

/-- A mode of operation, `sym_mode`. The check of the length is a 32-bit addition: the longest
inputs pass it and overrun the local buffer. -/
def sdfeSymMode (alg mode slot : UInt32) (dec : Bool) (iv : Option (ByteVec 16))
    (input : Option Buf32) (outOk : Bool) : Sdfe (UInt32 × Bytes) :=
  match iv, input with
  | some iv, some input =>
    if !outOk ∨ input.len = 0 then .ret (SDR_INARGERR, [])
    else if PQCS_MAXPAY < input.len + 16 then .ret (SDR_INARGERR, [])
    else if h : PQCS_MAXPAY.toNat < (iv.toList ++ input.val).length then .overrun
    else .ask ⟨⟨OP_SYM_CRYPT, alg ||| (if dec then 0x100 else 0 : UInt32) ||| mode <<< 16, slot,
      iv.toList ++ input.val, Nat.lt_of_le_of_lt (Nat.not_lt.mp h) PQCS_MAXPAY.toNat_lt⟩,
        input.len⟩ fun rv out => (takeExact input.val.length rv out, out)
  | _, _ => .ret (SDR_INARGERR, [])

def sdfeEncryptMode (alg mode slot : UInt32) (iv : Option (ByteVec 16)) (input : Option Buf32)
    (outOk : Bool) := sdfeSymMode alg mode slot false iv input outOk

def sdfeDecryptMode (alg mode slot : UInt32) (iv : Option (ByteVec 16)) (input : Option Buf32)
    (outOk : Bool) := sdfeSymMode alg mode slot true iv input outOk

def sdfeHashSm3 (input : Option Buf32) (outOk : Bool) : Sdfe (UInt32 × Bytes) :=
  match input with
  | none => .ret (SDR_INARGERR, [])
  | some input =>
    if !outOk ∨ input.len = 0 then .ret (SDR_INARGERR, [])
    else .ask ⟨⟨OP_SM3, 0, 0, input⟩, 32⟩ fun rv out => (takeExact 32 rv out, out)

def sdfeGetDeviceDna (outOk : Bool) : Sdfe (UInt32 × Bytes) :=
  if !outOk then .ret (SDR_INARGERR, [])
  else .ask ⟨⟨OP_DEVICE_DNA, 0, 0, .empty⟩, 16⟩ fun rv out => (takeExact 16 rv out, out)

end Functions

/-- A use of a device handle. -/
inductive SdfeApi where
  | getDeviceInfo (cap : Nat)
  | generateRandom (len : UInt32)
  | generateKeyPairMlkem (pset : UInt32) (ekCap : Option UInt32)
  | encapsulateMlkem (pset : UInt32) (ek : Buf32) (ssCap ctCap : UInt32)
  | decapsulateMlkem (handle : UInt32) (ct : Buf32) (ssCap : UInt32)
  | generateKeyPairMldsa (pset : UInt32) (pkCap : Option UInt32)
  | signMldsa (handle : UInt32) (msg : Option Buf32) (ctxLen : UInt32) (sigCap : Option UInt32)
  | verifyMldsa (pset : UInt32) (pk msg : Option Buf32) (ctxLen : UInt32) (sig : Option Buf32)
      (allocOk : Bool)
  | importKey
  | generateKey (slot keyLen : UInt32) (blobCap : Option UInt32)
  | loadKey (slot : UInt32) (blob : Option Buf32)
  | exportKeyBlob (kind handle : UInt32) (blobCap : Option UInt32)
  | importKeyBlob (kind pset : UInt32) (blob : Option Buf32) (wantsHandle : Bool)
  | loadKatKey (katId : UInt32)
  | encrypt (alg slot : UInt32) (block : ByteVec 16)
  | decrypt (alg slot : UInt32) (block : ByteVec 16)
  | encryptMode (alg mode slot : UInt32) (iv : Option (ByteVec 16)) (input : Option Buf32)
      (outOk : Bool)
  | decryptMode (alg mode slot : UInt32) (iv : Option (ByteVec 16)) (input : Option Buf32)
      (outOk : Bool)
  | hashSm3 (input : Option Buf32) (outOk : Bool)
  | getDeviceDna (outOk : Bool)

/-- The function behind the use, with the value it returns. -/
def SdfeApi.prog : SdfeApi → Sdfe UInt32
  | getDeviceInfo cap => (sdfeGetDeviceInfo cap).map Prod.fst
  | generateRandom len => (sdfeGenerateRandom len).map Prod.fst
  | generateKeyPairMlkem pset ekCap => (sdfeGenerateKeyPairMlkem pset ekCap).map KeypairOut.rv
  | encapsulateMlkem pset ek ssCap ctCap =>
    (sdfeEncapsulateMlkem pset ek ssCap ctCap).map EncapsOut.rv
  | decapsulateMlkem handle ct ssCap => (sdfeDecapsulateMlkem handle ct ssCap).map DecapsOut.rv
  | generateKeyPairMldsa pset pkCap => (sdfeGenerateKeyPairMldsa pset pkCap).map KeypairOut.rv
  | signMldsa handle msg ctxLen sigCap => (sdfeSignMldsa handle msg ctxLen sigCap).map Prod.fst
  | verifyMldsa pset pk msg ctxLen sig allocOk => sdfeVerifyMldsa pset pk msg ctxLen sig allocOk
  | importKey => sdfeImportKey
  | generateKey slot keyLen blobCap => (sdfeGenerateKey slot keyLen blobCap).map Prod.fst
  | loadKey slot blob => sdfeLoadKey slot blob
  | exportKeyBlob kind handle blobCap => (sdfeExportKeyBlob kind handle blobCap).map Prod.fst
  | importKeyBlob kind pset blob wantsHandle =>
    (sdfeImportKeyBlob kind pset blob wantsHandle).map Prod.fst
  | loadKatKey katId => sdfeLoadKatKey katId
  | encrypt alg slot block => (sdfeEncrypt alg slot block).map Prod.fst
  | decrypt alg slot block => (sdfeDecrypt alg slot block).map Prod.fst
  | encryptMode alg mode slot iv input outOk =>
    (sdfeEncryptMode alg mode slot iv input outOk).map Prod.fst
  | decryptMode alg mode slot iv input outOk =>
    (sdfeDecryptMode alg mode slot iv input outOk).map Prod.fst
  | hashSm3 input outOk => (sdfeHashSm3 input outOk).map Prod.fst
  | getDeviceDna outOk => (sdfeGetDeviceDna outOk).map Prod.fst

namespace Sdfe

variable {α : Type} {f : α → UInt32}

/-- The function hands a failed communication on. -/
def PassesFailure (f : α → UInt32) (p : Sdfe α) : Prop :=
  ∀ x finish, p = .ask x finish → ∀ out, f (finish SDR_COMMFAIL out) = SDR_COMMFAIL

theorem PassesFailure.ask {x : Exchange} {finish : UInt32 → Bytes → α}
    (h : ∀ out, f (finish SDR_COMMFAIL out) = SDR_COMMFAIL) :
    (Sdfe.ask x finish).PassesFailure f := by
  intro x' finish' hEq
  cases hEq
  exact h

theorem PassesFailure.ret (a : α) : (Sdfe.ret a).PassesFailure f := nofun

theorem PassesFailure.overrun : (Sdfe.overrun : Sdfe α).PassesFailure f := nofun

theorem PassesFailure.dite {c : Prop} [Decidable c] {p : c → Sdfe α} {q : ¬ c → Sdfe α}
    (hp : ∀ h, (p h).PassesFailure f) (hq : ∀ h, (q h).PassesFailure f) :
    (if h : c then p h else q h).PassesFailure f := by
  by_cases h : c
  · rw [dif_pos h]
    exact hp h
  · rw [dif_neg h]
    exact hq h

theorem PassesFailure.ite {c : Prop} [Decidable c] {p q : Sdfe α} (hp : p.PassesFailure f)
    (hq : q.PassesFailure f) : (if c then p else q).PassesFailure f := by
  by_cases h : c
  · rwa [if_pos h]
  · rwa [if_neg h]

theorem PassesFailure.map {p : Sdfe α} (h : p.PassesFailure f) : (p.map f).PassesFailure id := by
  cases p with
  | ret a => exact .ret _
  | ask x finish => exact .ask fun out => h x finish rfl out
  | overrun => exact .overrun

end Sdfe

section Failures

open Sdfe

theorem passesFailure_symMode (alg mode slot : UInt32) (dec : Bool) (iv : Option (ByteVec 16))
    (input : Option Buf32) (outOk : Bool) :
    (sdfeSymMode alg mode slot dec iv input outOk).PassesFailure Prod.fst := by
  cases iv with
  | none => exact .ret _
  | some iv =>
    cases input with
    | none => exact .ret _
    | some input =>
      apply PassesFailure.ite (.ret _)
      apply PassesFailure.ite (.ret _)
      apply PassesFailure.dite (fun _ => .overrun)
      exact fun _ => .ask fun _ => rfl

theorem passesFailure_signMldsa (handle : UInt32) (msg : Option Buf32) (ctxLen : UInt32)
    (sigCap : Option UInt32) : (sdfeSignMldsa handle msg ctxLen sigCap).PassesFailure Prod.fst := by
  cases sigCap with
  | none => exact .ret _
  | some cap =>
    cases msg with
    | none => exact .ret _
    | some msg =>
      apply PassesFailure.ite (.ret _)
      apply PassesFailure.ite (.ret _)
      exact .ask fun _ => rfl

theorem passesFailure_verifyMldsa (pset : UInt32) (pk msg : Option Buf32) (ctxLen : UInt32)
    (sig : Option Buf32) (allocOk : Bool) :
    (sdfeVerifyMldsa pset pk msg ctxLen sig allocOk).PassesFailure id := by
  unfold sdfeVerifyMldsa
  split
  · apply PassesFailure.ite (.ret _)
    apply PassesFailure.ite (.ret _)
    apply PassesFailure.ite (.ret _)
    apply PassesFailure.dite (fun _ => .ret _)
    intro _
    apply PassesFailure.ite (.ret _)
    exact .ask fun _ => rfl
  · exact .ret _

theorem passesFailure_keypair (f : UInt32 → Sdfe KeypairOut) (cap : Option UInt32)
    (h : ∀ c, (f c).PassesFailure KeypairOut.rv) :
    (match cap with
      | none => .ret ⟨SDR_INARGERR, none, none⟩
      | some c => f c : Sdfe KeypairOut).PassesFailure KeypairOut.rv := by
  cases cap with
  | none => exact .ret _
  | some c => exact h c

/-- No function turns a failed communication into another result. -/
theorem SdfeApi.passesFailure (api : SdfeApi) : api.prog.PassesFailure id := by
  cases api with
  | importKey => exact .ret _
  | loadKatKey => exact .ask fun _ => rfl
  | encryptMode => exact (passesFailure_symMode _ _ _ _ _ _ _).map
  | decryptMode => exact (passesFailure_symMode _ _ _ _ _ _ _).map
  | signMldsa => exact (passesFailure_signMldsa _ _ _ _).map
  | verifyMldsa => exact passesFailure_verifyMldsa _ _ _ _ _ _
  | generateKeyPairMlkem => exact (passesFailure_keypair _ _ fun _ => .ask fun _ => rfl).map
  | generateKeyPairMldsa =>
    exact (passesFailure_keypair _ _ fun _ => .ite (.ret _) (.ask fun _ => rfl)).map
  | generateKey slot keyLen blobCap =>
    cases blobCap with
    | none => exact .ret _
    | some cap => exact PassesFailure.map (.ite (.ret _) (.ask fun _ => rfl))
  | loadKey slot blob =>
    cases blob with
    | none => exact .ret _
    | some blob => exact .ite (.ret _) (.ask fun _ => rfl)
  | exportKeyBlob kind handle blobCap =>
    cases blobCap with
    | none => exact .ret _
    | some cap => exact PassesFailure.map (.ask fun _ => rfl)
  | importKeyBlob kind pset blob wantsHandle =>
    cases blob with
    | none => exact .ret _
    | some blob => exact PassesFailure.map (.ite (.ret _) (.ask fun _ => rfl))
  | hashSm3 input outOk =>
    cases input with
    | none => exact .ret _
    | some input => exact PassesFailure.map (.ite (.ret _) (.ask fun _ => rfl))
  | getDeviceDna outOk => exact PassesFailure.map (.ite (.ret _) (.ask fun _ => rfl))
  | _ => exact PassesFailure.map (.ask fun _ => rfl)

end Failures

end PqcHsm
