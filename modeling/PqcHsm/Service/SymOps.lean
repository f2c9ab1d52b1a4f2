import PqcHsm.Daemon.SymModes
import PqcHsm.Sdfe.Client
import PqcHsm.Service.Restore

/-!
# Encryption with a named key

`hsm_encrypt` and `hsm_decrypt` take a key of the key store, load it into a slot of the device and
send the data in chunks, each a request of its own in CBC mode. The IV of a chunk is the end of the
ciphertext before it.
-/

namespace PqcHsm

open ByteCodec BlockModes

def HSM_KIND_SYM : UInt8 := 2
def SYM_SLOT : UInt32 := 3
def SDFE_MODE_CBC : UInt32 := 1
/-- What fits into one request beside the IV. -/
def CHUNK : Nat := 16368
/-- `sizeof(hsm_key) + 32` -/
def FILE_MAX : Nat := 2896

def PQK1 : Bytes := [80, 81, 75, 49]

structure HsmKey where
  kind : UInt8
  param : UInt8
  created : UInt32
  pk : Bytes
  blob : Buf32
  deriving DecidableEq

/-- The errors, each with what goes into its text. -/
inductive HsmFail where
  | badName
  | noKey (name : Bytes)
  | badKeyFile (name : Bytes)
  | wrongKind (name : Bytes) (what : String)
  | refused
  | noMemory
  | badLength
  | badPadding
  | device (what : String) (rv : UInt32)
  /-- A local buffer is overrun. -/
  | overrun
  deriving DecidableEq

/-- How an exchange with the daemon goes: served, cut on the way, or answered by the guard around the
request because an access was rejected. -/
inductive LinkEnd where
  | served
  | cut
  | hardFault
  deriving DecidableEq

/-- What is outside the process: the files of the key store, the connection, the memory, the block
command of the device and its answers to the other requests. -/
structure HsmHost (ε σ : Type) where
  keyFile : Bytes → Stateful ε σ (Option Bytes)
  ses : Stateful ε σ (Option HsmFail)
  malloc : Nat → Stateful ε σ Bool
  link : Stateful ε σ LinkEnd
  block : BlockCmd ε σ
  reply : PqcsReq → Stateful ε σ OpReply

abbrev HsmM (ε σ α : Type) := ExceptT HsmFail (Stateful ε σ) α

def hsmKeyLoad (name : Bytes) (file : Option Bytes) : Except HsmFail HsmKey :=
  if !hsmNameOk name then .error .badName
  else
    match file with
    | none => .error (.noKey name)
    | some f =>
      let b := f.take FILE_MAX
      if b.length < 20 ∨ b.take 4 ≠ PQK1 then .error (.badKeyFile name)
      else
        let pkLen := (getU32 (b.drop 12)).1
        let blobLen := (getU32 (b.drop 16)).1
        if 2592 < pkLen ∨ 256 < blobLen ∨ 20 + pkLen.toNat + blobLen.toNat ≠ b.length then
          .error (.badKeyFile name)
        else .ok ⟨b.getD 4 0, b.getD 5 0, (getU32 (b.drop 8)).1, (b.drop 20).take pkLen.toNat,
          (b.drop (20 + pkLen.toNat)).take blobLen.toNat,
          Nat.lt_of_le_of_lt (List.length_take_le ..) blobLen.toNat_lt⟩

namespace HsmHost

variable {ε σ : Type} (host : HsmHost ε σ)

/-- The daemon's side of a request. -/
def serve (q : PqcsReq) : Stateful ε σ OpReply :=
  if q.op = OP_SYM_CRYPT then opSymCryptOver host.block q.a0 q.a1 q.payload.val else host.reply q

def exchange (x : Exchange) : Stateful ε σ (UInt32 × Bytes) := do
  match ← host.link with
  | .cut => pure (SDR_COMMFAIL, [])
  | .hardFault => pure (SDR_HARDFAIL, [])
  | .served => do
    let r ← host.serve x.req
    if x.outCap.toNat < r.out.length then pure (SDR_INARGERR, []) else pure (r.status, r.out)

/-- A function of the client library. -/
def sdfe {α : Type} (p : Sdfe α) : HsmM ε σ α :=
  match p with
  | .ret a => pure a
  | .ask x finish => do
    let r ← host.exchange x
    pure (finish r.1 r.2)
  | .overrun => throw .overrun

def loadKind (name : Bytes) (kind : UInt8) (what : String) : HsmM ε σ HsmKey := do
  let file ← host.keyFile name
  match hsmKeyLoad name file with
  | .error f => throw f
  | .ok k => if k.kind ≠ kind then throw (.wrongKind name what) else pure k

def openSession : HsmM ε σ Unit := do
  match ← host.ses with
  | none => pure ()
  | some f => throw f

def symLoad (k : HsmKey) : HsmM ε σ Unit := do
  let rv ← host.sdfe (sdfeLoadKey SYM_SLOT (some k.blob))
  if rv ≠ SDR_OK then throw .refused else pure ()

def alloc (n : Nat) : HsmM ε σ Unit := do
  if ← host.malloc n then pure () else throw .noMemory

/-- `SDFE_EncryptMode` or `SDFE_DecryptMode` on one chunk. -/
def modeChunk (k : HsmKey) (dec : Bool) (iv : ByteVec 16) (data : Buf32) : HsmM ε σ Bytes := do
  let r ← host.sdfe <|
    if dec then sdfeDecryptMode k.param.toUInt32 SDFE_MODE_CBC SYM_SLOT (some iv) (some data) true
    else sdfeEncryptMode k.param.toUInt32 SDFE_MODE_CBC SYM_SLOT (some iv) (some data) true
  if r.1 ≠ SDR_OK then throw (.device (if dec then "解密" else "加密") r.1) else pure r.2

end HsmHost

/-- The length of the chunk at an offset. -/
def chunkLen (len off : Nat) : Nat := if len - off > CHUNK then CHUNK else len - off

theorem chunkLen_le (len off : Nat) : chunkLen len off ≤ CHUNK := by
  rw [chunkLen]
  split <;> omega

def chunkAt (b : Bytes) (start n : Nat) (h : n ≤ CHUNK) : Buf32 :=
  ⟨(b.drop start).take n, by
    have := List.length_take_le n (b.drop start)
    rw [CHUNK] at h
    omega⟩

section Operations

variable {ε σ : Type} (host : HsmHost ε σ)

/-- The loop of `hsm_encrypt`; `dst` is what has been written, first of all the IV. -/
def encryptChunks (k : HsmKey) (iv : ByteVec 16) (src : Bytes) (len off : Nat) (dst : Bytes) :
    HsmM ε σ Bytes :=
  if _h : off < len then do
    let out ← host.modeChunk k false (if off ≠ 0 then takeVec 16 (dst.drop off) else iv)
      (chunkAt src off (chunkLen len off) (chunkLen_le len off))
    encryptChunks k iv src len (off + chunkLen len off) (dst ++ out)
  else pure dst
termination_by len - off
decreasing_by
  rw [chunkLen, CHUNK]
  split <;> omega

/-- The loop of `hsm_decrypt`. -/
def decryptChunks (k : HsmKey) (input : Bytes) (len off : Nat) (dst : Bytes) : HsmM ε σ Bytes :=
  if _h : off < len then do
    let out ← host.modeChunk k true (takeVec 16 (input.drop off))
      (chunkAt input (16 + off) (chunkLen len off) (chunkLen_le len off))
    decryptChunks k input len (off + chunkLen len off) (dst ++ out)
  else pure dst
termination_by len - off
decreasing_by
  rw [chunkLen, CHUNK]
  split <;> omega

def hsmEncrypt (name input : Bytes) : HsmM ε σ Bytes := do
  let k ← host.loadKind name HSM_KIND_SYM "对称密钥"
  host.openSession
  host.symLoad k
  let (rv, iv) ← host.sdfe (sdfeGenerateRandom 16)
  if rv ≠ SDR_OK then throw (.device "取 IV" rv)
  else do
    let n := input.length
    let pad := 16 - n % 16
    let len := (n + pad) % 2 ^ 32
    host.alloc len
    host.alloc ((len + 16) % 2 ^ 32)
    let src := input ++ List.replicate pad (UInt8.ofNat pad)
    encryptChunks host k (takeVec 16 iv) src len 0 (takeVec 16 iv).toList

/-- The end of `hsm_decrypt`: the padding is checked from the last byte on. -/
def stripPadding (dst : Bytes) : Except HsmFail Bytes :=
  let len := dst.length
  let pad := dst.getD (len - 1) 0
  if pad = 0 ∨ pad > 16 then .error .badPadding
  else if (List.range pad.toNat).any fun i => dst.getD (len - 1 - i) 0 ≠ pad then
    .error .badPadding
  else .ok (dst.take (len - pad.toNat))

def hsmDecrypt (name input : Bytes) : HsmM ε σ Bytes := do
  let n := input.length
  if n < 32 ∨ (n - 16) % 16 ≠ 0 then throw .badLength
  else do
    let k ← host.loadKind name HSM_KIND_SYM "对称密钥"
    host.openSession
    host.symLoad k
    let len := n - 16
    host.alloc len
    let dst ← decryptChunks host k input len 0 []
    match stripPadding dst with
    | .error f => throw f
    | .ok m => pure m

end Operations

end PqcHsm
