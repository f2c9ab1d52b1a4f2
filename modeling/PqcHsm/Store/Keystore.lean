import PqcHsm.Slot.Device

/-!
# The key store file

The file is a header with a fresh salt and an epoch, one record for each slot, and a
MAC of all of it. Saving builds the file in memory, writes it next to the old one,
renames it and only then advances the rollback anchor; every file-system and anchor
call is a section of its own. Loading checks the MAC, then the epoch against the
anchor, and only then installs the slots one by one.
-/

namespace PqcHsm

open ByteCodec Sections

variable {n : Nat}

/-- `"PQCHSMKS"`. -/
def KS_MAGIC : Bytes := [80, 81, 67, 72, 83, 77, 75, 83]
def HSM_KEYSTORE_VERSION : UInt32 := 2
def KS_SALT_LEN : Nat := 16
def KS_HDR_LEN : Nat := 40
def KS_TAG_LEN : Nat := 32

def keystoreHeader (nSlots : Nat) (salt : ByteVec KS_SALT_LEN) (epoch : UInt64) : Bytes :=
  KS_MAGIC ++ (putU32 HSM_KEYSTORE_VERSION ++ (putU32 (UInt32.ofNat nSlots) ++
    (salt.toList ++ putU64 epoch)))

def keystoreRecord (blob : Bytes) : Bytes := putU32 (UInt32.ofNat blob.length) ++ blob

section Keys

variable (C : Crypto)

def pqcKekDerive (salt : ByteVec KS_SALT_LEN) : ByteVec 32 :=
  C.kdrDerive "pqc-hsm/storage-kek" salt.toList

def deriveFileKey (salt : ByteVec KS_SALT_LEN) : ByteVec 32 :=
  C.kdrDerive "pqc-hsm/keystore-filemac" salt.toList

def keystoreTag (salt : ByteVec KS_SALT_LEN) (body : Bytes) : ByteVec 32 :=
  C.kmac256 (deriveFileKey C salt).toList body "pqc-hsm/keystore"

/-- The complete file for the given records. -/
def keystoreFile (nSlots : Nat) (salt : ByteVec KS_SALT_LEN) (epoch : UInt64)
    (blobs : List Bytes) : Bytes :=
  let body := keystoreHeader nSlots salt epoch ++ (blobs.map keystoreRecord).flatten
  body ++ (keystoreTag C salt body).toList

/-- The parts of a file whose header fits the token. -/
structure KeystoreParts where
  salt : ByteVec KS_SALT_LEN
  epoch : UInt64
  records : Bytes
  body : Bytes
  tag : Bytes

def keystoreParse (nSlots : Nat) (buf : Bytes) : Option KeystoreParts :=
  if buf.length < KS_HDR_LEN + KS_TAG_LEN then none
  else
    let body := buf.take (buf.length - KS_TAG_LEN)
    let tag := buf.drop (buf.length - KS_TAG_LEN)
    let magic := body.take 8
    let (version, p) := getU32 (body.drop 8)
    let (count, p) := getU32 p
    let (salt, p) := getVec KS_SALT_LEN p
    let (epoch, records) := getU64 p
    if magic ≠ KS_MAGIC ∨ version ≠ HSM_KEYSTORE_VERSION ∨ count.toNat ≠ nSlots then none
    else some ⟨salt, epoch, records, body, tag⟩

/-- The file carries the MAC of its body. -/
def KeystoreParts.authentic (parts : KeystoreParts) : Bool :=
  (keystoreTag C parts.salt parts.body).toList = parts.tag

end Keys

section Anchor

variable (S : Setup)

/-- The value a read of the anchor gives. The file provider takes a file it cannot open for 0;
other providers fail. -/
def anchorSeen (e : Env) (fs : FileSys) : Option UInt64 :=
  match S.anchorProvider with
  | .file => some (if e.ioOk then fs.anchor else 0)
  | .hardware => if e.ioOk then some fs.anchor else none

/-- `pqc_rbanchor_read`. -/
def rbanchorRead : DevProg n (Option UInt64) :=
  fileSection fun e fs => (anchorSeen S e fs, fs, [])

def openAnchorTmp : DevProg n Bool :=
  fileSection fun e fs => if e.ioOk then (true, { fs with anchorTmp := some 0 }, []) else (false, fs, [])

/-- `fprintf` and `fflush`; that the text does not reach the file goes unnoticed. -/
def writeAnchorTmp (v : UInt64) : DevProg n Bool :=
  fileSection fun e fs =>
    if !e.allocOk then (false, fs, [])
    else (true, if e.ioOk then { fs with anchorTmp := some v } else fs, [])

/-- `fsync` of the temporary file; its result is not looked at. -/
def fsyncAnchorTmp : DevProg n Unit :=
  fileSection fun _ fs => ((), fs, [])

def renameAnchorTmp : DevProg n Bool :=
  fileSection fun e fs =>
    if e.ioOk then
      let v := fs.anchorTmp.getD 0
      (true, { fs with anchor := v, anchorTmp := none }, [.anchorSet v])
    else (false, fs, [])

def removeAnchorTmp : DevProg n Unit :=
  fileSection fun e fs => ((), if e.ioOk then { fs with anchorTmp := none } else fs, [])

/-- `file_write`. -/
def anchorFileWrite (v : UInt64) : DevProg n Bool := do
  let opened ← openAnchorTmp
  if opened then
    let written ← writeAnchorTmp v
    if written then
      fsyncAnchorTmp
      let renamed ← renameAnchorTmp
      if renamed then pure true
      else
        removeAnchorTmp
        pure false
    else
      removeAnchorTmp
      pure false
  else pure false

/-- `file_bump`. -/
def anchorFileBump : DevProg n (Option UInt64) := do
  match ← rbanchorRead S with
  | none => pure none
  | some cur =>
    let written ← anchorFileWrite (cur + 1)
    pure (if written then some (cur + 1) else none)

/-- `pqc_rbanchor_bump`; a hardware counter moves in one step. -/
def rbanchorBump : DevProg n (Option UInt64) :=
  match S.anchorProvider with
  | .file => anchorFileBump S
  | .hardware => fileSection fun e fs =>
    if e.ioOk then
      (some (fs.anchor + 1), { fs with anchor := fs.anchor + 1 }, [.anchorSet (fs.anchor + 1)])
    else (none, fs, [])

end Anchor

section Save

variable (S : Setup)

/-- One `write` of at most the given bytes; the number of bytes taken, 0 for a failure. -/
def writeTmp (buf : Bytes) : DevProg n Nat :=
  fileSection fun e fs =>
    if e.ioOk then
      let w := max 1 (min e.wrote buf.length)
      let tmp := fs.tmp.map (· ++ buf.take w)
      (w, { fs with tmp }, [.tmpWritten (tmp.getD [])])
    else (0, fs, [])

/-- `ks_write`: `write` until everything is out. Each call takes at least one byte, so the
length of the buffer bounds the number of calls. -/
def ksWrite : Nat → Bytes → DevProg n Bool
  | 0, _ => pure true
  | fuel + 1, buf =>
    if buf = [] then pure true
    else do
      let w ← writeTmp buf
      if w = 0 then pure false else ksWrite fuel (buf.drop w)

def ksWriteAll : List Bytes → DevProg n Bool
  | [] => pure true
  | chunk :: chunks => do
    let good ← ksWrite chunk.length chunk
    if good then ksWriteAll chunks else pure false

def openTmp : DevProg n Bool :=
  fileSection fun e fs =>
    if e.ioOk then (true, { fs with tmp := some [] }, [.tmpOpened]) else (false, fs, [])

def fsyncTmp : DevProg n Bool :=
  fileSection fun e fs => (e.ioOk, fs, [])

def renameTmp : DevProg n Bool :=
  fileSection fun e fs =>
    if e.ioOk then (true, { fs with file := fs.tmp, tmp := none }, [.saved]) else (false, fs, [])

/-- `fsync_dir`; its result is not looked at. -/
def fsyncDir : DevProg n Unit :=
  fileSection fun _ fs => ((), fs, [])

def unlinkTmp : DevProg n Unit :=
  fileSection fun e fs => ((), if e.ioOk then { fs with tmp := none } else fs, [])

/-- The serialization loop of a save, over the slots that remain. -/
def serializeSlots (kek : ByteVec 32) : List Nat → DevProg n (Except HsmStatus (List Bytes))
  | [] => pure (.ok [])
  | id :: ids => do
    match ← hsmSlotSerialize S id kek hsmSlotBlobMax with
    | .error st => pure (.error st)
    | .ok blob =>
      match ← serializeSlots kek ids with
      | .error st => pure (.error st)
      | .ok blobs => pure (.ok (blob :: blobs))

/-- Writing, renaming and bumping, once the chunks of the file are in memory. -/
def commitFile (chunks : List Bytes) : DevProg n HsmStatus := do
  let opened ← openTmp
  if opened then
    let written ← ksWriteAll chunks
    let synced ← (if written then fsyncTmp else pure false)
    let renamed ← (if synced then renameTmp else pure false)
    if renamed then
      fsyncDir
      -- the anchor moves after the file is in place; a failure of it is only audited
      let _ ← rbanchorBump S
      pure .ok
    else
      unlinkTmp
      pure .errCrypto
  else
    unlinkTmp
    pure .errBadArg

/-- `keystore_save_impl`. -/
def hsmKeystoreSave : DevProg n HsmStatus := do
  let entry ← Prog.ask fun e => (e.bytes 0 KS_SALT_LEN, e.cryptoOk, e.allocOk)
  match entry with
  | (none, _, _) => pure .errCrypto
  | (some _, false, _) => pure .errCrypto
  | (some _, true, false) => pure .errNomem
  | (some salt, true, true) =>
    match ← rbanchorRead S with
    | none => pure .errCrypto
    | some seen =>
      let epoch := seen + 1
      match ← serializeSlots S (pqcKekDerive S.crypto salt) (List.range n) with
      | .error st => pure st
      | .ok blobs =>
        let header := keystoreHeader n salt epoch
        let records := blobs.map keystoreRecord
        let macOk ← Prog.ask fun e => e.cryptoOk
        if macOk then
          commitFile S (header :: (records ++
            [(keystoreTag S.crypto salt (header ++ records.flatten)).toList]))
        else pure .errCrypto

/-- `persist_keystore`, the hook the daemon attaches. -/
def persistKeystore : DevProg n Bool := do
  let st ← hsmKeystoreSave S
  pure (st = .ok)

end Save

section Load

variable (S : Setup)

/-- The installation loop of a load, over the slots that remain and the rest of the body.
A record that does not fit leaves with the status of the slot before it. -/
def deserializeSlots (kek : ByteVec 32) (st : HsmStatus) : List Nat → Bytes → DevProg n HsmStatus
  | [], rest => pure (if rest = [] then .ok else .errIntegrity)
  | id :: ids, rest =>
    if rest.length < 4 then pure st
    else
      let (blen, rest) := getU32 rest
      if rest.length < blen.toNat then pure st
      else do
        let st ← hsmSlotDeserialize S id kek (rest.take blen.toNat)
        if st = .ok then deserializeSlots kek st ids (rest.drop blen.toNat) else pure st

/-- Opening the file and reading all of it into memory. -/
def readFile : DevProg n (Except HsmStatus Bytes) :=
  fileSection fun e fs =>
    (match fs.file with
      | none => .error .errBadArg
      | some buf =>
        if !e.ioOk then .error .errBadArg
        else if buf.length < KS_HDR_LEN + KS_TAG_LEN then .error .errIntegrity
        else if !e.allocOk then .error .errNomem
        else if e.wrote < buf.length then .error .errIntegrity
        else .ok buf, fs, [])

/-- `hsm_keystore_load`. -/
def hsmKeystoreLoad : DevProg n HsmStatus := do
  match ← readFile with
  | .error st => pure st
  | .ok buf =>
    match keystoreParse n buf with
    | none => pure .errIntegrity
    | some parts =>
      let keysOk ← Prog.ask fun e => e.cryptoOk
      if !keysOk then pure .errCrypto
      else if !parts.authentic S.crypto then pure .errIntegrity
      else
        match ← rbanchorRead S with
        | none => pure .errIntegrity
        | some seen =>
          -- strictly older than the anchor is a replay; newer is accepted, the anchor stays
          if parts.epoch < seen then pure .errIntegrity
          else
            let kek := pqcKekDerive S.crypto parts.salt
            deserializeSlots S kek .errIntegrity (List.range n) parts.records

end Load

end PqcHsm
