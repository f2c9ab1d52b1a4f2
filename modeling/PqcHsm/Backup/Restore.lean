import PqcHsm.Slot.Device
import PqcHsm.Backup.Shamir

/-!
# Restoring a backup container

A container is not bound to a device: its keys come from the recovery master key
that the shares reconstruct. A restore needs no session; it checks the MAC of the
container and then installs the records one by one.
-/

namespace PqcHsm

open ByteCodec Sections

variable {n : Nat}

/-- `"PQCHSMBK"`. -/
def BK_MAGIC : Bytes := [80, 81, 67, 72, 83, 77, 66, 75]
def HSM_BACKUP_VERSION : UInt32 := 1
def BK_SALT_LEN : Nat := 16
def BK_HDR_LEN : Nat := 32
def BK_TAG_LEN : Nat := 32
def BK_REC_HDR : Nat := 8
def HSM_RMK_LEN : Nat := 32
def HSM_SHARE_CAP : Nat := 64

structure BackupParts where
  nRecs : Nat
  salt : ByteVec BK_SALT_LEN
  records : Bytes
  body : Bytes
  tag : Bytes

def backupParse (buf : Bytes) : Option BackupParts :=
  if buf.length < BK_HDR_LEN + BK_TAG_LEN then none
  else
    let body := buf.take (buf.length - BK_TAG_LEN)
    let tag := buf.drop (buf.length - BK_TAG_LEN)
    let (version, p) := getU32 (body.drop 8)
    let (nRecs, p) := getU32 p
    let (salt, records) := getVec BK_SALT_LEN p
    if body.take 8 ≠ BK_MAGIC ∨ version ≠ HSM_BACKUP_VERSION then none
    else some ⟨nRecs.toNat, salt, records, body, tag⟩

section Keys

variable (C : Crypto)

def backupBek (rmk : Bytes) (salt : ByteVec BK_SALT_LEN) : ByteVec 32 :=
  C.kdf rmk salt.toList "pqc-hsm/backup-bek"

def backupTag (rmk : Bytes) (salt : ByteVec BK_SALT_LEN) (body : Bytes) : ByteVec 32 :=
  C.kmac256 (C.kdf rmk salt.toList "pqc-hsm/backup-filemac").toList body "pqc-hsm/backup"

/-- The container `hsm_backup_export` writes for the given slots and blobs. -/
def backupFile (rmk : Bytes) (salt : ByteVec BK_SALT_LEN) (blobs : List (Nat × Bytes)) : Bytes :=
  let records := blobs.map fun r =>
    putU32 (UInt32.ofNat r.1) ++ (putU32 (UInt32.ofNat r.2.length) ++ r.2)
  let body := BK_MAGIC ++ (putU32 HSM_BACKUP_VERSION ++ (putU32 (UInt32.ofNat blobs.length) ++
    (salt.toList ++ records.flatten)))
  body ++ (backupTag C rmk salt body).toList

def BackupParts.authentic (rmk : Bytes) (parts : BackupParts) : Bool :=
  (backupTag C rmk parts.salt parts.body).toList = parts.tag

end Keys

/-- Reading the container into memory. -/
def readContainer (e : Env) : Option Bytes → Except HsmStatus Bytes
  | none => .error .errBadArg
  | some buf =>
    if !e.ioOk then .error .errBadArg
    else if buf.length < BK_HDR_LEN + BK_TAG_LEN then .error .errIntegrity
    else if !e.allocOk then .error .errNomem
    else if e.wrote < buf.length then .error .errIntegrity
    else .ok buf

variable (S : Setup)

/-- The restore loop over the records that remain, with the number of those already restored.
A record that does not fit, or names a slot the token does not have, leaves with the status
of the record before it; the number is reported at the end only. -/
def restoreRecords (bek : ByteVec 32) (st : HsmStatus) (restored : Nat) :
    Nat → Bytes → DevProg n (HsmStatus × Option Nat)
  | 0, rest => pure (if rest = [] then (.ok, some restored) else (.errIntegrity, none))
  | k + 1, rest =>
    if rest.length < BK_REC_HDR then pure (st, none)
    else
      let (slotId, rest) := getU32 rest
      let (blen, rest) := getU32 rest
      if rest.length < blen.toNat then pure (st, none)
      else if n ≤ slotId.toNat then pure (st, none)
      else do
        let st ← hsmSlotDeserialize S slotId.toNat bek (rest.take blen.toNat)
        if st = .ok then restoreRecords bek st (restored + 1) k (rest.drop blen.toNat)
        else pure (st, none)

/-- `hsm_backup_restore` of a container with the given content, `none` when there is no such
file: the status and the number of restored records, where it is reported. -/
def hsmBackupRestore (content : Option Bytes) (shareCap : Nat) (shares : List Bytes) :
    DevProg n (HsmStatus × Option Nat) :=
  if shares = [] then pure (.errBadArg, none)
  else do
    let hashOk ← Prog.ask fun e => e.cryptoOk
    match if hashOk then shamirCombine S.crypto shareCap shares HSM_RMK_LEN else none with
    | none => pure (.errIntegrity, none)
    | some rmk =>
      if rmk.length ≠ HSM_RMK_LEN then pure (.errIntegrity, none)
      else
        match ← Prog.ask fun e => readContainer e content with
        | .error st => pure (st, none)
        | .ok buf =>
          match backupParse buf with
          | none => pure (.errIntegrity, none)
          | some parts =>
            let keysOk ← Prog.ask fun e => e.cryptoOk
            if !keysOk then pure (.errCrypto, none)
            else if !parts.authentic S.crypto rmk then pure (.errIntegrity, none)
            else
              let bek := backupBek S.crypto rmk parts.salt
              restoreRecords S bek .errIntegrity 0 parts.nRecs parts.records

end PqcHsm
