import PqcHsm.Backup.Restore
import PqcHsm.Slot.Manager

/-!
# Exporting a backup container

An export draws a recovery master key, writes the slots whose policy allows it under keys
derived from it, and splits it into shares last. The file at the path is touched by the
rename, and by the removal when splitting fails.
-/

namespace PqcHsm

open ByteCodec Sections

variable {n : Nat}

def HSM_SHARE_LEN : Nat := HSM_RMK_LEN + 6

/-- What an export gives its caller, and the file at the path afterwards. -/
structure ExportResult where
  st : HsmStatus
  shares : List Bytes
  exported : Option Nat
  file : Option Bytes
  deriving DecidableEq

namespace ExportResult

/-- An export that did not get as far as replacing the file. -/
def failed (old : Option Bytes) (st : HsmStatus) : ExportResult := ⟨st, [], none, old⟩

end ExportResult

section Export

variable (S : Setup)

/-- The export loop over the slots that remain: slots that cannot be read or may not be backed up
are passed over. -/
def exportRecords (bek : ByteVec 32) : List Nat → DevProg n (Except HsmStatus (List (Nat × Bytes)))
  | [] => pure (.ok [])
  | id :: ids => do
    match ← hsmSlotGetMeta S id with
    | .error _ => exportRecords bek ids
    | .ok m =>
      if m.policy &&& SLOT_POLICY_BACKUPABLE = 0 then exportRecords bek ids
      else
        match ← hsmSlotSerialize S id bek hsmSlotBlobMax with
        | .error st => pure (.error st)
        | .ok blob =>
          match ← exportRecords bek ids with
          | .error st => pure (.error st)
          | .ok recs => pure (.ok ((id, blob) :: recs))

/-- One `write` of a whole buffer: a short write is a failure. -/
def writeWhole (buf : Bytes) : DevProg n Bool :=
  Prog.ask fun e => e.ioOk && decide (buf.length ≤ e.wrote)

/-- Opening the temporary file, writing, syncing and renaming it. -/
def placeBackup (body tag : Bytes) : DevProg n HsmStatus := do
  let opened ← Prog.ask fun e => e.ioOk
  if opened then
    let bodyOk ← writeWhole body
    let tagOk ← (if bodyOk then writeWhole tag else pure false)
    let synced ← (if tagOk then Prog.ask fun e => e.ioOk else pure false)
    let renamed ← (if synced then Prog.ask fun e => e.ioOk else pure false)
    pure (if renamed then .ok else .errCrypto)
  else pure .errBadArg

/-- The container without its tag. -/
def backupBody (salt : ByteVec BK_SALT_LEN) (blobs : List (Nat × Bytes)) : Bytes :=
  BK_MAGIC ++ (putU32 HSM_BACKUP_VERSION ++ (putU32 (UInt32.ofNat blobs.length) ++
    (salt.toList ++ (blobs.map fun r =>
      putU32 (UInt32.ofNat r.1) ++ (putU32 (UInt32.ofNat r.2.length) ++ r.2)).flatten)))

/-- The shares come last: no failure before this leaves a usable share. When there are none, the
file is removed again. -/
def giveShares (rmk : Bytes) (m k shareCap count : Nat) (content : Bytes) :
    DevProg n ExportResult := do
  let split ← Prog.ask fun e =>
    if e.cryptoOk then shamirSplit S.crypto e.random rmk m k shareCap else none
  match split with
  | some shares => pure ⟨.ok, shares, some count, some content⟩
  | none =>
    let removed ← Prog.ask fun e => e.ioOk
    pure ⟨.errCrypto, [], none, if removed then none else some content⟩

/-- The part of an export that has its records. -/
def writeBackup (old : Option Bytes) (rmk : Bytes) (salt : ByteVec BK_SALT_LEN)
    (recs : List (Nat × Bytes)) (m k shareCap : Nat) : DevProg n ExportResult := do
  let macOk ← Prog.ask fun e => e.cryptoOk
  if macOk then
    let pathOk ← Prog.ask fun e => e.allocOk
    if pathOk then
      let body := backupBody salt recs
      let tag := (backupTag S.crypto rmk salt body).toList
      let st ← placeBackup body tag
      if st = .ok then giveShares S rmk m k shareCap recs.length (body ++ tag)
      else pure (.failed old st)
    else pure (.failed old .errNomem)
  else pure (.failed old .errCrypto)

/-- The part of an export that has its key and salt. -/
def exportFrom (old : Option Bytes) (rmk : Bytes) (salt : ByteVec BK_SALT_LEN)
    (m k shareCap : Nat) : DevProg n ExportResult := do
  match ← exportRecords S (backupBek S.crypto rmk salt) (List.range n) with
  | .error st => pure (.failed old st)
  | .ok recs => writeBackup S old rmk salt recs m k shareCap

/-- `hsm_backup_export` to a path with the given file, split `m` of `k`. -/
def hsmBackupExport (sess : HsmSession) (old : Option Bytes) (m k shareCap : Nat) :
    DevProg n ExportResult :=
  if shareCap < HSM_SHARE_LEN then pure (.failed old .errBadArg)
  else if m < 2 ∨ k < m ∨ 16 < k then pure (.failed old .errBadArg)
  else do
    match ← hsmSessionRole sess with
    | .error st => pure (.failed old st)
    | .ok role =>
      if role = .so then
        let entry ← Prog.ask fun e =>
          (e.allocOk, e.bytes 0 HSM_RMK_LEN, e.bytes 1 BK_SALT_LEN, e.cryptoOk)
        match entry with
        | (false, _, _, _) => pure (.failed old .errNomem)
        | (true, some rmk, some salt, true) => exportFrom S old rmk.toList salt m k shareCap
        | (true, _, _, _) => pure (.failed old .errCrypto)
      else pure (.failed old .errNotAuthorized)

end Export

end PqcHsm
