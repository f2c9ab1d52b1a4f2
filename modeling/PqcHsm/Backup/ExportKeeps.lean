import PqcHsm.Slot.LoginGrant

/-!
# An export that fails

Up to the rename a failed export leaves the file at the path alone. The master key is split after the
rename, and when that fails the old file is gone.
-/

namespace PqcHsm

open ByteCodec Sections

variable {n : Nat}

section Phases

variable (S : Setup)

/-- An export up to the rename: the key, the container in place and the number of its records. -/
def placeContainer (sess : HsmSession) (m k shareCap : Nat) :
    DevProg n (Except HsmStatus (Bytes × Bytes × Nat)) :=
  if shareCap < HSM_SHARE_LEN then pure (.error .errBadArg)
  else if m < 2 ∨ k < m ∨ 16 < k then pure (.error .errBadArg)
  else do
    match ← hsmSessionRole sess with
    | .error st => pure (.error st)
    | .ok role =>
      if role = .so then
        let entry ← Prog.ask fun e =>
          (e.allocOk, e.bytes 0 HSM_RMK_LEN, e.bytes 1 BK_SALT_LEN, e.cryptoOk)
        match entry with
        | (false, _, _, _) => pure (.error .errNomem)
        | (true, some rmk, some salt, true) =>
          match ← exportRecords S (backupBek S.crypto rmk.toList salt) (List.range n) with
          | .error st => pure (.error st)
          | .ok recs =>
            let macOk ← Prog.ask fun e => e.cryptoOk
            if macOk then
              let pathOk ← Prog.ask fun e => e.allocOk
              if pathOk then
                let body := backupBody salt recs
                let tag := (backupTag S.crypto rmk.toList salt body).toList
                let st ← placeBackup body tag
                if st = .ok then pure (.ok (rmk.toList, body ++ tag, recs.length)) else pure (.error st)
              else pure (.error .errNomem)
            else pure (.error .errCrypto)
        | (true, _, _, _) => pure (.error .errCrypto)
      else pure (.error .errNotAuthorized)

/-- The key is split after the container is in place. -/
theorem hsmBackupExport_eq (sess : HsmSession) (old : Option Bytes) (m k shareCap : Nat) :
    (hsmBackupExport S sess old m k shareCap : DevProg n ExportResult) =
      (placeContainer S sess m k shareCap).bind fun
        | .error st => .ret (.failed old st)
        | .ok (rmk, content, count) => giveShares S rmk m k shareCap count content := by
  unfold hsmBackupExport placeContainer
  split
  · rfl
  split
  · rfl
  simp only [Prog.bind_eq_bind, Prog.bind_assoc]
  congr 1
  funext r
  cases r with
  | error st => rfl
  | ok role =>
    simp only []
    split
    · simp only [Prog.bind_assoc]
      congr 1
      funext entry
      obtain ⟨allocOk, rmk, salt, keysOk⟩ := entry
      cases allocOk with
      | false => rfl
      | true =>
        cases rmk with
        | none => rfl
        | some rmk =>
          cases salt with
          | none => rfl
          | some salt =>
            cases keysOk with
            | false => rfl
            | true =>
              simp only [exportFrom, writeBackup, Prog.bind_eq_bind, Prog.bind_assoc]
              congr 1
              funext recs
              cases recs with
              | error st => rfl
              | ok recs =>
                simp only [Prog.bind_assoc]
                congr 1
                funext macOk
                cases macOk with
                | false => rfl
                | true =>
                  simp only [if_true, Prog.bind_assoc]
                  congr 1
                  funext pathOk
                  cases pathOk with
                  | false => rfl
                  | true =>
                    simp only [if_true, Prog.bind_assoc]
                    congr 1
                    funext st
                    by_cases hSt : st = .ok
                    · simp only [if_pos hSt]
                      rfl
                    · simp only [if_neg hSt]
                      rfl
    · rfl

end Phases

section Main

variable {S : Setup} {sess : HsmSession} {old : Option Bytes} {m k shareCap : Nat} {d : Device n}
  {env : Nat → Env}

/-- Splitting the master key succeeds in the section. -/
def Splits (S : Setup) (e : Env) (rmk : Bytes) (m k shareCap : Nat) : Prop :=
  e.cryptoOk = true ∧ (shamirSplit S.crypto e.random rmk m k shareCap).isSome = true

/-- What the file is after the key could not be split, as far as it could be removed. -/
def afterUnlink (e : Env) (content : Bytes) : Option Bytes := if e.ioOk then none else some content

theorem run_giveShares_splits {rmk content : Bytes} {count : Nat} (h : Splits S (env 0) rmk m k shareCap) :
    ((giveShares S rmk m k shareCap count content).run env d).1.st = .ok := by
  obtain ⟨hKeys, hSplit⟩ := h
  obtain ⟨shares, hShares⟩ := Option.isSome_iff_exists.mp hSplit
  simp only [giveShares, Prog.bind_eq_bind, Prog.run_bind, Prog.run_ask, hKeys, if_true, hShares]
  rfl

theorem run_giveShares_fails {rmk : Bytes} (content : Bytes) (count : Nat) (h : ¬ Splits S (env 0) rmk m k shareCap) :
    ((giveShares S rmk m k shareCap count content).run env d).1.st = .errCrypto ∧
      ((giveShares S rmk m k shareCap count content).run env d).1.file = afterUnlink (env 1) content := by
  have hNone : (if (env 0).cryptoOk then shamirSplit S.crypto (env 0).random rmk m k shareCap else none) =
      none := by
    split
    · rename_i hKeys
      rw [← Option.not_isSome_iff_eq_none]
      exact fun hSplit => h ⟨hKeys, hSplit⟩
    · rfl
  simp only [giveShares, Prog.bind_eq_bind, Prog.run_bind, Prog.run_ask, hNone]
  exact ⟨rfl, rfl⟩

end Main

section Concrete

/-- The first session of a device with one slot, logged in as SO. -/
def officerDevice : Device 1 :=
  ((hsmSessionLogin (persistKeystore .clear) .clear firstSession .so (some [1, 2, 3, 4])).run
    (fun _ => .calm 7) openedDevice).2.1

/-- The container gets into place, and the randomness for the shares fails. -/
def sharesFail (k : Nat) : Env := { Env.calm 7 with cryptoOk := k ≠ 10 }

end Concrete

end PqcHsm
