import PqcHsm.Backup.RoundTrip
import PqcHsm.Store.CrashSafe

/-!
# Saving and loading, exporting and restoring

On a token whose keys are software keys, a load undoes a save and a restore undoes an export.
-/

namespace PqcHsm

open Sections

variable {n : Nat} {S : Setup}

/-- The slot compares the PIN with a verifier of the role and finds it good. -/
def Slot.AcceptsPin (C : Crypto) (s : Slot) (role : HsmRole) (pin : CString) : Prop :=
  ∃ m, s.pinMaterial role = some m ∧ m.accepts C s.metadata.slotId role pin

/-- The slot of a device, as another device has it after a restore. -/
structure ComesBack (C C' : Crypto) (s s' : Slot) : Prop where
  metadata : s'.metadata = s.metadata
  /-- The state before a lockout, PIN salts and verifiers, public key, secret key and seed. -/
  record : s'.record = s.record
  software : s'.hwHandle = none
  intact : s'.Sealed C'
  pins : ∀ role pin, s'.AcceptsPin C' role pin ↔ s.AcceptsPin C role pin

theorem comesBack_restoredSlot {S' : Setup} (hRoot : S.Rekeyed S') (s : Slot) :
    ComesBack S.crypto S'.crypto s (restoredSlot S'.crypto s) where
  metadata := rfl
  record := rfl
  software := rfl
  intact := rfl
  pins role pin := by
    obtain ⟨kdr, hCrypto⟩ := hRoot
    rw [hCrypto]
    cases role <;> exact Iff.rfl

/-- The anchor has not passed the epoch of the key store file. -/
def FileSys.AnchorAllows (n : Nat) (fs : FileSys) : Prop :=
  ∀ buf parts, fs.file = some buf → keystoreParse n buf = some parts → fs.anchor ≤ parts.epoch

/-- Every load of the file a save wrote puts the slots of the save back. The process that loads it
is any device with that file whose slots carry their numbers, as those of every token do. -/
structure SaveLoadInverse (S : Setup) (d : Device n) : Prop where
  load : ∀ env, ((hsmKeystoreSave S).run env d).1 = .ok → ∀ (d₂ : Device n) env₂,
    d₂.fs.file = ((hsmKeystoreSave S).run env d).2.1.fs.file → d₂.Numbered →
    d₂.fs.AnchorAllows n → (∀ k, (env₂ k).Works (d₂.fs.file.getD []).length) →
    ((hsmKeystoreLoad S).run env₂ d₂).1 = .ok ∧
      ((hsmKeystoreLoad S).run env₂ d₂).2.1 = d₂.withSlots d.tok.slots
  /-- The anchor as the save leaves it allows the file, while the epoch does not wrap around. -/
  anchor : ∀ env, ((hsmKeystoreSave S).run env d).1 = .ok → AnchorReads S env d.fs →
    d.fs.anchor + 1 ≠ 0 → ((hsmKeystoreSave S).run env d).2.1.fs.AnchorAllows n

/-- Every restore of a container with enough of its shares, on whatever device that has the
slots, puts exactly the exported slots back. -/
structure ExportRestoreInverse (S : Setup) (d : Device n) : Prop where
  unchanged : ∀ sess old m k shareCap env, (∀ j, (env j).Seals) →
    ((hsmBackupExport S sess old m k shareCap).run env d).2.1 = d
  restore : ∀ sess old m k shareCap env (r : ExportResult), (∀ j, (env j).Seals) →
    ((hsmBackupExport S sess old m k shareCap).run env d).1 = r → r.st = .ok →
    ∀ {n' : Nat} (S' : Setup) (d₂ : Device n') sel shareCap' env₂, S.Rekeyed S' →
    sel ⊆ r.shares → sel.Nodup → m ≤ sel.length → HSM_SHARE_LEN ≤ shareCap' → d₂.Numbered →
    (∀ i, (d.tok.slots i).Exports S.crypto → i.val < n') →
    (∀ j, (env₂ j).Works (r.file.getD []).length) →
    ((hsmBackupRestore S' r.file shareCap' sel).run env₂ d₂).1 = (.ok, r.exported) ∧
      ∃ slots', ((hsmBackupRestore S' r.file shareCap' sel).run env₂ d₂).2.1 =
          d₂.withSlots slots' ∧
        (∀ i, (d.tok.slots i).Exports S.crypto → ∀ j, j.val = i.val →
          ComesBack S.crypto S'.crypto (d.tok.slots i) (slots' j)) ∧
        ∀ j, (∀ i, (d.tok.slots i).Exports S.crypto → j.val ≠ i.val) →
          slots' j = d₂.tok.slots j

section Inverse

variable {d : Device n}

theorem saveLoadInverse (hn : n < 2 ^ 32) (hStorable : d.Storable)
    (hSoft : ∀ i, (d.tok.slots i).hwHandle = none) : SaveLoadInverse S d where
  load := by
    intro env hOk d₂ env₂ hDisk hNumbered hAnchor hEnv
    obtain ⟨salt, seen, -, hSaved⟩ := saved_of_run S hOk
    generalize ((hsmKeystoreSave S).run env d).2.1 = d' at hSaved hDisk
    cases hSaved with
    | mk blob tmp anchor anchorTmp hFile hMoved =>
      rw [hDisk] at hEnv
      have hEpoch := hAnchor _ _ hDisk (keystoreParse_savedBytes hn S.crypto salt (seen + 1) blob)
      obtain ⟨hLoaded, hRun⟩ := run_hsmKeystoreLoad_saved hn hStorable hFile hDisk hNumbered hEnv
        hEpoch
      refine ⟨hLoaded, hRun.trans ?_⟩
      congr 1
      funext i
      exact restoredSlot_self (hFile.sealed i) (hSoft i)
  anchor := by
    intro env hOk hReads hWrap
    obtain ⟨salt, seen, hSeen, hSaved⟩ := saved_of_run S hOk
    obtain rfl := hReads seen hSeen
    generalize ((hsmKeystoreSave S).run env d).2.1 = d' at hSaved
    cases hSaved with
    | mk blob tmp anchor anchorTmp hFile hMoved =>
      rintro buf parts hBuf hParse
      cases hBuf
      rw [keystoreParse_savedBytes hn] at hParse
      cases hParse
      exact anchorMoved_le hMoved hWrap

theorem exportRestoreInverse (hn : n < 2 ^ 32) (hStorable : d.Storable) :
    ExportRestoreInverse S d where
  unchanged sess old m k shareCap env hSeals :=
    ((ensures_hsmBackupExport sess old m k shareCap).run hSeals).1
  restore := by
    intro sess old m k shareCap env r hSeals hResult hOk n' S' d₂ sel shareCap' env₂ hRoot hSel
      hNodup hCount hCap hNumbered hEnough hEnv
    obtain ⟨-, hDone⟩ := (ensures_hsmBackupExport sess old m k shareCap (S := S) (d := d)).run hSeals
    rw [hResult] at hDone
    obtain ⟨rmk, salt, blob, hDone⟩ := hDone hOk
    obtain ⟨hRestored, slots', hRun, hBack, hOther⟩ := run_hsmBackupRestore_exported hRoot hn
      hStorable hDone hSel hNodup hCount hCap hNumbered hEnough hEnv
    refine ⟨hRestored, slots', hRun, fun i hi j hj => ?_, hOther⟩
    rw [hBack i hi j hj]
    exact comesBack_restoredSlot hRoot _

end Inverse

end PqcHsm
