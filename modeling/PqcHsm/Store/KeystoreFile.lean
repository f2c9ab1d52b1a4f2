import PqcHsm.Store.Install
import PqcHsm.Store.Keystore

/-!
# Reading the key store file

The records of an accepted file, cut out of its body, and what a load makes of them.
-/

namespace PqcHsm

open ByteCodec Sections

variable {n : Nat}

/-- The records for the slots in turn and what follows them, `none` when one does not fit. -/
def splitRecords : List (Fin n) → Bytes → List (Fin n × Bytes) × Option Bytes
  | [], rest => ([], some rest)
  | i :: ids, rest =>
    if rest.length < 4 then ([], none)
    else
      let (blen, rest) := getU32 rest
      if rest.length < blen.toNat then ([], none)
      else
        let (recs, tail) := splitRecords ids (rest.drop blen.toNat)
        ((i, rest.take blen.toNat) :: recs, tail)

namespace KeystoreParts

/-- The records of the file, one for each slot of the token as far as they fit. -/
def slotRecords (n : Nat) (parts : KeystoreParts) : List (Fin n × Bytes) :=
  (splitRecords (List.finRange n) parts.records).1

/-- What follows the last record, `none` when one does not fit. -/
def slotTail (n : Nat) (parts : KeystoreParts) : Option Bytes :=
  (splitRecords (List.finRange n) parts.records).2

end KeystoreParts

theorem splitRecords_slots (ids : List (Fin n)) (rest : Bytes) :
    ((splitRecords ids rest).1.map Prod.fst).Sublist ids := by
  induction ids generalizing rest with
  | nil => exact .slnil
  | cons i ids ih =>
    unfold splitRecords
    split
    · exact List.nil_sublist _
    · dsimp only
      split
      · exact List.nil_sublist _
      · exact (ih _).cons_cons i

theorem slotRecords_nodup (parts : KeystoreParts) :
    ((parts.slotRecords n).map Prod.fst).Nodup :=
  (splitRecords_slots _ _).nodup (List.nodup_finRange n)

section Load

variable {S : Setup} {kek : ByteVec 32}

/-- The loop of a load installs the records that were cut out of the file. -/
theorem deserializeSlots_eq (ids : List (Fin n)) (st : HsmStatus) (rest : Bytes) :
    deserializeSlots S kek st (ids.map Fin.val) rest =
      (installRecords S kek (splitRecords ids rest).2 st (splitRecords ids rest).1 :
        DevProg n HsmStatus) := by
  induction ids generalizing st rest with
  | nil => rfl
  | cons i ids ih =>
    unfold splitRecords
    rw [List.map_cons, deserializeSlots]
    split
    · rfl
    · dsimp only
      split
      · rfl
      · rw [installRecords]
        congr 1
        funext st'
        by_cases hOk : st' = .ok
        · rw [if_pos hOk, if_pos hOk]
          exact ih st' _
        · rw [if_neg hOk, if_neg hOk]

/-- A load accepts the file: the token fits, the MAC is good and the anchor has not passed
its epoch. Nothing of this touches a slot. -/
structure LoadAccepts (S : Setup) (env : Nat → Env) (d : Device n) (parts : KeystoreParts) :
    Prop where
  read : ∃ buf, d.fs.file = some buf ∧ (env 0).ioOk = true ∧ (env 0).allocOk = true ∧
    buf.length ≤ (env 0).wrote ∧ keystoreParse n buf = some parts
  keys : (env 1).cryptoOk = true
  authentic : parts.authentic S.crypto = true
  anchor : ∃ seen, anchorSeen S (env 2) d.fs = some seen ∧ seen ≤ parts.epoch

theorem LoadAccepts.unique {env : Nat → Env} {d : Device n} {parts parts' : KeystoreParts}
    (h : LoadAccepts S env d parts) (h' : LoadAccepts S env d parts') : parts = parts' := by
  obtain ⟨buf, hFile, -, -, -, hParse⟩ := h.read
  obtain ⟨buf', hFile', -, -, -, hParse'⟩ := h'.read
  rw [hFile] at hFile'
  cases hFile'
  rw [hParse] at hParse'
  exact Option.some.inj hParse'

theorem readFile_ok {env : Nat → Env} {d : Device n} {buf : Bytes}
    (h : ((readFile : DevProg n _).run env d).1 = .ok buf) :
    d.fs.file = some buf ∧ (env 0).ioOk = true ∧ (env 0).allocOk = true ∧
      buf.length ≤ (env 0).wrote := by
  simp only [readFile, fileSection, Prog.run_atomic] at h
  repeat' split at h
  all_goals cases h
  simp_all

theorem readFile_error {env : Nat → Env} {d : Device n} {st : HsmStatus}
    (h : ((readFile : DevProg n _).run env d).1 = .error st) : st ≠ .ok := by
  simp only [readFile, fileSection, Prog.run_atomic] at h
  repeat' split at h
  all_goals cases h
  all_goals exact HsmStatus.noConfusion

theorem run_rbanchorRead (env : Nat → Env) (d : Device n) :
    (rbanchorRead S : DevProg n _).run env d =
      (anchorSeen S (env 0) d.fs, d, fun k => env (k + 1)) := rfl

theorem run_hsmKeystoreLoad_accepted {env : Nat → Env} {d : Device n} {parts : KeystoreParts}
    (h : LoadAccepts S env d parts) :
    (hsmKeystoreLoad S).run env d =
      (installRecords S (pqcKekDerive S.crypto parts.salt) (parts.slotTail n) .errIntegrity
        (parts.slotRecords n)).run (fun k => env (k + 3)) d := by
  obtain ⟨buf, hFile, hIo, hAlloc, hWhole, hParse⟩ := h.read
  have hLen : ¬ buf.length < KS_HDR_LEN + KS_TAG_LEN := by
    intro hShort
    rw [keystoreParse, if_pos hShort] at hParse
    cases hParse
  have hRead : (readFile : DevProg n _).run env d = (.ok buf, d, fun k => env (k + 1)) := by
    simp [readFile, fileSection, hFile, hIo, hAlloc, hLen, Nat.not_lt.mpr hWhole]
  obtain ⟨seen, hSeen, hEpoch⟩ := h.anchor
  have hAnchor : ¬ parts.epoch < seen := UInt64.not_lt.mpr hEpoch
  rw [hsmKeystoreLoad, Prog.bind_eq_bind, Prog.run_bind, hRead]
  dsimp only
  rw [hParse]
  dsimp only
  rw [Prog.bind_eq_bind, Prog.run_bind, Prog.run_ask, h.keys]
  dsimp only
  rw [if_neg (by decide), if_neg (by rw [h.authentic]; decide), Prog.bind_eq_bind,
    Prog.run_bind, run_rbanchorRead, hSeen]
  dsimp only
  rw [if_neg hAnchor, KeystoreParts.slotRecords, KeystoreParts.slotTail, ← deserializeSlots_eq,
    List.map_coe_finRange_eq_range]

theorem run_hsmKeystoreLoad_refused {env : Nat → Env} {d : Device n}
    (h : ∀ parts, ¬ LoadAccepts S env d parts) :
    ((hsmKeystoreLoad S).run env d).1 ≠ .ok ∧ ((hsmKeystoreLoad S).run env d).2.1 = d := by
  obtain ⟨read, hRead⟩ : ∃ read, (readFile : DevProg n _).run env d =
      (read, d, fun k => env (k + 1)) := ⟨_, rfl⟩
  rw [hsmKeystoreLoad, Prog.bind_eq_bind, Prog.run_bind, hRead]
  dsimp only
  cases read with
  | error st => exact ⟨readFile_error (congrArg Prod.fst hRead), rfl⟩
  | ok buf =>
    obtain ⟨hFile, hIo, hAlloc, hWhole⟩ := readFile_ok (congrArg Prod.fst hRead)
    dsimp only
    cases hParse : keystoreParse n buf with
    | none => exact ⟨HsmStatus.noConfusion, rfl⟩
    | some parts =>
      dsimp only
      rw [Prog.bind_eq_bind, Prog.run_bind, Prog.run_ask]
      dsimp only
      by_cases hKeys : (env 1).cryptoOk = true
      · rw [if_neg (by rw [hKeys]; decide)]
        by_cases hAuth : parts.authentic S.crypto = true
        · rw [if_neg (by rw [hAuth]; decide), Prog.bind_eq_bind, Prog.run_bind, run_rbanchorRead]
          dsimp only
          cases hSeen : anchorSeen S (env 2) d.fs with
          | none => exact ⟨HsmStatus.noConfusion, rfl⟩
          | some seen =>
            dsimp only
            by_cases hOld : parts.epoch < seen
            · rw [if_pos hOld]
              exact ⟨HsmStatus.noConfusion, rfl⟩
            · exact absurd ⟨⟨buf, hFile, hIo, hAlloc, hWhole, hParse⟩, hKeys, hAuth, seen, hSeen,
                UInt64.not_lt.mp hOld⟩ (h parts)
        · rw [if_pos (by simpa using hAuth)]
          exact ⟨HsmStatus.noConfusion, rfl⟩
      · rw [if_pos (by simpa using hKeys)]
        exact ⟨HsmStatus.noConfusion, rfl⟩

end Load

end PqcHsm
