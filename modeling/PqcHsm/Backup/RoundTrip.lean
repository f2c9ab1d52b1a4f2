import PqcHsm.Backup.Reconstruct
import PqcHsm.Backup.RestoreRecords
import PqcHsm.Store.Written

/-!
# Export and restore

What a successful export writes, and that a restore with enough of its shares puts exactly the
exported slots back, on whatever device.
-/

namespace PqcHsm

open ByteCodec Sections

variable {n : Nat} {S : Setup}

instance (C : Crypto) (s : Slot) : Decidable (s.Sealed C) := inferInstanceAs (Decidable (_ = _))

/-- The metadata of the slot is intact and its policy allows a backup. -/
def Slot.Exports (C : Crypto) (s : Slot) : Prop :=
  s.Sealed C ∧ s.metadata.policy &&& SLOT_POLICY_BACKUPABLE ≠ 0

instance (C : Crypto) (s : Slot) : Decidable (s.Exports C) := inferInstanceAs (Decidable (_ ∧ _))

/-- The slots an export writes, in order. -/
def Device.exportedSlots (S : Setup) (d : Device n) : List (Fin n) :=
  (List.finRange n).filter fun i => (d.tok.slots i).Exports S.crypto

section Written

/-- Records are cut out of a container as they were written. -/
theorem splitContainer_written (recs : List (Fin n × Bytes)) (rest : Bytes)
    (hFits : ∀ r ∈ recs, (UInt32.ofNat r.1.val).toNat = r.1.val ∧
      (UInt32.ofNat r.2.length).toNat = r.2.length) :
    splitContainer n recs.length ((recs.map fun r =>
      putU32 (UInt32.ofNat r.1.val) ++ (putU32 (UInt32.ofNat r.2.length) ++ r.2)).flatten ++ rest) =
        (recs, some rest) := by
  induction recs with
  | nil => rfl
  | cons rec recs ih =>
    obtain ⟨i, blob⟩ := rec
    obtain ⟨hId, hLen⟩ := hFits (i, blob) (List.mem_cons_self ..)
    have ih := ih fun r hr => hFits r (List.mem_cons_of_mem _ hr)
    rw [List.map_cons, List.flatten_cons, List.length_cons, splitContainer]
    simp only [List.append_assoc]
    rw [if_neg (by
      simp only [List.length_append, length_putU32, BK_REC_HDR]
      omega)]
    simp only [getU32_putU32, hLen, hId]
    rw [if_neg (by rw [List.length_append]; omega), slotAt_fin, List.take_left, List.drop_left, ih]

/-- The parts of the container an export writes. -/
def exportedParts (C : Crypto) (rmk : Bytes) (salt : ByteVec BK_SALT_LEN)
    (recs : List (Nat × Bytes)) : BackupParts :=
  ⟨recs.length, salt, (recs.map fun r =>
    putU32 (UInt32.ofNat r.1) ++ (putU32 (UInt32.ofNat r.2.length) ++ r.2)).flatten,
    backupBody salt recs, (backupTag C rmk salt (backupBody salt recs)).toList⟩

theorem length_backupFile (C : Crypto) (rmk : Bytes) (salt : ByteVec BK_SALT_LEN)
    (recs : List (Nat × Bytes)) : BK_HDR_LEN + BK_TAG_LEN ≤ (backupFile C rmk salt recs).length := by
  simp only [backupFile, List.length_append, length_putU32, List.Vector.toList_length]
  unfold BK_HDR_LEN BK_TAG_LEN BK_SALT_LEN BK_MAGIC
  simp only [List.length_cons, List.length_nil]
  omega

theorem backupParse_backupFile (C : Crypto) (rmk : Bytes) (salt : ByteVec BK_SALT_LEN)
    {recs : List (Nat × Bytes)} (hCount : recs.length < 2 ^ 32) :
    backupParse (backupFile C rmk salt recs) = some (exportedParts C rmk salt recs) := by
  have hNat : (UInt32.ofNat recs.length).toNat = recs.length := by
    rw [UInt32.toNat_ofNat', Nat.mod_eq_of_lt hCount]
  have hLong := length_backupFile C rmk salt recs
  have hFile : backupFile C rmk salt recs = backupBody salt recs ++
      (backupTag C rmk salt (backupBody salt recs)).toList := rfl
  rw [backupParse, if_neg (by omega)]
  generalize hBody : backupBody salt recs = body at hFile
  have hTag : (backupTag C rmk salt body).toList.length = BK_TAG_LEN :=
    List.Vector.toList_length _
  have hTake : (backupFile C rmk salt recs).take ((backupFile C rmk salt recs).length - BK_TAG_LEN) =
      body := by
    rw [hFile, List.length_append, hTag, Nat.add_sub_cancel, List.take_left]
  have hDrop : (backupFile C rmk salt recs).drop ((backupFile C rmk salt recs).length - BK_TAG_LEN) =
      (backupTag C rmk salt body).toList := by
    rw [hFile, List.length_append, hTag, Nat.add_sub_cancel, List.drop_left]
  have hMagic : body.take 8 = BK_MAGIC := by
    rw [← hBody, backupBody]
    exact List.take_left' rfl
  have hAfter : body.drop 8 = putU32 HSM_BACKUP_VERSION ++ (putU32 (UInt32.ofNat recs.length) ++
      (salt.toList ++ (recs.map fun r =>
        putU32 (UInt32.ofNat r.1) ++ (putU32 (UInt32.ofNat r.2.length) ++ r.2)).flatten)) := by
    rw [← hBody, backupBody]
    exact List.drop_left' rfl
  dsimp only
  rw [hTake, hDrop, hMagic, hAfter]
  simp only [getU32_putU32, getVec_append, hNat, ne_eq, not_true_eq_false, or_self, if_false]
  rw [exportedParts, hBody]

theorem authentic_exportedParts (C : Crypto) (rmk : Bytes) (salt : ByteVec BK_SALT_LEN)
    (recs : List (Nat × Bytes)) : (exportedParts C rmk salt recs).authentic C rmk = true :=
  decide_eq_true rfl

end Written

section Export

variable {d : Device n} {bek : ByteVec 32}

/-- Metadata tags are computed. -/
def Env.Seals (e : Env) : Prop := ∀ k, e.sealOk k = true

/-- What the loop returns: the records of the slots that are intact and may be backed up. -/
structure LoopResult (S : Setup) (bek : ByteVec 32) (d : Device n) (ids : List (Fin n))
    (r : Except HsmStatus (List (Nat × Bytes))) : Prop where
  error : ∀ st, r = .error st → st ≠ .ok
  ok : ∀ recs, r = .ok recs → ∃ blob : Fin n → Bytes,
    (∀ i ∈ ids, (d.tok.slots i).Exports S.crypto →
      BlobOf S.crypto bek (d.tok.slots i) (blob i)) ∧
    recs = (ids.filter fun i => (d.tok.slots i).Exports S.crypto).map fun i => (i.val, blob i)

namespace LoopResult

variable {i : Fin n} {ids : List (Fin n)}

theorem failed {st : HsmStatus} (h : st ≠ .ok) (ids : List (Fin n)) :
    LoopResult S bek d ids (.error st) := by
  refine ⟨fun st' hSt => ?_, fun recs hRecs => (nomatch hRecs)⟩
  cases hSt
  exact h

theorem pass {r : Except HsmStatus (List (Nat × Bytes))} (h : LoopResult S bek d ids r)
    (hNot : ¬ (d.tok.slots i).Exports S.crypto) : LoopResult S bek d (i :: ids) r := by
  refine ⟨h.error, fun recs hRecs => ?_⟩
  obtain ⟨blob, hBlobs, hList⟩ := h.ok recs hRecs
  refine ⟨blob, fun j hj hj' => ?_, ?_⟩
  · obtain rfl | hMem := List.mem_cons.mp hj
    · exact absurd hj' hNot
    · exact hBlobs j hMem hj'
  · rw [List.filter_cons_of_neg (by simpa using hNot)]
    exact hList

theorem write {recs : List (Nat × Bytes)} {b : Bytes} (h : LoopResult S bek d ids (.ok recs))
    (hNew : i ∉ ids) (hExports : (d.tok.slots i).Exports S.crypto)
    (hBlob : BlobOf S.crypto bek (d.tok.slots i) b) :
    LoopResult S bek d (i :: ids) (.ok ((i.val, b) :: recs)) := by
  refine ⟨fun st hSt => (nomatch hSt), fun recs' hRecs => ?_⟩
  cases hRecs
  obtain ⟨blob, hBlobs, rfl⟩ := h.ok recs rfl
  refine ⟨Function.update blob i b, fun j hj hj' => ?_, ?_⟩
  · obtain rfl | hMem := List.mem_cons.mp hj
    · rwa [Function.update_self]
    · have hNe : j ≠ i := fun hEq => hNew (hEq ▸ hMem)
      rw [Function.update_of_ne hNe]
      exact hBlobs j hMem hj'
  · rw [List.filter_cons_of_pos (by simpa using hExports), List.map_cons, Function.update_self]
    congr 1
    refine List.map_congr_left fun j hj => ?_
    have hNe : j ≠ i := fun hEq => hNew (hEq ▸ List.mem_of_mem_filter hj)
    rw [Function.update_of_ne hNe]

end LoopResult

theorem ensures_hsmSlotGetMeta (i : Fin n) :
    (hsmSlotGetMeta S i.val).Ensures Env.Seals (fun r d' => d' = d ∧
      r = if (d.tok.slots i).Sealed S.crypto then .ok (d.tok.slots i).metadata
        else .error .errIntegrity) d := by
  rw [hsmSlotGetMeta, slotAt_fin]
  refine Prog.ensures_atomic fun e he => ?_
  by_cases hSealed : (d.tok.slots i).Sealed S.crypto
  · have hInt : slotCheckIntegrity S.crypto e 0 (d.tok.slots i) = .ok := if_pos ⟨he 0, hSealed⟩
    simp only [hInt, setSlot_self, if_pos hSealed, and_self]
  · have hInt : slotCheckIntegrity S.crypto e 0 (d.tok.slots i) = .errIntegrity :=
      if_neg fun h => hSealed h.2
    simp only [hInt, setSlot_self, if_neg hSealed, and_self]

theorem ensures_hsmSlotSerialize (i : Fin n) :
    (hsmSlotSerialize S i.val bek hsmSlotBlobMax).Ensures Env.Seals (fun r d' => d' = d ∧
      (∀ st, r = .error st → st ≠ .ok) ∧
      ∀ blob, r = .ok blob → BlobOf S.crypto bek (d.tok.slots i) blob) d := by
  refine (along_hsmSlotSerialize i).ensures.mono fun r d' h => ?_
  obtain ⟨hSame, hError, hBlob⟩ := h
  exact ⟨hSame, hError, fun blob hOk => (hBlob blob hOk).2⟩

/-- The loop writes the slots that are intact and may be backed up, and changes nothing. -/
theorem ensures_exportRecords {ids : List (Fin n)} (hNodup : ids.Nodup) :
    (exportRecords S bek (ids.map Fin.val)).Ensures Env.Seals
      (fun r d' => d' = d ∧ LoopResult S bek d ids r) d := by
  induction ids with
  | nil =>
    refine Prog.ensures_ret ⟨rfl, fun st hSt => (nomatch hSt), fun recs hRecs => ?_⟩
    cases hRecs
    exact ⟨fun _ => [], nofun, rfl⟩
  | cons i ids ih =>
    obtain ⟨hNew, hNodup⟩ := List.nodup_cons.mp hNodup
    rw [List.map_cons, exportRecords]
    apply Prog.ensures_bind
    refine (ensures_hsmSlotGetMeta i).mono fun r d' hMeta => ?_
    obtain ⟨rfl, rfl⟩ := hMeta
    by_cases hExports : (d'.tok.slots i).Exports S.crypto
    · simp only [if_pos hExports.1, if_neg hExports.2]
      apply Prog.ensures_bind
      refine (ensures_hsmSlotSerialize i).mono fun r d'' hBlob => ?_
      obtain ⟨rfl, hError, hBlob⟩ := hBlob
      cases r with
      | error st => exact Prog.ensures_ret ⟨rfl, .failed (hError st rfl) _⟩
      | ok b =>
        apply Prog.ensures_bind
        refine (ih hNodup).mono fun r d₃ hRest => ?_
        obtain ⟨rfl, hRest⟩ := hRest
        cases r with
        | error st => exact Prog.ensures_ret ⟨rfl, .failed (hRest.error st rfl) _⟩
        | ok recs => exact Prog.ensures_ret ⟨rfl, hRest.write hNew hExports (hBlob b rfl)⟩
    · have hRest := (ih hNodup).mono fun r d'' (hRest : d'' = d' ∧ LoopResult S bek d' ids r) =>
        And.intro hRest.1 (hRest.2.pass hExports)
      by_cases hSealed : (d'.tok.slots i).Sealed S.crypto
      · have hPolicy : (d'.tok.slots i).metadata.policy &&& SLOT_POLICY_BACKUPABLE = 0 := by
          by_contra hPolicy
          exact hExports ⟨hSealed, hPolicy⟩
        simp only [if_pos hSealed, if_pos hPolicy]
        exact hRest
      · simp only [if_neg hSealed]
        exact hRest

theorem along_hsmSessionRole (sess : HsmSession) : (hsmSessionRole sess : DevProg n _).Along
    (· = d) (fun r d' => d' = d ∧ ∀ st, r = .error st → st ≠ .ok) d := by
  have hBad : ∀ st, (.error .errBadArg : Except HsmStatus HsmRole) = .error st → st ≠ .ok := by
    intro st hSt
    cases hSt
    exact HsmStatus.noConfusion
  unfold hsmSessionRole sessionInfo
  apply Prog.along_bind
  cases sessionIndex sess with
  | none => exact Prog.along_ret rfl (Prog.along_ret rfl ⟨rfl, hBad⟩)
  | some i =>
    refine Prog.along_atomic rfl fun e => ?_
    dsimp only
    split
    · exact ⟨rfl, Prog.along_ret rfl ⟨rfl, fun st hSt => (nomatch hSt)⟩⟩
    · exact ⟨rfl, Prog.along_ret rfl ⟨rfl, hBad⟩⟩

/-- The files of a backup are not part of the device. -/
theorem ensures_placeBackup (body tag : Bytes) :
    (placeBackup body tag : DevProg n _).Ensures Env.Seals (fun _ d' => d' = d) d := by
  have hIf : ∀ (b : Bool) (read : Env → Bool), (if b then Prog.ask read else pure false :
      DevProg n Bool).Ensures Env.Seals (fun _ d' => d' = d) d := by
    intro b read
    cases b with
    | true => exact Prog.ensures_ask fun _ _ => rfl
    | false => exact Prog.ensures_ret rfl
  unfold placeBackup
  apply Prog.ensures_bind
  refine Prog.ensures_ask fun e _ => ?_
  split
  · apply Prog.ensures_bind
    refine Prog.ensures_ask fun e _ => ?_
    apply Prog.ensures_bind
    refine (hIf _ _).mono fun tagOk d' hd => ?_
    subst hd
    apply Prog.ensures_bind
    refine (hIf _ _).mono fun synced d' hd => ?_
    subst hd
    apply Prog.ensures_bind
    refine (hIf _ _).mono fun renamed d' hd => ?_
    exact Prog.ensures_ret hd
  · exact Prog.ensures_ret rfl

/-- What a successful export has written and given out. -/
structure ExportDone (S : Setup) (d : Device n) (m k shareCap : Nat) (r : ExportResult)
    (rmk : ByteVec HSM_RMK_LEN) (salt : ByteVec BK_SALT_LEN) (blob : Fin n → Bytes) : Prop where
  blobs : ∀ i, (d.tok.slots i).Exports S.crypto →
    BlobOf S.crypto (backupBek S.crypto rmk.toList salt) (d.tok.slots i) (blob i)
  shares : ∃ random, shamirSplit S.crypto random rmk.toList m k shareCap = some r.shares
  exported : r.exported = some (d.exportedSlots S).length
  file : r.file = some (backupFile S.crypto rmk.toList salt
    ((d.exportedSlots S).map fun i => (i.val, blob i)))

/-- What the last stage of an export has given out. -/
def SharesGiven (S : Setup) (rmk : Bytes) (m k shareCap count : Nat) (content : Bytes)
    (r : ExportResult) : Prop :=
  r.st = .ok → (∃ random, shamirSplit S.crypto random rmk m k shareCap = some r.shares) ∧
    r.exported = some count ∧ r.file = some content

theorem ensures_giveShares (rmk : Bytes) (m k shareCap count : Nat) (content : Bytes) :
    (giveShares S rmk m k shareCap count content).Ensures Env.Seals (fun r d' => d' = d ∧
      SharesGiven S rmk m k shareCap count content r) d := by
  unfold giveShares
  apply Prog.ensures_bind
  refine Prog.ensures_ask fun e _ => ?_
  cases hSplit : (if e.cryptoOk then shamirSplit S.crypto e.random rmk m k shareCap else none) with
  | none =>
    apply Prog.ensures_bind
    exact Prog.ensures_ask fun _ _ => Prog.ensures_ret ⟨rfl, fun hOk => HsmStatus.noConfusion hOk⟩
  | some shares =>
    refine Prog.ensures_ret ⟨rfl, fun _ => ⟨⟨e.random, ?_⟩, rfl, rfl⟩⟩
    split at hSplit
    · exact hSplit
    · cases hSplit

theorem ensures_writeBackup (old : Option Bytes) (rmk : Bytes) (salt : ByteVec BK_SALT_LEN)
    (recs : List (Nat × Bytes)) (m k shareCap : Nat) :
    (writeBackup S old rmk salt recs m k shareCap).Ensures Env.Seals (fun r d' => d' = d ∧
      SharesGiven S rmk m k shareCap recs.length (backupFile S.crypto rmk salt recs) r) d := by
  have hStop : ∀ st : HsmStatus, st ≠ .ok → (.ret (.failed old st) : DevProg n ExportResult).Ensures
      Env.Seals (fun r d' => d' = d ∧
        SharesGiven S rmk m k shareCap recs.length (backupFile S.crypto rmk salt recs) r) d :=
    fun st hSt => Prog.ensures_ret ⟨rfl, fun hOk => absurd hOk hSt⟩
  unfold writeBackup
  apply Prog.ensures_bind
  refine Prog.ensures_ask fun e _ => ?_
  split
  · apply Prog.ensures_bind
    refine Prog.ensures_ask fun e _ => ?_
    split
    · apply Prog.ensures_bind
      refine (ensures_placeBackup _ _).mono fun st d' hd => ?_
      subst hd
      by_cases hSt : st = .ok
      · rw [if_pos hSt]
        exact ensures_giveShares _ _ _ _ _ _
      · rw [if_neg hSt]
        exact hStop st hSt
    · exact hStop _ HsmStatus.noConfusion
  · exact hStop _ HsmStatus.noConfusion

/-- An export changes nothing, and is done when it returns OK. -/
theorem ensures_hsmBackupExport (sess : HsmSession) (old : Option Bytes) (m k shareCap : Nat) :
    (hsmBackupExport S sess old m k shareCap).Ensures Env.Seals (fun r d' => d' = d ∧
      (r.st = .ok → ∃ rmk salt blob, ExportDone S d m k shareCap r rmk salt blob)) d := by
  have hStop : ∀ st : HsmStatus, st ≠ .ok → (.ret (.failed old st) : DevProg n ExportResult).Ensures
      Env.Seals (fun r d' => d' = d ∧
        (r.st = .ok → ∃ rmk salt blob, ExportDone S d m k shareCap r rmk salt blob)) d :=
    fun st hSt => Prog.ensures_ret ⟨rfl, fun hOk => absurd hOk hSt⟩
  unfold hsmBackupExport
  split
  · exact hStop _ HsmStatus.noConfusion
  · split
    · exact hStop _ HsmStatus.noConfusion
    · apply Prog.ensures_bind
      refine (along_hsmSessionRole sess).ensures.mono fun r d' hRole => ?_
      obtain ⟨rfl, hError⟩ := hRole
      cases r with
      | error st => exact hStop st (hError st rfl)
      | ok role =>
        dsimp only
        split
        · apply Prog.ensures_bind
          refine Prog.ensures_ask fun e _ => ?_
          generalize (e.allocOk, e.bytes 0 HSM_RMK_LEN, e.bytes 1 BK_SALT_LEN, e.cryptoOk) = entry
          obtain ⟨_ | _, _ | rmk, _ | salt, _ | _⟩ := entry
          case true.some.some.true =>
            apply Prog.ensures_bind
            rw [← List.map_coe_finRange_eq_range]
            refine (ensures_exportRecords (List.nodup_finRange n)).mono fun r d'' hRecs => ?_
            obtain ⟨rfl, hRecs⟩ := hRecs
            cases r with
            | error st => exact hStop st (hRecs.error st rfl)
            | ok recs =>
              obtain ⟨blob, hBlobs, rfl⟩ := hRecs.ok recs rfl
              refine (ensures_writeBackup _ _ _ _ _ _ _).mono fun r d₃ hDone => ?_
              obtain ⟨rfl, hDone⟩ := hDone
              refine ⟨rfl, fun hOk => ⟨rmk, salt, blob, ?_⟩⟩
              obtain ⟨hShares, hCount, hFile⟩ := hDone hOk
              refine ⟨fun i => hBlobs i (List.mem_finRange i), hShares, ?_, hFile⟩
              rw [hCount, List.length_map]
              rfl
          all_goals exact hStop _ HsmStatus.noConfusion
        · exact hStop _ HsmStatus.noConfusion

end Export

section Restore

variable {n' m k shareCap shareCap' : Nat} {d : Device n} {d₂ : Device n'} {r : ExportResult}
  {rmk : ByteVec HSM_RMK_LEN} {salt : ByteVec BK_SALT_LEN} {blob : Fin n → Bytes} {sel : List Bytes}
  {env : Nat → Env}

/-- The other device has the same cryptography, on another root key. -/
def Setup.Rekeyed (S S' : Setup) : Prop :=
  ∃ kdr, S'.crypto = { S.crypto with kdrDerive := kdr }

/-- The records of an export, for a device that has their slots. -/
def recordsFor (n' : Nat) (ids : List (Fin n)) (blob : Fin n → Bytes)
    (h : ∀ i ∈ ids, i.val < n') : List (Fin n' × Bytes) :=
  ids.pmap (fun i hi => (⟨i.val, hi⟩, blob i)) h

/-- Enough shares of an export open its container. -/
theorem restoreAccepts_exported {S' : Setup} (hRoot : S.Rekeyed S') (hn : n < 2 ^ 32)
    (hDone : ExportDone S d m k shareCap r rmk salt blob) (hSel : sel ⊆ r.shares)
    (hNodup : sel.Nodup) (hCount : m ≤ sel.length) (hCap : HSM_SHARE_LEN ≤ shareCap')
    (hEnv : ∀ k, (env k).Works (r.file.getD []).length) :
    RestoreAccepts S' env r.file shareCap' sel rmk.toList (exportedParts S.crypto rmk.toList salt
      ((d.exportedSlots S).map fun i => (i.val, blob i))) := by
  obtain ⟨random, hShares⟩ := hDone.shares
  obtain ⟨kdr, hCrypto⟩ := hRoot
  have hSecret : rmk.toList.length = HSM_RMK_LEN := rmk.toList_length
  obtain ⟨-, ⟨hm, -⟩, -⟩ := shamirSplit_eq_some hShares
  have hCombine : shamirCombine S'.crypto shareCap' sel HSM_RMK_LEN = some rmk.toList := by
    rw [hCrypto]
    exact shamirCombine_shamirSplit hShares hSel hNodup hCount (by rw [hSecret]; exact hCap) hSecret.le
  have hFew : ((d.exportedSlots S).map fun i => (i.val, blob i)).length < 2 ^ 32 := by
    rw [List.length_map]
    refine Nat.lt_of_le_of_lt (List.length_filter_le _ _) ?_
    rwa [List.length_finRange]
  refine ⟨⟨?_, (hEnv 0).cryptoOk, hCombine, hSecret⟩, ?_, (hEnv 2).cryptoOk, ?_⟩
  · rintro rfl
    rw [List.length_nil] at hCount
    omega
  · refine ⟨_, ?_, backupParse_backupFile S.crypto rmk.toList salt hFew⟩
    have hWhole := (hEnv 1).whole
    rw [hDone.file] at hWhole ⊢
    have hLong := length_backupFile S.crypto rmk.toList salt
      ((d.exportedSlots S).map fun i => (i.val, blob i))
    simp only [readContainer, (hEnv 1).ioOk, (hEnv 1).allocOk, Bool.not_true, Bool.false_eq_true,
      if_false]
    rw [if_neg (by omega), if_neg (by simpa using hWhole)]
  · rw [hCrypto]
    exact authentic_exportedParts S.crypto rmk.toList salt _

/-- A restore with enough shares puts exactly the exported slots back. -/
theorem run_hsmBackupRestore_exported {S' : Setup} (hRoot : S.Rekeyed S') (hn : n < 2 ^ 32)
    (hStorable : d.Storable) (hDone : ExportDone S d m k shareCap r rmk salt blob)
    (hSel : sel ⊆ r.shares) (hNodup : sel.Nodup) (hCount : m ≤ sel.length)
    (hCap : HSM_SHARE_LEN ≤ shareCap') (hNumbered : d₂.Numbered)
    (hEnough : ∀ i, (d.tok.slots i).Exports S.crypto → i.val < n')
    (hEnv : ∀ k, (env k).Works (r.file.getD []).length) :
    ((hsmBackupRestore S' r.file shareCap' sel).run env d₂).1 = (.ok, r.exported) ∧
      ∃ slots', ((hsmBackupRestore S' r.file shareCap' sel).run env d₂).2.1 = d₂.withSlots slots' ∧
        (∀ i, (d.tok.slots i).Exports S.crypto → ∀ j, j.val = i.val →
          slots' j = restoredSlot S'.crypto (d.tok.slots i)) ∧
        ∀ j, (∀ i, (d.tok.slots i).Exports S.crypto → j.val ≠ i.val) →
          slots' j = d₂.tok.slots j := by
  have hAccepts := restoreAccepts_exported hRoot hn hDone hSel hNodup hCount hCap hEnv
  obtain ⟨kdr, hCrypto⟩ := hRoot
  have hExports : ∀ i ∈ d.exportedSlots S, (d.tok.slots i).Exports S.crypto :=
    fun i hi => by simpa using (List.mem_filter.mp hi).2
  have hMem : ∀ i, (d.tok.slots i).Exports S.crypto → i ∈ d.exportedSlots S :=
    fun i hi => List.mem_filter.mpr ⟨List.mem_finRange i, by simpa using hi⟩
  have hFits : ∀ i ∈ d.exportedSlots S, i.val < n' := fun i hi => hEnough i (hExports i hi)
  let recs := recordsFor n' (d.exportedSlots S) blob hFits
  -- every record is one of a slot of the exporting device
  have hRec : ∀ r ∈ recs, ∃ i, ∃ hi : i.val < n', (d.tok.slots i).Exports S.crypto ∧
      r = (⟨i.val, hi⟩, blob i) := by
    intro r hr
    obtain ⟨i, hi, rfl⟩ := List.mem_pmap.mp hr
    exact ⟨i, hFits i hi, hExports i hi, rfl⟩
  have hSplit : splitContainer n' (exportedParts S.crypto rmk.toList salt
      ((d.exportedSlots S).map fun i => (i.val, blob i))).nRecs
      (exportedParts S.crypto rmk.toList salt
        ((d.exportedSlots S).map fun i => (i.val, blob i))).records = (recs, some []) := by
    have hWritten := splitContainer_written recs [] fun r hr => by
      obtain ⟨i, hi, hExp, rfl⟩ := hRec r hr
      refine ⟨?_, BlobOf.toNat_length (hDone.blobs i hExp)⟩
      rw [UInt32.toNat_ofNat', Nat.mod_eq_of_lt (i.isLt.trans hn)]
    have hRaw : (recs.map fun r =>
        putU32 (UInt32.ofNat r.1.val) ++ (putU32 (UInt32.ofNat r.2.length) ++ r.2)) =
          ((d.exportedSlots S).map fun i => (i.val, blob i)).map fun r =>
            putU32 (UInt32.ofNat r.1) ++ (putU32 (UInt32.ofNat r.2.length) ++ r.2) := by
      simp only [recs, recordsFor, List.map_pmap, List.map_map]
      exact List.pmap_eq_map ..
    have hLength : recs.length = (d.exportedSlots S).length := List.length_pmap
    rw [List.append_nil, hRaw, hLength] at hWritten
    simpa only [exportedParts, List.length_map] using hWritten
  have hRecs : (exportedParts S.crypto rmk.toList salt
      ((d.exportedSlots S).map fun i => (i.val, blob i))).slotRecords n' = recs :=
    congrArg Prod.fst hSplit
  have hTail : (exportedParts S.crypto rmk.toList salt
      ((d.exportedSlots S).map fun i => (i.val, blob i))).slotTail n' = some [] :=
    congrArg Prod.snd hSplit
  let src : Fin n' → Slot := fun j =>
    if h : j.val < n then d.tok.slots ⟨j.val, h⟩ else d₂.tok.slots j
  have hSrc : ∀ (i : Fin n) (hi : i.val < n'), src ⟨i.val, hi⟩ = d.tok.slots i :=
    fun i hi => dif_pos i.isLt
  have hPlaces : (recs.map Prod.fst).Nodup := by
    simp only [recs, recordsFor, List.map_pmap]
    refine List.Nodup.pmap (fun i _ j _ hEq => ?_) ((List.nodup_finRange n).filter _)
    exact Fin.ext (Fin.mk.inj hEq)
  have hInstalls := installs_written (C := S'.crypto) (backupBek S'.crypto rmk.toList salt) src
    (fun k => hEnv (k + 3)) d₂.tok.slots hPlaces fun r hr => by
      obtain ⟨i, hi, hExp, rfl⟩ := hRec r hr
      rw [hSrc i hi]
      refine ⟨?_, hStorable i, hNumbered ⟨i.val, hi⟩⟩
      rw [hCrypto]
      exact blobOf_kdr kdr (hDone.blobs i hExp)
  obtain ⟨hStatus, hRun⟩ := run_installRecords_of_installs (some []) hInstalls .errIntegrity
  rw [run_hsmBackupRestore_accepted hAccepts, hRecs, hTail, Prog.run_bind]
  refine ⟨?_, _, hRun, fun i hi j hj => ?_, fun j hj => ?_⟩
  · have hEnd : endStatus (some []) (if recs = [] then .errIntegrity else .ok) = .ok :=
      endStatus_eq_ok_iff.mpr (.inl rfl)
    have hOk := hStatus.trans hEnd
    have hCountRecs : (exportedParts S.crypto rmk.toList salt
        ((d.exportedSlots S).map fun i => (i.val, blob i))).nRecs = (d.exportedSlots S).length :=
      List.length_map ..
    rw [Prog.run_ret, hCountRecs, hDone.exported]
    change restoreResult (some []) _ ((installRecords S' (backupBek S'.crypto rmk.toList salt)
      (some []) .errIntegrity recs).run _ d₂).1 = _
    rw [hOk]
    rfl
  · obtain ⟨j, hLt⟩ := j
    obtain rfl : j = i.val := hj
    have hIn : (⟨i.val, hLt⟩ : Fin n') ∈ recs.map Prod.fst :=
      List.mem_map_of_mem (List.mem_pmap.mpr ⟨i, hMem i hi, rfl⟩)
    rw [if_pos hIn, hSrc]
  · have hOut : j ∉ recs.map Prod.fst := by
      intro hIn
      obtain ⟨r, hr, rfl⟩ := List.mem_map.mp hIn
      obtain ⟨i, hi, hExp, rfl⟩ := hRec r hr
      exact hj i hExp rfl
    rw [if_neg hOut]

end Restore

end PqcHsm
