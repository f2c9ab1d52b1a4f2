import PqcHsm.Store.Install
import PqcHsm.Slot.Machine

/-!
# What a restore installs

The records of an accepted container, cut out of its body. A restore that succeeds has
installed all of them, unless the loop left at a record that does not fit or names a slot the
token does not have; a restore that fails has installed the records before the failing one.
-/

namespace PqcHsm

open ByteCodec Sections

variable {n : Nat}

/-- The given number of records and what follows them, `none` when one does not fit or names no
slot of the token. -/
def splitContainer (n : Nat) : Nat → Bytes → List (Fin n × Bytes) × Option Bytes
  | 0, rest => ([], some rest)
  | k + 1, rest =>
    if rest.length < BK_REC_HDR then ([], none)
    else
      let (slotId, rest) := getU32 rest
      let (blen, rest) := getU32 rest
      if rest.length < blen.toNat then ([], none)
      else
        match slotAt n slotId.toNat with
        | none => ([], none)
        | some i =>
          let (recs, tail) := splitContainer n k (rest.drop blen.toNat)
          ((i, rest.take blen.toNat) :: recs, tail)

namespace BackupParts

/-- The records the header announces, as far as they fit and name a slot of the token. -/
def slotRecords (n : Nat) (parts : BackupParts) : List (Fin n × Bytes) :=
  (splitContainer n parts.nRecs parts.records).1

/-- What follows the last record, `none` when the records stop before it. -/
def slotTail (n : Nat) (parts : BackupParts) : Option Bytes :=
  (splitContainer n parts.nRecs parts.records).2

end BackupParts

theorem splitContainer_length {k : Nat} {rest tail : Bytes}
    (h : (splitContainer n k rest).2 = some tail) : (splitContainer n k rest).1.length = k := by
  induction k generalizing rest with
  | zero => rfl
  | succ k ih =>
    unfold splitContainer at h ⊢
    split at h
    · cases h
    · rename_i hHeader
      rw [if_neg hHeader]
      dsimp only at h ⊢
      split at h
      · cases h
      · rename_i hBlob
        rw [if_neg hBlob]
        split at h
        · cases h
        · exact congrArg Nat.succ (ih h)

section Restore

variable {S : Setup} {bek : ByteVec 32}

/-- The result of a restore whose records end with the given status. -/
def restoreResult (tail : Option Bytes) (count : Nat) (st : HsmStatus) : HsmStatus × Option Nat :=
  (st, if st = .ok ∧ tail = some [] then some count else none)

/-- The loop of a restore installs the records that were cut out of the container. -/
theorem restoreRecords_eq (k restored : Nat) (st : HsmStatus) (rest : Bytes) :
    (restoreRecords S bek st restored k rest : DevProg n _) =
      (installRecords S bek (splitContainer n k rest).2 st (splitContainer n k rest).1).bind
        fun st' => .ret (restoreResult (splitContainer n k rest).2 (restored + k) st') := by
  induction k generalizing restored st rest with
  | zero =>
    by_cases hRest : rest = [] <;>
      simp [restoreRecords, splitContainer, installRecords, endStatus, restoreResult, hRest]
  | succ k ih =>
    unfold splitContainer
    rw [restoreRecords]
    split
    · simp [installRecords, endStatus, restoreResult]
    · dsimp only
      split
      · simp [installRecords, endStatus, restoreResult]
      · by_cases hSlot : n ≤ (getU32 rest).1.toNat
        · have hNone : slotAt n (getU32 rest).1.toNat = none := by
            rw [slotAt, dif_neg (Nat.not_lt.mpr hSlot)]
          rw [if_pos hSlot, hNone]
          simp [installRecords, endStatus, restoreResult]
        · have hSome : slotAt n (getU32 rest).1.toNat =
              some ⟨(getU32 rest).1.toNat, Nat.not_le.mp hSlot⟩ := by
            rw [slotAt, dif_pos (Nat.not_le.mp hSlot)]
          rw [if_neg hSlot, hSome]
          dsimp only
          rw [installRecords, Prog.bind_eq_bind, Prog.bind_eq_bind, Prog.bind_assoc]
          congr 1
          funext st'
          by_cases hOk : st' = .ok
          · rw [if_pos hOk, if_pos hOk, ih, Nat.add_assoc, Nat.add_comm 1 k]
          · rw [if_neg hOk, if_neg hOk]
            simp [restoreResult, hOk]

/-- A restore accepts the container: the shares give a key of the right length and the MAC is
good under it. Nothing of this touches a slot. -/
structure RestoreAccepts (S : Setup) (env : Nat → Env) (content : Option Bytes) (shareCap : Nat)
    (shares : List Bytes) (rmk : Bytes) (parts : BackupParts) : Prop where
  shares : shares ≠ [] ∧ (env 0).cryptoOk = true ∧
    shamirCombine S.crypto shareCap shares HSM_RMK_LEN = some rmk ∧ rmk.length = HSM_RMK_LEN
  read : ∃ buf, readContainer (env 1) content = .ok buf ∧ backupParse buf = some parts
  keys : (env 2).cryptoOk = true
  authentic : parts.authentic S.crypto rmk = true

variable {env : Nat → Env} {content : Option Bytes} {shareCap : Nat} {shares : List Bytes}
  {rmk : Bytes} {parts : BackupParts} {d : Device n}

theorem RestoreAccepts.unique {rmk' : Bytes} {parts' : BackupParts}
    (h : RestoreAccepts S env content shareCap shares rmk parts)
    (h' : RestoreAccepts S env content shareCap shares rmk' parts') :
    rmk = rmk' ∧ parts = parts' := by
  obtain ⟨-, -, hCombine, -⟩ := h.shares
  obtain ⟨-, -, hCombine', -⟩ := h'.shares
  obtain ⟨buf, hRead, hParse⟩ := h.read
  obtain ⟨buf', hRead', hParse'⟩ := h'.read
  rw [hCombine] at hCombine'
  rw [hRead] at hRead'
  cases hRead'
  rw [hParse] at hParse'
  exact ⟨Option.some.inj hCombine', Option.some.inj hParse'⟩

theorem run_hsmBackupRestore_accepted
    (h : RestoreAccepts S env content shareCap shares rmk parts) :
    (hsmBackupRestore S content shareCap shares : DevProg n _).run env d =
      ((installRecords S (backupBek S.crypto rmk parts.salt) (parts.slotTail n) .errIntegrity
          (parts.slotRecords n)).bind
        fun st => .ret (restoreResult (parts.slotTail n) parts.nRecs st)).run
          (fun k => env (k + 3)) d := by
  obtain ⟨hShares, hHash, hCombine, hLen⟩ := h.shares
  obtain ⟨buf, hRead, hParse⟩ := h.read
  rw [hsmBackupRestore, if_neg hShares, Prog.bind_eq_bind, Prog.run_bind, Prog.run_ask, hHash]
  dsimp only
  rw [if_pos rfl, hCombine]
  dsimp only
  rw [if_neg (not_not_intro hLen), Prog.bind_eq_bind, Prog.run_bind, Prog.run_ask, hRead]
  dsimp only
  rw [hParse]
  dsimp only
  rw [Prog.bind_eq_bind, Prog.run_bind, Prog.run_ask, h.keys]
  dsimp only
  rw [if_neg (by decide), if_neg (by rw [h.authentic]; decide), restoreRecords_eq, Nat.zero_add]
  rfl

theorem readContainer_error {e : Env} {st : HsmStatus} (h : readContainer e content = .error st) :
    st ≠ .ok := by
  unfold readContainer at h
  repeat' split at h
  all_goals cases h
  all_goals exact HsmStatus.noConfusion

theorem run_hsmBackupRestore_refused
    (h : ∀ rmk parts, ¬ RestoreAccepts S env content shareCap shares rmk parts) :
    ((hsmBackupRestore S content shareCap shares : DevProg n _).run env d).1.1 ≠ .ok ∧
      ((hsmBackupRestore S content shareCap shares : DevProg n _).run env d).2.1 = d := by
  rw [hsmBackupRestore]
  by_cases hShares : shares = []
  · rw [if_pos hShares]
    exact ⟨HsmStatus.noConfusion, rfl⟩
  rw [if_neg hShares, Prog.bind_eq_bind, Prog.run_bind, Prog.run_ask]
  dsimp only
  cases hCombine : (if (env 0).cryptoOk then shamirCombine S.crypto shareCap shares HSM_RMK_LEN
      else none) with
  | none => exact ⟨HsmStatus.noConfusion, rfl⟩
  | some rmk =>
    dsimp only
    by_cases hLen : rmk.length = HSM_RMK_LEN
    · rw [if_neg (not_not_intro hLen), Prog.bind_eq_bind, Prog.run_bind, Prog.run_ask]
      dsimp only
      cases hRead : readContainer (env (0 + 1)) content with
      | error st => exact ⟨readContainer_error hRead, rfl⟩
      | ok buf =>
        dsimp only
        cases hParse : backupParse buf with
        | none => exact ⟨HsmStatus.noConfusion, rfl⟩
        | some parts =>
          dsimp only
          rw [Prog.bind_eq_bind, Prog.run_bind, Prog.run_ask]
          dsimp only
          by_cases hKeys : (env 2).cryptoOk = true
          · rw [if_neg (by rw [hKeys]; decide)]
            by_cases hAuth : parts.authentic S.crypto rmk = true
            · have hHash : (env 0).cryptoOk = true := by
                by_contra hNot
                rw [if_neg hNot] at hCombine
                cases hCombine
              rw [if_pos hHash] at hCombine
              exact absurd ⟨⟨hShares, hHash, hCombine, hLen⟩, ⟨buf, hRead, hParse⟩, hKeys, hAuth⟩
                (h rmk parts)
            · rw [if_pos (by simpa using hAuth)]
              exact ⟨HsmStatus.noConfusion, rfl⟩
          · rw [if_pos (by simpa using hKeys)]
            exact ⟨HsmStatus.noConfusion, rfl⟩
    · rw [if_pos hLen]
      exact ⟨HsmStatus.noConfusion, rfl⟩

/-- The records of the container as the restore reads them, in its environment from the fourth
section on. -/
def RestoreInstalls (S : Setup) (env : Nat → Env) (d : Device n) (rmk : Bytes)
    (parts : BackupParts) (recs : List (Fin n × Bytes)) (slots' : Fin n → Slot) : Prop :=
  Installs S.crypto (backupBek S.crypto rmk parts.salt) (fun k => env (k + 3)) d.tok.slots recs
    slots'

/-- The outcome of an accepted restore: all records, or those before a refused one, have been
installed. -/
theorem run_hsmBackupRestore_outcome
    (h : RestoreAccepts S env content shareCap shares rmk parts) (d : Device n) :
    ∃ done rest slots', parts.slotRecords n = done ++ rest ∧
      RestoreInstalls S env d rmk parts done slots' ∧
      ((rest = [] ∧
          ((hsmBackupRestore S content shareCap shares).run env d).1 = restoreResult
            (parts.slotTail n) parts.nRecs
            (endStatus (parts.slotTail n) (if done = [] then .errIntegrity else .ok)) ∧
          ((hsmBackupRestore S content shareCap shares).run env d).2.1 = d.withSlots slots') ∨
        ∃ i blob rest' refusal, rest = (i, blob) :: rest' ∧
          refusal = slotDeserializeLocked S.crypto (env (done.length + 3))
            (backupBek S.crypto rmk parts.salt) blob (slots' i) ∧
          refusal.1 ≠ .ok ∧
          ((hsmBackupRestore S content shareCap shares).run env d).1 = (refusal.1, none) ∧
          ((hsmBackupRestore S content shareCap shares).run env d).2.1 =
            (d.withSlots slots').setSlot i refusal.2) := by
  rw [run_hsmBackupRestore_accepted h, Prog.run_bind]
  obtain ⟨done, rest, slots', hRecs, hDone, hEnd⟩ := run_installRecords S
    (backupBek S.crypto rmk parts.salt) (parts.slotTail n) (parts.slotRecords n) .errIntegrity
    (fun k => env (k + 3)) d
  refine ⟨done, rest, slots', hRecs, hDone, ?_⟩
  obtain ⟨hNil, hStatus, hSlots⟩ | ⟨i, blob, rest', refusal, hRest, hRefusal, hNot, hStatus,
    hSlots⟩ := hEnd
  · refine .inl ⟨hNil, ?_, hSlots⟩
    rw [hStatus]
    rfl
  · refine .inr ⟨i, blob, rest', refusal, hRest, hRefusal, hNot, ?_, hSlots⟩
    rw [hStatus]
    simp [restoreResult, hNot]

/-- A restore that succeeds has installed every record the header announces, and reports their
number. -/
def RestoreComplete (S : Setup) (env : Nat → Env) (content : Option Bytes) (shareCap : Nat)
    (shares : List Bytes) (d : Device n) : Prop :=
  ((hsmBackupRestore S content shareCap shares).run env d).1.1 = .ok →
    ∃ rmk parts, RestoreAccepts S env content shareCap shares rmk parts ∧
      (parts.slotRecords n).length = parts.nRecs ∧
      RestoreInstalls S env d rmk parts (parts.slotRecords n)
        ((hsmBackupRestore S content shareCap shares).run env d).2.1.tok.slots ∧
      ((hsmBackupRestore S content shareCap shares).run env d).1.2 = some parts.nRecs

/-- The records of an accepted container do not stop, after at least one record that can be
installed with all before it, at a record that does not fit or names no slot. -/
def RestoreCond (S : Setup) (env : Nat → Env) (content : Option Bytes) (shareCap : Nat)
    (shares : List Bytes) (d : Device n) : Prop :=
  ∀ rmk parts, RestoreAccepts S env content shareCap shares rmk parts →
    ¬ (parts.slotTail n = none ∧ parts.slotRecords n ≠ [] ∧
      ∃ slots', RestoreInstalls S env d rmk parts (parts.slotRecords n) slots')

theorem restore_complete_iff (S : Setup) (env : Nat → Env) (content : Option Bytes)
    (shareCap : Nat) (shares : List Bytes) (d : Device n) :
    RestoreComplete S env content shareCap shares d ↔
      RestoreCond S env content shareCap shares d := by
  constructor
  · rintro h rmk parts hAccepts ⟨hTail, hNe, all, hAll⟩
    obtain ⟨done, rest, slots', hRecs, hDone, ⟨rfl, hResult, -⟩ | hRefusal⟩ :=
      run_hsmBackupRestore_outcome hAccepts d
    · obtain hRecs : parts.slotRecords n = done := by simpa using hRecs
      rw [hTail, if_neg (hRecs ▸ hNe)] at hResult
      obtain ⟨rmk', parts', hAccepts', -, -, hCount⟩ := h (by rw [hResult]; rfl)
      rw [hResult] at hCount
      cases hCount
    · obtain ⟨i, blob, rest', refusal, rfl, rfl, hNot, -⟩ := hRefusal
      unfold RestoreInstalls at hAll
      rw [hRecs] at hAll
      exact hNot (hAll.next hDone)
  · intro h hOk
    by_cases hAny : ∃ rmk parts, RestoreAccepts S env content shareCap shares rmk parts
    · obtain ⟨rmk, parts, hAccepts⟩ := hAny
      obtain ⟨done, rest, slots', hRecs, hDone, ⟨rfl, hResult, hSlots⟩ | hRefusal⟩ :=
        run_hsmBackupRestore_outcome hAccepts d
      · obtain hRecs : parts.slotRecords n = done := by simpa using hRecs
        have hTail : parts.slotTail n = some [] := by
          rw [hResult] at hOk
          obtain hSome | ⟨hNone, hLast⟩ := endStatus_eq_ok_iff.mp hOk
          · exact hSome
          · refine absurd ⟨hNone, fun hNil => ?_, slots', hRecs ▸ hDone⟩ (h rmk parts hAccepts)
            rw [if_pos (hRecs ▸ hNil)] at hLast
            cases hLast
        refine ⟨rmk, parts, hAccepts, splitContainer_length hTail, ?_, ?_⟩
        · rw [hSlots, withSlots_slots, hRecs]
          exact hDone
        · rw [hResult, hTail]
          rfl
      · obtain ⟨i, blob, rest', refusal, -, -, hNot, hResult, -⟩ := hRefusal
        rw [hResult] at hOk
        exact absurd hOk hNot
    · refine absurd hOk (run_hsmBackupRestore_refused fun rmk parts hAccepts => ?_).1
      exact hAny ⟨rmk, parts, hAccepts⟩

/-- Why the records of an accepted container stop after the first `k`, which have left the slots
as given: nothing more announced is there, or the next record is refused. A record that was read
and could not be sealed says nothing about its slot. -/
inductive RestoreStops (S : Setup) (env : Nat → Env) (bek : ByteVec 32) (parts : BackupParts)
    (k : Nat) (slots' : Fin n → Slot) (st : HsmStatus) (d d' : Device n) : Prop where
  | atEnd : k = (parts.slotRecords n).length → parts.slotTail n ≠ some [] →
      (parts.slotTail n = none → k = 0) → st = .errIntegrity → d' = d.withSlots slots' →
      RestoreStops S env bek parts k slots' st d d'
  | refused (i : Fin n) (blob : Bytes) : (parts.slotRecords n)[k]? = some (i, blob) →
      slotBlobRead S.crypto (env (k + 3)) bek blob (slots' i).metadata.slotId = .error st →
      d' = d.withSlots slots' → RestoreStops S env bek parts k slots' st d d'
  | unsealed (i : Fin n) (blob : Bytes) (mr : SlotMeta × SlotRecord) :
      (parts.slotRecords n)[k]? = some (i, blob) →
      slotBlobRead S.crypto (env (k + 3)) bek blob (slots' i).metadata.slotId = .ok mr →
      (env (k + 3)).sealOk 0 = false → RestoreStops S env bek parts k slots' st d d'

/-- What a restore that fails leaves: the device as it was, or exactly the records before the
failing one installed. -/
theorem restore_failed {env : Nat → Env} {content : Option Bytes} {shareCap : Nat}
    {shares : List Bytes} {d : Device n}
    (h : ((hsmBackupRestore S content shareCap shares).run env d).1.1 ≠ .ok) :
    ((hsmBackupRestore S content shareCap shares).run env d).2.1 = d ∨
      ∃ rmk parts k slots', RestoreAccepts S env content shareCap shares rmk parts ∧
        RestoreInstalls S env d rmk parts ((parts.slotRecords n).take k) slots' ∧
        RestoreStops S env (backupBek S.crypto rmk parts.salt) parts k slots'
          ((hsmBackupRestore S content shareCap shares).run env d).1.1 d
          ((hsmBackupRestore S content shareCap shares).run env d).2.1 := by
  by_cases hAny : ∃ rmk parts, RestoreAccepts S env content shareCap shares rmk parts
  · obtain ⟨rmk, parts, hAccepts⟩ := hAny
    obtain ⟨done, rest, slots', hRecs, hDone, hEnd⟩ := run_hsmBackupRestore_outcome hAccepts d
    have hTake : (parts.slotRecords n).take done.length = done := by
      rw [hRecs, List.take_left]
    refine .inr ⟨rmk, parts, done.length, slots', hAccepts, hTake.symm ▸ hDone, ?_⟩
    obtain ⟨rfl, hResult, hSlots⟩ | ⟨i, blob, rest', refusal, rfl, rfl, hNot, hResult, hSlots⟩ :=
      hEnd
    · rw [hResult] at h ⊢
      rw [restoreResult, Ne, endStatus_eq_ok_iff, not_or, not_and] at h
      refine .atEnd (by rw [hRecs, List.append_nil]) h.1 (fun hNone => ?_) ?_ hSlots
      · by_contra hPos
        have hNe : done ≠ [] := fun hNil => hPos (by rw [hNil]; rfl)
        exact h.2 hNone (if_neg hNe)
      · cases hTail : parts.slotTail n with
        | none =>
          by_cases hNil : done = []
          · rw [if_pos hNil]
            rfl
          · exact absurd (if_neg hNil) (h.2 hTail)
        | some rest =>
          have hNe : rest ≠ [] := fun hNil => h.1 (by rw [hTail, hNil])
          exact if_neg hNe
    · have hNext : (parts.slotRecords n)[done.length]? = some (i, blob) := by
        rw [hRecs, List.getElem?_append_right (Nat.le_refl _), Nat.sub_self]
        rfl
      rw [hResult]
      cases hRead : slotBlobRead S.crypto (env (done.length + 3))
          (backupBek S.crypto rmk parts.salt) blob (slots' i).metadata.slotId with
      | error st =>
        rw [slotDeserializeLocked_of_error hRead] at hSlots ⊢
        refine .refused i blob hNext hRead (hSlots.trans ?_)
        exact setSlot_self (d.withSlots slots') i
      | ok mr =>
        refine .unsealed i blob mr hNext hRead ?_
        rw [slotDeserializeLocked_of_ok hRead] at hNot
        cases hSeal : (env (done.length + 3)).sealOk 0 with
        | false => rfl
        | true =>
          rw [hSeal] at hNot
          exact absurd rfl hNot
  · refine .inl (run_hsmBackupRestore_refused fun rmk parts hAccepts => ?_).2
    exact hAny ⟨rmk, parts, hAccepts⟩

end Restore

section Runs

/-! ### A container of two slots -/

def twoSlotsRmk : Bytes := List.replicate HSM_RMK_LEN 9

/-- The blob of a slot with another generation than a new token gives it. -/
def twoSlotsBlob (i : Nat) : Bytes :=
  let s := freshSlot .clear i
  match slotSerializeLocked .clear (.calm 7) (backupBek .clear twoSlotsRmk (zeros BK_SALT_LEN))
    hsmSlotBlobMax { s with metadata := { s.metadata with generation := 5 } } with
  | .ok blob => blob
  | .error _ => []

def twoSlots : Bytes :=
  backupFile .clear twoSlotsRmk (zeros BK_SALT_LEN) [(0, twoSlotsBlob 0), (1, twoSlotsBlob 1)]

def twoSlotsShares : List Bytes := [shareLine .clear 1 twoSlotsRmk]

def newDevice (n : Nat) : Device n := ⟨hsmTokenNew .clear n true, fun _ _ => none, none, none, 0, none⟩

/-- On a device with one slot the restore succeeds with half of the container. -/
theorem restore_ok_of_half : ¬ RestoreComplete .clear (fun _ => .calm 7) (some twoSlots)
    HSM_SHARE_CAP twoSlotsShares (newDevice 1) := by
  intro h
  obtain ⟨rmk, parts, -, -, -, hCount⟩ := h (by decide +kernel)
  have hNone : ((hsmBackupRestore .clear (some twoSlots) HSM_SHARE_CAP twoSlotsShares).run
      (fun _ => .calm 7) (newDevice 1)).1.2 = none := by decide +kernel
  rw [hNone] at hCount
  cases hCount

/-- Memory runs out at the second record. -/
def shortOfMemory (k : Nat) : Env := if k = 4 then { Env.calm 7 with allocOk := false } else .calm 7

/-- The restore fails and slot 0 is not what it was. -/
theorem restore_fails_after_first_record :
    ((hsmBackupRestore .clear (some twoSlots) HSM_SHARE_CAP twoSlotsShares).run shortOfMemory
        (newDevice 2)).1.1 ≠ .ok ∧
      ((hsmBackupRestore .clear (some twoSlots) HSM_SHARE_CAP twoSlotsShares).run shortOfMemory
        (newDevice 2)).2.1.tok.slots 0 ≠ (newDevice 2).tok.slots 0 := by
  decide +kernel

theorem restore_failed_short_of_memory : ∃ rmk parts k slots',
    RestoreAccepts .clear shortOfMemory (some twoSlots) HSM_SHARE_CAP twoSlotsShares rmk parts ∧
    RestoreInstalls .clear shortOfMemory (newDevice 2) rmk parts
      ((parts.slotRecords 2).take k) slots' ∧
    RestoreStops .clear shortOfMemory (backupBek Setup.clear.crypto rmk parts.salt) parts k slots'
      .errNomem (newDevice 2)
      ((hsmBackupRestore .clear (some twoSlots) HSM_SHARE_CAP twoSlotsShares).run shortOfMemory
        (newDevice 2)).2.1 := by
  have hStatus : ((hsmBackupRestore .clear (some twoSlots) HSM_SHARE_CAP twoSlotsShares).run
      shortOfMemory (newDevice 2)).1.1 = .errNomem := by decide +kernel
  have hFailed : ((hsmBackupRestore .clear (some twoSlots) HSM_SHARE_CAP twoSlotsShares).run
      shortOfMemory (newDevice 2)).1.1 ≠ .ok := by
    rw [hStatus]
    exact HsmStatus.noConfusion
  obtain hSame | hStops := restore_failed hFailed
  · have hSlot := congrArg (fun d => (d.tok.slots 0).metadata.generation) hSame
    refine absurd hSlot ?_
    decide +kernel
  · rwa [hStatus] at hStops

end Runs

end PqcHsm
