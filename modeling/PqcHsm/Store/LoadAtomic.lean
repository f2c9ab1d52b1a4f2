import PqcHsm.Store.KeystoreFile
import PqcHsm.Slot.Machine

/-!
# Loading the key store: all or nothing

A load installs the records of an authentic file one by one. It changes nothing or
everything exactly when all records are installed and nothing follows them, or when every
record before the first one that fails says what its slot already holds.
-/

namespace PqcHsm

open ByteCodec Sections

variable {n : Nat} {S : Setup} {kek : ByteVec 32} {tail : Option Bytes}

/-- The record is refused and its slot stays as it is: it does not authenticate or parse, or
it says what the slot already holds and only the seal fails. -/
def RefusedUnchanged (C : Crypto) (e : Env) (kek : ByteVec 32) (blob : Bytes) (s : Slot) : Prop :=
  match slotBlobRead C e kek blob s.metadata.slotId with
  | .error _ => True
  | .ok (m, r) => e.sealOk 0 = false ∧ installRecord s m r = s

/-- The records up to the first failing one change nothing. A record that does not fit counts
as failing only where no record precedes it. -/
inductive HarmlessStop (C : Crypto) (kek : ByteVec 32) (env : Nat → Env) (slots : Fin n → Slot)
    (tail : Option Bytes) (recs : List (Fin n × Bytes)) : Prop where
  | atEnd : Installs C kek env slots recs slots → tail ≠ some [] → (tail = none → recs = []) →
      HarmlessStop C kek env slots tail recs
  | atRecord (done rest : List (Fin n × Bytes)) (i : Fin n) (blob : Bytes) :
      recs = done ++ (i, blob) :: rest → Installs C kek env slots done slots →
      RefusedUnchanged C (env done.length) kek blob (slots i) →
      HarmlessStop C kek env slots tail recs

theorem refusedUnchanged_iff {C : Crypto} {e : Env} {blob : Bytes} {s : Slot} :
    RefusedUnchanged C e kek blob s ↔ (slotDeserializeLocked C e kek blob s).1 ≠ .ok ∧
      (slotDeserializeLocked C e kek blob s).2 = s := by
  unfold RefusedUnchanged
  cases hRead : slotBlobRead C e kek blob s.metadata.slotId with
  | error st =>
    rw [slotDeserializeLocked_of_error hRead]
    exact ⟨fun _ => ⟨slotBlobRead_eq_error hRead, rfl⟩, fun _ => trivial⟩
  | ok mr =>
    obtain ⟨m, r⟩ := mr
    rw [slotDeserializeLocked_of_ok hRead]
    cases hSeal : e.sealOk 0 with
    | false => exact ⟨fun h => ⟨HsmStatus.noConfusion, h.2⟩, fun h => ⟨rfl, h.2⟩⟩
    | true => exact ⟨fun h => Bool.noConfusion h.1, fun h => absurd rfl h.1⟩

section Loop

variable {env : Nat → Env} {d : Device n} {recs : List (Fin n × Bytes)} {slots' : Fin n → Slot}

theorem Installs.not_refused {C : Crypto} {slots : Fin n → Slot} {done rest : List (Fin n × Bytes)}
    {i : Fin n} {blob : Bytes}
    (h : Installs C kek env slots (done ++ (i, blob) :: rest) slots')
    (hDone : Installs C kek env slots done slots) :
    ¬ RefusedUnchanged C (env done.length) kek blob (slots i) :=
  fun hRefused => (refusedUnchanged_iff.mp hRefused).1 (h.next hDone)

/-- A loop that ends: every record has been installed. -/
theorem harmlessStop_iff_of_installs (h : Installs S.crypto kek env d.tok.slots recs slots') :
    HarmlessStop S.crypto kek env d.tok.slots tail recs ↔
      slots' = d.tok.slots ∧ tail ≠ some [] ∧ (tail = none → recs = []) := by
  constructor
  · rintro (⟨hAll, hTail, hNone⟩ | ⟨done, rest, i, blob, hRecs, hDone, hRefused⟩)
    · exact ⟨h.functional hAll, hTail, hNone⟩
    · subst hRecs
      exact absurd hRefused (h.not_refused hDone)
  · rintro ⟨rfl, hTail, hNone⟩
    exact .atEnd h hTail hNone

/-- A loop that meets a refusal: a harmless stop is there and nowhere else. -/
theorem HarmlessStop.at_refusal {C : Crypto} {slots : Fin n → Slot}
    {done rest : List (Fin n × Bytes)} {i : Fin n} {blob : Bytes}
    (h : HarmlessStop C kek env slots tail recs) (hRecs : recs = done ++ (i, blob) :: rest)
    (hDone : Installs C kek env slots done slots')
    (hNot : (slotDeserializeLocked C (env done.length) kek blob (slots' i)).1 ≠ .ok) :
    slots' = slots ∧ (slotDeserializeLocked C (env done.length) kek blob (slots i)).2 = slots i := by
  obtain ⟨hAll, -, -⟩ | ⟨done', rest', i', blob', hRecs', hDone', hRefused⟩ := h
  · rw [hRecs] at hAll
    exact absurd (hAll.next hDone) hNot
  · rw [hRecs] at hRecs'
    obtain ⟨mid, rfl, hMid⟩ | ⟨mid, rfl, hMid⟩ := List.append_eq_append_iff.mp hRecs'
    · cases mid with
      | nil =>
        rw [List.append_nil] at hDone' hRefused
        cases hMid
        exact ⟨hDone.functional hDone', (refusedUnchanged_iff.mp hRefused).2⟩
      | cons rec mid =>
        cases hMid
        exact absurd (hDone'.next hDone) hNot
    · cases mid with
      | nil =>
        rw [List.append_nil] at hDone hNot
        cases hMid
        rw [List.append_nil]
        exact ⟨hDone.functional hDone', (refusedUnchanged_iff.mp hRefused).2⟩
      | cons rec mid =>
        cases hMid
        exact absurd hRefused (hDone.not_refused hDone')

/-- The loop changes nothing or installs everything. -/
theorem installRecords_atomic_iff (S : Setup) (kek : ByteVec 32) (tail : Option Bytes)
    (env : Nat → Env) (d : Device n) (hNodup : (recs.map Prod.fst).Nodup) {st : HsmStatus}
    (hSt : st ≠ .ok) :
    ((((installRecords S kek tail st recs).run env d).1 ≠ .ok →
        ((installRecords S kek tail st recs).run env d).2.1.tok.slots = d.tok.slots) ∧
      (((installRecords S kek tail st recs).run env d).1 = .ok → tail = some [] ∧
        Installs S.crypto kek env d.tok.slots recs
          ((installRecords S kek tail st recs).run env d).2.1.tok.slots)) ↔
    ((tail = some [] ∧ ∃ slots', Installs S.crypto kek env d.tok.slots recs slots') ∨
      HarmlessStop S.crypto kek env d.tok.slots tail recs) := by
  obtain ⟨done, rest, slots', hRecs, hDone, hEnd | hRefusal⟩ :=
    run_installRecords S kek tail recs st env d
  · obtain ⟨rfl, hStatus, hSlots⟩ := hEnd
    obtain rfl : recs = done := by simpa using hRecs
    rw [harmlessStop_iff_of_installs hDone, hStatus, hSlots, withSlots_slots]
    by_cases hTail : tail = some []
    · have hOk : endStatus tail (if recs = [] then st else .ok) = .ok :=
        endStatus_eq_ok_iff.mpr (.inl hTail)
      exact ⟨fun _ => .inl ⟨hTail, slots', hDone⟩,
        fun _ => ⟨fun hNot => absurd hOk hNot, fun _ => ⟨hTail, hDone⟩⟩⟩
    · constructor
      · rintro ⟨hFailed, hOk⟩
        have hNot : endStatus tail (if recs = [] then st else .ok) ≠ .ok :=
          fun h => hTail (hOk h).1
        refine .inr ⟨hFailed hNot, hTail, fun hNone => ?_⟩
        by_contra hNe
        rw [if_neg hNe] at hNot
        exact hNot (endStatus_eq_ok_iff.mpr (.inr ⟨hNone, rfl⟩))
      · rintro (⟨hSome, -⟩ | ⟨rfl, -, hNone⟩)
        · exact absurd hSome hTail
        · refine ⟨fun _ => rfl, fun h => ?_⟩
          obtain hSome | ⟨hTailNone, hLast⟩ := endStatus_eq_ok_iff.mp h
          · exact absurd hSome hTail
          · rw [if_pos (hNone hTailNone)] at hLast
            exact absurd hLast hSt
  · obtain ⟨i, blob, rest', refusal, rfl, rfl, hNot, hStatus, hSlots⟩ := hRefusal
    rw [hStatus, hSlots]
    have hNodupDone : i ∉ done.map Prod.fst := by
      rw [hRecs, List.map_append, List.nodup_append] at hNodup
      exact fun hMem => hNodup.2.2 i hMem i (List.mem_cons_self ..) rfl
    have hSame : slots' i = d.tok.slots i := hDone.unnamed hNodupDone
    constructor
    · rintro ⟨hFailed, -⟩
      have hAll := hFailed hNot
      rw [setSlot_slots, withSlots_slots] at hAll
      -- the failing record does not touch the slots before it
      obtain rfl : slots' = d.tok.slots := by
        funext j
        by_cases hj : j = i
        · rw [hj, hSame]
        · rw [← hAll, Function.update_of_ne hj]
      refine .inr (.atRecord done rest' i blob hRecs hDone
        (refusedUnchanged_iff.mpr ⟨hNot, ?_⟩))
      simpa using congrFun hAll i
    · rintro (⟨-, all, hInstalls⟩ | hHarmless)
      · rw [hRecs] at hInstalls
        exact absurd (hInstalls.next hDone) hNot
      · refine ⟨fun _ => ?_, fun h => absurd h hNot⟩
        obtain ⟨hUnchanged, hRefused⟩ := hHarmless.at_refusal hRecs hDone hNot
        rw [← hUnchanged] at hRefused ⊢
        rw [hRefused, setSlot_slots, withSlots_slots, Function.update_eq_self]

end Loop

/-- The records of the file as the load reads them, in its environment from the fourth section
on. -/
def LoadInstalls (S : Setup) (env : Nat → Env) (d : Device n) (parts : KeystoreParts)
    (slots' : Fin n → Slot) : Prop :=
  Installs S.crypto (pqcKekDerive S.crypto parts.salt) (fun k => env (k + 3)) d.tok.slots
    (parts.slotRecords n) slots'

/-- A load that fails leaves every slot as it was; a load that succeeds has installed one record
for each slot, and the file holds no more. -/
structure LoadAtomic (S : Setup) (env : Nat → Env) (d : Device n) : Prop where
  failed : ((hsmKeystoreLoad S).run env d).1 ≠ .ok →
    ((hsmKeystoreLoad S).run env d).2.1.tok.slots = d.tok.slots
  done : ((hsmKeystoreLoad S).run env d).1 = .ok → ∃ parts, LoadAccepts S env d parts ∧
    parts.slotTail n = some [] ∧
    LoadInstalls S env d parts ((hsmKeystoreLoad S).run env d).2.1.tok.slots

/-- The file is refused, or all of it can be installed, or its records stop harmlessly. -/
def LoadCond (S : Setup) (env : Nat → Env) (d : Device n) : Prop :=
  ∀ parts, LoadAccepts S env d parts →
    (parts.slotTail n = some [] ∧ ∃ slots', LoadInstalls S env d parts slots') ∨
      HarmlessStop S.crypto (pqcKekDerive S.crypto parts.salt) (fun k => env (k + 3)) d.tok.slots
        (parts.slotTail n) (parts.slotRecords n)

theorem load_atomic_iff (S : Setup) (env : Nat → Env) (d : Device n) :
    LoadAtomic S env d ↔ LoadCond S env d := by
  by_cases hAccepts : ∃ parts, LoadAccepts S env d parts
  · obtain ⟨parts, hParts⟩ := hAccepts
    have hLoop := installRecords_atomic_iff S (pqcKekDerive S.crypto parts.salt) (parts.slotTail n)
      (fun k => env (k + 3)) d (slotRecords_nodup parts)
      (show HsmStatus.errIntegrity ≠ .ok from HsmStatus.noConfusion)
    rw [← run_hsmKeystoreLoad_accepted hParts] at hLoop
    constructor
    · intro h parts' hParts'
      obtain rfl := hParts.unique hParts'
      refine hLoop.mp ⟨h.failed, fun hOk => ?_⟩
      obtain ⟨parts', hParts', hInstalled⟩ := h.done hOk
      obtain rfl := hParts.unique hParts'
      exact hInstalled
    · intro h
      obtain ⟨hFailed, hDone⟩ := hLoop.mpr (h parts hParts)
      exact ⟨hFailed, fun hOk => ⟨parts, hParts, hDone hOk⟩⟩
  · rw [not_exists] at hAccepts
    obtain ⟨hNot, hSame⟩ := run_hsmKeystoreLoad_refused hAccepts
    constructor
    · intro _ parts hParts
      exact absurd hParts (hAccepts parts)
    · intro _
      exact ⟨fun _ => by rw [hSame], fun hOk => absurd hOk hNot⟩

section Runs

/-! ### Two files a load takes half of -/

/-- The blob of slot 0 with another generation than a new token gives it. -/
def halfBlob : Bytes :=
  let s := freshSlot .clear 0
  match slotSerializeLocked .clear (.calm 7) (pqcKekDerive .clear (zeros KS_SALT_LEN)) hsmSlotBlobMax
    { s with metadata := { s.metadata with generation := 5 } } with
  | .ok blob => blob
  | .error _ => []

/-- A new token of two slots next to an authentic file with the given records. -/
def besideFile (blobs : List Bytes) : Device 2 where
  tok := hsmTokenNew .clear 2 true
  hw := fun _ _ => none
  fs := ⟨some (keystoreFile .clear 2 (zeros KS_SALT_LEN) 1 blobs), none, 0, none⟩

/-- The second record is empty: the load fails and slot 0 has changed. The second record is
missing: the load succeeds. -/
theorem load_takes_half :
    ¬ LoadAtomic .clear (fun _ => .calm 7) (besideFile [halfBlob, []]) ∧
      ¬ LoadAtomic .clear (fun _ => .calm 7) (besideFile [halfBlob]) := by
  constructor
  · intro h
    have hSlots := h.failed (by decide +kernel)
    have hGeneration := congrArg (fun slots => (slots 0).metadata.generation) hSlots
    revert hGeneration
    decide +kernel
  · intro h
    obtain ⟨parts, hParts, hTail, -⟩ := h.done (by decide +kernel)
    obtain ⟨buf, hFile, -, -, -, hParse⟩ := hParts.read
    cases hFile
    have hNone : (keystoreParse 2 (keystoreFile .clear 2 (zeros KS_SALT_LEN) 1 [halfBlob])).map
        (·.slotTail 2) = some none := by decide +kernel
    rw [hParse, Option.map_some, hTail] at hNone
    cases hNone

end Runs

end PqcHsm
