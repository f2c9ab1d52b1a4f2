import PqcHsm.Slot.Device

/-!
# Installing records one after another

A key store and a backup container are both a sequence of records that are installed
slot by slot. `Installs` says what it means that all records of a list have been
installed; `installRecords` is the loop both loaders run once the records are cut
out of the file, and leaves at the first record that is refused.
-/

namespace PqcHsm

open ByteCodec Sections

variable {n : Nat}

/-- A slot with the metadata and record of a blob, sealed again by this device. -/
def installedSlot (C : Crypto) (s : Slot) (m : SlotMeta) (r : SlotRecord) : Slot :=
  { installRecord s m r with metaTag := slotMetaSeal C m }

/-- Each record, read for its slot as the records before it have left the slot, has been
installed there; the `k`-th record is read in `env k`. -/
inductive Installs (C : Crypto) (kek : ByteVec 32) : (Nat → Env) → (Fin n → Slot) →
    List (Fin n × Bytes) → (Fin n → Slot) → Prop where
  | nil (env : Nat → Env) (slots : Fin n → Slot) : Installs C kek env slots [] slots
  | cons {env : Nat → Env} {slots slots' : Fin n → Slot} {i : Fin n} {blob : Bytes} {m : SlotMeta}
      {r : SlotRecord} {recs : List (Fin n × Bytes)} :
      slotBlobRead C (env 0) kek blob (slots i).metadata.slotId = .ok (m, r) →
      (env 0).sealOk 0 = true →
      Installs C kek (fun k => env (k + 1))
        (Function.update slots i (installedSlot C (slots i) m r)) recs slots' →
      Installs C kek env slots ((i, blob) :: recs) slots'

/-- The status after the last record, given the rest of the file; `none` stands for a record
that does not fit, where the loop leaves with the status of the record before it. -/
def endStatus (tail : Option Bytes) (st : HsmStatus) : HsmStatus :=
  match tail with
  | none => st
  | some rest => if rest = [] then .ok else .errIntegrity

theorem endStatus_eq_ok_iff {tail : Option Bytes} {st : HsmStatus} :
    endStatus tail st = .ok ↔ tail = some [] ∨ (tail = none ∧ st = .ok) := by
  unfold endStatus
  cases tail with
  | none => simp
  | some rest => by_cases hRest : rest = [] <;> simp [hRest]

section Loop

variable (S : Setup)

def installRecords (kek : ByteVec 32) (tail : Option Bytes) (st : HsmStatus) :
    List (Fin n × Bytes) → DevProg n HsmStatus
  | [] => pure (endStatus tail st)
  | (i, blob) :: recs => do
    let st ← hsmSlotDeserialize S i.val kek blob
    if st = .ok then installRecords kek tail st recs else pure st

end Loop

variable {S : Setup} {kek : ByteVec 32} {tail : Option Bytes}

theorem slotAt_fin (i : Fin n) : slotAt n i.val = some i := by
  rw [slotAt, dif_pos i.isLt]

/-- What a record does to its slot, in one section. -/
theorem run_hsmSlotDeserialize (i : Fin n) (blob : Bytes) (env : Nat → Env) (d : Device n) :
    (hsmSlotDeserialize S i.val kek blob).run env d =
      ((slotDeserializeLocked S.crypto (env 0) kek blob (d.tok.slots i)).1,
        d.setSlot i (slotDeserializeLocked S.crypto (env 0) kek blob (d.tok.slots i)).2,
        fun k => env (k + 1)) := by
  rw [hsmSlotDeserialize, slotAt_fin]
  rfl

theorem slotDeserializeLocked_of_error {C : Crypto} {e : Env} {blob : Bytes} {s : Slot}
    {st : HsmStatus} (h : slotBlobRead C e kek blob s.metadata.slotId = .error st) :
    slotDeserializeLocked C e kek blob s = (st, s) := by
  rw [slotDeserializeLocked, h]

theorem slotDeserializeLocked_of_ok {C : Crypto} {e : Env} {blob : Bytes} {s : Slot}
    {m : SlotMeta} {r : SlotRecord}
    (h : slotBlobRead C e kek blob s.metadata.slotId = .ok (m, r)) :
    slotDeserializeLocked C e kek blob s =
      if e.sealOk 0 then (.ok, installedSlot C s m r) else (.errCrypto, installRecord s m r) := by
  rw [slotDeserializeLocked, h]
  rfl

/-- A record that was accepted has been read, and its slot is sealed. -/
theorem slotDeserializeLocked_ok {C : Crypto} {e : Env} {blob : Bytes} {s : Slot}
    (h : (slotDeserializeLocked C e kek blob s).1 = .ok) :
    ∃ m r, slotBlobRead C e kek blob s.metadata.slotId = .ok (m, r) ∧ e.sealOk 0 = true ∧
      (slotDeserializeLocked C e kek blob s).2 = installedSlot C s m r := by
  cases hRead : slotBlobRead C e kek blob s.metadata.slotId with
  | error st =>
    rw [slotDeserializeLocked_of_error hRead] at h
    exact absurd h (slotBlobRead_eq_error hRead)
  | ok mr =>
    obtain ⟨m, r⟩ := mr
    rw [slotDeserializeLocked_of_ok hRead] at h ⊢
    cases hSeal : e.sealOk 0 with
    | false =>
      rw [hSeal] at h
      exact HsmStatus.noConfusion h
    | true => exact ⟨m, r, rfl, rfl, rfl⟩

namespace Installs

variable {C : Crypto} {env : Nat → Env} {slots slots' slots'' : Fin n → Slot}
  {recs done : List (Fin n × Bytes)}

theorem functional (h : Installs C kek env slots recs slots')
    (h' : Installs C kek env slots recs slots'') : slots' = slots'' := by
  induction h with
  | nil env slots =>
    cases h'
    rfl
  | cons hRead hSeal hRest ih =>
    cases h' with
    | cons hRead' hSeal' hRest' =>
      rw [hRead] at hRead'
      cases hRead'
      exact ih hRest'

/-- The records after the first ones are installed where those have left the slots. -/
theorem of_append (h : Installs C kek env slots (done ++ recs) slots'') :
    ∃ slots', Installs C kek env slots done slots' ∧
      Installs C kek (fun k => env (k + done.length)) slots' recs slots'' := by
  induction done generalizing env slots with
  | nil => exact ⟨slots, .nil env slots, h⟩
  | cons rec done ih =>
    cases h with
    | cons hRead hSeal hRest =>
      obtain ⟨slots', hDone, hRecs⟩ := ih hRest
      refine ⟨slots', .cons hRead hSeal hDone, ?_⟩
      simpa only [List.length_cons, Nat.add_assoc, Nat.add_comm 1] using hRecs

/-- A record that is installed is accepted where the records before it have left its slot. -/
theorem next {i : Fin n} {blob : Bytes}
    (h : Installs C kek env slots (done ++ (i, blob) :: recs) slots'')
    (hDone : Installs C kek env slots done slots') :
    (slotDeserializeLocked C (env done.length) kek blob (slots' i)).1 = .ok := by
  obtain ⟨mid, hMid, hRest⟩ := h.of_append
  obtain rfl := hMid.functional hDone
  cases hRest with
  | cons hRead hSeal _ =>
    simp only [Nat.zero_add] at hRead hSeal
    rw [slotDeserializeLocked_of_ok hRead, if_pos hSeal]

/-- A slot that no record names stays as it is. -/
theorem unnamed (h : Installs C kek env slots recs slots') {i : Fin n}
    (hNot : i ∉ recs.map Prod.fst) : slots' i = slots i := by
  induction h with
  | nil env slots => rfl
  | cons hRead hSeal hRest ih =>
    rw [List.map_cons, List.mem_cons, not_or] at hNot
    rw [ih hNot.2]
    exact Function.update_of_ne hNot.1 _ _

end Installs

/-- The slots of the token replaced by others. -/
def Device.withSlots (d : Device n) (slots : Fin n → Slot) : Device n :=
  { d with tok := { d.tok with slots } }

@[simp] theorem withSlots_slots (d : Device n) (slots : Fin n → Slot) :
    (d.withSlots slots).tok.slots = slots := rfl

@[simp] theorem withSlots_setSlot (d : Device n) (i : Fin n) (s : Slot) (slots : Fin n → Slot) :
    (d.setSlot i s).withSlots slots = d.withSlots slots := rfl

/-- The loop installs the records up to some point in full; there it ends, or meets a record
that is refused and leaves with the status of the refusal. -/
theorem run_installRecords (S : Setup) (kek : ByteVec 32) (tail : Option Bytes)
    (recs : List (Fin n × Bytes)) (st : HsmStatus) (env : Nat → Env) (d : Device n) : ∃ done rest slots', recs = done ++ rest ∧
      Installs S.crypto kek env d.tok.slots done slots' ∧
      ((rest = [] ∧
          ((installRecords S kek tail st recs).run env d).1 =
            endStatus tail (if done = [] then st else .ok) ∧
          ((installRecords S kek tail st recs).run env d).2.1 = d.withSlots slots') ∨
        ∃ i blob rest' refusal, rest = (i, blob) :: rest' ∧
          refusal = slotDeserializeLocked S.crypto (env done.length) kek blob (slots' i) ∧
          refusal.1 ≠ .ok ∧
          ((installRecords S kek tail st recs).run env d).1 = refusal.1 ∧
          ((installRecords S kek tail st recs).run env d).2.1 =
            (d.withSlots slots').setSlot i refusal.2) := by
  induction recs generalizing st env d with
  | nil => exact ⟨[], [], d.tok.slots, rfl, .nil _ _, .inl ⟨rfl, rfl, rfl⟩⟩
  | cons rec recs ih =>
    obtain ⟨i, blob⟩ := rec
    have hRun : (installRecords S kek tail st ((i, blob) :: recs)).run env d =
        (if (slotDeserializeLocked S.crypto (env 0) kek blob (d.tok.slots i)).1 = .ok then
          installRecords S kek tail
            (slotDeserializeLocked S.crypto (env 0) kek blob (d.tok.slots i)).1 recs
        else .ret (slotDeserializeLocked S.crypto (env 0) kek blob (d.tok.slots i)).1).run
          (fun k => env (k + 1))
          (d.setSlot i (slotDeserializeLocked S.crypto (env 0) kek blob (d.tok.slots i)).2) := by
      rw [installRecords, Prog.bind_eq_bind, Prog.run_bind, run_hsmSlotDeserialize]
      rfl
    by_cases hOk : (slotDeserializeLocked S.crypto (env 0) kek blob (d.tok.slots i)).1 = .ok
    · rw [if_pos hOk, hOk] at hRun
      obtain ⟨m, r, hRead, hSeal, hSlot⟩ := slotDeserializeLocked_ok hOk
      rw [hSlot] at hRun
      obtain ⟨done, rest, slots', rfl, hDone, hEnd⟩ :=
        ih .ok (fun k => env (k + 1)) (d.setSlot i (installedSlot S.crypto (d.tok.slots i) m r))
      refine ⟨(i, blob) :: done, rest, slots', rfl, .cons hRead hSeal hDone, ?_⟩
      rw [hRun]
      obtain ⟨hNil, hStatus, hSlots⟩ | ⟨j, blob', rest', refusal, hRest, hRefusal, hNot, hStatus,
        hSlots⟩ := hEnd
      · exact .inl ⟨hNil, by simpa using hStatus, hSlots⟩
      · exact .inr ⟨j, blob', rest', refusal, hRest, hRefusal, hNot, hStatus, hSlots⟩
    · rw [if_neg hOk] at hRun
      refine ⟨[], (i, blob) :: recs, d.tok.slots, rfl, .nil _ _, .inr ?_⟩
      rw [hRun]
      exact ⟨i, blob, recs, _, rfl, rfl, hOk, rfl, rfl⟩

end PqcHsm
