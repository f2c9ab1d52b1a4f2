import Mathlib.Order.Fin.Basic
import PqcHsm.Slot.Storable
import PqcHsm.Store.Saving

/-!
# Reading back what was written

Records written from storable slots are installed again as they were, without the handle of
a hardware key and with the tag of the device that reads them. A load of a saved file does
this for every slot.
-/

namespace PqcHsm

open ByteCodec Sections

variable {n : Nat}

/-- Nothing fails in the section, and a read delivers that many bytes. -/
structure Env.Works (e : Env) (len : Nat) : Prop where
  sealOk : ∀ k, e.sealOk k = true
  cryptoOk : e.cryptoOk = true
  allocOk : e.allocOk = true
  ioOk : e.ioOk = true
  whole : len ≤ e.wrote

theorem Env.Works.anchorSeen {S : Setup} {e : Env} {len : Nat} (h : e.Works len) (fs : FileSys) :
    anchorSeen S e fs = some fs.anchor := by
  unfold PqcHsm.anchorSeen
  cases S.anchorProvider with
  | file =>
    dsimp only
    rw [if_pos h.ioOk]
  | hardware =>
    dsimp only
    rw [if_pos h.ioOk]

/-- The blob is a good one of the slot. -/
def BlobOf (C : Crypto) (kek : ByteVec 32) (s : Slot) (blob : Bytes) : Prop :=
  ∃ e, slotSerializeLocked C e kek hsmSlotBlobMax s = .ok blob

/-- The slot as a device reads it back: no handle of a hardware key, and its own tag. -/
def restoredSlot (C : Crypto) (s : Slot) : Slot :=
  { s with hwHandle := none, metaTag := slotMetaSeal C s.metadata }

/-- A sealed slot with a software key, or none, comes back as it was. -/
theorem restoredSlot_self {C : Crypto} {s : Slot} (hSealed : s.Sealed C) (hSoft : s.hwHandle = none) :
    restoredSlot C s = s := by
  unfold restoredSlot
  rw [← hSealed, ← hSoft]

theorem BlobOf.length_le {C : Crypto} {kek : ByteVec 32} {s : Slot} {blob : Bytes}
    (h : BlobOf C kek s blob) : blob.length ≤ hsmSlotBlobMax := by
  obtain ⟨e, hBlob⟩ := h
  obtain ⟨hCap, nonce, rfl⟩ := slotSerializeLocked_eq_ok hBlob
  rw [List.length_append, length_slotMetaSerialize, C.length_wrap]
  unfold PQC_WRAP_OVERHEAD at hCap
  omega

theorem BlobOf.toNat_length {C : Crypto} {kek : ByteVec 32} {s : Slot} {blob : Bytes}
    (h : BlobOf C kek s blob) : (UInt32.ofNat blob.length).toNat = blob.length := by
  have hLe : blob.length ≤ 7766 := h.length_le
  rw [UInt32.toNat_ofNat', Nat.mod_eq_of_lt (by omega)]

/-- Writing does not use the root key. -/
theorem blobOf_kdr {C : Crypto} (kdr : String → Bytes → ByteVec 32) {kek : ByteVec 32} {s : Slot}
    {blob : Bytes} (h : BlobOf C kek s blob) : BlobOf { C with kdrDerive := kdr } kek s blob := h

/-- Every slot of the device carries its own number. -/
def Device.Numbered (d : Device n) : Prop :=
  ∀ i : Fin n, (d.tok.slots i).metadata.slotId = UInt32.ofNat i

theorem Device.Storable.numbered {d : Device n} (h : d.Storable) : d.Numbered :=
  fun i => (h i).slotId

/-- Written records are installed, each in its slot. -/
theorem installs_written {C : Crypto} (kek : ByteVec 32) (src : Fin n → Slot)
    {recs : List (Fin n × Bytes)} {len : Nat} {env : Nat → Env} (hEnv : ∀ k, (env k).Works len)
    (slots : Fin n → Slot) (hNodup : (recs.map Prod.fst).Nodup)
    (hRecs : ∀ r ∈ recs, BlobOf C kek (src r.1) r.2 ∧ (src r.1).Storable r.1 ∧
      (slots r.1).metadata.slotId = UInt32.ofNat r.1) :
    Installs C kek env slots recs
      fun i => if i ∈ recs.map Prod.fst then restoredSlot C (src i) else slots i := by
  induction recs generalizing env slots with
  | nil => exact .nil env slots
  | cons rec recs ih =>
    obtain ⟨i, blob⟩ := rec
    obtain ⟨hNot, hNodup⟩ : i ∉ recs.map Prod.fst ∧ (recs.map Prod.fst).Nodup :=
      List.nodup_cons.mp hNodup
    obtain ⟨⟨e, hBlob⟩, hStorable, hId⟩ := hRecs (i, blob) (List.mem_cons_self ..)
    have hRead : slotBlobRead C (env 0) kek blob (slots i).metadata.slotId =
        .ok ((src i).metadata, (src i).record) := by
      rw [hId, ← hStorable.slotId]
      exact slotBlobRead_serialize hStorable.shape hStorable.version hBlob (hEnv 0).allocOk
        (hEnv 0).cryptoOk
    have hRest := ih (fun k => hEnv (k + 1))
      (Function.update slots i (installedSlot C (slots i) (src i).metadata (src i).record)) hNodup
      fun r hr => by
        have hNe : r.1 ≠ i := by
          rintro rfl
          exact hNot (List.mem_map_of_mem hr)
        rw [Function.update_of_ne hNe]
        exact hRecs r (List.mem_cons_of_mem _ hr)
    have hSlots : (fun j => if j ∈ ((i, blob) :: recs).map Prod.fst then restoredSlot C (src j)
        else slots j) = fun j => if j ∈ recs.map Prod.fst then restoredSlot C (src j) else
          Function.update slots i (installedSlot C (slots i) (src i).metadata (src i).record) j := by
      funext j
      by_cases hj : j = i
      · subst hj
        rw [List.map_cons, if_pos (List.mem_cons_self ..), if_neg hNot, Function.update_self]
        rfl
      · rw [Function.update_of_ne hj]
        simp only [List.map_cons, List.mem_cons, hj, false_or]
    rw [hSlots]
    exact .cons hRead ((hEnv 0).sealOk 0) hRest

/-- The loop over records that can be installed ends with all of them installed. -/
theorem run_installRecords_of_installs {S : Setup} {kek : ByteVec 32} (tail : Option Bytes)
    {recs : List (Fin n × Bytes)} {env : Nat → Env} {d : Device n} {slots' : Fin n → Slot}
    (h : Installs S.crypto kek env d.tok.slots recs slots') (st : HsmStatus) :
    ((installRecords S kek tail st recs).run env d).1 =
        endStatus tail (if recs = [] then st else .ok) ∧
      ((installRecords S kek tail st recs).run env d).2.1 = d.withSlots slots' := by
  obtain ⟨done, rest, slots'', hRecs, hDone, ⟨rfl, hStatus, hSlots⟩ | ⟨i, blob, rest', refusal,
    rfl, rfl, hNot, -⟩⟩ := run_installRecords S kek tail recs st env d
  · obtain rfl : recs = done := by simpa using hRecs
    obtain rfl := hDone.functional h
    exact ⟨hStatus, hSlots⟩
  · rw [hRecs] at h
    exact absurd (h.next hDone) hNot

section Keystore

variable {S : Setup}

/-- The records of a file are cut out as they were written. -/
theorem splitRecords_written {blob : Fin n → Bytes} (ids : List (Fin n)) (rest : Bytes)
    (hLen : ∀ i, (UInt32.ofNat (blob i).length).toNat = (blob i).length) :
    splitRecords ids (((ids.map blob).map keystoreRecord).flatten ++ rest) =
      (ids.map fun i => (i, blob i), some rest) := by
  induction ids with
  | nil => rfl
  | cons i ids ih =>
    have hRec : (((i :: ids).map blob).map keystoreRecord).flatten ++ rest =
        putU32 (UInt32.ofNat (blob i).length) ++
          (blob i ++ (((ids.map blob).map keystoreRecord).flatten ++ rest)) := by
      simp only [List.map_cons, List.flatten_cons, keystoreRecord, List.append_assoc]
    rw [hRec, splitRecords]
    rw [if_neg (by rw [List.length_append, length_putU32]; omega)]
    simp only [getU32_putU32, hLen]
    rw [if_neg (by rw [List.length_append]; omega), List.take_left, List.drop_left, ih]
    rfl

/-- The parts of the file a save writes. -/
def savedParts (C : Crypto) (salt : ByteVec KS_SALT_LEN) (epoch : UInt64) (blob : Fin n → Bytes) :
    KeystoreParts :=
  let records := (((List.finRange n).map blob).map keystoreRecord).flatten
  let body := keystoreHeader n salt epoch ++ records
  ⟨salt, epoch, records, body, (keystoreTag C salt body).toList⟩

theorem keystoreParse_savedBytes (hn : n < 2 ^ 32) (C : Crypto) (salt : ByteVec KS_SALT_LEN)
    (epoch : UInt64) (blob : Fin n → Bytes) :
    keystoreParse n (savedBytes C salt epoch blob) = some (savedParts C salt epoch blob) := by
  have hCount : (UInt32.ofNat n).toNat = n := by
    rw [UInt32.toNat_ofNat', Nat.mod_eq_of_lt hn]
  have hTag : ∀ body : Bytes, (keystoreTag C salt body).toList.length = KS_TAG_LEN :=
    fun body => List.Vector.toList_length _
  have hHeader : (keystoreHeader n salt epoch).length = KS_HDR_LEN := by
    simp only [keystoreHeader, List.length_append, length_putU32, length_putU64,
      List.Vector.toList_length]
    rfl
  unfold savedBytes keystoreFile
  dsimp only
  generalize hBody : keystoreHeader n salt epoch ++
    (((List.finRange n).map blob).map keystoreRecord).flatten = body
  have hTake : (body ++ (keystoreTag C salt body).toList).take
      ((body ++ (keystoreTag C salt body).toList).length - KS_TAG_LEN) = body := by
    rw [List.length_append, hTag, Nat.add_sub_cancel, List.take_left]
  have hDrop : (body ++ (keystoreTag C salt body).toList).drop
      ((body ++ (keystoreTag C salt body).toList).length - KS_TAG_LEN) =
        (keystoreTag C salt body).toList := by
    rw [List.length_append, hTag, Nat.add_sub_cancel, List.drop_left]
  have hLong : ¬ (body ++ (keystoreTag C salt body).toList).length < KS_HDR_LEN + KS_TAG_LEN := by
    rw [List.length_append, hTag, ← hBody, List.length_append, hHeader]
    omega
  rw [keystoreParse, if_neg hLong]
  dsimp only
  rw [hTake, hDrop]
  have hMagic : body.take 8 = KS_MAGIC := by
    rw [← hBody, keystoreHeader, List.append_assoc]
    exact List.take_left' rfl
  have hAfter : body.drop 8 = putU32 HSM_KEYSTORE_VERSION ++ (putU32 (UInt32.ofNat n) ++
      (salt.toList ++ (putU64 epoch ++
        (((List.finRange n).map blob).map keystoreRecord).flatten))) := by
    rw [← hBody, keystoreHeader]
    simp only [List.append_assoc]
    exact List.drop_left' rfl
  rw [hMagic, hAfter]
  simp only [getU32_putU32, getVec_append, getU64_putU64, hCount, ne_eq, not_true_eq_false,
    or_self, if_false]
  rw [savedParts, hBody]

theorem authentic_savedParts (C : Crypto) (salt : ByteVec KS_SALT_LEN) (epoch : UInt64)
    (blob : Fin n → Bytes) : (savedParts C salt epoch blob).authentic C = true :=
  decide_eq_true rfl

variable {d d₂ : Device n} {salt : ByteVec KS_SALT_LEN} {blob : Fin n → Bytes} {epoch : UInt64}
  {env : Nat → Env}

/-- A load of the file accepts it when nothing fails and the anchor has not passed it. -/
theorem loadAccepts_savedBytes (hn : n < 2 ^ 32)
    (hDisk : d₂.fs.file = some (savedBytes S.crypto salt epoch blob))
    (hEnv : ∀ k, (env k).Works (savedBytes S.crypto salt epoch blob).length)
    (hAnchor : d₂.fs.anchor ≤ epoch) :
    LoadAccepts S env d₂ (savedParts S.crypto salt epoch blob) where
  read := ⟨_, hDisk, (hEnv 0).ioOk, (hEnv 0).allocOk, (hEnv 0).whole,
    keystoreParse_savedBytes hn S.crypto salt epoch blob⟩
  keys := (hEnv 1).cryptoOk
  authentic := authentic_savedParts S.crypto salt epoch blob
  anchor := ⟨d₂.fs.anchor, (hEnv 2).anchorSeen d₂.fs, hAnchor⟩

/-- Loading a saved file puts every slot back. -/
theorem run_hsmKeystoreLoad_saved (hn : n < 2 ^ 32) (hStorable : d.Storable)
    (hFile : SavedFile S d salt blob)
    (hDisk : d₂.fs.file = some (savedBytes S.crypto salt epoch blob))
    (hNumbered : d₂.Numbered)
    (hEnv : ∀ k, (env k).Works (savedBytes S.crypto salt epoch blob).length)
    (hAnchor : d₂.fs.anchor ≤ epoch) :
    ((hsmKeystoreLoad S).run env d₂).1 = .ok ∧ ((hsmKeystoreLoad S).run env d₂).2.1 =
      d₂.withSlots fun i => restoredSlot S.crypto (d.tok.slots i) := by
  have hSplit : splitRecords (List.finRange n) (savedParts S.crypto salt epoch blob).records =
      ((List.finRange n).map fun i => (i, blob i), some []) := by
    have hLen : ∀ i, (UInt32.ofNat (blob i).length).toNat = (blob i).length :=
      fun i => BlobOf.toNat_length (hFile.written i)
    have hWritten := splitRecords_written (List.finRange n) [] hLen
    rwa [List.append_nil] at hWritten
  have hSlots : ((List.finRange n).map fun i => (i, blob i)).map Prod.fst = List.finRange n := by
    rw [List.map_map]
    exact List.map_id _
  have hInstalls := installs_written _ d.tok.slots (fun k => hEnv (k + 3)) d₂.tok.slots
    (hSlots ▸ List.nodup_finRange n) fun r hr => by
      obtain ⟨i, -, rfl⟩ := List.mem_map.mp hr
      exact ⟨hFile.written i, hStorable i, hNumbered i⟩
  simp only [hSlots, List.mem_finRange, if_true] at hInstalls
  rw [run_hsmKeystoreLoad_accepted (loadAccepts_savedBytes hn hDisk hEnv hAnchor),
    KeystoreParts.slotTail, KeystoreParts.slotRecords, hSplit]
  obtain ⟨hStatus, hRun⟩ := run_installRecords_of_installs (some []) hInstalls .errIntegrity
  exact ⟨hStatus.trans (endStatus_eq_ok_iff.mpr (.inl rfl)), hRun⟩

end Keystore

end PqcHsm
