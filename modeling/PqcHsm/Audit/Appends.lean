import PqcHsm.Audit.Verify
import PqcHsm.Library.Transition

/-!
# Appending to an audit log

A run of appends on a new log, of which some fail on the way. The log in memory counts the
successful ones, and their records stay in the file; a failure that has written leaves a file that
a verification refuses until an append succeeds again.
-/

namespace PqcHsm

open ByteCodec HashChain Transition

/-- The wires of the entries. -/
def wiresOf (fs : List AuditFields) : List Bytes := fs.mapIdx wireEncode

theorem length_wiresOf (fs : List AuditFields) : (wiresOf fs).length = fs.length :=
  List.length_mapIdx

theorem wiresOf_concat (fs : List AuditFields) (f : AuditFields) :
    wiresOf (fs ++ [f]) = wiresOf fs ++ [wireEncode fs.length f] :=
  List.mapIdx_concat

theorem wiresOf_append (fs gs : List AuditFields) :
    wiresOf (fs ++ gs) = wiresOf fs ++ gs.mapIdx fun i => wireEncode (i + fs.length) :=
  List.mapIdx_append

theorem numbered_wiresOf {fs : List AuditFields} (h : fs.length ≤ AUDIT_MAX_COUNT) :
    Numbered 0 (wiresOf fs) := by
  induction fs using List.reverseRecOn with
  | nil => trivial
  | append_singleton fs f ih =>
    rw [List.length_append, List.length_singleton] at h
    have hMax : AUDIT_MAX_COUNT < 2 ^ 64 := by decide
    rw [wiresOf_concat, numbered_append, length_wiresOf, Nat.zero_add]
    exact ⟨ih (by omega), length_wireEncode, getU64_toLe (by omega) _, trivial⟩

/-- The state of a run: the log, the entries of the successful appends, and whether every append
since the last of them left the file alone. -/
structure AuditRun where
  log : AuditLog
  appended : List AuditFields
  settled : Bool

def auditStep (H : Hash) (s : AuditRun) (a : AuditFields × AuditEnv) : AuditRun :=
  let r := auditAppend H a.2 s.log a.1
  if r.2 then ⟨r.1, s.appended ++ [a.1], true⟩
  else ⟨r.1, s.appended, s.settled && r.1.file == s.log.file⟩

def auditRun (H : Hash) (appends : List (AuditFields × AuditEnv)) : AuditRun :=
  replay (auditStep H) ⟨.fresh H, [], true⟩ appends

section Append

variable (H : Hash) (e : AuditEnv) (log : AuditLog) (f : AuditFields)

/-- The file after the record of an append was written, up to `done` bytes of it. -/
def recWritten (done : Nat) : Bytes :=
  ioPwrite log.file (auditRec H log.head (wireEncode log.count f)) (auditOff log.count 0) done

/-- The file after the header of an append was written too, up to `done` bytes of it. -/
def hdrWritten (recDone done : Nat) : Bytes :=
  ioPwrite (recWritten H log f recDone)
    (hdrEncode (log.count + 1) (chainStep H log.head (wireEncode log.count f))) 0 done

/-- What one append can do. -/
theorem auditAppend_cases :
    auditAppend H e log f = (log, false) ∨
    log.count < AUDIT_MAX_COUNT ∧
      (auditAppend H e log f = (⟨recWritten H log f e.recDone, log.count, log.head⟩, false) ∨
      AUDIT_REC_LEN ≤ e.recDone ∧
        (auditAppend H e log f =
          (⟨hdrWritten H log f e.recDone e.hdrDone, log.count, log.head⟩, false) ∨
        AUDIT_HDR_LEN ≤ e.hdrDone ∧ auditAppend H e log f =
          (⟨hdrWritten H log f e.recDone e.hdrDone, log.count + 1,
            chainStep H log.head (wireEncode log.count f)⟩, true))) := by
  unfold auditAppend
  split
  · exact .inl rfl
  split
  · exact .inl rfl
  rename_i hMax
  split
  · exact .inl rfl
  dsimp only
  split
  · exact .inr ⟨Nat.lt_of_not_le hMax, .inl rfl⟩
  rename_i hRec
  split
  · exact .inr ⟨Nat.lt_of_not_le hMax, .inr ⟨Nat.le_of_not_lt (not_or.mp hRec).1, .inl rfl⟩⟩
  rename_i hHdr
  exact .inr ⟨Nat.lt_of_not_le hMax, .inr ⟨Nat.le_of_not_lt (not_or.mp hRec).1,
    .inr ⟨Nat.le_of_not_lt (not_or.mp hHdr).1, rfl⟩⟩⟩

end Append

/-- The file holds the records of the wires behind a header, and at most one record more. -/
structure HoldsRecords (H : Hash) (file : Bytes) (ws : List Bytes) (hdr tail : Bytes) : Prop where
  hdrLength : hdr.length = AUDIT_HDR_LEN
  hdrStart : hdr.take HDR_OFF_COUNT = hdrPrefix
  tailLength : tail.length ≤ AUDIT_REC_LEN
  file_eq : file = hdr ++ (recordsOf H (genesisHash H) ws ++ tail)

/-- What every state of a run keeps. -/
structure AuditInv (H : Hash) (s : AuditRun) : Prop where
  count : s.log.count = s.appended.length
  head : s.log.head = chainHead H (wiresOf s.appended)
  fits : s.log.count ≤ AUDIT_MAX_COUNT
  records : ∃ hdr tail, HoldsRecords H s.log.file (wiresOf s.appended) hdr tail
  settled : s.settled = true → s.log.file =
    hdrEncode s.log.count s.log.head ++ recordsOf H (genesisHash H) (wiresOf s.appended)

section Step

variable {H : Hash} {log : AuditLog} {f : AuditFields} {ws : List Bytes} {hdr tail : Bytes}
  {s : AuditRun}

/-- The bytes of a record over what was there. -/
theorem overwritten_length (H : Hash) (log : AuditLog) (f : AuditFields) (done : Nat)
    (hTail : tail.length ≤ AUDIT_REC_LEN) :
    ((auditRec H log.head (wireEncode log.count f)).take done ++
      tail.drop (min done AUDIT_REC_LEN)).length ≤ AUDIT_REC_LEN := by
  rw [List.length_append, List.length_take, length_auditRec length_wireEncode, List.length_drop]
  omega

/-- A record goes behind the records of the log, over the rest of a failed append. -/
theorem HoldsRecords.recWritten (h : HoldsRecords H log.file ws hdr tail)
    (hCount : log.count = ws.length) (hMax : log.count < AUDIT_MAX_COUNT)
    (hNumbered : Numbered 0 ws) (done : Nat) :
    HoldsRecords H (recWritten H log f done) ws hdr
      ((auditRec H log.head (wireEncode log.count f)).take done ++
        tail.drop (min done AUDIT_REC_LEN)) := by
  refine ⟨h.hdrLength, h.hdrStart, overwritten_length H log f done h.tailLength, ?_⟩
  have hOff : auditOff log.count 0 = (hdr ++ recordsOf H (genesisHash H) ws).length := by
    rw [auditOff_eq hMax (by decide), List.length_append, h.hdrLength, length_recordsOf hNumbered,
      hCount, Nat.add_zero]
  rw [PqcHsm.recWritten, h.file_eq, hOff, ← List.append_assoc, ioPwrite_middle, List.append_assoc,
    length_auditRec length_wireEncode]

/-- A header, written in part, leaves the records. -/
theorem HoldsRecords.hdrWritten {file : Bytes} (h : HoldsRecords H file ws hdr tail) (count done : Nat)
    (head : Digest) :
    HoldsRecords H (ioPwrite file (hdrEncode count head) 0 done) ws
      ((hdrEncode count head).take done ++ hdr.drop (min done AUDIT_HDR_LEN)) tail := by
  refine ⟨?_, ?_, h.tailLength, ?_⟩
  · rw [List.length_append, List.length_take, length_hdrEncode, List.length_drop, h.hdrLength]
    omega
  · rw [← length_hdrEncode, take_torn (h.hdrStart.trans take_hdrEncode.symm), h.hdrStart]
  · have hWrite := ioPwrite_middle (a := []) (b := file) (hdrEncode count head) done
    rw [List.nil_append, List.length_nil, List.nil_append, length_hdrEncode] at hWrite
    rw [hWrite, h.file_eq, List.append_assoc, List.drop_append_of_le_length]
    rw [h.hdrLength]
    exact Nat.min_le_right ..

theorem auditInv_fresh (H : Hash) : AuditInv H ⟨.fresh H, [], true⟩ where
  count := rfl
  head := rfl
  fits := Nat.zero_le _
  records := ⟨hdrEncode 0 (genesisHash H), [], length_hdrEncode, take_hdrEncode, Nat.zero_le _, by
    rw [wiresOf, List.mapIdx_nil, recordsOf, List.append_nil, List.append_nil]
    rfl⟩
  settled _ := by
    rw [wiresOf, List.mapIdx_nil, recordsOf, List.append_nil]
    rfl

/-- A failed append that leaves the records keeps the state in step. -/
theorem AuditInv.failed (h : AuditInv H s) {file : Bytes}
    (hRecords : ∃ hdr tail, HoldsRecords H file (wiresOf s.appended) hdr tail) :
    AuditInv H ⟨⟨file, s.log.count, s.log.head⟩, s.appended, s.settled && file == s.log.file⟩ where
  count := h.count
  head := h.head
  fits := h.fits
  records := hRecords
  settled hSettled := by
    obtain ⟨hSettled, hFile⟩ := Bool.and_eq_true_iff.mp hSettled
    exact (eq_of_beq hFile).trans (h.settled hSettled)

/-- A successful append adds its record. -/
theorem AuditInv.succeeded (h : AuditInv H s) {file : Bytes} (hMax : s.log.count < AUDIT_MAX_COUNT)
    (hFile : file = hdrEncode (s.log.count + 1)
        (chainStep H s.log.head (wireEncode s.log.count f)) ++
      (recordsOf H (genesisHash H) (wiresOf s.appended) ++
        auditRec H s.log.head (wireEncode s.log.count f))) :
    AuditInv H ⟨⟨file, s.log.count + 1, chainStep H s.log.head (wireEncode s.log.count f)⟩,
      s.appended ++ [f], true⟩ := by
  have hWires : wiresOf (s.appended ++ [f]) = wiresOf s.appended ++ [wireEncode s.log.count f] := by
    rw [wiresOf_concat, h.count]
  have hNext : recordsOf H (genesisHash H) (wiresOf (s.appended ++ [f])) =
      recordsOf H (genesisHash H) (wiresOf s.appended) ++
        auditRec H s.log.head (wireEncode s.log.count f) := by
    rw [hWires, recordsOf_append, h.head, recordsOf, recordsOf, List.append_nil]
  rw [← hNext] at hFile
  refine ⟨?_, ?_, hMax, ⟨hdrEncode (s.log.count + 1) (chainStep H s.log.head
    (wireEncode s.log.count f)), [], length_hdrEncode, take_hdrEncode, Nat.zero_le _, ?_⟩,
    fun _ => hFile⟩
  · rw [List.length_append, ← h.count]
    rfl
  · dsimp only
    rw [hWires, chainHead, digest_concat, h.head]
  · rw [List.append_nil]
    exact hFile

/-- One append keeps the state in step. -/
theorem auditInv_step (h : AuditInv H s) (a : AuditFields × AuditEnv) :
    AuditInv H (auditStep H s a) := by
  obtain ⟨f, e⟩ := a
  obtain ⟨hdr, tail, hRecords⟩ := h.records
  have hNumbered : Numbered 0 (wiresOf s.appended) := numbered_wiresOf (h.count ▸ h.fits)
  have hCount : s.log.count = (wiresOf s.appended).length := by rw [h.count, length_wiresOf]
  unfold auditStep
  obtain hSame | ⟨hMax, hRec | ⟨hRecDone, hHdr | ⟨hHdrDone, hOk⟩⟩⟩ :=
    auditAppend_cases H e s.log f
  · rw [hSame]
    exact h.failed h.records
  · rw [hRec]
    exact h.failed ⟨_, _, hRecords.recWritten hCount hMax hNumbered e.recDone⟩
  · rw [hHdr]
    exact h.failed ⟨_, _, (hRecords.recWritten hCount hMax hNumbered e.recDone).hdrWritten _ _ _⟩
  · rw [hOk]
    have hFile := ((hRecords.recWritten hCount hMax hNumbered (f := f) e.recDone).hdrWritten
      (s.log.count + 1) e.hdrDone (chainStep H s.log.head (wireEncode s.log.count f))).file_eq
    rw [Nat.min_eq_right hRecDone, Nat.min_eq_right hHdrDone,
      List.drop_of_length_le hRecords.tailLength, List.append_nil,
      List.drop_of_length_le (Nat.le_of_eq hRecords.hdrLength), List.append_nil,
      List.take_of_length_le (by rwa [length_hdrEncode]),
      List.take_of_length_le (by rwa [length_auditRec length_wireEncode])] at hFile
    exact h.succeeded hMax hFile

/-- The states of a run. -/
def auditSystem (H : Hash) : System AuditRun (AuditFields × AuditEnv) :=
  .ofFun (fun s => s = ⟨.fresh H, [], true⟩) (auditStep H)

theorem auditInv_of_reachable (h : Reachable (auditSystem H) anyStep s) : AuditInv H s := by
  refine h.invariant ?_ ?_
  · rintro _ rfl
    exact auditInv_fresh H
  · rintro s a _ hInv rfl -
    exact auditInv_step hInv a

theorem reachable_auditRun (H : Hash) (appends : List (AuditFields × AuditEnv)) :
    Reachable (auditSystem H) anyStep (auditRun H appends) := by
  have hInit : Reachable (auditSystem H) anyStep ⟨.fresh H, [], true⟩ := .init rfl
  exact reachable_replay hInit appends

theorem auditInv_run (H : Hash) (appends : List (AuditFields × AuditEnv)) :
    AuditInv H (auditRun H appends) :=
  auditInv_of_reachable (reachable_auditRun H appends)

theorem auditRun_append (H : Hash) (appends more : List (AuditFields × AuditEnv)) :
    auditRun H (appends ++ more) = replay (auditStep H) (auditRun H appends) more :=
  List.foldl_append

/-- Entries are only ever added. -/
theorem appended_prefix (H : Hash) (s : AuditRun) (more : List (AuditFields × AuditEnv)) :
    s.appended <+: (replay (auditStep H) s more).appended := by
  induction more generalizing s with
  | nil => exact List.prefix_refl _
  | cons a more ih =>
    refine List.IsPrefix.trans ?_ (ih (auditStep H s a))
    unfold auditStep
    dsimp only
    split
    · exact List.prefix_append ..
    · exact List.prefix_refl _

/-- The bytes of a record. -/
def recordAt (file : Bytes) (i : Nat) : Bytes :=
  (file.drop (AUDIT_HDR_LEN + AUDIT_REC_LEN * i)).take AUDIT_REC_LEN

end Step

section Results

variable {H : Hash} {s : AuditRun} {i : Nat}

theorem AuditInv.numbered (h : AuditInv H s) : Numbered 0 (wiresOf s.appended) :=
  numbered_wiresOf (h.count ▸ h.fits)

theorem AuditInv.recordsIn (h : AuditInv H s) : RecordsIn H s.log.file (wiresOf s.appended) := by
  obtain ⟨hdr, tail, hRecords⟩ := h.records
  refine ⟨h.numbered, tail, ?_⟩
  rw [hRecords.file_eq, List.drop_left' hRecords.hdrLength]

/-- The file from a record of a successful append on. -/
theorem AuditInv.drop_record (h : AuditInv H s) (hi : i < s.appended.length) :
    ∃ rest, s.log.file.drop (AUDIT_HDR_LEN + AUDIT_REC_LEN * i) =
      auditRec H (chainHead H ((wiresOf s.appended).take i)) (wireEncode i s.appended[i]) ++ rest := by
  obtain ⟨rest, hRest⟩ := h.recordsIn.drop_record ((length_wiresOf s.appended).symm ▸ hi)
  simp only [wiresOf, List.getElem_mapIdx] at hRest
  exact ⟨rest, hRest⟩

theorem AuditInv.recordAt_eq (h : AuditInv H s) (hi : i < s.appended.length) :
    recordAt s.log.file i =
      auditRec H (chainHead H ((wiresOf s.appended).take i)) (wireEncode i s.appended[i]) := by
  obtain ⟨rest, hRest⟩ := h.drop_record hi
  rw [recordAt, hRest, List.take_left' (length_auditRec length_wireEncode)]

theorem ioPread_of_drop {file p rest : Bytes} {n off : Nat} (hp : p.length = n) (hn : 0 < n)
    (h : file.drop off = p ++ rest) : ioPread file n off = some p := by
  have hLen := congrArg List.length h
  rw [List.length_drop, List.length_append, hp] at hLen
  rw [ioPread, if_pos (by omega), h, List.take_left' hp]

/-- The digest a read recomputes starts from that of the record before. -/
theorem AuditInv.read_prev (h : AuditInv H s) (hi : i < s.appended.length) :
    (if i = 0 then some (genesisHash H).toList
      else ioPread s.log.file AUDIT_HASH_LEN (auditOff (i - 1) AUDIT_WIRE_LEN)) =
      some (chainHead H ((wiresOf s.appended).take i)).toList := by
  cases i with
  | zero => rfl
  | succ j =>
    have hj : j < s.appended.length := Nat.lt_of_succ_lt hi
    have hMax : j < AUDIT_MAX_COUNT := Nat.lt_of_lt_of_le hj (h.count ▸ h.fits)
    obtain ⟨rest, hRest⟩ := h.drop_record hj
    have hHash : s.log.file.drop (AUDIT_HDR_LEN + AUDIT_REC_LEN * j + AUDIT_WIRE_LEN) =
        (chainStep H (chainHead H ((wiresOf s.appended).take j))
          (wireEncode j s.appended[j])).toList ++ rest := by
      rw [← List.drop_drop, hRest, auditRec, List.append_assoc, List.drop_left' length_wireEncode]
    have hj' : j < (wiresOf s.appended).length := by rwa [length_wiresOf]
    rw [if_neg (Nat.succ_ne_zero j), Nat.add_sub_cancel, auditOff_eq hMax (by decide),
      ioPread_of_drop (List.Vector.toList_length _) (by decide) hHash,
      List.take_succ_eq_append_getElem hj', chainHead, chainHead, digest_concat]
    simp only [wiresOf, List.getElem_mapIdx]

/-- A record that the header admits reads back as the entry that was appended. -/
theorem AuditInv.read (h : AuditInv H s) (hi : i < s.appended.length)
    (hAdmits : i < hdrCount (s.log.file.take AUDIT_HDR_LEN)) :
    auditRead H s.log.file i = some s.appended[i].entry := by
  have hMax : i < AUDIT_MAX_COUNT := Nat.lt_of_lt_of_le hi (h.count ▸ h.fits)
  have hSeq : i < 2 ^ 64 := Nat.lt_trans hMax (by decide)
  obtain ⟨hdr, tail, hRecords⟩ := h.records
  have hTake : s.log.file.take AUDIT_HDR_LEN = hdr := by
    rw [hRecords.file_eq, List.take_left' hRecords.hdrLength]
  have hHdr : ioPread s.log.file AUDIT_HDR_LEN 0 = some hdr :=
    ioPread_of_drop hRecords.hdrLength (by decide) hRecords.file_eq
  obtain ⟨rest, hRest⟩ := h.drop_record hi
  have hRec := ioPread_of_drop (length_auditRec length_wireEncode) (by decide) hRest
  rw [← Nat.add_zero (_ + _), ← auditOff_eq hMax (by decide)] at hRec
  have hNumber : (getU64 (auditRec H (chainHead H ((wiresOf s.appended).take i))
      (wireEncode i s.appended[i]))).1.toNat = i := by
    rw [← getU64_take, take_auditRec length_wireEncode]
    exact getU64_toLe hSeq _
  rw [hTake] at hAdmits
  rw [auditRead, hHdr]
  dsimp only
  rw [hdrOk_of_take hRecords.hdrStart, if_neg (by decide), if_neg (Nat.not_le.mpr hAdmits), hRec]
  dsimp only
  rw [if_neg (not_not_intro hNumber), h.read_prev hi]
  dsimp only
  rw [take_auditRec length_wireEncode, drop_auditRec length_wireEncode, chainStep,
    if_neg (not_not_intro rfl), wireDecode_wireEncode]

/-- A settled file is the text of its records. -/
theorem AuditInv.text (h : AuditInv H s) (hSettled : s.settled = true) :
    AuditText H s.log.file (wiresOf s.appended) := by
  have hFile := h.settled hSettled
  have hMax : AUDIT_MAX_COUNT < 2 ^ 64 := by decide
  have hTake : s.log.file.take AUDIT_HDR_LEN = hdrEncode s.log.count s.log.head := by
    rw [hFile, List.take_left' length_hdrEncode]
  refine ⟨?_, ?_, ?_, ?_, ?_, h.numbered, ?_⟩
  · rw [hFile, List.length_append, length_hdrEncode]
    exact Nat.le_add_right ..
  · rw [hTake, hdrOk_of_take take_hdrEncode]
  · rw [hTake, hdrCount_hdrEncode (Nat.lt_of_le_of_lt h.fits hMax), length_wiresOf, h.count]
  · rw [hTake, hdrHead_hdrEncode, h.head]
  · rw [length_wiresOf, ← h.count]
    exact h.fits
  · rw [hFile, List.drop_left' length_hdrEncode]

end Results

/-- Over every run of appends the log in memory is in step with the successful ones, whose records
stay as they are and read back; once no failed append has written since the last of them, the file
passes verification with their number and digest in its header. -/
theorem auditRun_keeps_log (H : Hash) (appends : List (AuditFields × AuditEnv)) :
    ((auditRun H appends).log.count = (auditRun H appends).appended.length ∧
      (auditRun H appends).log.head = chainHead H (wiresOf (auditRun H appends).appended)) ∧
    (∀ more i, i < (auditRun H appends).appended.length →
      recordAt (auditRun H (appends ++ more)).log.file i =
        recordAt (auditRun H appends).log.file i) ∧
    (∀ i f, (auditRun H appends).appended[i]? = some f →
      i < hdrCount ((auditRun H appends).log.file.take AUDIT_HDR_LEN) →
      auditRead H (auditRun H appends).log.file i = some f.entry) ∧
    ((auditRun H appends).settled = true →
      auditVerifyFile H (auditRun H appends).log.file = .ok () ∧
      hdrCount ((auditRun H appends).log.file.take AUDIT_HDR_LEN) =
        (auditRun H appends).appended.length ∧
      hdrHead ((auditRun H appends).log.file.take AUDIT_HDR_LEN) =
        chainHead H (wiresOf (auditRun H appends).appended)) := by
  have hInv := auditInv_run H appends
  refine ⟨⟨hInv.count, hInv.head⟩, fun more i hi => ?_, fun i f hf hAdmits => ?_, fun hSettled => ?_⟩
  · obtain ⟨rest, hRest⟩ := auditRun_append H appends more ▸
      appended_prefix H (auditRun H appends) more
    have hi' : i < (auditRun H (appends ++ more)).appended.length := by
      rw [← hRest, List.length_append]
      omega
    rw [hInv.recordAt_eq hi, (auditInv_run H (appends ++ more)).recordAt_eq hi']
    simp only [← hRest, wiresOf_append, List.getElem_append_left hi]
    rw [List.take_append_of_le_length (by rw [length_wiresOf]; exact Nat.le_of_lt hi)]
  · obtain ⟨hi, rfl⟩ := List.getElem?_eq_some_iff.mp hf
    exact hInv.read hi hAdmits
  · have hText := hInv.text hSettled
    refine ⟨auditVerifyFile_eq_ok_iff.mpr ⟨_, hText⟩, ?_, hText.head⟩
    rw [hText.count, length_wiresOf]

/-- An append whose first `fsync` fails leaves a record that a verification refuses. -/
theorem unsynced_record_refused :
    auditVerifyFile constHash
      (auditRun constHash [(⟨1, 7, 2, 0, 0, none⟩, ⟨true, 96, false, 0, false⟩)]).log.file ≠ .ok () := by
  decide +kernel

end PqcHsm
