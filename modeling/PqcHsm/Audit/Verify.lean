import PqcHsm.Audit.Log

/-!
# What a verification accepts

A file passes exactly when it is the header and the records of a list of numbered wires, with the
number of them and the digest of their chain in the header. Two such files with one number and one
digest have the same records, or a digest of both has two inputs.
-/

namespace PqcHsm

open ByteCodec HashChain

/-- The records of the wires, after the digest `cur`. -/
def recordsOf (H : Hash) (cur : Digest) : List Bytes → Bytes
  | [] => []
  | w :: ws => auditRec H cur w ++ recordsOf H (chainStep H cur w) ws

/-- Wires of the right length that count up from `seq`. -/
def Numbered (seq : Nat) : List Bytes → Prop
  | [] => True
  | w :: ws => w.length = AUDIT_WIRE_LEN ∧ (getU64 w).1.toNat = seq ∧ Numbered (seq + 1) ws

/-- The file is a header and the records of the wires. -/
structure AuditText (H : Hash) (file : Bytes) (ws : List Bytes) : Prop where
  long : AUDIT_HDR_LEN ≤ file.length
  header : hdrOk (file.take AUDIT_HDR_LEN) = true
  count : hdrCount (file.take AUDIT_HDR_LEN) = ws.length
  head : hdrHead (file.take AUDIT_HDR_LEN) = chainHead H ws
  fits : ws.length ≤ AUDIT_MAX_COUNT
  numbered : Numbered 0 ws
  body : file.drop AUDIT_HDR_LEN = recordsOf H (genesisHash H) ws

section Records

variable {H : Hash} {cur : Digest} {seq : Nat} {ws ws' : List Bytes} {w : Bytes}

theorem length_auditRec (h : w.length = AUDIT_WIRE_LEN) :
    (auditRec H cur w).length = AUDIT_REC_LEN := by
  rw [auditRec, List.length_append, h, List.Vector.toList_length, AUDIT_REC_LEN]

theorem take_auditRec (h : w.length = AUDIT_WIRE_LEN) :
    (auditRec H cur w).take AUDIT_WIRE_LEN = w :=
  List.take_left' h

theorem drop_auditRec (h : w.length = AUDIT_WIRE_LEN) :
    (auditRec H cur w).drop AUDIT_WIRE_LEN = (chainStep H cur w).toList :=
  List.drop_left' h

/-- The number of a record is that of its wire. -/
theorem getU64_take (rec : Bytes) : (getU64 (rec.take AUDIT_WIRE_LEN)).1 = (getU64 rec).1 := by
  rw [getU64, getU64, List.take_take]
  rfl

theorem length_recordsOf (h : Numbered seq ws) :
    (recordsOf H cur ws).length = AUDIT_REC_LEN * ws.length := by
  induction ws generalizing cur seq with
  | nil => rfl
  | cons w ws ih =>
    obtain ⟨hLen, -, hRest⟩ := h
    rw [recordsOf, List.length_append, length_auditRec hLen, ih hRest, List.length_cons,
      Nat.mul_succ, Nat.add_comm]

theorem recordsOf_append : recordsOf H cur (ws ++ ws') =
    recordsOf H cur ws ++ recordsOf H (digest (chainStep H) cur ws) ws' := by
  induction ws generalizing cur with
  | nil => rfl
  | cons w ws ih => rw [List.cons_append, recordsOf, recordsOf, ih, List.append_assoc, digest_cons]

theorem numbered_append : Numbered seq (ws ++ ws') ↔
    Numbered seq ws ∧ Numbered (seq + ws.length) ws' := by
  induction ws generalizing seq with
  | nil => exact (iff_of_eq (true_and _)).symm
  | cons w ws ih =>
    rw [List.cons_append, Numbered, Numbered, ih, List.length_cons, Nat.add_right_comm, and_assoc,
      and_assoc, Nat.add_assoc]

end Records

section Positions

variable {H : Hash} {file tail : Bytes} {ws : List Bytes} {i : Nat}

theorem split_at (hi : i < ws.length) : ws = ws.take i ++ ws[i] :: ws.drop (i + 1) := by
  rw [← List.drop_eq_getElem_cons hi, List.take_append_drop]

theorem Numbered.wire (h : Numbered 0 ws) (hi : i < ws.length) :
    ws[i].length = AUDIT_WIRE_LEN ∧ (getU64 ws[i]).1.toNat = i := by
  rw [split_at hi, numbered_append] at h
  have hSeq := h.2.2.1
  rw [List.length_take_of_le (Nat.le_of_lt hi), Nat.zero_add] at hSeq
  exact ⟨h.2.1, hSeq⟩

/-- The records of the wires stand at the front of the file, behind its header. -/
structure RecordsIn (H : Hash) (file : Bytes) (ws : List Bytes) : Prop where
  numbered : Numbered 0 ws
  body : ∃ tail, file.drop AUDIT_HDR_LEN = recordsOf H (genesisHash H) ws ++ tail

theorem RecordsIn.length_take (h : RecordsIn H file ws) (hi : i ≤ ws.length) :
    (recordsOf H (genesisHash H) (ws.take i)).length = AUDIT_REC_LEN * i := by
  have hNumbered := h.numbered
  rw [← List.take_append_drop i ws, numbered_append] at hNumbered
  rw [length_recordsOf hNumbered.1, List.length_take_of_le hi]

/-- The file from record `i` on. -/
theorem RecordsIn.drop_record (h : RecordsIn H file ws) (hi : i < ws.length) :
    ∃ rest, file.drop (AUDIT_HDR_LEN + AUDIT_REC_LEN * i) =
      auditRec H (chainHead H (ws.take i)) ws[i] ++ rest := by
  obtain ⟨tail, hBody⟩ := h.body
  refine ⟨recordsOf H (chainStep H (chainHead H (ws.take i)) ws[i]) (ws.drop (i + 1)) ++ tail, ?_⟩
  rw [← List.drop_drop, hBody]
  nth_rewrite 1 [split_at hi]
  rw [recordsOf_append, List.append_assoc, List.drop_left' (h.length_take (Nat.le_of_lt hi)),
    recordsOf, List.append_assoc]

theorem RecordsIn.take (h : RecordsIn H file ws) (n : Nat) : RecordsIn H file (ws.take n) := by
  obtain ⟨tail, hBody⟩ := h.body
  have hNumbered := h.numbered
  rw [← List.take_append_drop n ws, numbered_append] at hNumbered
  refine ⟨hNumbered.1, recordsOf H (digest (chainStep H) (genesisHash H) (ws.take n)) (ws.drop n) ++
    tail, ?_⟩
  rw [hBody]
  nth_rewrite 1 [← List.take_append_drop n ws]
  rw [recordsOf_append, List.append_assoc]

/-- The first records of the file, as bytes. -/
theorem RecordsIn.take_file (h : RecordsIn H file ws) :
    (file.drop AUDIT_HDR_LEN).take (AUDIT_REC_LEN * ws.length) =
      recordsOf H (genesisHash H) ws := by
  obtain ⟨tail, hBody⟩ := h.body
  rw [hBody, List.take_left' (length_recordsOf h.numbered)]

end Positions

section Verification

variable {H : Hash} {file : Bytes}

theorem verifyFrom_eq_ok_iff {cur d : Digest} {seq n : Nat}
    (hLen : file.length = AUDIT_HDR_LEN + AUDIT_REC_LEN * (seq + n))
    (hMax : seq + n ≤ AUDIT_MAX_COUNT) :
    verifyFrom H file cur seq n = .ok d ↔ ∃ ws, ws.length = n ∧ Numbered seq ws ∧
      file.drop (AUDIT_HDR_LEN + AUDIT_REC_LEN * seq) = recordsOf H cur ws ∧
      d = digest (chainStep H) cur ws := by
  induction n generalizing seq cur with
  | zero =>
    have hEnd : file.drop (AUDIT_HDR_LEN + AUDIT_REC_LEN * seq) = [] :=
      List.drop_of_length_le (Nat.le_of_eq hLen)
    rw [verifyFrom, hEnd]
    constructor
    · intro h
      cases h
      exact ⟨[], rfl, trivial, rfl, rfl⟩
    · rintro ⟨ws, hNil, -, -, rfl⟩
      rw [List.length_eq_zero_iff.mp hNil]
      rfl
  | succ n ih =>
    have hStep : AUDIT_REC_LEN * (seq + 1) = AUDIT_REC_LEN * seq + AUDIT_REC_LEN := Nat.mul_succ ..
    have hMono : AUDIT_REC_LEN * (seq + 1) ≤ AUDIT_REC_LEN * (seq + (n + 1)) :=
      Nat.mul_le_mul_left _ (by omega)
    have hOff : auditOff seq 0 = AUDIT_HDR_LEN + AUDIT_REC_LEN * seq :=
      auditOff_eq (by omega) (by decide)
    obtain ⟨rec, hRecLen, hSplit⟩ : ∃ rec : Bytes, rec.length = AUDIT_REC_LEN ∧
        file.drop (AUDIT_HDR_LEN + AUDIT_REC_LEN * seq) =
          rec ++ file.drop (AUDIT_HDR_LEN + AUDIT_REC_LEN * (seq + 1)) := by
      refine ⟨(file.drop (AUDIT_HDR_LEN + AUDIT_REC_LEN * seq)).take AUDIT_REC_LEN, ?_, ?_⟩
      · rw [List.length_take_of_le]
        rw [List.length_drop]
        omega
      · rw [hStep, ← Nat.add_assoc]
        generalize AUDIT_HDR_LEN + AUDIT_REC_LEN * seq = off
        rw [← List.drop_drop, List.take_append_drop]
    have hRead : ioPread file AUDIT_REC_LEN (auditOff seq 0) = some rec := by
      rw [ioPread, hOff, if_pos (by omega), hSplit, List.take_left' hRecLen]
    have hLen' : file.length = AUDIT_HDR_LEN + AUDIT_REC_LEN * (seq + 1 + n) := by
      rw [hLen, Nat.add_right_comm, Nat.add_assoc]
    have hMax' : seq + 1 + n ≤ AUDIT_MAX_COUNT := by omega
    rw [verifyFrom, hRead]
    dsimp only
    constructor
    · intro h
      split at h
      · cases h
      rename_i hSeq
      split at h
      · cases h
      rename_i hHash
      obtain ⟨ws, hWs, hNumbered, hBody, rfl⟩ := (ih hLen' hMax').mp h
      refine ⟨rec.take AUDIT_WIRE_LEN :: ws, congrArg Nat.succ hWs, ⟨?_, ?_, hNumbered⟩, ?_, rfl⟩
      · rw [List.length_take_of_le]
        rw [hRecLen]
        decide
      · rw [getU64_take, of_not_not hSeq]
      · rw [hSplit, hBody, recordsOf, auditRec, of_not_not hHash, List.take_append_drop]
    · rintro ⟨ws, hWs, hNumbered, hBody, rfl⟩
      cases ws with
      | nil => cases hWs
      | cons w ws =>
        obtain ⟨hWire, hSeq, hRest⟩ := hNumbered
        rw [hSplit, recordsOf] at hBody
        obtain ⟨rfl, hNext⟩ := List.append_inj hBody (hRecLen.trans (length_auditRec hWire).symm)
        have hNumber : (getU64 (auditRec H cur w)).1.toNat = seq := by
          rw [← getU64_take, take_auditRec hWire, hSeq]
        rw [if_neg (not_not_intro hNumber), take_auditRec hWire, drop_auditRec hWire,
          if_neg (not_not_intro rfl), ih hLen' hMax']
        exact ⟨ws, Nat.succ.inj hWs, hRest, hNext, rfl⟩

/-- A verification accepts the files that are a header and the records of a chain. -/
theorem auditVerifyFile_eq_ok_iff :
    auditVerifyFile H file = .ok () ↔ ∃ ws, AuditText H file ws := by
  unfold auditVerifyFile
  constructor
  · intro h
    split at h
    · cases h
    rename_i hdr hRead
    rw [ioPread] at hRead
    split at hRead
    · rename_i hLong
      cases hRead
      rw [List.drop_zero] at h
      split at h
      · cases h
      rename_i hOk
      dsimp only at h
      split at h
      · cases h
      rename_i hCount
      obtain ⟨hFits, hLen⟩ := not_or.mp hCount
      have hLen := of_not_not hLen
      split at h
      · cases h
      rename_i cur hVerify
      split at h
      · cases h
      rename_i hHead
      obtain ⟨ws, hWs, hNumbered, hBody, rfl⟩ := (verifyFrom_eq_ok_iff
        (by rwa [Nat.zero_add]) (by rw [Nat.zero_add]; exact Nat.le_of_not_lt hFits)).mp hVerify
      refine ⟨ws, by omega, by simpa using hOk, hWs.symm, ?_, ?_, hNumbered, hBody⟩
      · exact (List.Vector.toList_injective (of_not_not hHead)).symm
      · rw [hWs]
        exact Nat.le_of_not_lt hFits
    · cases hRead
  · rintro ⟨ws, hText⟩
    have hRead : ioPread file AUDIT_HDR_LEN 0 = some (file.take AUDIT_HDR_LEN) := by
      rw [ioPread, Nat.zero_add, if_pos hText.long, List.drop_zero]
    have hLen : file.length = AUDIT_HDR_LEN + AUDIT_REC_LEN * ws.length := by
      rw [← length_recordsOf hText.numbered, ← hText.body, List.length_drop,
        Nat.add_sub_cancel' hText.long]
    have hVerify : verifyFrom H file (genesisHash H) 0 ws.length = .ok (chainHead H ws) :=
      (verifyFrom_eq_ok_iff (by rwa [Nat.zero_add]) (by rw [Nat.zero_add]; exact hText.fits)).mpr
        ⟨ws, rfl, hText.numbered, hText.body, rfl⟩
    rw [hRead]
    dsimp only
    rw [hText.header, hText.count, hText.head, hVerify, if_neg (by decide),
      if_neg (by rintro (h | h); exacts [absurd hText.fits (Nat.not_le.mpr h), h hLen])]
    dsimp only
    rw [if_neg (not_not_intro rfl)]

end Verification

section Binding

variable {H : Hash} {file : Bytes} {ws : List Bytes}

/-- What the digest of record `i` is computed from, as the file has it: the digest of the record
before, then the wire. -/
def chainInput (H : Hash) (file : Bytes) (i : Nat) : Bytes :=
  let prev := if i = 0 then (genesisHash H).toList
    else (file.drop (AUDIT_HDR_LEN + AUDIT_REC_LEN * (i - 1) + AUDIT_WIRE_LEN)).take AUDIT_HASH_LEN
  prev ++ (file.drop (AUDIT_HDR_LEN + AUDIT_REC_LEN * i)).take AUDIT_WIRE_LEN

theorem AuditText.recordsIn (h : AuditText H file ws) : RecordsIn H file ws :=
  ⟨h.numbered, [], by rw [h.body, List.append_nil]⟩

theorem RecordsIn.chainInput_eq (h : RecordsIn H file ws) {i : Nat} (hi : i < ws.length) :
    chainInput H file i = (chainHead H (ws.take i)).toList ++ ws[i] := by
  have hWire : (file.drop (AUDIT_HDR_LEN + AUDIT_REC_LEN * i)).take AUDIT_WIRE_LEN = ws[i] := by
    obtain ⟨rest, hRest⟩ := h.drop_record hi
    rw [hRest, auditRec, List.append_assoc, List.take_left' (h.numbered.wire hi).1]
  rw [chainInput, hWire]
  cases i with
  | zero => rfl
  | succ i =>
    have hi' : i < ws.length := Nat.lt_of_succ_lt hi
    obtain ⟨rest, hRest⟩ := h.drop_record hi'
    rw [if_neg (Nat.succ_ne_zero i), Nat.add_sub_cancel, ← List.drop_drop, hRest, auditRec,
      List.append_assoc, List.drop_left' (h.numbered.wire hi').1,
      List.take_left' (List.Vector.toList_length _), List.take_succ_eq_append_getElem hi', chainHead,
      chainHead, digest_concat]

/-- A collision of two chains shows in the files. -/
theorem chainInput_collides {file' : Bytes} {ws' : List Bytes} (h : RecordsIn H file ws)
    (h' : RecordsIn H file' ws') {i : Nat}
    (hCollides : CollidesAt (chainStep H) (genesisHash H) ws ws' i) :
    chainInput H file i ≠ chainInput H file' i ∧
      H (chainInput H file i) = H (chainInput H file' i) := by
  obtain ⟨x, x', hx, hx', hNe, hDigest⟩ := hCollides
  obtain ⟨w, hw, rfl⟩ := Option.map_eq_some_iff.mp hx
  obtain ⟨w', hw', rfl⟩ := Option.map_eq_some_iff.mp hx'
  obtain ⟨hi, rfl⟩ := List.getElem?_eq_some_iff.mp hw
  obtain ⟨hi', rfl⟩ := List.getElem?_eq_some_iff.mp hw'
  rw [h.chainInput_eq hi, h'.chainInput_eq hi']
  refine ⟨fun hSame => hNe ?_, hDigest⟩
  obtain ⟨hPrev, hWire⟩ := List.append_inj hSame (by simp only [List.Vector.toList_length])
  exact Prod.ext (List.Vector.toList_injective hPrev) hWire

/-- Two accepted files with one count and one head have the same records, or two inputs of one
digest stand in them. -/
theorem audit_chain_binding (H : Hash) (file file' : Bytes)
    (hFile : auditVerifyFile H file = .ok ()) (hFile' : auditVerifyFile H file' = .ok ())
    (hCount : hdrCount (file.take AUDIT_HDR_LEN) = hdrCount (file'.take AUDIT_HDR_LEN))
    (hHead : hdrHead (file.take AUDIT_HDR_LEN) = hdrHead (file'.take AUDIT_HDR_LEN)) :
    file.drop AUDIT_HDR_LEN = file'.drop AUDIT_HDR_LEN ∨
      ∃ i, i < hdrCount (file.take AUDIT_HDR_LEN) ∧ chainInput H file i ≠ chainInput H file' i ∧
        H (chainInput H file i) = H (chainInput H file' i) := by
  obtain ⟨ws, hText⟩ := auditVerifyFile_eq_ok_iff.mp hFile
  obtain ⟨ws', hText'⟩ := auditVerifyFile_eq_ok_iff.mp hFile'
  have hLen : ws.length = ws'.length := by rw [← hText.count, hCount, hText'.count]
  have hDigest : chainHead H ws = chainHead H ws' := by rw [← hText.head, hHead, hText'.head]
  obtain rfl | ⟨i, hi, hCollides⟩ := eq_or_collides hLen hDigest
  · exact .inl (hText.body.trans hText'.body.symm)
  · exact .inr ⟨i, hText.count.symm ▸ hi, chainInput_collides hText.recordsIn hText'.recordsIn hCollides⟩

end Binding

section Runs

/-- A hash that binds nothing. -/
def constHash : Hash := fun _ => zeros 32

/-- A log of one record. -/
def oneRecord (timestamp : UInt64) : Bytes :=
  hdrEncode 1 (zeros 32) ++ auditRec constHash (zeros 32) (wireEncode 0 ⟨timestamp, 7, 2, 0, 0, none⟩)

theorem audit_chain_binding_one_record :
    (oneRecord 1).drop AUDIT_HDR_LEN = (oneRecord 2).drop AUDIT_HDR_LEN ∨
      ∃ i, i < hdrCount ((oneRecord 1).take AUDIT_HDR_LEN) ∧
        chainInput constHash (oneRecord 1) i ≠ chainInput constHash (oneRecord 2) i ∧
        constHash (chainInput constHash (oneRecord 1) i) =
          constHash (chainInput constHash (oneRecord 2) i) :=
  audit_chain_binding constHash (oneRecord 1) (oneRecord 2) (by decide +kernel) (by decide +kernel)
    (by decide) (by decide)

end Runs

end PqcHsm
