import PqcHsm.Audit.Verify

/-!
# Where a verification stops

Record `i` continues the chain if it has number `i` and the digest of what stands before it and of
its wire. A verification of a file whose size fits its header reports the first record that does not.
-/

namespace PqcHsm

open ByteCodec HashChain

/-- Record `i` as the file has it. -/
def storedRecord (file : Bytes) (i : Nat) : Bytes :=
  (file.drop (AUDIT_HDR_LEN + AUDIT_REC_LEN * i)).take AUDIT_REC_LEN

/-- The digest in front of record `i`: the genesis value, or what is stored with the record before. -/
def digestBefore (H : Hash) (file : Bytes) (i : Nat) : Bytes :=
  if i = 0 then (genesisHash H).toList else (storedRecord file (i - 1)).drop AUDIT_WIRE_LEN

/-- Record `i` continues the chain of the file. -/
def Continues (H : Hash) (file : Bytes) (i : Nat) : Prop :=
  (getU64 (storedRecord file i)).1.toNat = i ∧
    (H (digestBefore H file i ++ (storedRecord file i).take AUDIT_WIRE_LEN)).toList =
      (storedRecord file i).drop AUDIT_WIRE_LEN

/-- The count of the header, and its head. -/
def fileCount (file : Bytes) : Nat := hdrCount (file.take AUDIT_HDR_LEN)
def fileHead (file : Bytes) : Digest := hdrHead (file.take AUDIT_HDR_LEN)

/-- The file has a header and the size that its count asks for. File sizes fit 64 bits. -/
structure SizeFits (file : Bytes) : Prop where
  header : hdrOk (file.take AUDIT_HDR_LEN) = true
  length : file.length = AUDIT_HDR_LEN + AUDIT_REC_LEN * fileCount file
  small : file.length < 2 ^ 64

/-- All records chain, and they end in the head of the header. -/
def WholeChain (H : Hash) (file : Bytes) : Prop :=
  (∀ i < fileCount file, Continues H file i) ∧ digestBefore H file (fileCount file) = (fileHead file).toList

/-- The first place where the file stops being a chain to its head. -/
def FirstBreak (H : Hash) (file : Bytes) (b : Nat) : Prop :=
  (∀ i < b, Continues H file i) ∧
    (b < fileCount file ∧ ¬ Continues H file b ∨
      b = fileCount file ∧ digestBefore H file b ≠ (fileHead file).toList)

section Loop

variable {H : Hash} {file : Bytes} {cur : Digest} {seq n : Nat}

theorem SizeFits.count_le (h : SizeFits file) : fileCount file ≤ AUDIT_MAX_COUNT := by
  obtain ⟨-, hLen, hSmall⟩ := h
  rw [AUDIT_MAX_COUNT, Nat.le_div_iff_mul_le (by decide)]
  rw [Nat.mul_comm] at hLen
  omega

theorem ioPread_record (hLen : file.length = AUDIT_HDR_LEN + AUDIT_REC_LEN * (seq + (n + 1)))
    (hMax : seq + (n + 1) ≤ AUDIT_MAX_COUNT) :
    ioPread file AUDIT_REC_LEN (auditOff seq 0) = some (storedRecord file seq) := by
  have hMono : AUDIT_REC_LEN * (seq + 1) ≤ AUDIT_REC_LEN * (seq + (n + 1)) :=
    Nat.mul_le_mul_left _ (by omega)
  rw [Nat.mul_succ] at hMono
  rw [ioPread, auditOff_eq (by omega) (by decide), if_pos (by omega)]
  rfl

/-- What the loop returns, record by record. -/
inductive LoopCase (H : Hash) (file : Bytes) (seq n : Nat) : Except Nat Digest → Prop where
  | broken (b : Nat) : seq ≤ b → b < seq + n → (∀ i, seq ≤ i → i < b → Continues H file i) →
      ¬ Continues H file b → LoopCase H file seq n (.error b)
  | whole (d : Digest) : (∀ i, seq ≤ i → i < seq + n → Continues H file i) →
      d.toList = digestBefore H file (seq + n) → LoopCase H file seq n (.ok d)

theorem verifyFrom_cases (hLen : file.length = AUDIT_HDR_LEN + AUDIT_REC_LEN * (seq + n))
    (hMax : seq + n ≤ AUDIT_MAX_COUNT) (hCur : cur.toList = digestBefore H file seq) :
    LoopCase H file seq n (verifyFrom H file cur seq n) := by
  induction n generalizing seq cur with
  | zero =>
    refine .whole cur ?_ hCur
    intro i hLow hHigh
    omega
  | succ n ih =>
    have hLen' : file.length = AUDIT_HDR_LEN + AUDIT_REC_LEN * (seq + 1 + n) := by
      rw [hLen, Nat.add_right_comm, Nat.add_assoc]
    rw [verifyFrom, ioPread_record hLen hMax]
    dsimp only
    have hNone : ∀ i, seq ≤ i → i < seq → Continues H file i := by
      intro i hLow hHigh
      omega
    split
    · rename_i hSeq
      exact .broken seq (le_refl _) (by omega) hNone fun h => hSeq h.1
    · rename_i hSeq
      split
      · rename_i hHash
        refine .broken seq (le_refl _) (by omega) hNone fun h => hHash ?_
        rw [chainStep, hCur, h.2]
      · rename_i hHash
        have hHere : Continues H file seq := by
          constructor
          · exact of_not_not hSeq
          · rw [← hCur]
            exact of_not_not hHash
        have hNext : (chainStep H cur ((storedRecord file seq).take AUDIT_WIRE_LEN)).toList =
            digestBefore H file (seq + 1) := by
          rw [of_not_not hHash, digestBefore, if_neg (Nat.succ_ne_zero seq), Nat.add_sub_cancel]
        have hFrom : ∀ b, (∀ i, seq + 1 ≤ i → i < b → Continues H file i) →
            ∀ i, seq ≤ i → i < b → Continues H file i := by
          intro b h i hLow hHigh
          by_cases hi : i = seq
          · rwa [hi]
          · exact h i (by omega) hHigh
        have hRest := ih hLen' (by omega) hNext
        revert hRest
        generalize verifyFrom H file _ (seq + 1) n = r
        rintro (⟨b, hLow, hHigh, hBefore, hBreaks⟩ | ⟨d, hAll, hDigest⟩)
        · exact .broken b (by omega) (by omega) (hFrom b hBefore) hBreaks
        · refine .whole d ?_ ?_
          · rw [Nat.add_right_comm, Nat.add_assoc] at hAll
            exact hFrom _ hAll
          · rw [hDigest, Nat.add_right_comm, Nat.add_assoc]

end Loop

section Verification

variable {H : Hash} {file : Bytes}

theorem ioPread_header (h : AUDIT_HDR_LEN ≤ file.length) :
    ioPread file AUDIT_HDR_LEN 0 = some (file.take AUDIT_HDR_LEN) := by
  rw [ioPread, Nat.zero_add, if_pos h, List.drop_zero]

theorem SizeFits.long (h : SizeFits file) : AUDIT_HDR_LEN ≤ file.length := by
  rw [h.length]
  exact Nat.le_add_right _ _

/-- A file whose size fits is judged by its records and its head alone. -/
theorem auditVerifyFile_of_fits (h : SizeFits file) : auditVerifyFile H file =
    match verifyFrom H file (genesisHash H) 0 (fileCount file) with
    | .error bad => .error bad
    | .ok cur => if cur.toList ≠ (fileHead file).toList then .error (fileCount file) else .ok () := by
  have hFits : ¬ (AUDIT_MAX_COUNT < hdrCount (file.take AUDIT_HDR_LEN) ∨
      file.length ≠ AUDIT_HDR_LEN + AUDIT_REC_LEN * hdrCount (file.take AUDIT_HDR_LEN)) := by
    rintro (hMax | hLen)
    · exact Nat.not_lt.mpr h.count_le hMax
    · exact hLen h.length
  simp only [auditVerifyFile, ioPread_header h.long, h.header, Bool.not_true, Bool.false_eq_true,
    if_false, if_neg hFits]
  rfl

theorem verifyFrom_fits (h : SizeFits file) :
    LoopCase H file 0 (fileCount file) (verifyFrom H file (genesisHash H) 0 (fileCount file)) := by
  refine verifyFrom_cases ?_ ?_ rfl
  · rw [Nat.zero_add]
    exact h.length
  · rw [Nat.zero_add]
    exact h.count_le

/-- A verification accepts, or it reports the first break. -/
theorem auditVerifyFile_cases (h : SizeFits file) :
    (auditVerifyFile H file = .ok () ∧ WholeChain H file) ∨
      ∃ b, auditVerifyFile H file = .error b ∧ FirstBreak H file b := by
  have hCase := verifyFrom_fits (H := H) h
  rw [auditVerifyFile_of_fits h]
  revert hCase
  generalize verifyFrom H file (genesisHash H) 0 (fileCount file) = r
  rintro (⟨b, -, hHigh, hBefore, hBreaks⟩ | ⟨d, hAll, hDigest⟩)
  · rw [Nat.zero_add] at hHigh
    exact .inr ⟨b, rfl, fun i hi => hBefore i (Nat.zero_le i) hi, .inl ⟨hHigh, hBreaks⟩⟩
  · rw [Nat.zero_add] at hAll hDigest
    have hChain : ∀ i < fileCount file, Continues H file i := fun i hi => hAll i (Nat.zero_le i) hi
    by_cases hHead : d.toList = (fileHead file).toList
    · exact .inl ⟨if_neg (not_not_intro hHead), hChain, hDigest.symm.trans hHead⟩
    · refine .inr ⟨fileCount file, if_pos hHead, hChain, .inr ⟨rfl, ?_⟩⟩
      rw [← hDigest]
      exact hHead

/-- There is one first break, and none in a whole chain. -/
theorem FirstBreak.unique {b b' : Nat} (h : FirstBreak H file b) (h' : FirstBreak H file b') : b = b' := by
  obtain ⟨hBefore, hAt⟩ := h
  obtain ⟨hBefore', hAt'⟩ := h'
  rcases Nat.lt_trichotomy b b' with hLt | hEq | hGt
  · rcases hAt with ⟨-, hBreaks⟩ | ⟨rfl, -⟩
    · exact (hBreaks (hBefore' b hLt)).elim
    · rcases hAt' with ⟨hLt', -⟩ | ⟨rfl, -⟩ <;> omega
  · exact hEq
  · rcases hAt' with ⟨-, hBreaks⟩ | ⟨rfl, -⟩
    · exact (hBreaks (hBefore b' hGt)).elim
    · rcases hAt with ⟨hLt', -⟩ | ⟨rfl, -⟩ <;> omega

theorem WholeChain.not_firstBreak {b : Nat} (h : WholeChain H file) : ¬ FirstBreak H file b := by
  rintro ⟨-, ⟨hLt, hBreaks⟩ | ⟨rfl, hHead⟩⟩
  · exact hBreaks (h.1 b hLt)
  · exact hHead h.2

end Verification

section Lengths

variable {H : Hash} {file : Bytes}

/-- A file cut short is reported at the first record that is not all there. -/
theorem auditVerifyFile_cut (h : SizeFits file) {t : Nat} (hLow : AUDIT_HDR_LEN ≤ t)
    (hHigh : t < file.length) :
    auditVerifyFile H (file.take t) = .error ((t - AUDIT_HDR_LEN) / AUDIT_REC_LEN) := by
  have hLen : (file.take t).length = t := List.length_take_of_le (Nat.le_of_lt hHigh)
  have hHeader : (file.take t).take AUDIT_HDR_LEN = file.take AUDIT_HDR_LEN := by
    rw [List.take_take, Nat.min_eq_left hLow]
  have hShort : t ≠ AUDIT_HDR_LEN + AUDIT_REC_LEN * hdrCount (file.take AUDIT_HDR_LEN) := by
    rintro rfl
    exact Nat.lt_irrefl _ (hHigh.trans_eq h.length)
  have hFewer : (t - AUDIT_HDR_LEN) / AUDIT_REC_LEN < hdrCount (file.take AUDIT_HDR_LEN) := by
    have hFits := h.length
    simp only [fileCount] at hFits
    rw [Nat.div_lt_iff_lt_mul (by decide), Nat.mul_comm]
    omega
  simp only [auditVerifyFile, ioPread_header (hLow.trans_eq hLen.symm), hHeader, h.header, Bool.not_true,
    Bool.false_eq_true, if_false, hLen, if_pos (Or.inr hShort), if_pos hFewer]

/-- A file that has grown behind its last record is reported there. -/
theorem auditVerifyFile_grown (h : SizeFits file) {extra : Bytes} (hExtra : extra ≠ []) :
    auditVerifyFile H (file ++ extra) = .error (fileCount file) := by
  have hLen : (file ++ extra).length = AUDIT_HDR_LEN + AUDIT_REC_LEN * fileCount file + extra.length := by
    rw [List.length_append, h.length]
  have hPos : 0 < extra.length := List.length_pos_iff.mpr hExtra
  have hHeader : (file ++ extra).take AUDIT_HDR_LEN = file.take AUDIT_HDR_LEN :=
    List.take_append_of_le_length h.long
  have hMore : ¬ ((file ++ extra).length - AUDIT_HDR_LEN) / AUDIT_REC_LEN <
      hdrCount (file.take AUDIT_HDR_LEN) := by
    rw [hLen, Nat.add_assoc, Nat.add_sub_cancel_left, Nat.not_lt, Nat.le_div_iff_mul_le (by decide),
      Nat.mul_comm]
    exact Nat.le_add_right _ _
  have hOther : (file ++ extra).length ≠
      AUDIT_HDR_LEN + AUDIT_REC_LEN * hdrCount (file.take AUDIT_HDR_LEN) := by
    rw [hLen, fileCount]
    omega
  have hLong : AUDIT_HDR_LEN ≤ (file ++ extra).length := by
    rw [hLen]
    omega
  simp only [auditVerifyFile, ioPread_header hLong, hHeader, h.header, Bool.not_true, Bool.false_eq_true,
    if_false, if_pos (Or.inr hOther), if_neg hMore]
  rfl

end Lengths

/-- A verification reports the first break: it accepts exactly the whole chains, otherwise it names the
least record that does not continue the chain, or the count when only the head differs. A file cut
short, by records or in the middle of one, and a file with bytes behind its last record are reported
where they stop being the log. -/
theorem verification_reports_first_break (H : Hash) {file : Bytes} (hFits : SizeFits file) :
    (auditVerifyFile H file = .ok () ↔ WholeChain H file) ∧
    (∀ b, auditVerifyFile H file = .error b ↔ FirstBreak H file b) ∧
    (WholeChain H file →
      (∀ t, AUDIT_HDR_LEN ≤ t → t < file.length →
        auditVerifyFile H (file.take t) = .error ((t - AUDIT_HDR_LEN) / AUDIT_REC_LEN)) ∧
      (∀ k, 0 < k → k ≤ fileCount file → auditVerifyFile H
        (file.take (AUDIT_HDR_LEN + AUDIT_REC_LEN * (fileCount file - k))) = .error (fileCount file - k)) ∧
      ∀ extra, extra ≠ [] → auditVerifyFile H (file ++ extra) = .error (fileCount file)) := by
  refine ⟨?_, ?_, fun _ => ⟨?_, ?_, ?_⟩⟩
  · rcases auditVerifyFile_cases (H := H) hFits with ⟨hOk, hWhole⟩ | ⟨b, hError, hBreak⟩
    · exact iff_of_true hOk hWhole
    · rw [hError]
      exact iff_of_false (by simp) fun h => h.not_firstBreak hBreak
  · intro b
    rcases auditVerifyFile_cases (H := H) hFits with ⟨hOk, hWhole⟩ | ⟨b', hError, hBreak⟩
    · rw [hOk]
      exact iff_of_false (by simp) hWhole.not_firstBreak
    · rw [hError]
      constructor
      · rintro ⟨⟩
        exact hBreak
      · intro h
        rw [h.unique hBreak]
  · exact fun t hLow hHigh => auditVerifyFile_cut hFits hLow hHigh
  · intro k hPos hLe
    have hLess : AUDIT_REC_LEN * (fileCount file - k) < AUDIT_REC_LEN * fileCount file :=
      Nat.mul_lt_mul_of_pos_left (by omega) (by decide)
    have hCut := auditVerifyFile_cut (H := H) hFits (t := AUDIT_HDR_LEN + AUDIT_REC_LEN * (fileCount file - k))
      (Nat.le_add_right _ _) (by rw [hFits.length]; omega)
    rwa [Nat.add_sub_cancel_left, Nat.mul_div_cancel_left _ (by decide)] at hCut
  · exact fun extra hExtra => auditVerifyFile_grown hFits hExtra

theorem sizeFits_one {H : Hash} {head prev : Digest} {wire : Bytes} (hWire : wire.length = AUDIT_WIRE_LEN) :
    SizeFits (hdrEncode 1 head ++ auditRec H prev wire) ∧
      fileCount (hdrEncode 1 head ++ auditRec H prev wire) = 1 := by
  have hHeader : (hdrEncode 1 head ++ auditRec H prev wire).take AUDIT_HDR_LEN = hdrEncode 1 head :=
    List.take_left' length_hdrEncode
  have hCount : fileCount (hdrEncode 1 head ++ auditRec H prev wire) = 1 := by
    rw [fileCount, hHeader, hdrCount_hdrEncode (by decide)]
  have hLen : (hdrEncode 1 head ++ auditRec H prev wire).length = AUDIT_HDR_LEN + AUDIT_REC_LEN := by
    rw [List.length_append, length_hdrEncode, length_auditRec hWire]
  refine ⟨⟨?_, ?_, ?_⟩, hCount⟩
  · rw [hHeader]
    exact hdrOk_of_take take_hdrEncode
  · rw [hLen, hCount, Nat.mul_one]
  · rw [hLen]
    decide

/-- A log of one record without that record. -/
theorem cut_record_reported : WholeChain constHash (oneRecord 1) ∧
    auditVerifyFile constHash
      ((oneRecord 1).take (AUDIT_HDR_LEN + AUDIT_REC_LEN * (fileCount (oneRecord 1) - 1))) =
        .error (fileCount (oneRecord 1) - 1) := by
  obtain ⟨hFits, hCount⟩ : SizeFits (oneRecord 1) ∧ fileCount (oneRecord 1) = 1 :=
    sizeFits_one length_wireEncode
  obtain ⟨hOk, -, hCut⟩ := verification_reports_first_break constHash hFits
  have hWhole : WholeChain constHash (oneRecord 1) := hOk.mp (by decide +kernel)
  exact ⟨hWhole, (hCut hWhole).2.1 1 (by decide) hCount.ge⟩

end PqcHsm
