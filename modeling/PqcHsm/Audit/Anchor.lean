import PqcHsm.Audit.Appends

/-!
# Signed anchors of an audit log

An anchor signs the number of records and the digest of a log. A log that an anchor vouches for
starts with the records the log had when the anchor was made, if the log was intact then.
-/

namespace PqcHsm

open ByteCodec HashChain

def HSM_ANCHOR_VERSION : UInt32 := 1
def HSM_ANCHOR_SIGNED_LEN : Nat := 64
def OFF_ALG : Nat := 12
def OFF_COUNT : Nat := 16
def OFF_HEAD : Nat := 24
def OFF_TS : Nat := 56

/-- `PQCHSMAN`. -/
def AN_MAGIC : Bytes := [0x50, 0x51, 0x43, 0x48, 0x53, 0x4d, 0x41, 0x4e]

/-- The fields of an anchor; the two lengths are those of the byte strings. -/
structure Anchor where
  alg : UInt32
  count : UInt64
  head : Digest
  timestamp : UInt64
  pk : Bytes
  sig : Bytes
  deriving DecidableEq

/-- The bytes that are signed. -/
def signedPrefix (alg : UInt32) (count : UInt64) (head : Digest) (timestamp : UInt64) : Bytes :=
  AN_MAGIC ++ (putU32 HSM_ANCHOR_VERSION ++ (putU32 alg ++ (putU64 count ++ (head.toList ++
    putU64 timestamp))))

/-- The text of an anchor, as it is written. -/
def Anchor.encode (a : Anchor) : Bytes :=
  signedPrefix a.alg a.count a.head a.timestamp ++ (putU32 (UInt32.ofNat a.pk.length) ++ (a.pk ++
    (putU32 (UInt32.ofNat a.sig.length) ++ a.sig)))

def parseAnchor (buf : Bytes) : Option Anchor :=
  if buf.length < HSM_ANCHOR_SIGNED_LEN + 8 then none
  else if buf.take 8 ≠ AN_MAGIC then none
  else if (getU32 (buf.drop 8)).1 ≠ HSM_ANCHOR_VERSION then none
  else
    let plen := (getU32 (buf.drop HSM_ANCHOR_SIGNED_LEN)).1.toNat
    let off := HSM_ANCHOR_SIGNED_LEN + 4
    if buf.length - off < plen then none
    else if buf.length - (off + plen) < 4 then none
    else
      let slen := (getU32 (buf.drop (off + plen))).1.toNat
      if slen ≠ buf.length - (off + plen + 4) then none
      else some
        { alg := (getU32 (buf.drop OFF_ALG)).1
          count := (getU64 (buf.drop OFF_COUNT)).1
          head := takeVec AUDIT_HASH_LEN (buf.drop OFF_HEAD)
          timestamp := (getU64 (buf.drop OFF_TS)).1
          pk := (buf.drop off).take plen
          sig := (buf.drop (off + plen + 4)).take slen }

section Parser

variable {a : Anchor} {buf : Bytes}

theorem length_signedPrefix (alg : UInt32) (count : UInt64) (head : Digest) (timestamp : UInt64) :
    (signedPrefix alg count head timestamp).length = HSM_ANCHOR_SIGNED_LEN := by
  simp only [signedPrefix, List.length_append, length_putU32, length_putU64,
    List.Vector.toList_length]
  rfl

/-- The fields of a text one after the other. -/
theorem Anchor.encode_eq (a : Anchor) : a.encode =
    AN_MAGIC ++ (putU32 HSM_ANCHOR_VERSION ++ (putU32 a.alg ++ (putU64 a.count ++ (a.head.toList ++
      (putU64 a.timestamp ++ (putU32 (UInt32.ofNat a.pk.length) ++ (a.pk ++
        (putU32 (UInt32.ofNat a.sig.length) ++ a.sig)))))))) := by
  simp only [Anchor.encode, signedPrefix, List.append_assoc]

/-- A written text reads back. -/
theorem parseAnchor_encode (hPk : a.pk.length < 2 ^ 32) (hSig : a.sig.length < 2 ^ 32) :
    parseAnchor a.encode = some a := by
  have hPkLen : (UInt32.ofNat a.pk.length).toNat = a.pk.length := UInt32.toNat_ofNat_of_lt' hPk
  have hSigLen : (UInt32.ofNat a.sig.length).toNat = a.sig.length := UInt32.toNat_ofNat_of_lt' hSig
  have hLen : a.encode.length = 72 + a.pk.length + a.sig.length := by
    simp only [Anchor.encode, List.length_append, length_signedPrefix, length_putU32,
      HSM_ANCHOR_SIGNED_LEN]
    omega
  have hPkField : a.encode.drop HSM_ANCHOR_SIGNED_LEN = putU32 (UInt32.ofNat a.pk.length) ++
      (a.pk ++ (putU32 (UInt32.ofNat a.sig.length) ++ a.sig)) :=
    List.drop_left' (length_signedPrefix ..)
  have hPkBytes : a.encode.drop (HSM_ANCHOR_SIGNED_LEN + 4) =
      a.pk ++ (putU32 (UInt32.ofNat a.sig.length) ++ a.sig) := by
    rw [← List.drop_drop, hPkField, List.drop_left' (length_putU32 _)]
  have hSigField : a.encode.drop (HSM_ANCHOR_SIGNED_LEN + 4 + a.pk.length) =
      putU32 (UInt32.ofNat a.sig.length) ++ a.sig := by
    rw [← List.drop_drop, hPkBytes, List.drop_left' rfl]
  have hSigBytes : a.encode.drop (HSM_ANCHOR_SIGNED_LEN + 4 + a.pk.length + 4) = a.sig := by
    rw [← List.drop_drop, hSigField, List.drop_left' (length_putU32 _)]
  have hAlg : (getU32 (a.encode.drop OFF_ALG)).1 = a.alg := by
    rw [a.encode_eq]
    exact congrArg Prod.fst (getU32_putU32 ..)
  have hCount : (getU64 (a.encode.drop OFF_COUNT)).1 = a.count := by
    rw [a.encode_eq]
    exact congrArg Prod.fst (getU64_putU64 ..)
  have hHead : takeVec AUDIT_HASH_LEN (a.encode.drop OFF_HEAD) = a.head := by
    rw [a.encode_eq]
    exact takeVec_append ..
  have hTs : (getU64 (a.encode.drop OFF_TS)).1 = a.timestamp := by
    have hDrop : a.encode.drop OFF_TS = putU64 a.timestamp ++ (putU32 (UInt32.ofNat a.pk.length) ++
        (a.pk ++ (putU32 (UInt32.ofNat a.sig.length) ++ a.sig))) := by
      have hSkip : a.encode.drop OFF_HEAD = a.head.toList ++ (putU64 a.timestamp ++
          (putU32 (UInt32.ofNat a.pk.length) ++ (a.pk ++
            (putU32 (UInt32.ofNat a.sig.length) ++ a.sig)))) := by
        rw [a.encode_eq]
        rfl
      rw [show OFF_TS = OFF_HEAD + AUDIT_HASH_LEN from rfl, ← List.drop_drop, hSkip,
        List.drop_left' a.head.toList_length]
    rw [hDrop, getU64_putU64]
  have hVersion : (getU32 (a.encode.drop 8)).1 = HSM_ANCHOR_VERSION := by
    rw [a.encode_eq]
    exact congrArg Prod.fst (getU32_putU32 ..)
  have hMagic : a.encode.take 8 = AN_MAGIC := by
    rw [a.encode_eq]
    rfl
  unfold parseAnchor
  dsimp only
  rw [hPkField, getU32_putU32, hPkLen, hMagic, hVersion, hAlg, hCount, hHead, hTs, hPkBytes,
    hSigField, getU32_putU32, hSigLen, hSigBytes, hLen, HSM_ANCHOR_SIGNED_LEN, if_neg (by omega),
    if_neg (not_not_intro rfl), if_neg (not_not_intro rfl), if_neg (by omega), if_neg (by omega),
    if_neg (by omega), List.take_left' rfl, List.take_length]

/-- An accepted text is the one its fields are written as. -/
theorem eq_encode_of_parse (h : parseAnchor buf = some a) :
    a.pk.length < 2 ^ 32 ∧ a.sig.length < 2 ^ 32 ∧ buf = a.encode := by
  unfold parseAnchor at h
  split at h
  · cases h
  rename_i hShort
  have hShort : 72 ≤ buf.length := Nat.le_of_not_lt hShort
  split at h
  · cases h
  rename_i hMagic
  split at h
  · cases h
  rename_i hVersion
  dsimp only at h
  split at h
  · cases h
  rename_i hPkFits
  split at h
  · cases h
  rename_i hSigField
  split at h
  · cases h
  rename_i hSigFits
  cases h
  generalize hPl : (getU32 (buf.drop HSM_ANCHOR_SIGNED_LEN)).1 = pl at *
  generalize hOff : HSM_ANCHOR_SIGNED_LEN + 4 + pl.toNat = off at *
  generalize hSl : (getU32 (buf.drop off)).1 = sl at *
  have hOff' : off = 68 + pl.toNat := hOff.symm
  have hPkFits : ¬ buf.length - 68 < pl.toNat := hPkFits
  have hPkLen : ((buf.drop 68).take pl.toNat).length = pl.toNat := by
    rw [List.length_take_of_le]
    rw [List.length_drop]
    omega
  have hSigLen : ((buf.drop (off + 4)).take sl.toNat).length = sl.toNat := by
    rw [List.length_take_of_le]
    rw [List.length_drop]
    omega
  have hVersionBytes : putU32 HSM_ANCHOR_VERSION ++ buf.drop OFF_ALG = buf.drop 8 :=
    of_not_not hVersion ▸ putU32_drop (Nat.le_trans (by decide) hShort)
  have hAlgBytes : putU32 (getU32 (buf.drop OFF_ALG)).1 ++ buf.drop OFF_COUNT = buf.drop OFF_ALG :=
    putU32_drop (Nat.le_trans (by decide) hShort)
  have hCountBytes : putU64 (getU64 (buf.drop OFF_COUNT)).1 ++ buf.drop OFF_HEAD =
      buf.drop OFF_COUNT :=
    putU64_drop (Nat.le_trans (by decide) hShort)
  have hHeadBytes : (takeVec AUDIT_HASH_LEN (buf.drop OFF_HEAD)).toList ++ buf.drop OFF_TS =
      buf.drop OFF_HEAD :=
    takeVec_drop (Nat.le_trans (by decide) hShort)
  have hTsBytes : putU64 (getU64 (buf.drop OFF_TS)).1 ++ buf.drop HSM_ANCHOR_SIGNED_LEN =
      buf.drop OFF_TS :=
    putU64_drop (Nat.le_trans (by decide) hShort)
  have hPlBytes : putU32 pl ++ buf.drop 68 = buf.drop HSM_ANCHOR_SIGNED_LEN :=
    hPl ▸ putU32_drop (Nat.le_trans (by decide) hShort)
  have hPkBytes : (buf.drop 68).take pl.toNat ++ buf.drop off = buf.drop 68 := by
    rw [hOff', ← List.drop_drop, List.take_append_drop]
  have hSlBytes : putU32 sl ++ buf.drop (off + 4) = buf.drop off := hSl ▸ putU32_drop (by omega)
  have hSigBytes : (buf.drop (off + 4)).take sl.toNat = buf.drop (off + 4) := by
    rw [List.take_of_length_le]
    rw [List.length_drop]
    omega
  refine ⟨hPkLen.trans_lt pl.toNat_lt, hSigLen.trans_lt sl.toNat_lt, ?_⟩
  rw [Anchor.encode_eq]
  change buf = AN_MAGIC ++ (putU32 HSM_ANCHOR_VERSION ++ (putU32 (getU32 (buf.drop OFF_ALG)).1 ++
    (putU64 (getU64 (buf.drop OFF_COUNT)).1 ++
      ((takeVec AUDIT_HASH_LEN (buf.drop OFF_HEAD)).toList ++
        (putU64 (getU64 (buf.drop OFF_TS)).1 ++
          (putU32 (UInt32.ofNat ((buf.drop 68).take pl.toNat).length) ++
            ((buf.drop 68).take pl.toNat ++
              (putU32 (UInt32.ofNat ((buf.drop (off + 4)).take sl.toNat).length) ++
                (buf.drop (off + 4)).take sl.toNat))))))))
  rw [hPkLen, hSigLen, UInt32.ofNat_toNat, UInt32.ofNat_toNat, hSigBytes, hSlBytes, hPkBytes,
    hPlBytes, hTsBytes, hHeadBytes, hCountBytes, hAlgBytes, hVersionBytes, ← of_not_not hMagic,
    List.take_append_drop]

/-- The parser accepts the texts of anchors and no others. -/
theorem parseAnchor_eq_some_iff : parseAnchor buf = some a ↔
    a.pk.length < 2 ^ 32 ∧ a.sig.length < 2 ^ 32 ∧ buf = a.encode := by
  constructor
  · exact eq_encode_of_parse
  · rintro ⟨hPk, hSig, rfl⟩
    exact parseAnchor_encode hPk hSig

end Parser

/-- What making an anchor obtains from the token and the file system. -/
structure AnchorEnv where
  getMeta : Except HsmStatus PqcAlg
  allocOk : Bool
  publicKey : Except HsmStatus Bytes
  sign : Bytes → Except HsmStatus Bytes
  openOk : Bool
  writeOk : Bool

/-- `hsm_audit_anchor_create`: the text it writes. -/
def hsmAuditAnchorCreate (e : AnchorEnv) (log : AuditLog) (timestamp : UInt64) :
    Except HsmStatus Bytes := do
  let alg ← e.getMeta
  match pqcAlgInfo alg with
  | none => .error .errBadArg
  | some info =>
    if info.kind ≠ .sig then .error .errBadArg
    else if !e.allocOk then .error .errNomem
    else
      let signed := signedPrefix alg.toCode (UInt64.ofNat log.count) log.head timestamp
      let pk ← e.publicKey
      let sig ← e.sign signed
      if !e.openOk then .error .errBadArg
      else if !e.writeOk then .error .errCrypto
      else .ok (Anchor.encode ⟨alg.toCode, UInt64.ofNat log.count, log.head, timestamp, pk, sig⟩)

/-- Signature verification: the algorithm, public key, message and signature. -/
abbrev SigVerify := PqcAlg → Bytes → Bytes → Bytes → Bool

/-- `hsm_audit_anchor_verify` of the two files. -/
def hsmAuditAnchorVerify (H : Hash) (verify : SigVerify) (log text expectPk : Bytes) :
    Except HsmStatus UInt64 :=
  if expectPk = [] then .error .errBadArg
  else if text = [] then .error .errBadArg
  else match parseAnchor text with
  | none => .error .errIntegrity
  | some a =>
    match PqcAlg.ofCode a.alg with
    | none => .error .errIntegrity
    | some alg =>
      match pqcAlgInfo alg with
      | none => .error .errIntegrity
      | some info =>
        if info.kind ≠ .sig ∨ a.pk.length ≠ info.pkLen then .error .errIntegrity
        else if a.pk.length ≠ expectPk.length ∨ a.pk ≠ expectPk then .error .errIntegrity
        else if !verify alg expectPk (text.take HSM_ANCHOR_SIGNED_LEN) a.sig then
          .error .errIntegrity
        else match auditVerifyFile H log with
        | .error _ => .error .errIntegrity
        | .ok () =>
          match auditHashAt H log a.count.toNat with
          | none => .error .errIntegrity
          | some got => if got ≠ a.head then .error .errIntegrity else .ok a.count

/-- An anchor was made of the log. -/
structure AnchorMade where
  alg : PqcAlg
  log : AuditLog
  timestamp : UInt64

def AnchorMade.signed (m : AnchorMade) : Bytes :=
  signedPrefix m.alg.toCode (UInt64.ofNat m.log.count) m.log.head m.timestamp

/-- The log in memory is the chain of the records in its file. -/
def IntactLog (H : Hash) (log : AuditLog) : Prop :=
  ∃ ws, RecordsIn H log.file ws ∧ log.count = ws.length ∧ log.head = chainHead H ws ∧
    log.count ≤ AUDIT_MAX_COUNT

/-- The logs of a run are intact. -/
theorem AuditInv.intact {H : Hash} {s : AuditRun} (h : AuditInv H s) : IntactLog H s.log :=
  ⟨wiresOf s.appended, h.recordsIn, by rw [length_wiresOf, h.count], h.head, h.fits⟩

/-- A log that passes verification is intact when it is opened. -/
theorem intact_of_verified {H : Hash} {file : Bytes} {log : AuditLog}
    (hVerify : auditVerifyFile H file = .ok ()) (hOpen : auditOpen H (some file) = some log) :
    IntactLog H log := by
  obtain ⟨ws, hText⟩ := auditVerifyFile_eq_ok_iff.mp hVerify
  unfold auditOpen at hOpen
  dsimp only at hOpen
  split at hOpen
  · cases hOpen
  split at hOpen
  · cases hOpen
  split at hOpen
  · cases hOpen
  cases hOpen
  refine ⟨ws, hText.recordsIn, hText.count, hText.head, ?_⟩
  rw [hText.count]
  exact hText.fits

section Verification

variable {H : Hash} {verify : SigVerify} {log text pk : Bytes} {count : UInt64}

theorem signedPrefix_inj {alg alg' : UInt32} {c c' : UInt64} {head head' : Digest} {t t' : UInt64}
    (h : signedPrefix alg c head t = signedPrefix alg' c' head' t') :
    alg = alg' ∧ c = c' ∧ head = head' ∧ t = t' := by
  have h := List.append_cancel_left (List.append_cancel_left h)
  obtain ⟨hAlg, h⟩ := List.append_inj h ((length_putU32 _).trans (length_putU32 _).symm)
  obtain ⟨hCount, h⟩ := List.append_inj h ((length_putU64 _).trans (length_putU64 _).symm)
  obtain ⟨hHead, hTs⟩ := List.append_inj h (by simp only [List.Vector.toList_length])
  exact ⟨putU32_inj hAlg, putU64_inj hCount, List.Vector.toList_injective hHead, putU64_inj hTs⟩

/-- What an accepted anchor shows. -/
structure AnchorAccepted (H : Hash) (verify : SigVerify) (log text pk : Bytes) (count : UInt64)
    (a : Anchor) (alg : PqcAlg) : Prop where
  parsed : parseAnchor text = some a
  count_eq : a.count = count
  signed : verify alg pk (text.take HSM_ANCHOR_SIGNED_LEN) a.sig = true
  verified : auditVerifyFile H log = .ok ()
  head : auditHashAt H log count.toNat = some a.head

theorem anchorAccepted_of_verify (h : hsmAuditAnchorVerify H verify log text pk = .ok count) :
    ∃ a alg, AnchorAccepted H verify log text pk count a alg := by
  unfold hsmAuditAnchorVerify at h
  split at h
  · cases h
  split at h
  · cases h
  split at h
  · cases h
  rename_i a hParse
  split at h
  · cases h
  rename_i alg _
  split at h
  · cases h
  split at h
  · cases h
  split at h
  · cases h
  split at h
  · cases h
  rename_i hSig
  split at h
  · cases h
  rename_i hVerify
  split at h
  · cases h
  rename_i got hHash
  split at h
  · cases h
  rename_i hHead
  cases h
  rw [of_not_not hHead] at hHash
  exact ⟨a, alg, hParse, rfl, by simpa using hSig, hVerify, hHash⟩

/-- The digest at a count is that of the chain of so many records. -/
theorem AuditText.hashAt {ws : List Bytes} {n : Nat} {d : Digest} (h : AuditText H log ws)
    (hHash : auditHashAt H log n = some d) : n ≤ ws.length ∧ d = chainHead H (ws.take n) := by
  have hLen : (log.length - AUDIT_HDR_LEN) / AUDIT_REC_LEN = ws.length := by
    rw [← List.length_drop, h.body, length_recordsOf h.numbered]
    exact Nat.mul_div_cancel_left _ (by decide)
  unfold auditHashAt at hHash
  split at hHash
  · cases hHash
  split at hHash
  · cases hHash
  split at hHash
  · cases hHash
  rename_i hEnough
  rw [hLen] at hEnough
  refine ⟨Nat.le_of_not_lt hEnough, ?_⟩
  split at hHash
  · rename_i hZero
    cases hHash
    rw [hZero, List.take_zero]
    rfl
  rename_i hPos
  cases n with
  | zero => exact absurd rfl hPos
  | succ i =>
    have hi : i < ws.length := Nat.lt_of_succ_le (Nat.le_of_not_lt hEnough)
    obtain ⟨rest, hRest⟩ := h.recordsIn.drop_record hi
    have hWire := (h.numbered.wire hi).1
    have hRead := ioPread_of_drop (length_auditRec hWire) (by decide) hRest
    rw [Nat.add_sub_cancel, auditOff_eq (Nat.lt_of_lt_of_le hi h.fits) (by decide), Nat.add_zero,
      hRead] at hHash
    have hVec : takeVec AUDIT_HASH_LEN (chainStep H (chainHead H (ws.take i)) ws[i]).toList =
        chainStep H (chainHead H (ws.take i)) ws[i] := by
      nth_rewrite 1 [← List.append_nil (List.Vector.toList _)]
      exact takeVec_append ..
    rw [Option.map_some, drop_auditRec hWire, hVec] at hHash
    rw [← Option.some.inj hHash, List.take_succ_eq_append_getElem hi, chainHead, chainHead,
      digest_concat]

theorem take_encode (a : Anchor) : a.encode.take HSM_ANCHOR_SIGNED_LEN =
    signedPrefix a.alg a.count a.head a.timestamp :=
  List.take_left' (length_signedPrefix ..)

end Verification

section Runs

/-- A hash that shows the start of a wire. -/
def showHash : Hash := fun msg => takeVec 32 (msg.drop 32)

/-- A log of one record, as its append left it. -/
def firstLog : AuditLog :=
  (auditRun showHash [(⟨1, 7, 2, 0, 0, none⟩, ⟨true, 96, true, 64, true⟩)]).log

/-- The file of the log with the time of its record changed, as it is opened. -/
def changedLog : AuditLog := ⟨firstLog.file.set 72 5, 1, firstLog.head⟩

def anchorPk : Bytes := List.replicate 1312 3

def anchorEnv : AnchorEnv where
  getMeta := .ok .mlDsa44
  allocOk := true
  publicKey := .ok anchorPk
  sign _ := .ok [1]
  openOk := true
  writeOk := true

/-- The anchor that is made of a log. -/
def anchorText (log : AuditLog) : Bytes :=
  Anchor.encode ⟨4, UInt64.ofNat log.count, log.head, 9, anchorPk, [1]⟩

/-- Only what was signed for the anchor of the log verifies. -/
def onlySigned (log : AuditLog) : SigVerify := fun _ _ msg _ =>
  msg == (AnchorMade.mk .mlDsa44 log 9).signed

theorem onlySigned_made (log : AuditLog) (alg : PqcAlg) (msg sig : Bytes)
    (h : onlySigned log alg anchorPk msg sig = true) :
    ∃ m ∈ ({AnchorMade.mk .mlDsa44 log 9} : Set AnchorMade), msg = m.signed :=
  ⟨_, rfl, eq_of_beq h⟩

end Runs

end PqcHsm
