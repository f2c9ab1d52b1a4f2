import PqcHsm.Library.ByteCodec
import PqcHsm.Library.HashChain
import PqcHsm.Slot.Types

/-!
# The audit log file

A header with the number of records and the last digest, then records of fixed length, each with
the digest of the chain up to it.
-/

namespace PqcHsm

open ByteCodec HashChain

def AUDIT_HASH_LEN : Nat := 32
def AUDIT_DETAIL_LEN : Nat := 32
def AUDIT_VERSION : UInt32 := 1
def AUDIT_HDR_LEN : Nat := 64
def AUDIT_WIRE_LEN : Nat := 64
def AUDIT_REC_LEN : Nat := AUDIT_WIRE_LEN + AUDIT_HASH_LEN
def HDR_OFF_VERSION : Nat := 8
def HDR_OFF_COUNT : Nat := 16
def HDR_OFF_HEAD : Nat := 24

/-- `PQCHSMAL`. -/
def AUDIT_MAGIC : Bytes := [0x50, 0x51, 0x43, 0x48, 0x53, 0x4d, 0x41, 0x4c]

/-- `pqc-hsm/audit/genesis`. -/
def AUDIT_GENESIS_STR : Bytes :=
  [0x70, 0x71, 0x63, 0x2d, 0x68, 0x73, 0x6d, 0x2f, 0x61, 0x75, 0x64, 0x69, 0x74, 0x2f, 0x67, 0x65,
    0x6e, 0x65, 0x73, 0x69, 0x73]

/-- The operations an entry may name. -/
def AUDIT_OP_INIT_TOKEN : UInt32 := 1
def AUDIT_OP_SET_USER_PIN : UInt32 := 17

/-- The most records whose length fits 64 bits. -/
def AUDIT_MAX_COUNT : Nat := (2 ^ 64 - 1 - AUDIT_HDR_LEN) / AUDIT_REC_LEN

abbrev Digest := ByteVec AUDIT_HASH_LEN

/-- SHA3-256. -/
abbrev Hash := Bytes → Digest

def genesisHash (H : Hash) : Digest := H AUDIT_GENESIS_STR

def chainStep (H : Hash) (prev : Digest) (wire : Bytes) : Digest := H (prev.toList ++ wire)

/-- The digest after the wires of all records. -/
abbrev chainHead (H : Hash) (wires : List Bytes) : Digest := digest (chainStep H) (genesisHash H) wires

/-- The bytes of a header that are the same in all of them. -/
def hdrPrefix : Bytes := AUDIT_MAGIC ++ putU32 AUDIT_VERSION ++ [0, 0, 0, 0]

def hdrEncode (count : Nat) (head : Digest) : Bytes :=
  hdrPrefix ++ (toLe 8 count ++ (head.toList ++ [0, 0, 0, 0, 0, 0, 0, 0]))

def hdrOk (hdr : Bytes) : Bool :=
  hdr.take 8 == AUDIT_MAGIC && (getU32 (hdr.drop HDR_OFF_VERSION)).1 == AUDIT_VERSION

def hdrCount (hdr : Bytes) : Nat := (getU64 (hdr.drop HDR_OFF_COUNT)).1.toNat

def hdrHead (hdr : Bytes) : Digest := takeVec AUDIT_HASH_LEN (hdr.drop HDR_OFF_HEAD)

/-- What a caller asks to record; the detail is what the pointer shows, up to its NUL. -/
structure AuditFields where
  timestamp : UInt64
  op : UInt32
  role : UInt32
  slotId : UInt32
  result : UInt32
  detail : Option Bytes

/-- Control characters and bytes beyond ASCII become dots. -/
def sanitize (c : UInt8) : UInt8 := if 0x20 ≤ c ∧ c < 0x7f then c else 0x2e

/-- The text of a detail: its first 32 characters, padded with zeros. -/
def detailField : Option Bytes → ByteVec AUDIT_DETAIL_LEN
  | none => zeros AUDIT_DETAIL_LEN
  | some detail => takeVec AUDIT_DETAIL_LEN
      (((detail.takeWhile (· ≠ 0)).take AUDIT_DETAIL_LEN).map sanitize)

def wireEncode (seq : Nat) (f : AuditFields) : Bytes :=
  toLe 8 seq ++ (putU64 f.timestamp ++ (putU32 f.op ++ (putU32 f.role ++ (putU32 f.slotId ++
    (putU32 f.result ++ (detailField f.detail).toList)))))

/-- An open log: the file behind it, and the number of records and digest in memory. -/
structure AuditLog where
  file : Bytes
  count : Nat
  head : Digest
  deriving DecidableEq

/-- A new log, as `create_genesis` leaves it. -/
def AuditLog.fresh (H : Hash) : AuditLog := ⟨hdrEncode 0 (genesisHash H), 0, genesisHash H⟩

/-- `audit_open` of the file behind a path; without one a new log is made. -/
def auditOpen (H : Hash) : Option Bytes → Option AuditLog
  | none => some (.fresh H)
  | some file =>
    let hdr := file.take AUDIT_HDR_LEN
    if file.length < AUDIT_HDR_LEN ∨ !hdrOk hdr then none
    else if AUDIT_MAX_COUNT < hdrCount hdr then none
    else if file.length ≠ AUDIT_HDR_LEN + AUDIT_REC_LEN * hdrCount hdr then none
    else some ⟨file, hdrCount hdr, hdrHead hdr⟩

/-- Where byte `k` of record `seq` is, in 64-bit arithmetic. -/
def auditOff (seq k : Nat) : Nat := (AUDIT_HDR_LEN + AUDIT_REC_LEN * seq + k) % 2 ^ 64

/-- `pread` in a loop: all bytes or a failure. -/
def ioPread (file : Bytes) (n off : Nat) : Option Bytes :=
  if off + n ≤ file.length then some ((file.drop off).take n) else none

/-- `pwrite` in a loop, which breaks off after `done` bytes. -/
def ioPwrite (file buf : Bytes) (off done : Nat) : Bytes :=
  match min done buf.length with
  | 0 => file
  | n => (file ++ List.replicate (off - file.length) 0).take off ++ buf.take n ++ file.drop (off + n)

/-- How far the steps of one append get. -/
structure AuditEnv where
  shaOk : Bool
  recDone : Nat
  recSynced : Bool
  hdrDone : Nat
  hdrSynced : Bool

/-- The record of an entry: its wire and the digest after it. -/
def auditRec (H : Hash) (prev : Digest) (wire : Bytes) : Bytes :=
  wire ++ (chainStep H prev wire).toList

/-- `audit_append`: the log after the call, and whether it succeeded. -/
def auditAppend (H : Hash) (e : AuditEnv) (log : AuditLog) (f : AuditFields) : AuditLog × Bool :=
  if f.op < AUDIT_OP_INIT_TOKEN ∨ AUDIT_OP_SET_USER_PIN < f.op then (log, false)
  else if AUDIT_MAX_COUNT ≤ log.count then (log, false)
  else if !e.shaOk then (log, false)
  else
    let wire := wireEncode log.count f
    let next := chainStep H log.head wire
    let file := ioPwrite log.file (auditRec H log.head wire) (auditOff log.count 0) e.recDone
    if e.recDone < AUDIT_REC_LEN ∨ !e.recSynced then (⟨file, log.count, log.head⟩, false)
    else
      let file := ioPwrite file (hdrEncode (log.count + 1) next) 0 e.hdrDone
      if e.hdrDone < AUDIT_HDR_LEN ∨ !e.hdrSynced then (⟨file, log.count, log.head⟩, false)
      else (⟨file, log.count + 1, next⟩, true)

/-- The loop of a verification from record `seq`, with `n` records to go: the last digest, or the
first bad record. -/
def verifyFrom (H : Hash) (file : Bytes) (cur : Digest) (seq : Nat) : Nat → Except Nat Digest
  | 0 => .ok cur
  | n + 1 =>
    match ioPread file AUDIT_REC_LEN (auditOff seq 0) with
    | none => .error seq
    | some rec =>
      if (getU64 rec).1.toNat ≠ seq then .error seq
      else
        let want := chainStep H cur (rec.take AUDIT_WIRE_LEN)
        if want.toList ≠ rec.drop AUDIT_WIRE_LEN then .error seq
        else verifyFrom H file want (seq + 1) n

/-- `audit_verify_file`; a failure gives `bad_seq`. -/
def auditVerifyFile (H : Hash) (file : Bytes) : Except Nat Unit :=
  match ioPread file AUDIT_HDR_LEN 0 with
  | none => .error 0
  | some hdr =>
    if !hdrOk hdr then .error 0
    else
      let count := hdrCount hdr
      let present := (file.length - AUDIT_HDR_LEN) / AUDIT_REC_LEN
      if AUDIT_MAX_COUNT < count ∨ file.length ≠ AUDIT_HDR_LEN + AUDIT_REC_LEN * count then
        .error (if present < count then present else count)
      else
        match verifyFrom H file (genesisHash H) 0 count with
        | .error bad => .error bad
        | .ok cur => if cur.toList ≠ (hdrHead hdr).toList then .error count else .ok ()

/-- `audit_hash_at`: the digest stored with the record before `count`. -/
def auditHashAt (H : Hash) (file : Bytes) (count : Nat) : Option Digest :=
  match ioPread file AUDIT_HDR_LEN 0 with
  | none => none
  | some hdr =>
    if !hdrOk hdr then none
    else if (file.length - AUDIT_HDR_LEN) / AUDIT_REC_LEN < count then none
    else if count = 0 then some (genesisHash H)
    else (ioPread file AUDIT_REC_LEN (auditOff (count - 1) 0)).map fun rec =>
      takeVec AUDIT_HASH_LEN (rec.drop AUDIT_WIRE_LEN)

/-- What a read returns of a record. -/
structure AuditEntry where
  timestamp : UInt64
  op : UInt32
  role : UInt32
  slotId : UInt32
  result : UInt32
  detail : ByteVec AUDIT_DETAIL_LEN
  deriving DecidableEq

def wireDecode (wire : Bytes) : AuditEntry where
  timestamp := (getU64 (wire.drop 8)).1
  op := (getU32 (wire.drop 16)).1
  role := (getU32 (wire.drop 20)).1
  slotId := (getU32 (wire.drop 24)).1
  result := (getU32 (wire.drop 28)).1
  detail := takeVec AUDIT_DETAIL_LEN (wire.drop 32)

/-- `audit_read`. -/
def auditRead (H : Hash) (file : Bytes) (seq : Nat) : Option AuditEntry :=
  match ioPread file AUDIT_HDR_LEN 0 with
  | none => none
  | some hdr =>
    if !hdrOk hdr then none
    else if hdrCount hdr ≤ seq then none
    else match ioPread file AUDIT_REC_LEN (auditOff seq 0) with
    | none => none
    | some rec =>
      if (getU64 rec).1.toNat ≠ seq then none
      else
        match (if seq = 0 then some (genesisHash H).toList
          else ioPread file AUDIT_HASH_LEN (auditOff (seq - 1) AUDIT_WIRE_LEN)) with
        | none => none
        | some prev =>
          if (H (prev ++ rec.take AUDIT_WIRE_LEN)).toList ≠ rec.drop AUDIT_WIRE_LEN then none
          else some (wireDecode (rec.take AUDIT_WIRE_LEN))

theorem auditOff_eq {seq k : Nat} (hSeq : seq < AUDIT_MAX_COUNT) (hk : k < AUDIT_REC_LEN) :
    auditOff seq k = AUDIT_HDR_LEN + AUDIT_REC_LEN * seq + k := by
  have hMax : AUDIT_HDR_LEN + AUDIT_REC_LEN * AUDIT_MAX_COUNT < 2 ^ 64 := by decide
  have hNext : AUDIT_REC_LEN * (seq + 1) ≤ AUDIT_REC_LEN * AUDIT_MAX_COUNT :=
    Nat.mul_le_mul_left _ hSeq
  rw [auditOff, Nat.mod_eq_of_lt]
  rw [Nat.mul_succ] at hNext
  omega

section Pieces

variable {a b c : Bytes}

theorem ioPread_middle : ioPread (a ++ (b ++ c)) b.length a.length = some b := by
  rw [ioPread, if_pos (by simp only [List.length_append]; omega), List.drop_left' rfl,
    List.take_left' rfl]

/-- A write at the start of `b` replaces as much of it as was written. -/
theorem ioPwrite_middle (buf : Bytes) (done : Nat) :
    ioPwrite (a ++ b) buf a.length done = a ++ (buf.take done ++ b.drop (min done buf.length)) := by
  unfold ioPwrite
  split
  · rename_i hNone
    rw [hNone, List.drop_zero]
    have hEmpty : buf.take done = [] := by
      rw [← List.length_eq_zero_iff, List.length_take, hNone]
    rw [hEmpty, List.nil_append]
  · rename_i hSome
    have hTake : buf.take (min done buf.length) = buf.take done := by
      rw [← List.take_take, List.take_length]
    have hPad : a.length - (a ++ b).length = 0 := by
      rw [List.length_append]
      omega
    rw [hTake, hPad, List.replicate_zero, List.append_nil, List.take_left' rfl, List.append_assoc,
      ← List.drop_drop, List.drop_left' rfl]

end Pieces

section Codec

variable {H : Hash} {seq count : Nat} {f : AuditFields} {head : Digest}

theorem length_wireEncode : (wireEncode seq f).length = AUDIT_WIRE_LEN := by
  simp only [wireEncode, List.length_append, length_toLe, length_putU64, length_putU32,
    List.Vector.toList_length]
  rfl

/-- What a read of the entry returns. -/
def AuditFields.entry (f : AuditFields) : AuditEntry where
  timestamp := f.timestamp
  op := f.op
  role := f.role
  slotId := f.slotId
  result := f.result
  detail := detailField f.detail

theorem getU64_toLe {n : Nat} (h : n < 2 ^ 64) (rest : Bytes) :
    (getU64 (toLe 8 n ++ rest)).1.toNat = n := by
  have hPut : toLe 8 n = putU64 (UInt64.ofNat n) := by
    rw [putU64, UInt64.toNat_ofNat_of_lt' h]
  rw [hPut, getU64_putU64, UInt64.toNat_ofNat_of_lt' h]

theorem wireDecode_wireEncode : wireDecode (wireEncode seq f) = f.entry := by
  have hDetail : takeVec AUDIT_DETAIL_LEN (detailField f.detail).toList = detailField f.detail := by
    nth_rewrite 1 [← List.append_nil (detailField f.detail).toList]
    exact takeVec_append ..
  unfold wireDecode wireEncode AuditFields.entry
  simp only [drop_field (length_toLe 8 seq), drop_field (length_putU64 _),
    drop_field (length_putU32 _), Nat.reduceSub, Nat.reduceLeDiff, List.drop_zero, getU64_putU64, getU32_putU32, hDetail]

theorem length_hdrEncode : (hdrEncode count head).length = AUDIT_HDR_LEN := by
  simp only [hdrEncode, List.length_append, length_toLe, List.Vector.toList_length]
  rfl

theorem take_hdrEncode : (hdrEncode count head).take HDR_OFF_COUNT = hdrPrefix :=
  List.take_left' rfl

theorem hdrCount_hdrEncode (hCount : count < 2 ^ 64) : hdrCount (hdrEncode count head) = count :=
  getU64_toLe hCount _

theorem hdrHead_hdrEncode : hdrHead (hdrEncode count head) = head := by
  have hDrop : (hdrEncode count head).drop HDR_OFF_HEAD = head.toList ++ [0, 0, 0, 0, 0, 0, 0, 0] :=
    drop_field (length_toLe 8 count) (Nat.le_refl 8)
  rw [hdrHead, hDrop, takeVec_append]

/-- A header is good as soon as its first bytes are. -/
theorem hdrOk_of_take {hdr : Bytes} (h : hdr.take HDR_OFF_COUNT = hdrPrefix) : hdrOk hdr = true := by
  have hMagic : hdr.take 8 = AUDIT_MAGIC := by
    rw [show 8 = min 8 HDR_OFF_COUNT from rfl, ← List.take_take, h]
    rfl
  have hField : (hdr.drop HDR_OFF_VERSION).take 4 = putU32 AUDIT_VERSION := by
    have hInside : (hdr.drop HDR_OFF_VERSION).take 4 =
        ((hdr.take HDR_OFF_COUNT).drop HDR_OFF_VERSION).take 4 := by
      rw [List.drop_take, List.take_take]
      rfl
    rw [hInside, h]
    rfl
  have hVersion : (getU32 (hdr.drop HDR_OFF_VERSION)).1 = AUDIT_VERSION := by
    rw [getU32, hField]
    rfl
  rw [hdrOk, hMagic, hVersion]
  rfl

/-- A header written over another in part keeps what the two share at the start. -/
theorem take_torn {hdr hdr' : Bytes} {k : Nat} (hSame : hdr.take k = hdr'.take k) (done : Nat) :
    (hdr'.take done ++ hdr.drop (min done hdr'.length)).take k = hdr.take k := by
  refine List.ext_getElem? fun i => ?_
  rw [List.getElem?_take, List.getElem?_take]
  split
  · rename_i hi
    have hAt : hdr[i]? = hdr'[i]? := by
      have hTake := congrArg (fun l => l[i]?) hSame
      simpa only [List.getElem?_take, if_pos hi] using hTake
    have hLen : (hdr'.take done).length = min done hdr'.length := List.length_take
    by_cases hDone : i < min done hdr'.length
    · rw [List.getElem?_append_left (by omega), List.getElem?_take, if_pos (by omega), hAt]
    · rw [List.getElem?_append_right (by omega), List.getElem?_drop, hLen]
      congr 1
      omega
  · rfl

/-- A detail reads back as printable text, padded with zeros. -/
theorem detailField_printable (detail : Option Bytes) :
    ∀ b ∈ (detailField detail).toList, b = 0 ∨ (0x20 ≤ b ∧ b < 0x7f) := by
  have hSanitize (c : UInt8) : 0x20 ≤ sanitize c ∧ sanitize c < 0x7f := by
    unfold sanitize
    split
    · assumption
    · decide
  intro b hb
  cases detail with
  | none => exact .inl (List.eq_of_mem_replicate hb)
  | some detail =>
    obtain hText | hPad := List.mem_append.mp hb
    · obtain ⟨c, -, rfl⟩ := List.mem_map.mp (List.mem_of_mem_take hText)
      exact .inr (hSanitize c)
    · exact .inl (List.eq_of_mem_replicate hPad)

end Codec

end PqcHsm
