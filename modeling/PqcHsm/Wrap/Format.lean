import PqcHsm.Library.Aead
import PqcHsm.Slot.Types

/-!
# The wrap format

The header both worlds write and read, and the one blob that a nonce, a plaintext and associated
data have: header, nonce, ciphertext, tag. The tag covers the header and the associated data.
-/

namespace PqcHsm

open ByteCodec

def PWRP_VERSION : UInt16 := 1
def PWRP_ALG_AES256GCM : UInt16 := 1
def PWRP_HDR_LEN : Nat := 16
def PWRP_NONCE_LEN : Nat := 12
def PWRP_TAG_LEN : Nat := 16
def PWRP_OVERHEAD : Nat := PWRP_HDR_LEN + PWRP_NONCE_LEN + PWRP_TAG_LEN
def PWRP_OFF_VER : Nat := 4
def PWRP_OFF_ALG : Nat := 6
def PWRP_OFF_AADLEN : Nat := 8
def PWRP_OFF_PTLEN : Nat := 12
def PWRP_OFF_CT : Nat := PWRP_HDR_LEN + PWRP_NONCE_LEN

/-- `PWRP`. -/
def PWRP_MAGIC : Bytes := [0x50, 0x57, 0x52, 0x50]

def pwrpHdrPut (aadLen ptLen : UInt32) : Bytes :=
  PWRP_MAGIC ++ (putU16 PWRP_VERSION ++ (putU16 PWRP_ALG_AES256GCM ++
    (putU32 aadLen ++ putU32 ptLen)))

def pwrpHdrParse (hdr : Bytes) : Option (UInt32 × UInt32) :=
  if hdr.take 4 ≠ PWRP_MAGIC then none
  else if (getU16 (hdr.drop PWRP_OFF_VER)).1 ≠ PWRP_VERSION then none
  else if (getU16 (hdr.drop PWRP_OFF_ALG)).1 ≠ PWRP_ALG_AES256GCM then none
  else some ((getU32 (hdr.drop PWRP_OFF_AADLEN)).1, (getU32 (hdr.drop PWRP_OFF_PTLEN)).1)

theorem length_pwrpHdrPut (aadLen ptLen : UInt32) :
    (pwrpHdrPut aadLen ptLen).length = PWRP_HDR_LEN := by
  simp only [pwrpHdrPut, List.length_append, length_putU16, length_putU32]
  rfl

theorem pwrpHdrParse_put (aadLen ptLen : UInt32) (rest : Bytes) :
    pwrpHdrParse (pwrpHdrPut aadLen ptLen ++ rest) = some (aadLen, ptLen) := by
  have hAad : (getU32 ((pwrpHdrPut aadLen ptLen ++ rest).drop PWRP_OFF_AADLEN)).1 = aadLen :=
    congrArg Prod.fst (getU32_putU32 aadLen (putU32 ptLen ++ rest))
  have hPt : (getU32 ((pwrpHdrPut aadLen ptLen ++ rest).drop PWRP_OFF_PTLEN)).1 = ptLen :=
    congrArg Prod.fst (getU32_putU32 ptLen rest)
  rw [pwrpHdrParse, hAad, hPt]
  rfl

/-- The header is all that a parsed header says. -/
theorem eq_put_of_pwrpHdrParse {hdr : Bytes} {aadLen ptLen : UInt32}
    (hLen : PWRP_HDR_LEN ≤ hdr.length) (h : pwrpHdrParse hdr = some (aadLen, ptLen)) :
    hdr = pwrpHdrPut aadLen ptLen ++ hdr.drop PWRP_HDR_LEN := by
  have hLen : 16 ≤ hdr.length := hLen
  unfold pwrpHdrParse at h
  split at h
  · cases h
  rename_i hMagic
  split at h
  · cases h
  rename_i hVer
  split at h
  · cases h
  rename_i hAlg
  cases h
  have hVerBytes : putU16 PWRP_VERSION ++ hdr.drop 6 = hdr.drop 4 :=
    of_not_not hVer ▸ putU16_drop (Nat.le_trans (by decide : PWRP_OFF_VER + 2 ≤ 16) hLen)
  have hAlgBytes : putU16 PWRP_ALG_AES256GCM ++ hdr.drop 8 = hdr.drop 6 :=
    of_not_not hAlg ▸ putU16_drop (Nat.le_trans (by decide : PWRP_OFF_ALG + 2 ≤ 16) hLen)
  have hAadBytes := putU32_drop (Nat.le_trans (by decide : PWRP_OFF_AADLEN + 4 ≤ 16) hLen)
  have hPtBytes := putU32_drop (Nat.le_trans (by decide : PWRP_OFF_PTLEN + 4 ≤ 16) hLen)
  calc hdr = hdr.take 4 ++ hdr.drop 4 := (List.take_append_drop 4 hdr).symm
    _ = PWRP_MAGIC ++ (putU16 PWRP_VERSION ++ (putU16 PWRP_ALG_AES256GCM ++
        (putU32 (getU32 (hdr.drop PWRP_OFF_AADLEN)).1 ++
          (putU32 (getU32 (hdr.drop PWRP_OFF_PTLEN)).1 ++ hdr.drop PWRP_HDR_LEN)))) := by
      rw [of_not_not hMagic, ← hVerBytes, ← hAlgBytes]
      change _ = _ ++ (_ ++ (_ ++ (_ ++ (_ ++ hdr.drop (PWRP_OFF_PTLEN + 4)))))
      rw [hPtBytes]
      change _ = _ ++ (_ ++ (_ ++ (_ ++ hdr.drop (PWRP_OFF_AADLEN + 4))))
      rw [hAadBytes]
      rfl
    _ = pwrpHdrPut _ _ ++ hdr.drop PWRP_HDR_LEN := by
      simp only [pwrpHdrPut, List.append_assoc]

/-- AES-256-GCM with a 12-byte nonce. -/
abbrev AesGcm := StreamAead (ByteVec PQC_KEK_LEN) (ByteVec PWRP_NONCE_LEN) (ByteVec PWRP_TAG_LEN)

/-- A cipher without secrets: the tag shows the start of the associated data and of the
ciphertext. -/
def AesGcm.clear : AesGcm where
  crypt _ _ p := p
  tag _ _ aad c := takeVec PWRP_TAG_LEN (aad.drop PWRP_HDR_LEN ++ c)
  crypt_crypt _ _ _ := rfl
  length_crypt _ _ _ := rfl

def blobNonce (blob : Bytes) : ByteVec PWRP_NONCE_LEN :=
  takeVec PWRP_NONCE_LEN (blob.drop PWRP_HDR_LEN)

def blobCt (blob : Bytes) (ctLen : Nat) : Bytes := (blob.drop PWRP_OFF_CT).take ctLen

def blobTag (blob : Bytes) (ctLen : Nat) : ByteVec PWRP_TAG_LEN :=
  takeVec PWRP_TAG_LEN (blob.drop (PWRP_OFF_CT + ctLen))

section Blob

variable {G : AesGcm} {key : ByteVec PQC_KEK_LEN} {nonce : ByteVec PWRP_NONCE_LEN}
  {aadLen ptLen : UInt32} {aad pt blob : Bytes}

/-- The bytes after the header. -/
def blobBody (G : AesGcm) (key : ByteVec PQC_KEK_LEN) (nonce : ByteVec PWRP_NONCE_LEN)
    (hdr aad pt : Bytes) : Bytes :=
  nonce.toList ++ ((G.encrypt key nonce (hdr ++ aad) pt).1 ++
    (G.encrypt key nonce (hdr ++ aad) pt).2.toList)

/-- The blob of a plaintext under a header that states the length `aadLen`. -/
def pwrpBlob (G : AesGcm) (key : ByteVec PQC_KEK_LEN) (nonce : ByteVec PWRP_NONCE_LEN)
    (aadLen : UInt32) (aad pt : Bytes) : Bytes :=
  pwrpHdrPut aadLen (UInt32.ofNat pt.length) ++
    blobBody G key nonce (pwrpHdrPut aadLen (UInt32.ofNat pt.length)) aad pt

theorem length_pwrpBlob : (pwrpBlob G key nonce aadLen aad pt).length = pt.length + PWRP_OVERHEAD := by
  simp only [pwrpBlob, blobBody, StreamAead.encrypt, List.length_append, length_pwrpHdrPut,
    List.Vector.toList_length, G.length_crypt, PWRP_OVERHEAD]
  omega

theorem pwrpHdrParse_blob : pwrpHdrParse (pwrpBlob G key nonce aadLen aad pt) =
    some (aadLen, UInt32.ofNat pt.length) :=
  pwrpHdrParse_put ..

theorem take_pwrpBlob : (pwrpBlob G key nonce aadLen aad pt).take PWRP_HDR_LEN =
    pwrpHdrPut aadLen (UInt32.ofNat pt.length) :=
  List.take_left' (length_pwrpHdrPut ..)

theorem drop_pwrpBlob : (pwrpBlob G key nonce aadLen aad pt).drop PWRP_HDR_LEN =
    blobBody G key nonce (pwrpHdrPut aadLen (UInt32.ofNat pt.length)) aad pt :=
  List.drop_left' (length_pwrpHdrPut ..)

theorem blobNonce_pwrpBlob : blobNonce (pwrpBlob G key nonce aadLen aad pt) = nonce := by
  rw [blobNonce, drop_pwrpBlob, blobBody, takeVec_append]

theorem drop_ct_pwrpBlob : (pwrpBlob G key nonce aadLen aad pt).drop PWRP_OFF_CT =
    G.crypt key nonce pt ++ (G.encrypt key nonce
      (pwrpHdrPut aadLen (UInt32.ofNat pt.length) ++ aad) pt).2.toList := by
  rw [PWRP_OFF_CT, ← List.drop_drop, drop_pwrpBlob, blobBody,
    List.drop_left' nonce.toList_length]
  rfl

theorem blobCt_pwrpBlob : blobCt (pwrpBlob G key nonce aadLen aad pt) pt.length =
    G.crypt key nonce pt := by
  rw [blobCt, drop_ct_pwrpBlob, List.take_left' (G.length_crypt ..)]

theorem blobTag_pwrpBlob : blobTag (pwrpBlob G key nonce aadLen aad pt) pt.length =
    (G.encrypt key nonce (pwrpHdrPut aadLen (UInt32.ofNat pt.length) ++ aad) pt).2 := by
  rw [blobTag, ← List.drop_drop, drop_ct_pwrpBlob, List.drop_left' (G.length_crypt ..)]
  nth_rewrite 1 [← List.append_nil (List.Vector.toList _)]
  exact takeVec_append ..

/-- What the bytes of a blob open to, with associated data after the header. -/
def blobOpen (G : AesGcm) (key : ByteVec PQC_KEK_LEN) (aad blob : Bytes) (ctLen : Nat) :
    Option Bytes :=
  G.decrypt key (blobNonce blob) (blob.take PWRP_HDR_LEN ++ aad) (blobCt blob ctLen)
    (blobTag blob ctLen)

theorem blobOpen_pwrpBlob : blobOpen G key aad (pwrpBlob G key nonce aadLen aad pt) pt.length =
    some pt := by
  rw [blobOpen, blobNonce_pwrpBlob, take_pwrpBlob, blobCt_pwrpBlob, blobTag_pwrpBlob,
    StreamAead.decrypt_eq_some_iff]
  rfl

/-- A blob whose header fits its length opens to a plaintext only when it is the blob of the
plaintext. -/
theorem eq_pwrpBlob_of_open (hParse : pwrpHdrParse blob = some (aadLen, ptLen))
    (hLen : blob.length = ptLen.toNat + PWRP_OVERHEAD)
    (hOpen : blobOpen G key aad blob ptLen.toNat = some pt) :
    pt.length = ptLen.toNat ∧ blob = pwrpBlob G key (blobNonce blob) aadLen aad pt := by
  have hOver : PWRP_OVERHEAD = 44 := rfl
  have hHdr := eq_put_of_pwrpHdrParse (Nat.le_trans (by decide) (hLen ▸ Nat.le_add_left ..)) hParse
  have hCtLen : (blobCt blob ptLen.toNat).length = ptLen.toNat := by
    rw [blobCt, List.length_take_of_le]
    rw [List.length_drop, PWRP_OFF_CT, PWRP_HDR_LEN, PWRP_NONCE_LEN]
    omega
  have hPtLen : pt.length = ptLen.toNat := (StreamAead.length_of_decrypt hOpen).trans hCtLen
  have hPtLen' : UInt32.ofNat pt.length = ptLen := by rw [hPtLen, UInt32.ofNat_toNat]
  have hTake : blob.take PWRP_HDR_LEN = pwrpHdrPut aadLen ptLen := by
    rw [hHdr, List.take_left' (length_pwrpHdrPut ..)]
  refine ⟨hPtLen, ?_⟩
  have hEnc := StreamAead.decrypt_eq_some_iff.mp hOpen
  rw [hTake] at hEnc
  have hNonce : (blobNonce blob).toList = (blob.drop PWRP_HDR_LEN).take PWRP_NONCE_LEN := by
    rw [blobNonce, toList_takeVec]
    rw [List.length_drop, PWRP_HDR_LEN, PWRP_NONCE_LEN]
    omega
  have hTag : (blobTag blob ptLen.toNat).toList = blob.drop (PWRP_OFF_CT + ptLen.toNat) := by
    rw [blobTag, toList_takeVec, List.take_of_length_le]
    all_goals
      rw [List.length_drop, PWRP_OFF_CT, PWRP_TAG_LEN, PWRP_HDR_LEN, PWRP_NONCE_LEN]
      omega
  calc blob = pwrpHdrPut aadLen ptLen ++ blob.drop PWRP_HDR_LEN := hHdr
    _ = pwrpHdrPut aadLen ptLen ++ ((blobNonce blob).toList ++ blob.drop PWRP_OFF_CT) := by
      rw [hNonce, PWRP_OFF_CT, ← List.drop_drop, List.take_append_drop]
    _ = pwrpHdrPut aadLen ptLen ++ ((blobNonce blob).toList ++
        (blobCt blob ptLen.toNat ++ (blobTag blob ptLen.toNat).toList)) := by
      rw [hTag, blobCt, ← List.drop_drop, List.take_append_drop]
    _ = _ := by
      rw [pwrpBlob, blobBody, hPtLen', hEnc]

end Blob

/-- A pointer with the length that comes with it: NULL, or the bytes it points to. -/
inductive Span where
  | null (len : Nat)
  | mem (bytes : Bytes)
  deriving DecidableEq

namespace Span

def isNull : Span → Bool
  | null _ => true
  | mem _ => false

def len : Span → Nat
  | null n => n
  | mem p => p.length

def toBytes : Span → Bytes
  | null _ => []
  | mem p => p

@[simp] theorem isNull_mem (p : Bytes) : (mem p).isNull = false := rfl

@[simp] theorem len_mem (p : Bytes) : (mem p).len = p.length := rfl

@[simp] theorem toBytes_mem (p : Bytes) : (mem p).toBytes = p := rfl

/-- `!p && n`. -/
def dangling (s : Span) : Bool := s.isNull && s.len ≠ 0

/-- The memory with `p` written at its start. -/
def write (p : Bytes) : Span → Span
  | null n => null n
  | mem old => mem (p ++ old.drop p.length)

/-- The memory zeroed. -/
def clear : Span → Span
  | null n => null n
  | mem old => mem (List.replicate old.length 0)

variable {s : Span} {p : Bytes}

/-- The buffer has room for the bytes; none is needed for no bytes. -/
def Room (s : Span) (p : Bytes) : Prop := p = [] ∨ (s.isNull = false ∧ p.length ≤ s.len)

theorem take_write (h : s.Room p) : (s.write p).toBytes.take p.length = p := by
  obtain rfl | ⟨hMem, -⟩ := h
  · rfl
  · cases s with
    | null n => cases hMem
    | mem old => exact List.take_left' rfl

/-- What was written in a buffer with room goes when it is zeroed. -/
theorem clear_write (h : p.length ≤ s.len) : (s.write p).clear = s.clear := by
  cases s with
  | null n => rfl
  | mem old =>
    have hLen : (p ++ old.drop p.length).length = old.length := by
      rw [List.length_append, List.length_drop]
      exact Nat.add_sub_cancel' h
    change Span.mem _ = Span.mem _
    rw [hLen]

theorem length_toBytes (h : s.dangling = false) : s.toBytes.length = s.len := by
  cases s with
  | null n =>
    have hZero : n = 0 := of_not_not (of_decide_eq_false h)
    exact hZero.symm
  | mem p => rfl

end Span

end PqcHsm
