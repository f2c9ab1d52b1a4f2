import PqcHsm.Wrap.Host

/-!
# Wrapping in the trusted application

`ta_wrap_seal` and `ta_wrap_open` over the two backends of `gcm_crypt`. Sealing agrees with the
host; opening agrees with it at exactly the lengths where the two see the same numbers.
-/

namespace PqcHsm.Wrap

open ByteCodec

/-- What `gcm_crypt` is built on: the calls the host uses too, with lengths as `int`, or those of
the trusted environment, with lengths as `size_t`. -/
inductive GcmBackend where
  | evp
  | tee
  deriving DecidableEq

def gcmEncrypt (b : GcmBackend) (G : AesGcm) (lib : Bool) (key : ByteVec PQC_KEK_LEN)
    (nonce : ByteVec PWRP_NONCE_LEN) (hdr aad pt : Bytes) :
    Option (Bytes × ByteVec PWRP_TAG_LEN) :=
  match b with
  | .evp => evpEncrypt G lib key nonce hdr aad pt
  | .tee => if lib then some (G.encrypt key nonce (hdr ++ aad) pt) else none

def gcmDecrypt (b : GcmBackend) (G : AesGcm) (lib : Bool) (key : ByteVec PQC_KEK_LEN)
    (nonce : ByteVec PWRP_NONCE_LEN) (hdr aad ct : Bytes) (tag : ByteVec PWRP_TAG_LEN) :
    Option (Bytes × Bool) :=
  match b with
  | .evp => evpDecrypt G lib key nonce hdr aad ct tag
  | .tee =>
    if lib then some (G.crypt key nonce ct, G.tag key nonce (hdr ++ aad) ct = tag) else none

def taWrapBlobLen (ptLen : Nat) : Nat := ptLen + PWRP_OVERHEAD

/-- Sealing; `nonce` is what `pqchsm_randombytes` draws in the call. -/
def taWrapSeal (b : GcmBackend) (G : AesGcm) (lib : Bool) (key : ByteVec PQC_KEK_LEN)
    (aad pt : Span) (nonce : ByteVec PWRP_NONCE_LEN) (cap : Nat) : Option Bytes :=
  if pt.dangling || aad.dangling then none
  else if 0x7fffffff < pt.len ∨ 0x7fffffff < aad.len then none
  else if cap < taWrapBlobLen pt.len then none
  else
    let hdr := pwrpHdrPut (UInt32.ofNat aad.len) (UInt32.ofNat pt.len)
    (gcmEncrypt b G lib key nonce hdr aad.toBytes pt.toBytes).map fun (ct, tag) =>
      hdr ++ (nonce.toList ++ (ct ++ tag.toList))

def taWrapOpen (b : GcmBackend) (G : AesGcm) (lib : Bool) (key : ByteVec PQC_KEK_LEN)
    (aad blob out : Span) (ptLen : Nat) : UnwrapOut :=
  if blob.isNull then ⟨-1, out, ptLen⟩
  else if out.dangling || aad.dangling then ⟨-1, out, ptLen⟩
  else if blob.len < PWRP_OVERHEAD then ⟨-1, out, ptLen⟩
  else match pwrpHdrParse blob.toBytes with
  | none => ⟨-1, out, ptLen⟩
  | some (hdrAadLen, hdrCtLen) =>
    if hdrAadLen.toNat ≠ aad.len then ⟨-1, out, ptLen⟩
    else
      let ctLen := hdrCtLen.toNat
      if ctLen + PWRP_OVERHEAD ≠ blob.len then ⟨-1, out, ptLen⟩
      else if out.len < ctLen then ⟨-1, out, ptLen⟩
      else match gcmDecrypt b G lib key (blobNonce blob.toBytes)
          (blob.toBytes.take PWRP_HDR_LEN) aad.toBytes (blobCt blob.toBytes ctLen)
          (blobTag blob.toBytes ctLen) with
      | some (written, true) => ⟨0, out.write written, ctLen⟩
      | some (written, false) => ⟨-2, (out.write written).clear, ptLen⟩
      | none => ⟨-1, out.clear, ptLen⟩

/-- The lengths below which a backend works. -/
def GcmBackend.limit : GcmBackend → Nat
  | evp => 2 ^ 31
  | tee => 2 ^ 32

theorem kekOf_toList (key : ByteVec PQC_KEK_LEN) : kekOf (.mem key.toList) = some key := by
  rw [kekOf, if_pos key.toList_length]
  nth_rewrite 1 [← List.append_nil key.toList]
  rw [takeVec_append]

theorem gcmEncrypt_eq (b : GcmBackend) {G : AesGcm} {lib : Bool} {key : ByteVec PQC_KEK_LEN}
    {nonce : ByteVec PWRP_NONCE_LEN} {hdr aad pt : Bytes} (hAad : aad.length < 2 ^ 31)
    (hPt : pt.length < 2 ^ 31) :
    gcmEncrypt b G lib key nonce hdr aad pt = evpEncrypt G lib key nonce hdr aad pt := by
  cases b with
  | evp => rfl
  | tee =>
    cases lib with
    | false => rfl
    | true => exact (evpEncrypt_eq hAad hPt).symm

/-- Sealing writes the bytes the host writes. -/
theorem taWrapSeal_eq (b : GcmBackend) (G : AesGcm) (lib : Bool) (key : ByteVec PQC_KEK_LEN)
    (aad pt : Span) (nonce : ByteVec PWRP_NONCE_LEN) (cap : Nat) :
    taWrapSeal b G lib key aad pt nonce cap =
      pqcWrapWithNonce G lib (.mem key.toList) aad pt nonce cap := by
  rw [pqcWrapWithNonce, kekOf_toList, taWrapSeal]
  dsimp only
  split
  · rfl
  rename_i hReal
  split
  · rfl
  rename_i hLong
  obtain ⟨hPt, hAad⟩ : pt.dangling = false ∧ aad.dangling = false := by
    simpa only [Bool.or_eq_true, not_or, Bool.not_eq_true] using hReal
  rw [gcmEncrypt_eq b (by rw [Span.length_toBytes hAad]; omega)
    (by rw [Span.length_toBytes hPt]; omega)]
  rfl

theorem lib_of_taWrapSeal {b : GcmBackend} {G : AesGcm} {lib : Bool} {key : ByteVec PQC_KEK_LEN}
    {aad pt : Span} {nonce : ByteVec PWRP_NONCE_LEN} {cap : Nat} {blob : Bytes}
    (h : taWrapSeal b G lib key aad pt nonce cap = some blob) : lib = true := by
  cases lib with
  | true => rfl
  | false =>
    unfold taWrapSeal at h
    split at h
    · cases h
    split at h
    · cases h
    split at h
    · cases h
    · cases b <;> cases h

theorem blob_of_taWrapSeal {b : GcmBackend} {G : AesGcm} {lib : Bool} {key : ByteVec PQC_KEK_LEN}
    {aad pt : Span} {nonce : ByteVec PWRP_NONCE_LEN} {cap : Nat} {blob : Bytes}
    (h : taWrapSeal b G lib key aad pt nonce cap = some blob) :
    blob = pwrpBlob G key nonce (UInt32.ofNat aad.len) aad.toBytes pt.toBytes := by
  obtain rfl := lib_of_taWrapSeal h
  rw [taWrapSeal_eq] at h
  obtain ⟨key', hKek, -, hBlob⟩ := pqcWrapWithNonce_eq_some_iff.mp h
  rw [kekOf_toList] at hKek
  cases hKek
  exact hBlob

section Opening

variable {b : GcmBackend} {G : AesGcm} {key : ByteVec PQC_KEK_LEN} {aad blob out : Span}
  {ptLen : Nat} {pt : Bytes}

theorem gcmDecrypt_ok_iff {aad blob : Bytes} {ctLen : Nat}
    (hLen : (blobCt blob ctLen).length = ctLen) (hAad : aad.length < 2 ^ 32)
    (hCt : ctLen < 2 ^ 32) :
    gcmDecrypt b G true key (blobNonce blob) (blob.take PWRP_HDR_LEN) aad (blobCt blob ctLen)
      (blobTag blob ctLen) = some (pt, true) ↔
    (aad.length < b.limit ∧ ctLen < b.limit) ∧ blobOpen G key aad blob ctLen = some pt := by
  cases b with
  | evp => rw [gcmDecrypt, evpDecrypt_ok_iff hLen hCt, take_mod_of_lt hAad, Nat.mod_eq_of_lt hAad,
      GcmBackend.limit]
  | tee =>
    rw [gcmDecrypt, if_pos rfl, crypt_tag_eq_iff]
    exact (and_iff_right ⟨hAad, hCt⟩).symm

theorem Span.room_iff (h : out.dangling = false) : out.Room pt ↔ pt.length ≤ out.len := by
  cases out with
  | null n =>
    obtain rfl : n = 0 := of_not_not (of_decide_eq_false h)
    constructor
    · rintro (rfl | ⟨hMem, -⟩)
      · exact Nat.le_refl 0
      · cases hMem
    · exact fun hLen => .inl (List.length_eq_zero_iff.mp (Nat.le_zero.mp hLen))
  | mem p =>
    constructor
    · rintro (rfl | ⟨-, hLen⟩)
      · exact Nat.zero_le _
      · exact hLen
    · exact fun hLen => .inr ⟨rfl, hLen⟩

theorem lib_of_gcmDecrypt {lib : Bool} {nonce : ByteVec PWRP_NONCE_LEN} {hdr aad ct : Bytes}
    {tag : ByteVec PWRP_TAG_LEN} {r : Bytes × Bool}
    (h : gcmDecrypt b G lib key nonce hdr aad ct tag = some r) : lib = true := by
  cases lib with
  | true => rfl
  | false => cases b <;> cases h

/-- A success writes the plaintext of the blob over the start of the buffer. -/
theorem taWrapOpen_success {lib : Bool} (h : (taWrapOpen b G lib key aad blob out ptLen).rc = 0) :
    ∃ nonce pt, taWrapOpen b G lib key aad blob out ptLen = ⟨0, out.write pt, pt.length⟩ ∧
      out.dangling = false ∧ aad.dangling = false ∧ out.Room pt ∧
      (aad.len < b.limit ∧ pt.length < b.limit) ∧
      blob = .mem (pwrpBlob G key nonce (UInt32.ofNat aad.len) aad.toBytes pt) := by
  unfold taWrapOpen at h ⊢
  split at h
  · cases h
  rename_i hNull
  split at h
  · cases h
  rename_i hDangling
  obtain ⟨hOut, hAad⟩ : out.dangling = false ∧ aad.dangling = false := by
    simpa only [Bool.or_eq_true, not_or, Bool.not_eq_true] using hDangling
  split at h
  · cases h
  rename_i hLong
  cases blob with
  | null n => exact absurd rfl hNull
  | mem bytes =>
    split at h
    · cases h
    rename_i aadLen ctLen hParse
    split at h
    · cases h
    rename_i hAadLen
    dsimp only at h
    split at h
    · cases h
    rename_i hCtLen
    split at h
    · cases h
    rename_i hCap
    split at h
    · rename_i written hDecrypt
      have hSize : bytes.length = ctLen.toNat + PWRP_OVERHEAD := (of_not_not hCtLen).symm
      have hAadEq : aadLen.toNat = aad.len := of_not_not hAadLen
      have hLt : aad.toBytes.length < 2 ^ 32 := by
        rw [Span.length_toBytes hAad, ← hAadEq]
        exact aadLen.toNat_lt
      obtain rfl := lib_of_gcmDecrypt hDecrypt
      obtain ⟨hBounds, hOpen⟩ :=
        (gcmDecrypt_ok_iff (length_blobCt hSize) hLt ctLen.toNat_lt).mp hDecrypt
      obtain ⟨hPtLen, hBlob⟩ := eq_pwrpBlob_of_open hParse hSize hOpen
      have hAadEq' : UInt32.ofNat aad.len = aadLen := by rw [← hAadEq, UInt32.ofNat_toNat]
      rw [← hAadEq'] at hBlob
      rw [Span.length_toBytes hAad, ← hPtLen] at hBounds
      refine ⟨_, written, ?_, hOut, hAad, (Span.room_iff hOut).mpr (by omega), hBounds,
        congrArg Span.mem hBlob⟩
      rw [if_neg hNull, if_neg hDangling, if_neg hLong]
      dsimp only
      rw [if_neg hAadLen, if_neg hCtLen, if_neg hCap, hDecrypt, hPtLen]
    · cases h
    · cases h

/-- What opening accepts. -/
theorem taWrapOpen_eq_some_iff :
    (taWrapOpen b G true key aad blob out ptLen).plaintext = some pt ↔
    ∃ nonce, out.dangling = false ∧ aad.dangling = false ∧ out.Room pt ∧
      (aad.len < b.limit ∧ pt.length < b.limit) ∧
      blob = .mem (pwrpBlob G key nonce (UInt32.ofNat aad.len) aad.toBytes pt) := by
  have hLimit : b.limit ≤ 2 ^ 32 := by
    cases b <;> decide
  constructor
  · intro h
    have hRc : (taWrapOpen b G true key aad blob out ptLen).rc = 0 := by
      by_contra hRc
      rw [UnwrapOut.plaintext, if_neg hRc] at h
      cases h
    obtain ⟨nonce, written, hOpen, hOut, hAad, hRoom, hBounds, hBlob⟩ := taWrapOpen_success hRc
    rw [hOpen, plaintext_success rfl hRoom] at h
    cases h
    exact ⟨nonce, hOut, hAad, hRoom, hBounds, hBlob⟩
  · rintro ⟨nonce, hOut, hAad, hRoom, hBounds, rfl⟩
    have hAadLen : (UInt32.ofNat aad.len).toNat = aad.len :=
      UInt32.toNat_ofNat_of_lt' (Nat.lt_of_lt_of_le hBounds.1 hLimit)
    have hPtLen : (UInt32.ofNat pt.length).toNat = pt.length :=
      UInt32.toNat_ofNat_of_lt' (Nat.lt_of_lt_of_le hBounds.2 hLimit)
    have hSize : (pwrpBlob G key nonce (UInt32.ofNat aad.len) aad.toBytes pt).length =
        pt.length + PWRP_OVERHEAD :=
      length_pwrpBlob
    have hDecrypt := (gcmDecrypt_ok_iff (length_blobCt hSize)
      (by rw [Span.length_toBytes hAad]; omega) (by omega)).mpr
        ⟨Span.length_toBytes hAad ▸ hBounds, blobOpen_pwrpBlob⟩
    unfold taWrapOpen
    rw [Span.isNull_mem, Span.len_mem, Span.toBytes_mem, if_neg Bool.false_ne_true, hOut, hAad,
      Bool.or_self, if_neg Bool.false_ne_true, if_neg (by omega), pwrpHdrParse_blob]
    dsimp only
    rw [hPtLen, hAadLen, if_neg (not_not_intro rfl), if_neg (not_not_intro hSize.symm),
      if_neg (Nat.not_lt.mpr ((Span.room_iff hOut).mp hRoom)), hDecrypt]
    exact plaintext_success rfl hRoom

/-- Opening a blob under the key and the associated data of its sealing. -/
theorem taWrapOpen_pwrpBlob {nonce : ByteVec PWRP_NONCE_LEN} {buf : Bytes}
    (hAad : aad.dangling = false) (hAadLen : aad.len < b.limit) (hPtLen : pt.length < b.limit)
    (hRoom : pt.length ≤ buf.length) :
    taWrapOpen b G true key aad
        (.mem (pwrpBlob G key nonce (UInt32.ofNat aad.len) aad.toBytes pt)) (.mem buf) ptLen =
      ⟨0, .mem (pt ++ buf.drop pt.length), pt.length⟩ := by
  have hOpens : (taWrapOpen b G true key aad
      (.mem (pwrpBlob G key nonce (UInt32.ofNat aad.len) aad.toBytes pt)) (.mem buf)
        ptLen).plaintext = some pt :=
    taWrapOpen_eq_some_iff.mpr ⟨nonce, rfl, hAad, .inr ⟨rfl, hRoom⟩, ⟨hAadLen, hPtLen⟩, rfl⟩
  generalize hOut : taWrapOpen b G true key aad
    (.mem (pwrpBlob G key nonce (UInt32.ofNat aad.len) aad.toBytes pt)) (.mem buf) ptLen = o at hOpens ⊢
  have hRc : o.rc = 0 := by
    by_contra hRc
    rw [UnwrapOut.plaintext, if_neg hRc] at hOpens
    cases hOpens
  rw [← hOut] at hRc
  obtain ⟨_, written, hOpen, -, -, hRoom', -, -⟩ := taWrapOpen_success hRc
  rw [hOut] at hOpen
  rw [hOpen, plaintext_success rfl hRoom'] at hOpens
  cases hOpens
  exact hOpen

end Opening

/-- Both worlds return the same plaintexts for associated data and blobs of these lengths. -/
def SameBlobs (b : GcmBackend) (G : AesGcm) (aadLen blobLen : Nat) : Prop :=
  ∀ (key : ByteVec PQC_KEK_LEN) (aad blob : Bytes) (out : Span) (ptLen : Nat),
    aad.length = aadLen → blob.length = blobLen → out.dangling = false →
    (taWrapOpen b G true key (.mem aad) (.mem blob) out ptLen).plaintext =
      (pqcUnwrap G true (.mem key.toList) (.mem aad) (.mem blob) out ptLen).plaintext

/-- The lengths at which the host's cut of a length to 32 bits and to an `int` makes no
difference. -/
def LengthsAgree (b : GcmBackend) (aadLen blobLen : Nat) : Prop :=
  match b with
  | .evp => aadLen < 2 ^ 32 ∨ 2 ^ 31 ≤ aadLen % 2 ^ 32 ∨ blobLen < PWRP_OVERHEAD ∨
      2 ^ 31 + PWRP_OVERHEAD ≤ blobLen
  | .tee => (aadLen < 2 ^ 31 ∧ blobLen < 2 ^ 31 + PWRP_OVERHEAD) ∨ blobLen < PWRP_OVERHEAD ∨
      2 ^ 32 + PWRP_OVERHEAD ≤ blobLen ∨
      (2 ^ 32 ≤ aadLen ∧ (2 ^ 31 ≤ aadLen % 2 ^ 32 ∨ 2 ^ 31 + PWRP_OVERHEAD ≤ blobLen))

theorem lengthsAgree_iff (b : GcmBackend) (aadLen blobLen : Nat) : LengthsAgree b aadLen blobLen ↔
    (PWRP_OVERHEAD ≤ blobLen → (aadLen < b.limit ∧ blobLen - PWRP_OVERHEAD < b.limit ↔
      aadLen % 2 ^ 32 < 2 ^ 31 ∧ blobLen - PWRP_OVERHEAD < 2 ^ 31)) := by
  cases b <;> simp only [LengthsAgree, GcmBackend.limit, PWRP_OVERHEAD] <;> omega

section Agreement

variable {b : GcmBackend} {G : AesGcm} {aadLen blobLen : Nat}

theorem sameBlobs_of_lengthsAgree (h : LengthsAgree b aadLen blobLen) :
    SameBlobs b G aadLen blobLen := by
  rw [lengthsAgree_iff] at h
  rintro key aad blob out ptLen rfl rfl hOut
  refine Option.ext fun pt => ?_
  rw [taWrapOpen_eq_some_iff, pqcUnwrap_eq_some_iff, kekOf_toList]
  have hLimit : b.limit ≤ 2 ^ 32 := by
    cases b <;> decide
  constructor
  · rintro ⟨nonce, -, hAad, hRoom, hBounds, hBlob⟩
    have hLen := (congrArg List.length (Span.mem.inj hBlob)).trans length_pwrpBlob
    have hHost := (h (by omega)).mp ⟨hBounds.1, by rw [hLen]; exact (Nat.add_sub_cancel ..).symm ▸ hBounds.2⟩
    refine ⟨key, nonce, rfl, hAad, hRoom, ⟨hHost.1, by omega⟩, ?_⟩
    rwa [Span.len_mem, Span.toBytes_mem, take_mod_of_lt (Nat.lt_of_lt_of_le hBounds.1 hLimit)]
  · rintro ⟨_, nonce, ⟨⟩, hAad, hRoom, hBounds, hBlob⟩
    have hLen := (congrArg List.length (Span.mem.inj hBlob)).trans length_pwrpBlob
    have hTa := (h (by omega)).mpr ⟨hBounds.1, by omega⟩
    refine ⟨nonce, hOut, hAad, hRoom, ⟨hTa.1, by omega⟩, ?_⟩
    rwa [Span.len_mem, Span.toBytes_mem, take_mod_of_lt (Nat.lt_of_lt_of_le hTa.1 hLimit)] at hBlob

/-- Where one side takes lengths that the other does not, a blob of zeros tells them apart. -/
theorem lengthsAgree_of_sameBlobs (h : SameBlobs b G aadLen blobLen) :
    LengthsAgree b aadLen blobLen := by
  rw [lengthsAgree_iff]
  intro hBlob
  obtain ⟨key⟩ : Nonempty (ByteVec PQC_KEK_LEN) := ⟨zeros _⟩
  obtain ⟨nonce⟩ : Nonempty (ByteVec PWRP_NONCE_LEN) := ⟨zeros _⟩
  let aad : Bytes := List.replicate aadLen 0
  let pt : Bytes := List.replicate (blobLen - PWRP_OVERHEAD) 0
  have hAadLen : aad.length = aadLen := List.length_replicate
  have hPtLen : pt.length = blobLen - PWRP_OVERHEAD := List.length_replicate
  have hSize (taken : Bytes) :
      (pwrpBlob G key nonce (UInt32.ofNat aad.length) taken pt).length = blobLen := by
    rw [length_pwrpBlob, hPtLen]
    omega
  have hRoom : (Span.mem pt).Room pt := .inr ⟨rfl, Nat.le_refl _⟩
  rw [← hAadLen, ← hPtLen]
  constructor
  · intro hTa
    have hOpen : (taWrapOpen b G true key (.mem aad)
        (.mem (pwrpBlob G key nonce (UInt32.ofNat aad.length) aad pt)) (.mem pt) 0).plaintext =
        some pt :=
      taWrapOpen_eq_some_iff.mpr ⟨nonce, rfl, rfl, hRoom, hTa, rfl⟩
    rw [h key aad _ (.mem pt) 0 hAadLen (hSize aad) rfl] at hOpen
    obtain ⟨_, _, -, -, -, hBounds, -⟩ := pqcUnwrap_eq_some_iff.mp hOpen
    exact hBounds
  · intro hHost
    have hOpen : (pqcUnwrap G true (.mem key.toList) (.mem aad)
        (.mem (pwrpBlob G key nonce (UInt32.ofNat aad.length)
          (aad.take (aad.length % 2 ^ 32)) pt)) (.mem pt) 0).plaintext = some pt :=
      pqcUnwrap_eq_some_iff.mpr ⟨key, nonce, kekOf_toList key, rfl, hRoom, hHost, rfl⟩
    rw [← h key aad _ (.mem pt) 0 hAadLen (hSize _) rfl] at hOpen
    obtain ⟨_, -, -, -, hBounds, -⟩ := taWrapOpen_eq_some_iff.mp hOpen
    exact hBounds

end Agreement

/-- The trusted application seals what the host wraps; the two open the same blobs to the same
plaintexts exactly at the lengths where they agree. -/
theorem taWrap_same_format (b : GcmBackend) (G : AesGcm) :
    (∀ lib key aad pt nonce cap, taWrapSeal b G lib key aad pt nonce cap =
      pqcWrapWithNonce G lib (.mem key.toList) aad pt nonce cap) ∧
    ∀ aadLen blobLen, SameBlobs b G aadLen blobLen ↔ LengthsAgree b aadLen blobLen :=
  ⟨taWrapSeal_eq b G, fun _ _ => ⟨lengthsAgree_of_sameBlobs, sameBlobs_of_lengthsAgree⟩⟩

/-- The host opens a blob without associated data for `2 ^ 32` bytes of it; the trusted application
refuses. -/
theorem host_opens_cut_length :
    (pqcUnwrap .clear true (.mem (zeros 32).toList) (.mem (List.replicate (2 ^ 32) 0))
      (.mem (pwrpBlob .clear (zeros 32) (zeros 12) 0 [] [])) (.mem []) 0).plaintext = some [] ∧
    (taWrapOpen .tee .clear true (zeros 32) (.mem (List.replicate (2 ^ 32) 0))
      (.mem (pwrpBlob .clear (zeros 32) (zeros 12) 0 [] [])) (.mem []) 0).plaintext ≠ some [] := by
  constructor
  · refine pqcUnwrap_eq_some_iff.mpr ⟨zeros 32, zeros 12, kekOf_toList _, rfl, .inl rfl, ?_, ?_⟩
    · rw [Span.len_mem, List.length_replicate]
      decide
    · rw [Span.len_mem, List.length_replicate, Nat.mod_self, List.take_zero]
      rfl
  · intro h
    obtain ⟨_, -, -, -, hBounds, -⟩ := taWrapOpen_eq_some_iff.mp h
    rw [Span.len_mem, List.length_replicate] at hBounds
    exact absurd hBounds.1 (Nat.lt_irrefl _)

/-- For a NULL buffer with a capacity the trusted application refuses every blob, the host all but
those of the empty plaintext. -/
theorem null_buffer_with_capacity (b : GcmBackend) (G : AesGcm) (key : ByteVec PQC_KEK_LEN)
    (aad blob : Span) (n ptLen : Nat) {pt : Bytes} :
    (taWrapOpen b G true key aad blob (.null (n + 1)) ptLen).plaintext ≠ some pt ∧
    ((pqcUnwrap G true (.mem key.toList) aad blob (.null (n + 1)) ptLen).plaintext = some pt →
      pt = []) := by
  constructor
  · intro h
    obtain ⟨_, hOut, -⟩ := taWrapOpen_eq_some_iff.mp h
    cases hOut
  · intro h
    obtain ⟨_, _, -, -, hRoom, -⟩ := pqcUnwrap_eq_some_iff.mp h
    obtain rfl | ⟨hMem, -⟩ := hRoom
    · rfl
    · cases hMem

end PqcHsm.Wrap
