import PqcHsm.Wrap.Format

/-!
# Wrapping on the host

`pqc_wrap_with_nonce` and `pqc_unwrap`. A length reaches the library as an `int`, so that an update
call sees the low 32 bits, and a length from `2 ^ 31` on as one over the limits of GCM.
-/

namespace PqcHsm.Wrap

open ByteCodec

/-- The `size_t` the library sees for `(int)n`. -/
def evpInl (n : Nat) : Nat :=
  if n % 2 ^ 32 < 2 ^ 31 then n % 2 ^ 32 else n % 2 ^ 32 + (2 ^ 64 - 2 ^ 32)

/-- The limits of GCM, for the associated data after the header and for a message. -/
def GCM_AAD_MAX : Nat := 2 ^ 61 - PWRP_HDR_LEN
def GCM_DATA_MAX : Nat := 2 ^ 36 - 32

/-- The bytes an update call takes. -/
def evpUpdate (limit : Nat) (p : Bytes) : Option Bytes :=
  if evpInl p.length ≤ limit then some (p.take (evpInl p.length)) else none

theorem evpUpdate_eq {limit : Nat} (hLow : 2 ^ 31 ≤ limit) (hHigh : limit < 2 ^ 64 - 2 ^ 31)
    (p : Bytes) : evpUpdate limit p =
      if p.length % 2 ^ 32 < 2 ^ 31 then some (p.take (p.length % 2 ^ 32)) else none := by
  unfold evpUpdate evpInl
  by_cases h : p.length % 2 ^ 32 < 2 ^ 31
  · rw [if_pos h, if_pos h, if_pos (by omega)]
  · rw [if_neg h, if_neg h, if_neg (by omega)]

theorem evpUpdate_aad (p : Bytes) : evpUpdate GCM_AAD_MAX p =
    if p.length % 2 ^ 32 < 2 ^ 31 then some (p.take (p.length % 2 ^ 32)) else none :=
  evpUpdate_eq (by decide) (by decide) p

theorem evpUpdate_data (p : Bytes) : evpUpdate GCM_DATA_MAX p =
    if p.length % 2 ^ 32 < 2 ^ 31 then some (p.take (p.length % 2 ^ 32)) else none :=
  evpUpdate_eq (by decide) (by decide) p

theorem take_mod_of_lt {p : Bytes} (h : p.length < 2 ^ 32) : p.take (p.length % 2 ^ 32) = p := by
  rw [Nat.mod_eq_of_lt h, List.take_length]

/-- The calls of an encryption; `lib` says that those which depend on memory alone succeed. -/
def evpEncrypt (G : AesGcm) (lib : Bool) (key : ByteVec PQC_KEK_LEN)
    (nonce : ByteVec PWRP_NONCE_LEN) (hdr aad pt : Bytes) :
    Option (Bytes × ByteVec PWRP_TAG_LEN) :=
  if lib then
    (evpUpdate GCM_AAD_MAX aad).bind fun aad => (evpUpdate GCM_DATA_MAX pt).map fun pt =>
      G.encrypt key nonce (hdr ++ aad) pt
  else none

/-- The calls of a decryption: what they wrote, and whether the last one accepted the tag. -/
def evpDecrypt (G : AesGcm) (lib : Bool) (key : ByteVec PQC_KEK_LEN)
    (nonce : ByteVec PWRP_NONCE_LEN) (hdr aad ct : Bytes) (tag : ByteVec PWRP_TAG_LEN) :
    Option (Bytes × Bool) :=
  if lib then
    (evpUpdate GCM_AAD_MAX aad).bind fun aad => (evpUpdate GCM_DATA_MAX ct).map fun ct =>
      (G.crypt key nonce ct, G.tag key nonce (hdr ++ aad) ct = tag)
  else none

def pqcWrapBlobLen (ptLen : Nat) : Nat := ptLen + PWRP_OVERHEAD

/-- The key, unless `!kek || kek_len != PQC_KEK_LEN`. -/
def kekOf : Span → Option (ByteVec PQC_KEK_LEN)
  | .null _ => none
  | .mem p => if p.length = PQC_KEK_LEN then some (takeVec PQC_KEK_LEN p) else none

def pqcWrapWithNonce (G : AesGcm) (lib : Bool) (kek aad pt : Span)
    (nonce : ByteVec PWRP_NONCE_LEN) (cap : Nat) : Option Bytes :=
  match kekOf kek with
  | none => none
  | some key =>
    if pt.dangling || aad.dangling then none
    else if 0x7fffffff < pt.len ∨ 0x7fffffff < aad.len then none
    else if cap < pqcWrapBlobLen pt.len then none
    else
      let hdr := pwrpHdrPut (UInt32.ofNat aad.len) (UInt32.ofNat pt.len)
      (evpEncrypt G lib key nonce hdr aad.toBytes pt.toBytes).map fun (ct, tag) =>
        hdr ++ (nonce.toList ++ (ct ++ tag.toList))

/-- The status, the output buffer and the length a call leaves. -/
structure UnwrapOut where
  rc : Int
  pt : Span
  ptLen : Nat
  deriving DecidableEq

/-- What a successful call returns. -/
def UnwrapOut.plaintext (o : UnwrapOut) : Option Bytes :=
  if o.rc = 0 then some (o.pt.toBytes.take o.ptLen) else none

/-- A failure leaves the buffer as it was or zeroed, and the length as it was. -/
def UnwrapOut.Withheld (out : Span) (ptLen : Nat) (o : UnwrapOut) : Prop :=
  o.rc ≠ 0 → (o.pt = out ∨ o.pt = out.clear) ∧ o.ptLen = ptLen

theorem UnwrapOut.withheld_unchanged {out : Span} {ptLen : Nat} {rc : Int} :
    Withheld out ptLen ⟨rc, out, ptLen⟩ :=
  fun _ => ⟨.inl rfl, rfl⟩

def pqcUnwrap (G : AesGcm) (lib : Bool) (kek aad blob out : Span) (ptLen : Nat) : UnwrapOut :=
  match kekOf kek with
  | none => ⟨-1, out, ptLen⟩
  | some key =>
    if blob.isNull then ⟨-1, out, ptLen⟩
    else if aad.dangling || blob.len < PWRP_OVERHEAD then ⟨-1, out, ptLen⟩
    else match pwrpHdrParse blob.toBytes with
    | none => ⟨-1, out, ptLen⟩
    | some (hdrAadLen, hdrPtLen) =>
      -- the caller's length is cut to 32 bits here
      if hdrAadLen ≠ UInt32.ofNat aad.len then ⟨-1, out, ptLen⟩
      else
        let ctLen := hdrPtLen.toNat
        if ctLen ≠ blob.len - PWRP_OVERHEAD then ⟨-1, out, ptLen⟩
        else if ctLen ≠ 0 ∧ (out.isNull ∨ out.len < ctLen) then ⟨-1, out, ptLen⟩
        else match evpDecrypt G lib key (blobNonce blob.toBytes)
            (blob.toBytes.take PWRP_HDR_LEN) aad.toBytes (blobCt blob.toBytes ctLen)
            (blobTag blob.toBytes ctLen) with
        | some (written, true) => ⟨0, out.write written, ctLen⟩
        | some (written, false) => ⟨-1, (out.write written).clear, ptLen⟩
        | none => ⟨-1, out.clear, ptLen⟩

section Decrypt

variable {G : AesGcm} {key : ByteVec PQC_KEK_LEN} {aad pt blob : Bytes} {ctLen : Nat}

theorem evpDecrypt_eq {nonce : ByteVec PWRP_NONCE_LEN} {hdr ct : Bytes}
    {tag : ByteVec PWRP_TAG_LEN} (hCt : ct.length < 2 ^ 32) :
    evpDecrypt G true key nonce hdr aad ct tag =
      if aad.length % 2 ^ 32 < 2 ^ 31 ∧ ct.length < 2 ^ 31 then
        some (G.crypt key nonce ct,
          decide (G.tag key nonce (hdr ++ aad.take (aad.length % 2 ^ 32)) ct = tag))
      else none := by
  rw [evpDecrypt, if_pos rfl, evpUpdate_aad, evpUpdate_data, take_mod_of_lt hCt,
    Nat.mod_eq_of_lt hCt]
  by_cases hAad : aad.length % 2 ^ 32 < 2 ^ 31
  · by_cases hData : ct.length < 2 ^ 31
    · rw [if_pos hAad, if_pos hData, if_pos ⟨hAad, hData⟩]
      rfl
    · rw [if_pos hAad, if_neg hData, if_neg (not_and.mpr fun _ => hData)]
      rfl
  · rw [if_neg hAad, if_neg (not_and.mpr fun h => absurd h hAad)]
    rfl

/-- A decryption that took the bytes of a blob accepts what the blob opens to. -/
theorem crypt_tag_eq_iff :
    some (G.crypt key (blobNonce blob) (blobCt blob ctLen),
      decide (G.tag key (blobNonce blob) (blob.take PWRP_HDR_LEN ++ aad) (blobCt blob ctLen) =
        blobTag blob ctLen)) = some (pt, true) ↔
    blobOpen G key aad blob ctLen = some pt := by
  rw [Option.some.injEq, Prod.mk.injEq, decide_eq_true_eq, blobOpen, StreamAead.decrypt]
  constructor
  · rintro ⟨hPt, hTag⟩
    rw [if_pos hTag, hPt]
  · intro h
    split at h
    · rename_i hTag
      exact ⟨Option.some.inj h, hTag⟩
    · cases h

theorem evpDecrypt_ok_iff (hLen : (blobCt blob ctLen).length = ctLen) (hCt : ctLen < 2 ^ 32) :
    evpDecrypt G true key (blobNonce blob) (blob.take PWRP_HDR_LEN) aad (blobCt blob ctLen)
      (blobTag blob ctLen) = some (pt, true) ↔
    (aad.length % 2 ^ 32 < 2 ^ 31 ∧ ctLen < 2 ^ 31) ∧
      blobOpen G key (aad.take (aad.length % 2 ^ 32)) blob ctLen = some pt := by
  rw [evpDecrypt_eq (by rwa [hLen]), hLen]
  by_cases hBounds : aad.length % 2 ^ 32 < 2 ^ 31 ∧ ctLen < 2 ^ 31
  · rw [if_pos hBounds, and_iff_right hBounds, crypt_tag_eq_iff]
  · rw [if_neg hBounds]
    constructor
    · intro h
      cases h
    · exact fun h => absurd h.1 hBounds

/-- A decryption never writes more than the ciphertext is long. -/
theorem length_of_evpDecrypt {lib ok : Bool} {nonce : ByteVec PWRP_NONCE_LEN} {hdr ct : Bytes}
    {tag : ByteVec PWRP_TAG_LEN} (h : evpDecrypt G lib key nonce hdr aad ct tag = some (pt, ok)) :
    pt.length ≤ ct.length := by
  unfold evpDecrypt at h
  split at h
  · obtain ⟨_, -, h⟩ := Option.bind_eq_some_iff.mp h
    obtain ⟨ct', hCt, h⟩ := Option.map_eq_some_iff.mp h
    cases h
    rw [evpUpdate_data] at hCt
    split at hCt
    · cases hCt
      rw [G.length_crypt]
      exact List.length_take_le' ..
    · cases hCt
  · cases h

end Decrypt

section Wrapping

variable {G : AesGcm} {kek aad pt out : Span} {nonce : ByteVec PWRP_NONCE_LEN} {cap : Nat}
  {blob : Bytes}

/-- The bounds under which wrapping works. -/
structure WrapBounds (aad pt : Span) (cap : Nat) : Prop where
  aadReal : aad.dangling = false
  ptReal : pt.dangling = false
  aadLen : aad.len < 2 ^ 31
  ptLen : pt.len < 2 ^ 31
  room : pt.len + PWRP_OVERHEAD ≤ cap

theorem evpEncrypt_eq {key : ByteVec PQC_KEK_LEN} {hdr aad pt : Bytes} (hAad : aad.length < 2 ^ 31)
    (hPt : pt.length < 2 ^ 31) :
    evpEncrypt G true key nonce hdr aad pt = some (G.encrypt key nonce (hdr ++ aad) pt) := by
  rw [evpEncrypt, if_pos rfl, evpUpdate_aad, evpUpdate_data, take_mod_of_lt (by omega),
    take_mod_of_lt (by omega), if_pos (by omega), if_pos (by omega)]
  rfl

theorem pqcWrapWithNonce_eq_some_iff : pqcWrapWithNonce G true kek aad pt nonce cap = some blob ↔
    ∃ key, kekOf kek = some key ∧ WrapBounds aad pt cap ∧
      blob = pwrpBlob G key nonce (UInt32.ofNat aad.len) aad.toBytes pt.toBytes := by
  unfold pqcWrapWithNonce
  cases hKek : kekOf kek with
  | none => simp
  | some key =>
    constructor
    · intro h
      dsimp only at h
      split at h
      · cases h
      rename_i hDangling
      split at h
      · cases h
      rename_i hLong
      split at h
      · cases h
      rename_i hCap
      obtain ⟨hPt, hAad⟩ : pt.dangling = false ∧ aad.dangling = false := by
        simpa only [Bool.or_eq_true, not_or, Bool.not_eq_true] using hDangling
      have hBounds : WrapBounds aad pt cap :=
        ⟨hAad, hPt, by omega, by omega, Nat.le_of_not_lt hCap⟩
      rw [evpEncrypt_eq (by rw [Span.length_toBytes hAad]; exact hBounds.aadLen)
        (by rw [Span.length_toBytes hPt]; exact hBounds.ptLen)] at h
      refine ⟨key, rfl, hBounds, ?_⟩
      rw [pwrpBlob, blobBody, Span.length_toBytes hPt]
      exact (Option.some.inj h).symm
    · rintro ⟨_, ⟨⟩, hBounds, rfl⟩
      dsimp only
      rw [if_neg (by simp [hBounds.ptReal, hBounds.aadReal]),
        if_neg (by have := hBounds.ptLen; have := hBounds.aadLen; omega),
        if_neg (show ¬ cap < pqcWrapBlobLen pt.len from Nat.not_lt.mpr hBounds.room),
        evpEncrypt_eq (by rw [Span.length_toBytes hBounds.aadReal]; exact hBounds.aadLen)
          (by rw [Span.length_toBytes hBounds.ptReal]; exact hBounds.ptLen)]
      rw [pwrpBlob, blobBody, Span.length_toBytes hBounds.ptReal]
      rfl

end Wrapping

section Unwrapping

variable {G : AesGcm} {kek aad blob out : Span} {ptLen : Nat} {pt : Bytes}

theorem length_blobCt {blob : Bytes} {ctLen : Nat} (h : blob.length = ctLen + PWRP_OVERHEAD) :
    (blobCt blob ctLen).length = ctLen := by
  rw [blobCt, List.length_take_of_le]
  rw [List.length_drop, h, PWRP_OVERHEAD, PWRP_OFF_CT]
  omega

theorem plaintext_success {n : Nat} (hLen : pt.length = n) (hRoom : out.Room pt) :
    UnwrapOut.plaintext ⟨0, out.write pt, n⟩ = some pt := by
  subst hLen
  exact congrArg some (Span.take_write hRoom)

/-- A blob that passes the checks and whose tag holds is written out. -/
theorem pqcUnwrap_of_decrypt {key : ByteVec PQC_KEK_LEN} {b : Bytes} {ctLen : UInt32}
    (hKek : kekOf kek = some key) (hAad : aad.dangling = false)
    (hParse : pwrpHdrParse b = some (UInt32.ofNat aad.len, ctLen))
    (hSize : b.length = ctLen.toNat + PWRP_OVERHEAD)
    (hDecrypt : evpDecrypt G true key (blobNonce b) (b.take PWRP_HDR_LEN) aad.toBytes
      (blobCt b ctLen.toNat) (blobTag b ctLen.toNat) = some (pt, true))
    (hLen : pt.length = ctLen.toNat) (hRoom : out.Room pt) :
    pqcUnwrap G true kek aad (.mem b) out ptLen = ⟨0, out.write pt, ctLen.toNat⟩ := by
  have hNoCap : ¬ (ctLen.toNat ≠ 0 ∧ (out.isNull = true ∨ out.len < ctLen.toNat)) := by
    rintro ⟨hPos, hNull⟩
    obtain rfl | ⟨hMem, hFits⟩ := hRoom
    · exact hPos hLen.symm
    · obtain hNull | hLess := hNull
      · rw [hMem] at hNull
        cases hNull
      · omega
  have hLong : ¬ (aad.dangling || decide (b.length < PWRP_OVERHEAD)) = true := by
    rw [hAad, Bool.false_or, decide_eq_true_eq]
    omega
  unfold pqcUnwrap
  rw [hKek]
  dsimp only
  rw [Span.isNull_mem, Span.len_mem, Span.toBytes_mem, if_neg Bool.false_ne_true, if_neg hLong,
    hParse]
  dsimp only
  rw [if_neg (not_not_intro rfl), if_neg (by omega), if_neg hNoCap, hDecrypt]

/-- What unwrapping accepts, for associated data of any length: the blob of the plaintext under the
low 32 bits of the length and as many bytes. -/
theorem pqcUnwrap_eq_some_iff : (pqcUnwrap G true kek aad blob out ptLen).plaintext = some pt ↔
    ∃ key nonce, kekOf kek = some key ∧ aad.dangling = false ∧ out.Room pt ∧
      (aad.len % 2 ^ 32 < 2 ^ 31 ∧ pt.length < 2 ^ 31) ∧
      blob = .mem (pwrpBlob G key nonce (UInt32.ofNat aad.len)
        (aad.toBytes.take (aad.len % 2 ^ 32)) pt) := by
  constructor
  · intro h
    unfold pqcUnwrap at h
    cases hKek : kekOf kek with
    | none =>
      rw [hKek] at h
      cases h
    | some key =>
      rw [hKek] at h
      dsimp only at h
      split at h
      · cases h
      rename_i hNull
      split at h
      · cases h
      rename_i hShort
      obtain ⟨hAad, hLen⟩ : aad.dangling = false ∧ ¬ blob.len < PWRP_OVERHEAD := by
        simpa only [Bool.or_eq_true, not_or, Bool.not_eq_true, decide_eq_true_eq] using hShort
      cases blob with
      | null n => exact absurd rfl hNull
      | mem b =>
        split at h
        · cases h
        rename_i aadLen ctLen hParse
        split at h
        · cases h
        rename_i hAadLen
        split at h
        · cases h
        rename_i hCtLen
        split at h
        · cases h
        rename_i hCap
        have hSize : b.length = ctLen.toNat + PWRP_OVERHEAD := by
          have hLen : ¬ b.length < PWRP_OVERHEAD := hLen
          have hCtLen : ctLen.toNat = b.length - PWRP_OVERHEAD := of_not_not hCtLen
          omega
        split at h
        · rename_i written hDecrypt
          obtain ⟨hBounds, hOpen⟩ :=
            (evpDecrypt_ok_iff (length_blobCt hSize) ctLen.toNat_lt).mp hDecrypt
          obtain ⟨hPtLen, hBlob⟩ := eq_pwrpBlob_of_open hParse hSize hOpen
          have hRoom : out.Room written := by
            by_cases hEmpty : written = []
            · exact .inl hEmpty
            · rw [← hPtLen] at hCap
              have hPos : written.length ≠ 0 := fun h => hEmpty (List.length_eq_zero_iff.mp h)
              obtain ⟨hMem, hCap⟩ := not_or.mp fun h => hCap ⟨hPos, h⟩
              exact .inr ⟨Bool.eq_false_iff.mpr hMem, Nat.le_of_not_lt hCap⟩
          rw [plaintext_success hPtLen hRoom] at h
          cases h
          rw [Span.length_toBytes hAad] at hBounds hBlob
          rw [← hPtLen] at hBounds
          rw [of_not_not hAadLen] at hBlob
          exact ⟨key, _, rfl, hAad, hRoom, hBounds, congrArg Span.mem hBlob⟩
        · cases h
        · cases h
  · rintro ⟨key, nonce, hKek, hAad, hRoom, hBounds, rfl⟩
    have hPtLen : (UInt32.ofNat pt.length).toNat = pt.length :=
      UInt32.toNat_ofNat_of_lt' (Nat.lt_trans hBounds.2 (by decide))
    have hSize : (pwrpBlob G key nonce (UInt32.ofNat aad.len)
        (aad.toBytes.take (aad.len % 2 ^ 32)) pt).length = pt.length + PWRP_OVERHEAD :=
      length_pwrpBlob
    rw [← Span.length_toBytes hAad] at hBounds hSize ⊢
    have hDecrypt := (evpDecrypt_ok_iff (length_blobCt hSize) (by omega)).mpr
      ⟨hBounds, blobOpen_pwrpBlob⟩
    rw [Span.length_toBytes hAad] at hDecrypt hSize ⊢
    rw [pqcUnwrap_of_decrypt hKek hAad pwrpHdrParse_blob (hPtLen.symm ▸ hSize)
      (hPtLen.symm ▸ hDecrypt) hPtLen.symm hRoom, hPtLen]
    exact plaintext_success rfl hRoom

theorem pqcUnwrap_withheld (lib : Bool) :
    (pqcUnwrap G lib kek aad blob out ptLen).Withheld out ptLen := by
  unfold pqcUnwrap
  split
  · exact UnwrapOut.withheld_unchanged
  split
  · exact UnwrapOut.withheld_unchanged
  split
  · exact UnwrapOut.withheld_unchanged
  split
  · exact UnwrapOut.withheld_unchanged
  split
  · exact UnwrapOut.withheld_unchanged
  dsimp only
  split
  · exact UnwrapOut.withheld_unchanged
  split
  · exact UnwrapOut.withheld_unchanged
  rename_i hCap
  split
  · exact fun h => absurd rfl h
  · rename_i hDecrypt
    refine fun _ => ⟨.inr (Span.clear_write ?_), rfl⟩
    have hCt := Nat.le_trans (length_of_evpDecrypt hDecrypt) (List.length_take_le ..)
    by_contra hOver
    exact hCap ⟨by omega, .inr (by omega)⟩
  · exact fun _ => ⟨.inr rfl, rfl⟩

/-- Unwrapping accepts exactly what wrapping with the nonce in the blob makes of the plaintext; a
failure leaves nothing decrypted. -/
theorem pqcUnwrap_accepts_wrapped (G : AesGcm) (kek aad blob out : Span) (ptLen : Nat)
    (hAad : aad.len < 2 ^ 32) :
    (∀ pt, (pqcUnwrap G true kek aad blob out ptLen).plaintext = some pt ↔
      out.Room pt ∧ ∃ b, blob = .mem b ∧
        pqcWrapWithNonce G true kek aad (.mem pt) (blobNonce b) b.length = some b) ∧
    ∀ lib, (pqcUnwrap G lib kek aad blob out ptLen).Withheld out ptLen := by
  refine ⟨fun pt => ?_, fun lib => pqcUnwrap_withheld lib⟩
  rw [pqcUnwrap_eq_some_iff, Nat.mod_eq_of_lt hAad]
  have hTake (hReal : aad.dangling = false) : aad.toBytes.take aad.len = aad.toBytes := by
    rw [← Span.length_toBytes hReal, List.take_length]
  constructor
  · rintro ⟨key, nonce, hKek, hReal, hRoom, ⟨hAadLen, hPtLen⟩, rfl⟩
    rw [hTake hReal]
    refine ⟨hRoom, _, rfl, pqcWrapWithNonce_eq_some_iff.mpr ⟨key, hKek, ?_, ?_⟩⟩
    · exact ⟨hReal, rfl, hAadLen, hPtLen, Nat.le_of_eq length_pwrpBlob.symm⟩
    · rw [blobNonce_pwrpBlob, Span.toBytes_mem]
  · rintro ⟨hRoom, b, rfl, hWrap⟩
    obtain ⟨key, hKek, hBounds, hBlob⟩ := pqcWrapWithNonce_eq_some_iff.mp hWrap
    refine ⟨key, blobNonce b, hKek, hBounds.aadReal, hRoom, ⟨hBounds.aadLen, hBounds.ptLen⟩, ?_⟩
    rw [hTake hBounds.aadReal]
    exact congrArg Span.mem hBlob

end Unwrapping

section Runs

def sampleKek : Span := .mem (List.replicate 32 1)

def sampleBlob : Bytes := pwrpBlob .clear (takeVec 32 (List.replicate 32 1)) (zeros 12) 2 [5, 6] [7]

theorem pqcUnwrap_accepts_sample :
    (pqcUnwrap .clear true sampleKek (.mem [5, 6]) (.mem sampleBlob) (.mem [0, 0]) 9).plaintext =
      some [7] :=
  ((pqcUnwrap_accepts_wrapped .clear sampleKek (.mem [5, 6]) (.mem sampleBlob) (.mem [0, 0]) 9
    (by decide)).1 [7]).mpr ⟨.inr ⟨rfl, by decide⟩, sampleBlob, rfl, by decide⟩

/-- A refused blob leaves the length of an earlier call. -/
theorem pqcUnwrap_refused_keeps_length :
    (pqcUnwrap .clear true sampleKek (.mem []) (.mem []) (.mem [0]) 1).rc ≠ 0 ∧
      (pqcUnwrap .clear true sampleKek (.mem []) (.mem []) (.mem [0]) 1).ptLen ≠ 0 := by
  decide

end Runs

end PqcHsm.Wrap
