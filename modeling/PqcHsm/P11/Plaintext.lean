import PqcHsm.P11.KeyNamed

/-!
# What a decryption releases

`C_Decrypt` hands the buffer of its caller to the cipher, which fills it before the tag is compared.
-/

namespace PqcHsm

open ByteCodec Sections Transition

variable {n : Nat}

/-- The tag that `data` ends with is that of the associated data and of the ciphertext before it. -/
def TagFits (L : P11Lib) (key : Bytes) (c : P11AeadCtx) (data : Bytes) : Prop :=
  (L.gcm.tag key c.iv c.aad (data.take (data.length - c.taglen))).toList.take c.taglen =
    data.drop (data.length - c.taglen)

/-- A call of `C_Decrypt` releases authenticated plaintext only. Without a buffer it is asked for a
length. -/
structure ReleasesAuthentic (L : P11Lib) (st : P11State n) (hs : CkHandle) (data : Bytes)
    (out : OutBuf) (lib : Bool) : Prop where
  refused : (cDecrypt L st hs data out lib).1.rv ≠ .ok →
    ∀ w ∈ (cDecrypt L st hs data out lib).1.written, w.2 = []
  query : out.ptr = false → (cDecrypt L st hs data out lib).1.written = []
  accepted : (cDecrypt L st hs data out lib).1.rv = .ok → out.ptr = true →
    ∃ i k, st.sessAt hs = some i ∧ st.secretAt (st.gSessions i).dec.key = some k ∧
      TagFits L k.val (st.gSessions i).dec data

/-! ### The call up to the cipher -/

/-- The checks of `C_Decrypt` before the cipher: the key and the context it goes on with. -/
def decryptionOf (st : P11State n) (hs : CkHandle) (data : Bytes) (out : OutBuf) :
    Option (P11Secret × P11AeadCtx) :=
  match st.enter hs out.len.isSome with
  | .error _ => none
  | .ok i =>
    let c := (st.gSessions i).dec
    if c.active ∧ c.taglen ≤ data.length ∧ out.ptr ∧ data.length - c.taglen ≤ out.len.getD 0 then
      (st.secretAt c.key).map fun k => (k, c)
    else none

section Call

variable {st : P11State n} {hs : CkHandle} {data : Bytes} {out : OutBuf} {k : P11Secret}
  {c : P11AeadCtx}

theorem sessAt_of_enter {i : Fin MAX_P11_SESSIONS} {b : Bool} (h : st.enter hs b = .ok i) :
    st.sessAt hs = some i := by
  unfold P11State.enter at h
  split at h
  · cases h
  split at h
  · cases h
  · rename_i hAt
    split at h
    · cases h
      exact hAt
    · cases h

theorem session_of_decryptionOf (h : decryptionOf st hs data out = some (k, c)) :
    out.ptr = true ∧ ∃ i, st.sessAt hs = some i ∧ (st.gSessions i).dec = c ∧
      st.secretAt c.key = some k := by
  unfold decryptionOf at h
  split at h
  · cases h
  rename_i i hEnter
  dsimp only at h
  split at h
  · rename_i hChecks
    obtain ⟨k', hAt, hPair⟩ := Option.map_eq_some_iff.mp h
    obtain ⟨rfl, rfl⟩ := Prod.mk.inj hPair
    exact ⟨hChecks.2.2.1, i, sessAt_of_enter hEnter, rfl, hAt⟩
  · cases h

theorem cDecrypt_of_none (L : P11Lib) (lib : Bool) (h : decryptionOf st hs data out = none) :
    (cDecrypt L st hs data out lib).1.written = [] ∧
      ((cDecrypt L st hs data out lib).1.rv = .ok → out.ptr = false) := by
  unfold decryptionOf at h
  unfold cDecrypt
  cases hEnter : st.enter hs out.len.isSome with
  | error rv =>
    exact ⟨rfl, fun hOk => absurd hOk (enter_error hEnter)⟩
  | ok i =>
    simp only [hEnter] at h ⊢
    split
    · exact ⟨rfl, by simp⟩
    rename_i hActive
    split
    · exact ⟨rfl, by simp⟩
    rename_i hLen
    split
    · rename_i hPtr
      exact ⟨rfl, fun _ => by simpa using hPtr⟩
    rename_i hPtr
    split
    · exact ⟨rfl, by simp⟩
    rename_i hRoom
    rw [if_pos ⟨by simpa using hActive, by omega, by simpa using hPtr, by omega⟩,
      Option.map_eq_none_iff] at h
    simp [h]

theorem cDecrypt_of_some (L : P11Lib) (lib : Bool)
    (h : decryptionOf st hs data out = some (k, c)) :
    ((cDecrypt L st hs data out lib).1.rv, (cDecrypt L st hs data out lib).1.written) =
      match aeadOpen L lib k.val c (data.take (data.length - c.taglen))
        (data.drop (data.length - c.taglen)) with
      | some (pt, true) => (.ok, [(0, pt)])
      | some (pt, false) => (.encryptedDataInvalid, [(0, pt)])
      | none => (.encryptedDataInvalid, []) := by
  unfold decryptionOf at h
  unfold cDecrypt
  cases hEnter : st.enter hs out.len.isSome with
  | error rv =>
    rw [hEnter] at h
    cases h
  | ok i =>
    simp only [hEnter] at h ⊢
    split at h
    · rename_i hChecks
      obtain ⟨hActive, hLen, hPtr, hRoom⟩ := hChecks
      obtain ⟨k', hAt, hPair⟩ := Option.map_eq_some_iff.mp h
      obtain ⟨rfl, rfl⟩ := Prod.mk.inj hPair
      rw [if_neg (by simpa using hActive), if_neg (by omega), if_neg (by simpa using hPtr),
        if_neg (by omega)]
      simp only [hAt]
      rcases hOpen : aeadOpen L lib k'.val (st.gSessions i).dec
          (data.take (data.length - (st.gSessions i).dec.taglen))
          (data.drop (data.length - (st.gSessions i).dec.taglen)) with _ | ⟨pt, _ | _⟩ <;> rfl
    · cases h

end Call

/-! ### The cipher -/

/-- The bytes an update call takes from `p`, whose length reaches it as an `int`. -/
def cutToInt (p : Bytes) : Bytes := p.take (p.length % 2 ^ 32)

theorem cutToInt_of_lt {p : Bytes} (h : p.length < 2 ^ 32) : cutToInt p = p :=
  Wrap.take_mod_of_lt h

/-- The cipher writes nothing: no cipher for the key, no memory, or a length that is negative as an
`int`. -/
def CipherRefuses (lib : Bool) (key : Bytes) (c : P11AeadCtx) (ct : Bytes) : Prop :=
  gcmByKeylen key.length = false ∨ lib = false ∨ 2 ^ 31 ≤ c.aad.length % 2 ^ 32 ∨
    2 ^ 31 ≤ ct.length % 2 ^ 32

/-- The tag is that of what the update calls took. -/
def CutTagFits (L : P11Lib) (key : Bytes) (c : P11AeadCtx) (ct tag : Bytes) : Prop :=
  (L.gcm.tag key c.iv (cutToInt c.aad) (cutToInt ct)).toList.take c.taglen = tag

instance (lib : Bool) (key : Bytes) (c : P11AeadCtx) (ct : Bytes) :
    Decidable (CipherRefuses lib key c ct) :=
  inferInstanceAs (Decidable (_ ∨ _ ∨ _ ∨ _))

instance (L : P11Lib) (key : Bytes) (c : P11AeadCtx) (ct tag : Bytes) :
    Decidable (CutTagFits L key c ct tag) :=
  inferInstanceAs (Decidable (_ = _))

theorem evpUpdate_ctxAad (p : Bytes) : Wrap.evpUpdate (2 ^ 61) p =
    if p.length % 2 ^ 32 < 2 ^ 31 then some (p.take (p.length % 2 ^ 32)) else none :=
  Wrap.evpUpdate_eq (by decide) (by decide) p

theorem aeadOpen_eq (L : P11Lib) (lib : Bool) (key : Bytes) (c : P11AeadCtx) (ct tag : Bytes) :
    aeadOpen L lib key c ct tag =
      if CipherRefuses lib key c ct then none
      else some (L.gcm.crypt key c.iv (cutToInt ct), decide (CutTagFits L key c ct tag)) := by
  have hAad := evpUpdate_ctxAad c.aad
  have hCt := Wrap.evpUpdate_data ct
  unfold aeadOpen
  by_cases hRefuses : CipherRefuses lib key c ct
  · rw [if_pos hRefuses]
    rcases hRefuses with h | h | h | h
    · simp [h]
    · simp [h]
    · rw [if_neg (by omega)] at hAad
      simp only [hAad, Option.bind_none, ite_self]
    · rw [if_neg (by omega)] at hCt
      simp [hCt]
  · rw [if_neg hRefuses]
    unfold CipherRefuses at hRefuses
    push Not at hRefuses
    obtain ⟨hKey, hLib, hAadLen, hCtLen⟩ := hRefuses
    rw [if_pos (by omega)] at hAad hCt
    rw [if_neg (by simp [hKey, hLib]), hAad, hCt]
    rfl

section Outcome

variable {L : P11Lib} {st : P11State n} {hs : CkHandle} {data : Bytes} {out : OutBuf} {lib : Bool}
  {k : P11Secret} {c : P11AeadCtx}

theorem crypt_eq_nil_iff (L : P11Lib) (key iv p : Bytes) : L.gcm.crypt key iv p = [] ↔ p = [] := by
  rw [← List.length_eq_zero_iff, L.gcm.length_crypt, List.length_eq_zero_iff]

theorem cDecrypt_of_refuses (h : decryptionOf st hs data out = some (k, c))
    (hRefuses : CipherRefuses lib k.val c (data.take (data.length - c.taglen))) :
    (cDecrypt L st hs data out lib).1.rv = .encryptedDataInvalid ∧
      (cDecrypt L st hs data out lib).1.written = [] := by
  have hOut := cDecrypt_of_some L lib h
  rw [aeadOpen_eq, if_pos hRefuses] at hOut
  exact Prod.mk.inj hOut

theorem cDecrypt_of_fits (h : decryptionOf st hs data out = some (k, c))
    (hRefuses : ¬CipherRefuses lib k.val c (data.take (data.length - c.taglen)))
    (hFits : CutTagFits L k.val c (data.take (data.length - c.taglen))
      (data.drop (data.length - c.taglen))) :
    (cDecrypt L st hs data out lib).1.rv = .ok ∧
      (cDecrypt L st hs data out lib).1.written =
        [(0, L.gcm.crypt k.val c.iv (cutToInt (data.take (data.length - c.taglen))))] := by
  have hOut := cDecrypt_of_some L lib h
  rw [aeadOpen_eq, if_neg hRefuses, decide_eq_true hFits] at hOut
  exact Prod.mk.inj hOut

theorem cDecrypt_of_not_fits (h : decryptionOf st hs data out = some (k, c))
    (hRefuses : ¬CipherRefuses lib k.val c (data.take (data.length - c.taglen)))
    (hFits : ¬CutTagFits L k.val c (data.take (data.length - c.taglen))
      (data.drop (data.length - c.taglen))) :
    (cDecrypt L st hs data out lib).1.rv = .encryptedDataInvalid ∧
      (cDecrypt L st hs data out lib).1.written =
        [(0, L.gcm.crypt k.val c.iv (cutToInt (data.take (data.length - c.taglen))))] := by
  have hOut := cDecrypt_of_some L lib h
  rw [aeadOpen_eq, if_neg hRefuses, decide_eq_false hFits] at hOut
  exact Prod.mk.inj hOut

end Outcome

/-- What the call needs once it has come to the cipher: a tag that fits what the cipher took fits the
whole, and with another tag there was no ciphertext to take. -/
def DecryptsSafely (L : P11Lib) (lib : Bool) (key : Bytes) (c : P11AeadCtx) (data : Bytes) :
    Prop :=
  let ct := data.take (data.length - c.taglen)
  let tag := data.drop (data.length - c.taglen)
  CipherRefuses lib key c ct ∨
    (CutTagFits L key c ct tag ∧ TagFits L key c data) ∨
    (¬CutTagFits L key c ct tag ∧ cutToInt ct = [])

/-- Below `2 ^ 31` bytes, only a fitting tag or an empty ciphertext will do. -/
theorem decryptsSafely_iff_of_lt {L : P11Lib} {key : Bytes} {c : P11AeadCtx} {data : Bytes}
    (hKey : gcmByKeylen key.length = true) (hAad : c.aad.length < 2 ^ 31)
    (hData : data.length < 2 ^ 31) :
    DecryptsSafely L true key c data ↔ TagFits L key c data ∨ data.length ≤ c.taglen := by
  have hTake : (data.take (data.length - c.taglen)).length < 2 ^ 31 := by
    rw [List.length_take]
    omega
  have hFits : CutTagFits L key c (data.take (data.length - c.taglen))
      (data.drop (data.length - c.taglen)) ↔ TagFits L key c data := by
    unfold CutTagFits TagFits
    rw [cutToInt_of_lt (by omega), cutToInt_of_lt (by omega)]
  have hEmpty : cutToInt (data.take (data.length - c.taglen)) = [] ↔ data.length ≤ c.taglen := by
    rw [cutToInt_of_lt (by omega), ← List.length_eq_zero_iff, List.length_take]
    omega
  have hRuns : ¬CipherRefuses true key c (data.take (data.length - c.taglen)) := by
    rintro (h | h | h | h)
    · exact absurd (hKey.symm.trans h) (by decide)
    · cases h
    · omega
    · omega
  unfold DecryptsSafely
  dsimp only
  rw [hFits, hEmpty]
  constructor
  · rintro (h | ⟨h, -⟩ | ⟨-, h⟩)
    · exact absurd h hRuns
    · exact .inl h
    · exact .inr h
  · rintro (h | h)
    · exact .inr (.inl ⟨h, h⟩)
    · by_cases hTag : TagFits L key c data
      · exact .inr (.inl ⟨hTag, hTag⟩)
      · exact .inr (.inr ⟨hTag, h⟩)

/-- `C_Decrypt` releases authenticated plaintext only exactly when its checks stop it before the
cipher, or the cipher works safely. -/
theorem decryption_releases_authentic_iff (L : P11Lib) (st : P11State n) (hs : CkHandle)
    (data : Bytes) (out : OutBuf) (lib : Bool) :
    ReleasesAuthentic L st hs data out lib ↔
      ∀ k c, decryptionOf st hs data out = some (k, c) → DecryptsSafely L lib k.val c data := by
  cases hOf : decryptionOf st hs data out with
  | none =>
    obtain ⟨hNone, hOk⟩ := cDecrypt_of_none L lib hOf
    constructor
    · intro _ k c h
      cases h
    · intro _
      refine ⟨?_, fun _ => hNone, ?_⟩
      · intro _ w hw
        rw [hNone] at hw
        cases hw
      · intro hRv hPtr
        exact absurd (hOk hRv) (by simp [hPtr])
  | some p =>
    obtain ⟨k, c⟩ := p
    obtain ⟨hPtr, i, hAt, rfl, hKey⟩ := session_of_decryptionOf hOf
    constructor
    · rintro h k' c' hOf'
      cases hOf'
      by_cases hRefuses : CipherRefuses lib k.val (st.gSessions i).dec
        (data.take (data.length - (st.gSessions i).dec.taglen))
      · exact .inl hRefuses
      by_cases hFits : CutTagFits L k.val (st.gSessions i).dec
        (data.take (data.length - (st.gSessions i).dec.taglen))
        (data.drop (data.length - (st.gSessions i).dec.taglen))
      · obtain ⟨hRv, -⟩ := cDecrypt_of_fits hOf hRefuses hFits
        obtain ⟨i', k', hAt', hKey', hTag⟩ := h.accepted hRv hPtr
        obtain rfl := Option.some.inj (hAt.symm.trans hAt')
        obtain rfl := Option.some.inj (hKey.symm.trans hKey')
        exact .inr (.inl ⟨hFits, hTag⟩)
      · obtain ⟨hRv, hWritten⟩ := cDecrypt_of_not_fits hOf hRefuses hFits
        have hNil := h.refused (by simp [hRv]) _ (by rw [hWritten]; exact List.mem_singleton_self _)
        exact .inr (.inr ⟨hFits, (crypt_eq_nil_iff _ _ _ _).mp hNil⟩)
    · intro h
      by_cases hRefuses : CipherRefuses lib k.val (st.gSessions i).dec
        (data.take (data.length - (st.gSessions i).dec.taglen))
      · obtain ⟨hRv, hWritten⟩ := cDecrypt_of_refuses (L := L) hOf hRefuses
        refine ⟨fun _ w hw => ?_, fun _ => hWritten, fun hOk => ?_⟩
        · rw [hWritten] at hw
          cases hw
        · exact absurd (hRv.symm.trans hOk) (by decide)
      refine ⟨?_, fun hNo => absurd (hNo.symm.trans hPtr) (by decide), ?_⟩
      · intro hRv w hw
        rcases (h k _ rfl).resolve_left hRefuses with ⟨hFits, -⟩ | ⟨hFits, hNil⟩
        · exact absurd (cDecrypt_of_fits hOf hRefuses hFits).1 hRv
        · rw [(cDecrypt_of_not_fits hOf hRefuses hFits).2] at hw
          obtain rfl := List.mem_singleton.mp hw
          exact (crypt_eq_nil_iff _ _ _ _).mpr hNil
      · intro hRv _
        rcases (h k _ rfl).resolve_left hRefuses with ⟨-, hTag⟩ | ⟨hFits, -⟩
        · exact ⟨i, k, hAt, hKey, hTag⟩
        · exact absurd ((cDecrypt_of_not_fits hOf hRefuses hFits).1.symm.trans hRv) (by decide)

/-- A session makes a secret object and starts a decryption with it. -/
def decryptingRun : P11Run 1 :=
  replay (P11Run.next .clear .clear) (.loaded .clear 1) (calmly [
    .moduleInit true, .openSession 0 true true,
    .createObject 1 (some (secretTemplate 1)) true,
    .aeadInit .decrypt 1 (some gcmMechanism) 0x40000001 true])

/-- One byte with a wrong tag: the call fails, and the byte is in the buffer. -/
theorem forged_tag_releases_plaintext :
    Reachable (p11System .clear .clear 1) anyStep decryptingRun ∧
      (cDecrypt .clear decryptingRun.st 1 (5 :: List.replicate 16 0) ⟨true, some 1⟩ true).1.written =
        [(0, [5])] ∧
      ¬ReleasesAuthentic .clear decryptingRun.st 1 (5 :: List.replicate 16 0) ⟨true, some 1⟩
        true := by
  have hWritten : (cDecrypt .clear decryptingRun.st 1 (5 :: List.replicate 16 0) ⟨true, some 1⟩
      true).1.written = [(0, [5])] := by decide
  refine ⟨reachable_replay (.init init_loaded) _, hWritten, ?_⟩
  intro h
  have hNil := h.refused (by decide) (0, [5]) (by rw [hWritten]; exact List.mem_singleton_self _)
  cases hNil

end PqcHsm
