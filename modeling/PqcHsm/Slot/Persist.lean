import PqcHsm.Slot.Meta

/-!
# One slot as a blob, and back

The blob is the metadata in the clear followed by a wrapped payload that holds the
PIN material, the state before a lock and the key. Key storage, backup and restore
all go through this pair of functions. A key that stays in hardware has no software
secret, so it is written with kind 0.
-/

namespace PqcHsm

open ByteCodec

def PQC_WRAP_OVERHEAD : Nat := 44
def PAYLOAD_FIXED : Nat := 142
def PAYLOAD_MAX : Nat := PAYLOAD_FIXED + 2592 + 4896

def pqcWrapBlobLen (n : Nat) : Nat := n + PQC_WRAP_OVERHEAD

def hsmSlotBlobMax : Nat := SLOT_META_WIRE_LEN + pqcWrapBlobLen PAYLOAD_MAX

/-- `key_kind`: 1 for a secret key, 2 for a seed, 0 for neither. -/
def keyKind (s : Slot) : UInt8 :=
  if s.sk.isSome then 1 else if s.seed.isSome then 2 else 0

def keyBytes (s : Slot) : Bytes :=
  match s.sk, s.seed with
  | some sk, _ => sk
  | none, some seed => seed
  | none, none => []

def pinFlags (s : Slot) : UInt8 :=
  (if s.hasSoPin then 1 else 0) ||| (if s.hasUserPin then 2 else 0)

def slotPayload (s : Slot) : Bytes :=
  pinFlags s :: (s.pinKey.toList ++ (s.soSalt.toList ++ (s.soVerifier.toList ++
    (s.userSalt.toList ++ (s.userVerifier.toList ++ (putU32 s.preLock.toCode ++
      (keyKind s :: (putU32 (UInt32.ofNat (s.pk.getD []).length) ++ (s.pk.getD [] ++
        (putU32 (UInt32.ofNat (keyBytes s).length) ++ keyBytes s))))))))))

/-- What a payload holds, once its lengths agree with the algorithm of the metadata. -/
structure SlotRecord where
  pinKey : ByteVec 32
  soSalt : ByteVec PIN_SALT_LEN
  soVerifier : ByteVec VERIFIER_LEN
  userSalt : ByteVec PIN_SALT_LEN
  userVerifier : ByteVec VERIFIER_LEN
  hasSoPin : Bool
  hasUserPin : Bool
  preLock : SlotState
  pk : Option Bytes
  sk : Option Bytes
  seed : Option Bytes
  deriving DecidableEq

/-- The cross-check of a payload with the algorithm of the metadata. -/
def keyLengthsAgree (alg : PqcAlg) (kind : UInt8) (pkLen keyLen : Nat) : Bool :=
  match pqcAlgInfo alg with
  | some info => pkLen = info.pkLen ∧ (kind = 1 → keyLen = info.skLen) ∧
      (kind = 2 → keyLen = info.seedLen)
  | none => kind = 0 ∧ pkLen = 0

def slotPayloadParse (alg : PqcAlg) (payload : Bytes) : Option SlotRecord :=
  if payload.length < PAYLOAD_FIXED then none
  else
    let (flags, p) := getU8 payload
    let (pinKey, p) := getVec 32 p
    let (soSalt, p) := getVec PIN_SALT_LEN p
    let (soVerifier, p) := getVec VERIFIER_LEN p
    let (userSalt, p) := getVec PIN_SALT_LEN p
    let (userVerifier, p) := getVec VERIFIER_LEN p
    let (preLock, p) := getU32 p
    let (kind, p) := getU8 p
    let (pkLen, p) := getU32 p
    match SlotState.ofCode preLock with
    | none => none
    | some preLock =>
      if kind > 2 ∨ pkLen.toNat > p.length then none
      else
        let (pk, p) := (p.take pkLen.toNat, p.drop pkLen.toNat)
        if p.length < 4 then none
        else
          let (keyLen, p) := getU32 p
          if keyLen.toNat > p.length then none
          else if keyLengthsAgree alg kind pkLen.toNat keyLen.toNat then
            let key := p.take keyLen.toNat
            some { pinKey, soSalt, soVerifier, userSalt, userVerifier,
                   hasSoPin := flags &&& 1 != 0
                   hasUserPin := flags &&& 2 != 0
                   preLock
                   pk := if pkLen = 0 then none else some pk
                   sk := if kind = 1 ∧ keyLen ≠ 0 then some key else none
                   seed := if kind = 2 then some key else none }
          else none

/-- The slot with metadata and record of a blob in place of its own; a handle to a
hardware key is forgotten with the old key material. -/
def installRecord (s : Slot) (m : SlotMeta) (r : SlotRecord) : Slot where
  metadata := m
  metaTag := s.metaTag
  preLock := r.preLock
  pinKey := r.pinKey
  soSalt := r.soSalt
  soVerifier := r.soVerifier
  userSalt := r.userSalt
  userVerifier := r.userVerifier
  hasSoPin := r.hasSoPin
  hasUserPin := r.hasUserPin
  hwHandle := none
  pk := r.pk
  sk := r.sk
  seed := r.seed

section Blobs

variable (C : Crypto)

/-- `slot_serialize_locked`. -/
def slotSerializeLocked (e : Env) (kek : ByteVec 32) (cap : Nat) (s : Slot) :
    Except HsmStatus Bytes :=
  if !e.allocOk then .error .errNomem
  else if cap < SLOT_META_WIRE_LEN + pqcWrapBlobLen (slotPayload s).length then
    .error .errBadArg
  else
    match e.bytes 0 12 with
    | none => .error .errCrypto
    | some nonce =>
      if e.cryptoOk then
        .ok (slotMetaSerialize s.metadata ++
          C.wrap kek (slotMetaSerialize s.metadata) (slotPayload s) nonce)
      else .error .errCrypto

/-- `pqc_unwrap` into a buffer of `cap` bytes. -/
def pqcUnwrap (e : Env) (kek : ByteVec 32) (aad blob : Bytes) (cap : Nat) : Option Bytes :=
  if !e.cryptoOk then none
  else (C.unwrap kek aad blob).bind fun pt => if cap < pt.length then none else some pt

/-- The metadata and record a blob holds for slot `slotId`, if it authenticates and parses. -/
def slotBlobRead (e : Env) (kek : ByteVec 32) (blob : Bytes) (slotId : UInt32) :
    Except HsmStatus (SlotMeta × SlotRecord) :=
  if blob.length < SLOT_META_WIRE_LEN then .error .errBadArg
  else
    match slotMetaDeserialize (blob.take SLOT_META_WIRE_LEN) with
    | none => .error .errIntegrity
    | some m =>
      -- a record belongs to one slot number
      if m.slotId ≠ slotId ∨ m.version ≠ SLOT_META_VERSION then .error .errIntegrity
      else if !e.allocOk then .error .errNomem
      else
        match pqcUnwrap C e kek (blob.take SLOT_META_WIRE_LEN) (blob.drop SLOT_META_WIRE_LEN)
            PAYLOAD_MAX with
        | none => .error .errIntegrity
        | some payload =>
          match slotPayloadParse m.alg payload with
          | none => .error .errIntegrity
          | some r => .ok (m, r)

/-- `slot_deserialize_locked`: the slot is untouched until the blob is known to be good. -/
def slotDeserializeLocked (e : Env) (kek : ByteVec 32) (blob : Bytes) (s : Slot) :
    HsmStatus × Slot :=
  match slotBlobRead C e kek blob s.metadata.slotId with
  | .error st => (st, s)
  | .ok (m, r) => slotReseal C e 0 (installRecord s m r)

end Blobs

/-- The buffers of a slot have the lengths its algorithm asks for. -/
def Slot.KeyShape (s : Slot) : Prop :=
  match pqcAlgInfo s.metadata.alg with
  | none => s.pk = none ∧ s.sk = none ∧ s.seed = none
  | some info => (∃ pk, s.pk = some pk ∧ pk.length = info.pkLen) ∧
      (∀ sk, s.sk = some sk → sk.length = info.skLen ∧ s.seed = none) ∧
      (∀ seed, s.seed = some seed → seed.length = info.seedLen)

/-- What a slot carries over a power cycle. -/
def Slot.record (s : Slot) : SlotRecord where
  pinKey := s.pinKey
  soSalt := s.soSalt
  soVerifier := s.soVerifier
  userSalt := s.userSalt
  userVerifier := s.userVerifier
  hasSoPin := s.hasSoPin
  hasUserPin := s.hasUserPin
  preLock := s.preLock
  pk := s.pk
  sk := s.sk
  seed := s.seed

theorem pqcAlgInfo_bounds {alg : PqcAlg} {info : PqcAlgInfo} (h : pqcAlgInfo alg = some info) :
    0 < info.pkLen ∧ info.pkLen ≤ 2592 ∧ 0 < info.skLen ∧ info.skLen ≤ 4896 ∧
      0 < info.seedLen ∧ info.seedLen ≤ 64 := by
  cases alg <;> cases h <;> decide

theorem length_slotPayload (s : Slot) :
    (slotPayload s).length = PAYLOAD_FIXED + (s.pk.getD []).length + (keyBytes s).length := by
  simp only [slotPayload, List.length_cons, List.length_append, List.Vector.toList_length,
    length_putU32]
  unfold PAYLOAD_FIXED PIN_SALT_LEN VERIFIER_LEN
  omega

@[simp] theorem pinFlags_so (s : Slot) : (pinFlags s &&& 1 != 0) = s.hasSoPin := by
  unfold pinFlags
  cases s.hasSoPin <;> cases s.hasUserPin <;> decide

@[simp] theorem pinFlags_user (s : Slot) : (pinFlags s &&& 2 != 0) = s.hasUserPin := by
  unfold pinFlags
  cases s.hasSoPin <;> cases s.hasUserPin <;> decide

theorem keyLengthsAgree_self {s : Slot} (h : s.KeyShape) :
    keyLengthsAgree s.metadata.alg (keyKind s) (s.pk.getD []).length (keyBytes s).length = true := by
  unfold Slot.KeyShape at h
  unfold keyLengthsAgree
  split at h <;> rename_i hInfo
  · obtain ⟨hPk, hSk, hSeed⟩ := h
    simp [hInfo, hPk, hSk, hSeed, keyKind]
  · rename_i info
    obtain ⟨⟨pk, hPk, hPkLen⟩, hSk, hSeed⟩ := h
    cases hs : s.sk with
    | some sk => simp [hInfo, hPk, hPkLen, hs, keyKind, keyBytes, (hSk sk hs).1]
    | none =>
      cases hd : s.seed with
      | some seed => simp [hInfo, hPk, hPkLen, hs, hd, keyKind, keyBytes, hSeed seed hd]
      | none => simp [hInfo, hPk, hPkLen, hs, hd, keyKind, keyBytes]

theorem keyShape_bounds {s : Slot} (h : s.KeyShape) :
    (s.pk.getD []).length ≤ 2592 ∧ (keyBytes s).length ≤ 4896 := by
  unfold Slot.KeyShape at h
  split at h <;> rename_i hInfo
  · obtain ⟨hPk, hSk, hSeed⟩ := h
    simp [hPk, hSk, hSeed, keyBytes]
  · obtain ⟨⟨pk, hPk, hPkLen⟩, hSk, hSeed⟩ := h
    obtain ⟨_, hPkMax, _, hSkMax, _, hSeedMax⟩ := pqcAlgInfo_bounds hInfo
    refine ⟨by simpa [hPk, hPkLen] using hPkMax, ?_⟩
    unfold keyBytes
    split
    · rw [(hSk _ ‹_›).1]
      exact hSkMax
    · rw [hSeed _ ‹_›]
      omega
    · simp

theorem keyKind_le (s : Slot) : ¬ keyKind s > 2 := by
  unfold keyKind
  split
  · decide
  · split <;> decide

theorem ofNat_eq_zero_iff {k : Nat} (h : k < 2 ^ 32) : UInt32.ofNat k = 0 ↔ k = 0 := by
  rw [← UInt32.toNat_inj, UInt32.toNat_ofNat', Nat.mod_eq_of_lt h]
  rfl

/-- The key fields read back from their lengths and bytes are those of the slot. -/
theorem readBack_keys {s : Slot} (h : s.KeyShape) :
    (if UInt32.ofNat (s.pk.getD []).length = 0 then none else some (s.pk.getD [])) = s.pk ∧
    (if keyKind s = 1 ∧ UInt32.ofNat (keyBytes s).length ≠ 0 then some (keyBytes s) else none) =
      s.sk ∧
    (if keyKind s = 2 then some (keyBytes s) else none) = s.seed := by
  obtain ⟨hPkMax, hKeyMax⟩ := keyShape_bounds h
  simp only [ofNat_eq_zero_iff (show (s.pk.getD []).length < 2 ^ 32 by omega), ne_eq,
    ofNat_eq_zero_iff (show (keyBytes s).length < 2 ^ 32 by omega)]
  unfold Slot.KeyShape at h
  split at h <;> rename_i hInfo
  · obtain ⟨hPk, hSk, hSeed⟩ := h
    simp [hPk, hSk, hSeed, keyKind]
  · obtain ⟨⟨pk, hPk, hPkLen⟩, hSk, hSeed⟩ := h
    obtain ⟨hPkPos, _, hSkPos, _, _, _⟩ := pqcAlgInfo_bounds hInfo
    refine ⟨by simp [hPk, hPkLen, hPkPos.ne'], ?_⟩
    cases hs : s.sk with
    | some sk =>
      obtain ⟨hSkLen, hNone⟩ := hSk sk hs
      simp [keyKind, keyBytes, hs, hSkLen, hSkPos.ne', hNone]
    | none => cases hd : s.seed <;> simp [keyKind, keyBytes, hs, hd]

/-- Reading a payload that was written from a slot gives the record of the slot. -/
theorem slotPayloadParse_slotPayload {s : Slot} (h : s.KeyShape) :
    slotPayloadParse s.metadata.alg (slotPayload s) = some s.record := by
  obtain ⟨hPkMax, hKeyMax⟩ := keyShape_bounds h
  have hFixed : ¬ (slotPayload s).length < PAYLOAD_FIXED := by
    rw [length_slotPayload]
    omega
  have hPkNat : (UInt32.ofNat (s.pk.getD []).length).toNat = (s.pk.getD []).length := by
    rw [UInt32.toNat_ofNat', Nat.mod_eq_of_lt (by omega)]
  have hKeyNat : (UInt32.ofNat (keyBytes s).length).toNat = (keyBytes s).length := by
    rw [UInt32.toNat_ofNat', Nat.mod_eq_of_lt (by omega)]
  have hGuard : ¬ (keyKind s > 2 ∨ (s.pk.getD []).length > (s.pk.getD [] ++
      (putU32 (UInt32.ofNat (keyBytes s).length) ++ keyBytes s)).length) := by
    rintro (hKind | hLen)
    · exact keyKind_le s hKind
    · rw [List.length_append] at hLen
      omega
  have hTail : ¬ (putU32 (UInt32.ofNat (keyBytes s).length) ++ keyBytes s).length < 4 := by
    simp
  rw [slotPayloadParse, if_neg hFixed]
  simp only [slotPayload, getU8_cons, getVec_append, getU32_putU32, SlotState.ofCode_toCode,
    hPkNat, hKeyNat, if_neg hGuard, List.take_left, List.drop_left, if_neg hTail, lt_irrefl,
    gt_iff_lt, if_false, keyLengthsAgree_self h, if_true, List.take_length]
  obtain ⟨hPk, hSk, hSeed⟩ := readBack_keys h
  rw [hPk, hSk, hSeed, pinFlags_so, pinFlags_user]
  rfl

/-- Buffers cut out to lengths that passed the cross-check. -/
theorem keyShape_of_agree {s : Slot} {kind : UInt8} {pkLen keyLen : UInt32} {p q : Bytes}
    (hAgree : keyLengthsAgree s.metadata.alg kind pkLen.toNat keyLen.toNat = true)
    (hPkFits : ¬ pkLen.toNat > p.length) (hKeyFits : ¬ keyLen.toNat > q.length)
    (hPk : s.pk = if pkLen = 0 then none else some (p.take pkLen.toNat))
    (hSk : s.sk = if kind = 1 ∧ keyLen ≠ 0 then some (q.take keyLen.toNat) else none)
    (hSeed : s.seed = if kind = 2 then some (q.take keyLen.toNat) else none) : s.KeyShape := by
  have hKeyTake : (q.take keyLen.toNat).length = keyLen.toNat := by
    rw [List.length_take]
    omega
  unfold keyLengthsAgree at hAgree
  unfold Slot.KeyShape
  split at hAgree
  · rename_i info hInfo
    rw [hInfo]
    simp only [decide_eq_true_eq] at hAgree
    obtain ⟨hPkLen, hSkLen, hSeedLen⟩ := hAgree
    obtain ⟨hPkPos, -⟩ := pqcAlgInfo_bounds hInfo
    have hPkNe : pkLen ≠ 0 := by
      rintro rfl
      simp [← hPkLen] at hPkPos
    refine ⟨⟨_, by rw [hPk, if_neg hPkNe], ?_⟩, ?_, ?_⟩
    · rw [List.length_take]
      omega
    · intro sk hSome
      rw [hSk] at hSome
      split at hSome
      · rename_i hKind
        cases hSome
        refine ⟨hKeyTake.trans (hSkLen hKind.1), ?_⟩
        rw [hSeed, hKind.1, if_neg (by decide)]
      · cases hSome
    · intro seed hSome
      rw [hSeed] at hSome
      split at hSome
      · rename_i hKind
        cases hSome
        exact hKeyTake.trans (hSeedLen hKind)
      · cases hSome
  · rename_i hInfo
    rw [hInfo]
    simp only [decide_eq_true_eq] at hAgree
    obtain ⟨rfl, hPkLen⟩ := hAgree
    have hPkZero : pkLen = 0 := UInt32.toNat_inj.mp hPkLen
    refine ⟨by rw [hPk, if_pos hPkZero], by rw [hSk, if_neg (by simp)], ?_⟩
    rw [hSeed, if_neg (by decide)]

section RoundTrip

variable {C : Crypto} {e e' : Env} {kek : ByteVec 32} {cap : Nat} {s : Slot} {blob : Bytes}

/-- A blob that was written is the metadata in the clear and the wrapped payload, and fits
the buffer it was written to. -/
theorem slotSerializeLocked_eq_ok (h : slotSerializeLocked C e kek cap s = .ok blob) :
    (slotPayload s).length + PQC_WRAP_OVERHEAD + SLOT_META_WIRE_LEN ≤ cap ∧
      ∃ nonce, blob = slotMetaSerialize s.metadata ++
        C.wrap kek (slotMetaSerialize s.metadata) (slotPayload s) nonce := by
  unfold slotSerializeLocked at h
  split at h
  · cases h
  · split at h
    · cases h
    · rename_i hCap
      split at h
      · cases h
      · split at h
        · cases h
          refine ⟨?_, _, rfl⟩
          unfold pqcWrapBlobLen at hCap
          omega
        · cases h

theorem slotSerializeLocked_eq_error {st : HsmStatus}
    (h : slotSerializeLocked C e kek cap s = .error st) : st ≠ .ok := by
  unfold slotSerializeLocked at h
  repeat' split at h
  all_goals cases h
  all_goals exact HsmStatus.noConfusion

/-- A record that was read belongs to the slot it was read for. -/
theorem slotBlobRead_eq_ok {slotId : UInt32} {mr : SlotMeta × SlotRecord}
    (h : slotBlobRead C e kek blob slotId = .ok mr) :
    mr.1.slotId = slotId ∧ mr.1.version = SLOT_META_VERSION := by
  unfold slotBlobRead at h
  split at h
  · cases h
  · split at h
    · cases h
    · split at h
      · cases h
      · rename_i hId
        split at h
        · cases h
        · split at h
          · cases h
          · split at h
            · cases h
            · cases h
              push Not at hId
              exact hId

/-- The record of a payload has buffers of the lengths the algorithm asks for. -/
theorem slotPayloadParse_keyShape {m : SlotMeta} {payload : Bytes} {r : SlotRecord}
    (h : slotPayloadParse m.alg payload = some r) (s : Slot) : (installRecord s m r).KeyShape := by
  unfold slotPayloadParse at h
  split at h
  · cases h
  · dsimp only at h
    split at h
    · cases h
    · split at h
      · cases h
      · rename_i hPk
        split at h
        · cases h
        · split at h
          · cases h
          · rename_i hKey
            split at h
            · rename_i hAgree
              cases h
              exact keyShape_of_agree hAgree (fun hOver => hPk (.inr hOver)) hKey rfl rfl rfl
            · cases h

theorem slotBlobRead_keyShape {slotId : UInt32} {m : SlotMeta} {r : SlotRecord}
    (h : slotBlobRead C e kek blob slotId = .ok (m, r)) (s : Slot) :
    (installRecord s m r).KeyShape := by
  unfold slotBlobRead at h
  repeat' split at h
  all_goals cases h
  exact slotPayloadParse_keyShape ‹_› s

theorem slotBlobRead_eq_error {slotId : UInt32} {st : HsmStatus}
    (h : slotBlobRead C e kek blob slotId = .error st) : st ≠ .ok := by
  unfold slotBlobRead at h
  repeat' split at h
  all_goals cases h
  all_goals exact HsmStatus.noConfusion

/-- Reading a blob written from a slot, under the same key, gives its metadata and record. -/
theorem slotBlobRead_serialize (hShape : s.KeyShape) (hVersion : s.metadata.version = 1)
    (h : slotSerializeLocked C e kek hsmSlotBlobMax s = .ok blob)
    (hAlloc : e'.allocOk = true) (hCrypto : e'.cryptoOk = true) :
    slotBlobRead C e' kek blob s.metadata.slotId = .ok (s.metadata, s.record) := by
  obtain ⟨hCap, nonce, rfl⟩ := slotSerializeLocked_eq_ok h
  have hTake : ∀ rest, (slotMetaSerialize s.metadata ++ rest).take SLOT_META_WIRE_LEN =
      slotMetaSerialize s.metadata := fun rest => List.take_left' (length_slotMetaSerialize _)
  have hDrop : ∀ rest, (slotMetaSerialize s.metadata ++ rest).drop SLOT_META_WIRE_LEN = rest :=
    fun rest => List.drop_left' (length_slotMetaSerialize _)
  have hMax : ¬ PAYLOAD_MAX < (slotPayload s).length := by
    unfold hsmSlotBlobMax pqcWrapBlobLen at hCap
    omega
  simp [slotBlobRead, hTake, hDrop, slotMetaDeserialize_serialize, hVersion,
    SLOT_META_VERSION, hAlloc, hCrypto, pqcUnwrap, C.unwrap_wrap, hMax,
    slotPayloadParse_slotPayload hShape]

theorem installRecord_record (s₀ s : Slot) :
    installRecord s₀ s.metadata s.record = { s with hwHandle := none, metaTag := s₀.metaTag } :=
  rfl

end RoundTrip

end PqcHsm
