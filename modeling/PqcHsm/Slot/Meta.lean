import PqcHsm.Slot.Fsm

/-!
# Slot metadata: wire format and seal

The wire format is a fixed sequence of little-endian fields. The tag of a slot is a
MAC of the wire format under a key derived for the slot number; every change of
the metadata is followed by `slotReseal`, every use preceded by `slotCheckIntegrity`.
-/

namespace PqcHsm

open ByteCodec

def SLOT_META_WIRE_LEN : Nat := 92

def slotMetaSerialize (m : SlotMeta) : Bytes :=
  putU32 m.version ++ (putU32 m.slotId ++ (m.label.val.toList ++ (putU32 m.alg.toCode ++
    (putU32 m.usage ++ (putU32 m.policy ++ (putU32 m.state.toCode ++ (putU64 m.useCount ++
      (putU32 m.soPinFails ++ (putU32 m.userPinFails ++ (putU64 m.createdAt ++
        (putU64 m.lastUsedAt ++ putU32 m.generation)))))))))))

def slotMetaDeserialize (p : Bytes) : Option SlotMeta :=
  if p.length < SLOT_META_WIRE_LEN then none
  else
    let (version, p) := getU32 p
    let (slotId, p) := getU32 p
    let (label, p) := getVec SLOT_LABEL_MAX p
    let (alg, p) := getU32 p
    let (usage, p) := getU32 p
    let (policy, p) := getU32 p
    let (state, p) := getU32 p
    let (useCount, p) := getU64 p
    let (soPinFails, p) := getU32 p
    let (userPinFails, p) := getU32 p
    let (createdAt, p) := getU64 p
    let (lastUsedAt, p) := getU64 p
    let (generation, _) := getU32 p
    -- a state or an algorithm outside its enumeration marks an altered record
    match SlotState.ofCode state, PqcAlg.ofCode alg with
    | some state, some alg => some
        { version, slotId, label := Label.terminate label, alg, usage, policy, state, useCount,
          soPinFails, userPinFails, createdAt, lastUsedAt, generation }
    | _, _ => none

@[simp] theorem length_slotMetaSerialize (m : SlotMeta) :
    (slotMetaSerialize m).length = SLOT_META_WIRE_LEN := by
  simp [slotMetaSerialize, SLOT_META_WIRE_LEN, SLOT_LABEL_MAX]

theorem slotMetaDeserialize_serialize (m : SlotMeta) :
    slotMetaDeserialize (slotMetaSerialize m) = some m := by
  have hLen : ¬ (slotMetaSerialize m).length < SLOT_META_WIRE_LEN := by
    rw [length_slotMetaSerialize]
    exact lt_irrefl _
  have hLast : getU32 (putU32 m.generation) = (m.generation, []) := by
    simpa using getU32_putU32 m.generation []
  rw [slotMetaDeserialize, if_neg hLen]
  simp only [slotMetaSerialize, getU32_putU32, getU64_putU64, getVec_append, hLast,
    SlotState.ofCode_toCode, PqcAlg.ofCode_toCode, Label.terminate_val]

section Seal

variable (C : Crypto)

def deriveMetaKey (slotId : UInt32) : ByteVec 32 :=
  C.kdrDerive "pqc-hsm/slot-meta-key" (putU32 slotId)

/-- The tag `slot_meta_seal` computes when its key derivation and MAC succeed. -/
def slotMetaSeal (m : SlotMeta) : Bytes :=
  (C.kmac256 (deriveMetaKey C m.slotId).toList (slotMetaSerialize m) "pqc-hsm/slot-meta").toList

def slotReseal (e : Env) (k : Nat) (s : Slot) : HsmStatus × Slot :=
  if e.sealOk k then (.ok, { s with metaTag := slotMetaSeal C s.metadata })
  else (.errCrypto, s)

def slotCheckIntegrity (e : Env) (k : Nat) (s : Slot) : HsmStatus :=
  if e.sealOk k ∧ s.metaTag = slotMetaSeal C s.metadata then .ok else .errIntegrity

/-- The stored tag is the tag of the stored metadata. -/
def Slot.Sealed (s : Slot) : Prop := s.metaTag = slotMetaSeal C s.metadata

variable {C}

theorem sealed_of_slotCheckIntegrity {e : Env} {k : Nat} {s : Slot}
    (h : slotCheckIntegrity C e k s = .ok) : s.Sealed C := by
  unfold slotCheckIntegrity at h
  split at h
  · exact ‹_ ∧ _›.2
  · cases h

theorem sealed_slotReseal {e : Env} {k : Nat} (h : e.sealOk k = true) (s : Slot) :
    (slotReseal C e k s).2.Sealed C := by
  rw [slotReseal, if_pos h]
  rfl

theorem slotReseal_status_ok_iff (e : Env) (k : Nat) (s : Slot) :
    (slotReseal C e k s).1 = .ok ↔ e.sealOk k = true := by
  unfold slotReseal
  split <;> simp_all

end Seal

/-- Resealing only touches the tag. -/
theorem slotReseal_snd (C : Crypto) (e : Env) (k : Nat) (s : Slot) :
    (slotReseal C e k s).2 =
      { s with metaTag := if e.sealOk k then slotMetaSeal C s.metadata else s.metaTag } := by
  unfold slotReseal
  split <;> rfl

end PqcHsm
