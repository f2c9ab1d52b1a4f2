import PqcHsm.Service.SymOps
import PqcHsm.Wrap.TrustedApp

/-!
# Key files

`key_save` writes a record of the key store as a header and two strings, and `hsm_key_load` takes the
header apart again. The lengths in a header are bounded by the buffers of the record alone: what
algorithm a record belongs to is asked where the key is used.
-/

namespace PqcHsm

open ByteCodec

/-- `hsm_key`, whose strings lie in buffers of fixed size. -/
structure KeyRecord extends HsmKey where
  symLen : UInt16
  pk_le : pk.length ≤ 2592
  blob_le : blob.val.length ≤ 256

theorem KeyRecord.eq {k k' : KeyRecord} (hKey : k.toHsmKey = k'.toHsmKey) (hLen : k.symLen = k'.symLen) :
    k = k' := by
  cases k
  cases k'
  cases hKey
  cases hLen
  rfl

/-- The bytes before the two strings. -/
def keyHeader (k : KeyRecord) : Bytes :=
  PQK1 ++ ([k.kind, k.param] ++ (putU16 k.symLen ++ (putU32 k.created ++
    (putU32 (UInt32.ofNat k.pk.length) ++ putU32 (UInt32.ofNat k.blob.val.length)))))

/-- What `key_save` writes. -/
def keyFile (k : KeyRecord) : Bytes := keyHeader k ++ (k.pk ++ k.blob.val)

/-- The files of the key store by their paths. -/
abbrev KeyDisk := Bytes → Option Bytes

/-- How writing a file goes: it cannot be opened, it ends early, or it is written. -/
inductive SaveEnd where
  | cannotOpen
  | short (n : Nat)
  | written

inductive SaveFail where
  | badName
  | cannotOpen (path : Bytes)
  | short (path : Bytes)
  deriving DecidableEq

def keySave (keystore : Bytes) (how : SaveEnd) (name : Bytes) (k : KeyRecord) (disk : KeyDisk) :
    Except SaveFail Unit × KeyDisk :=
  if !hsmNameOk name then (.error .badName, disk)
  else
    let p := keyPath keystore name
    match how with
    | .cannotOpen => (.error (.cannotOpen p), disk)
    | .short n => (.error (.short p), Function.update disk p (some ((keyFile k).take n)))
    | .written => (.ok (), Function.update disk p (some (keyFile k)))

/-- The record in a buffer that a file has been read into. -/
def readKey (b : Bytes) : Option KeyRecord :=
  if b.length < 20 ∨ b.take 4 ≠ PQK1 then none
  else
    let pkLen := (getU32 (b.drop 12)).1
    let blobLen := (getU32 (b.drop 16)).1
    if h : 2592 < pkLen ∨ 256 < blobLen ∨ 20 + pkLen.toNat + blobLen.toNat ≠ b.length then none
    else some
      { kind := b.getD 4 0
        param := b.getD 5 0
        symLen := (getU16 (b.drop 6)).1
        created := (getU32 (b.drop 8)).1
        pk := (b.drop 20).take pkLen.toNat
        blob := ⟨(b.drop (20 + pkLen.toNat)).take blobLen.toNat,
          Nat.lt_of_le_of_lt (List.length_take_le ..) blobLen.toNat_lt⟩
        pk_le := by
          have hPk : ¬2592 < pkLen := fun hlt => h (.inl hlt)
          rw [UInt32.lt_iff_toNat_lt] at hPk
          exact Nat.le_trans (List.length_take_le ..) (Nat.le_of_not_lt hPk)
        blob_le := by
          have hBlob : ¬256 < blobLen := fun hlt => h (.inr (.inl hlt))
          rw [UInt32.lt_iff_toNat_lt] at hBlob
          exact Nat.le_trans (List.length_take_le ..) (Nat.le_of_not_lt hBlob) }

/-- `hsm_key_load` with the whole record. -/
def keyLoad (name : Bytes) (file : Option Bytes) : Except HsmFail KeyRecord :=
  if !hsmNameOk name then .error .badName
  else
    match file with
    | none => .error (.noKey name)
    | some f =>
      match readKey (f.take FILE_MAX) with
      | none => .error (.badKeyFile name)
      | some k => .ok k

/-- The part of the record that the operations use. -/
theorem keyLoad_key (name : Bytes) (file : Option Bytes) :
    (keyLoad name file).map KeyRecord.toHsmKey = hsmKeyLoad name file := by
  simp only [keyLoad, hsmKeyLoad]
  split
  · rfl
  · cases file with
    | none => rfl
    | some f =>
      simp only [readKey]
      by_cases hHead : (f.take FILE_MAX).length < 20 ∨ (f.take FILE_MAX).take 4 ≠ PQK1
      · rw [if_pos hHead, if_pos hHead]
        rfl
      · rw [if_neg hHead, if_neg hHead]
        by_cases hSizes : 2592 < (getU32 ((f.take FILE_MAX).drop 12)).1 ∨
          256 < (getU32 ((f.take FILE_MAX).drop 16)).1 ∨
          20 + (getU32 ((f.take FILE_MAX).drop 12)).1.toNat +
            (getU32 ((f.take FILE_MAX).drop 16)).1.toNat ≠ (f.take FILE_MAX).length
        · rw [dif_pos hSizes, if_pos hSizes]
          rfl
        · rw [dif_neg hSizes, if_neg hSizes]
          rfl

section Layout

variable (k : KeyRecord)

theorem length_keyHeader : (keyHeader k).length = 20 := by
  simp [keyHeader, PQK1, length_putU16]

theorem length_keyFile : (keyFile k).length = 20 + (k.pk.length + k.blob.val.length) := by
  rw [keyFile, List.length_append, length_keyHeader, List.length_append]

theorem length_keyFile_le : (keyFile k).length ≤ 2868 := by
  have hPk := k.pk_le
  have hBlob := k.blob_le
  rw [length_keyFile]
  omega

/-- The fields of a file from an offset on. -/
theorem keyFile_drops :
    (keyFile k).drop 6 = putU16 k.symLen ++ (keyFile k).drop 8 ∧
    (keyFile k).drop 8 = putU32 k.created ++ (keyFile k).drop 12 ∧
    (keyFile k).drop 12 = putU32 (UInt32.ofNat k.pk.length) ++ (keyFile k).drop 16 ∧
    (keyFile k).drop 16 = putU32 (UInt32.ofNat k.blob.val.length) ++ (k.pk ++ k.blob.val) := by
  have hFile : keyFile k = PQK1 ++ [k.kind, k.param] ++ (putU16 k.symLen ++ (putU32 k.created ++
      (putU32 (UInt32.ofNat k.pk.length) ++ (putU32 (UInt32.ofNat k.blob.val.length) ++
        (k.pk ++ k.blob.val))))) := by
    simp [keyFile, keyHeader]
  have hNext : ∀ {p r : Bytes} {n m : Nat}, (keyFile k).drop n = p ++ r → p.length = m →
      (keyFile k).drop (n + m) = r := by
    intro p r n m h hp
    rw [← List.drop_drop, h, List.drop_left' hp]
  have h6 : (keyFile k).drop 6 = putU16 k.symLen ++ (putU32 k.created ++
      (putU32 (UInt32.ofNat k.pk.length) ++ (putU32 (UInt32.ofNat k.blob.val.length) ++
        (k.pk ++ k.blob.val)))) := by
    rw [hFile]
    exact List.drop_left' rfl
  have h8 : (keyFile k).drop 8 = _ := hNext h6 (length_putU16 _)
  have h12 : (keyFile k).drop 12 = _ := hNext h8 (length_putU32 _)
  have h16 : (keyFile k).drop 16 = _ := hNext h12 (length_putU32 _)
  rw [h6, h8, h12, h16]
  exact ⟨rfl, rfl, rfl, rfl⟩

end Layout

/-- A string of these lengths is taken apart into its fields. -/
theorem fields_append {f : Bytes} {p q : Nat} (hMagic : f.take 4 = PQK1)
    (hLen : f.length = 20 + p + q) (hp : p < 2 ^ 32) (hq : q < 2 ^ 32)
    (hPk : (getU32 (f.drop 12)).1.toNat = p) (hBlob : (getU32 (f.drop 16)).1.toNat = q) :
    f = PQK1 ++ ([f.getD 4 0, f.getD 5 0] ++ (putU16 (getU16 (f.drop 6)).1 ++
      (putU32 (getU32 (f.drop 8)).1 ++ (putU32 (UInt32.ofNat p) ++ (putU32 (UInt32.ofNat q) ++
        ((f.drop 20).take p ++ (f.drop (20 + p)).take q)))))) := by
  have hStrings : (f.drop 20).take p ++ (f.drop (20 + p)).take q = f.drop 20 := by
    rw [← List.drop_drop, List.take_of_length_le (l := (f.drop 20).drop p) (by simp; omega),
      List.take_append_drop]
  rw [hStrings, ← hPk, ← hBlob, UInt32.ofNat_toNat, UInt32.ofNat_toNat, putU32_drop (by omega),
    putU32_drop (by omega), putU32_drop (by omega), putU16_drop (by omega)]
  have hPair : [f.getD 4 0, f.getD 5 0] ++ f.drop 6 = f.drop 4 := by
    rw [List.drop_eq_getElem_cons (i := 4) (by omega), List.drop_eq_getElem_cons (i := 5) (by omega)]
    simp [show 4 < f.length by omega, show 5 < f.length by omega]
  rw [hPair, ← hMagic, List.take_append_drop]

theorem le_of_not_lt {a b : UInt32} (h : ¬b < a) : a.toNat ≤ b.toNat := by
  rw [UInt32.lt_iff_toNat_lt] at h
  exact Nat.le_of_not_lt h

/-- A legible buffer is what is written for the record in it. -/
theorem readKey_image {b : Bytes} {k : KeyRecord} (h : readKey b = some k) : b = keyFile k := by
  simp only [readKey] at h
  split at h
  · cases h
  rename_i hHead
  split at h
  · cases h
  rename_i hSizes
  obtain ⟨hPk, hBlob, hSum⟩ : ¬2592 < (getU32 (b.drop 12)).1 ∧ ¬256 < (getU32 (b.drop 16)).1 ∧
      ¬20 + (getU32 (b.drop 12)).1.toNat + (getU32 (b.drop 16)).1.toNat ≠ b.length :=
    ⟨fun hlt => hSizes (.inl hlt), fun hlt => hSizes (.inr (.inl hlt)),
      fun hne => hSizes (.inr (.inr hne))⟩
  have hPkMax : (getU32 (b.drop 12)).1.toNat ≤ 2592 := le_of_not_lt hPk
  have hBlobMax : (getU32 (b.drop 16)).1.toNat ≤ 256 := le_of_not_lt hBlob
  have hLen : b.length = 20 + (getU32 (b.drop 12)).1.toNat + (getU32 (b.drop 16)).1.toNat :=
    (Decidable.not_not.mp hSum).symm
  have hMagic : b.take 4 = PQK1 := by
    by_contra hNe
    exact hHead (.inr hNe)
  have hPkLen : ((b.drop 20).take (getU32 (b.drop 12)).1.toNat).length =
      (getU32 (b.drop 12)).1.toNat := by
    rw [List.length_take, List.length_drop]
    omega
  have hBlobLen : ((b.drop (20 + (getU32 (b.drop 12)).1.toNat)).take
      (getU32 (b.drop 16)).1.toNat).length = (getU32 (b.drop 16)).1.toNat := by
    rw [List.length_take, List.length_drop]
    omega
  obtain rfl := Option.some.inj h
  rw [keyFile, keyHeader]
  dsimp only
  rw [hPkLen, hBlobLen]
  refine (fields_append hMagic hLen (by omega) (by omega) rfl rfl).trans ?_
  simp only [List.append_assoc]

/-- What is written for a record is legible. -/
theorem readKey_keyFile (k : KeyRecord) : readKey (keyFile k) = some k := by
  obtain ⟨h6, h8, h12, h16⟩ := keyFile_drops k
  have hPkMax := k.pk_le
  have hBlobMax := k.blob_le
  have hPk : (getU32 ((keyFile k).drop 12)).1 = UInt32.ofNat k.pk.length := by
    rw [h12, getU32_putU32]
  have hBlob : (getU32 ((keyFile k).drop 16)).1 = UInt32.ofNat k.blob.val.length := by
    rw [h16, getU32_putU32]
  have hPkLen : (UInt32.ofNat k.pk.length).toNat = k.pk.length :=
    UInt32.toNat_ofNat_of_lt' (Nat.lt_of_le_of_lt hPkMax (by decide))
  have hBlobLen : (UInt32.ofNat k.blob.val.length).toNat = k.blob.val.length :=
    UInt32.toNat_ofNat_of_lt' (Nat.lt_of_le_of_lt hBlobMax (by decide))
  have hPkAt : ((keyFile k).drop 20).take k.pk.length = k.pk := by
    rw [keyFile, List.drop_left' (length_keyHeader k), List.take_left]
  have hBlobAt : ((keyFile k).drop (20 + k.pk.length)).take k.blob.val.length = k.blob.val := by
    rw [← List.drop_drop, keyFile, List.drop_left' (length_keyHeader k), List.drop_left,
      List.take_length]
  have hHead : ¬((keyFile k).length < 20 ∨ (keyFile k).take 4 ≠ PQK1) := by
    rintro (hShort | hMagic)
    · rw [length_keyFile] at hShort
      omega
    · exact hMagic rfl
  have hSizes : ¬(2592 < (getU32 ((keyFile k).drop 12)).1 ∨ 256 < (getU32 ((keyFile k).drop 16)).1 ∨
      20 + (getU32 ((keyFile k).drop 12)).1.toNat + (getU32 ((keyFile k).drop 16)).1.toNat ≠
        (keyFile k).length) := by
    rw [hPk, hBlob, hPkLen, hBlobLen, length_keyFile, UInt32.lt_iff_toNat_lt, UInt32.lt_iff_toNat_lt,
      hPkLen, hBlobLen]
    change ¬(2592 < k.pk.length ∨ 256 < k.blob.val.length ∨ _)
    omega
  simp only [readKey]
  rw [if_neg hHead, dif_neg hSizes]
  apply congrArg some
  apply KeyRecord.eq
  · change HsmKey.mk _ _ _ _ _ = HsmKey.mk k.kind k.param k.created k.pk k.blob
    rw [HsmKey.mk.injEq]
    refine ⟨rfl, rfl, ?_, ?_, Subtype.ext ?_⟩
    · rw [h8, getU32_putU32]
    · rw [hPk, hPkLen, hPkAt]
    · change ((keyFile k).drop (20 + (getU32 ((keyFile k).drop 12)).1.toNat)).take
        (getU32 ((keyFile k).drop 16)).1.toNat = k.blob.val
      rw [hPk, hPkLen, hBlob, hBlobLen, hBlobAt]
  · change (getU16 ((keyFile k).drop 6)).1 = k.symLen
    rw [h6, getU16_putU16]

/-- What `hsm_key_load` finds in the key store. -/
def loadFrom (keystore name : Bytes) (disk : KeyDisk) : Except HsmFail KeyRecord :=
  keyLoad name (disk (keyPath keystore name))

theorem keyLoad_ok_iff {name f : Bytes} {k : KeyRecord} :
    keyLoad name (some f) = .ok k ↔ hsmNameOk name = true ∧ f = keyFile k := by
  constructor
  · intro h
    simp only [keyLoad] at h
    split at h
    · cases h
    rename_i hName
    refine ⟨by simpa using hName, ?_⟩
    cases hRead : readKey (f.take FILE_MAX) with
    | none =>
      rw [hRead] at h
      cases h
    | some k' =>
      rw [hRead] at h
      obtain rfl : k' = k := Except.ok.inj h
      have hImage := readKey_image hRead
      -- the buffer is larger than any file of a record: nothing was cut off
      have hShort : (f.take FILE_MAX).length < FILE_MAX := by
        rw [hImage]
        exact Nat.lt_of_le_of_lt (length_keyFile_le k') (by decide)
      rw [List.length_take] at hShort
      rwa [List.take_of_length_le (by omega)] at hImage
  · rintro ⟨hName, rfl⟩
    have hWhole : (keyFile k).take FILE_MAX = keyFile k := by
      apply List.take_of_length_le
      exact Nat.le_trans (length_keyFile_le k) (by decide)
    simp [keyLoad, hName, hWhole, readKey_keyFile]

/-- A key of an algorithm of the HSM: the lengths of its public part and of its blob are those of the
algorithm. -/
def KeyRecord.OfAlgorithm (k : KeyRecord) : Prop :=
  (k.kind = 0 ∧ k.param < 3 ∧ k.pk.length = (mlkemLen k.param.toUInt32).ek ∧
    k.blob.val.length = Wrap.taWrapBlobLen 64) ∨
  (k.kind = 1 ∧ k.param < 3 ∧ k.pk.length = (mldsaLen k.param.toUInt32).pk ∧
    k.blob.val.length = Wrap.taWrapBlobLen 32) ∨
  (k.kind = 2 ∧ k.param < 3 ∧ k.pk = [] ∧ k.symLen = (if k.param = 1 then 32 else 16) ∧
    k.blob.val.length = Wrap.taWrapBlobLen k.symLen.toNat)

/-- A file of a kind that no algorithm has. -/
def strayRecord : KeyRecord where
  kind := 9
  param := 0
  created := 0
  pk := [1]
  blob := ⟨[2], by decide⟩
  symLen := 0
  pk_le := by decide
  blob_le := by decide

end PqcHsm
