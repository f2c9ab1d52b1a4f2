import PqcHsm.Slot.CallStep

/-!
# State, key material and seal of a slot

A slot that is loaded, or locked out of the loaded state, holds the public key of its
algorithm and exactly one usable form of the private key; any other slot holds no key.
Every section keeps this as long as the seals and the random bytes it needs are
available, a key in hardware is neither stored to a record nor cut off from its
accelerator session, and records come from slots of this token.
-/

namespace PqcHsm

open ByteCodec Sections

variable {n : Nat} {S : Setup}

def KeyMaterial.none : KeyMaterial := ⟨.none, Option.none, Option.none, Option.none, Option.none⟩

/-- The key is complete: the public key, and the secret key, or the seed, or a live handle
of the accelerator that stands for it. -/
inductive KeyMaterial.Usable (C : Crypto) (hw : HwTable) : KeyMaterial → Prop where
  | secret (alg : PqcAlg) (seed : Bytes) : alg ≠ .none → Usable C hw
      ⟨alg, some (C.keypairFromSeed alg seed).1, some (C.keypairFromSeed alg seed).2,
        Option.none, Option.none⟩
  | seed (alg : PqcAlg) (info : PqcAlgInfo) (seed : Bytes) : pqcAlgInfo alg = some info →
      seed.length = info.seedLen → Usable C hw
      ⟨alg, some (C.keypairFromSeed alg seed).1, Option.none, some seed, Option.none⟩
  | hardware (alg : PqcAlg) (info : PqcAlgInfo) (pk : Bytes) (h : UInt32) :
      pqcAlgInfo alg = some info → pk.length = info.pkLen → hw info.kind h = some pk →
      Usable C hw ⟨alg, some pk, Option.none, Option.none, some h⟩

/-- Loaded, or locked out of the loaded state. -/
def Slot.KeyState (s : Slot) : Prop :=
  s.metadata.state = .loaded ∨ (s.metadata.state = .locked ∧ s.preLock = .loaded)

def Slot.NoPins (s : Slot) : Prop :=
  s.pinKey = zeros 32 ∧ s.soSalt = zeros PIN_SALT_LEN ∧ s.soVerifier = zeros VERIFIER_LEN ∧
    s.userSalt = zeros PIN_SALT_LEN ∧ s.userVerifier = zeros VERIFIER_LEN ∧
    s.hasSoPin = false ∧ s.hasUserPin = false

/-- State and key material of a slot agree, outside its lock. -/
structure Slot.Consistent (C : Crypto) (hw : HwTable) (s : Slot) : Prop where
  notInUse : s.metadata.state ≠ .inUse
  keyState : s.KeyState ↔ s.key.Usable C hw
  vacant : ¬ s.KeyState → s.key = .none
  pins : s.metadata.state = .uninit → s.NoPins
  sealed : s.Sealed C

theorem KeyMaterial.Usable.alg_ne {C : Crypto} {hw : HwTable} {k : KeyMaterial}
    (h : k.Usable C hw) : k.alg ≠ .none := by
  cases h with
  | secret alg seed hAlg => exact hAlg
  | seed alg info seed hInfo =>
    exact (pqcAlgInfo_isSome_iff alg).mp (Option.isSome_iff_exists.mpr ⟨info, hInfo⟩)
  | hardware alg info pk h hInfo =>
    exact (pqcAlgInfo_isSome_iff alg).mp (Option.isSome_iff_exists.mpr ⟨info, hInfo⟩)

/-- A usable key is a public key of its algorithm's length with exactly one private form. -/
theorem KeyMaterial.Usable.forms {C : Crypto} {hw : HwTable} {k : KeyMaterial}
    (h : k.Usable C hw) : ∃ info pk, pqcAlgInfo k.alg = some info ∧ k.pk = some pk ∧
      pk.length = info.pkLen ∧
      ((∃ sk, k.sk = some sk ∧ sk.length = info.skLen ∧ k.seed = Option.none ∧
          k.hwHandle = Option.none) ∨
        (∃ seed, k.seed = some seed ∧ seed.length = info.seedLen ∧ k.sk = Option.none ∧
          k.hwHandle = Option.none) ∨
        (∃ h, k.hwHandle = some h ∧ hw info.kind h = some pk ∧ k.sk = Option.none ∧
          k.seed = Option.none)) := by
  cases h with
  | secret alg seed hAlg =>
    obtain ⟨info, hInfo⟩ := Option.isSome_iff_exists.mp ((pqcAlgInfo_isSome_iff alg).mpr hAlg)
    exact ⟨info, _, hInfo, rfl, C.length_pk alg info seed hInfo,
      .inl ⟨_, rfl, C.length_sk alg info seed hInfo, rfl, rfl⟩⟩
  | seed alg info seed hInfo hLen =>
    exact ⟨info, _, hInfo, rfl, C.length_pk alg info seed hInfo, .inr (.inl ⟨_, rfl, hLen, rfl, rfl⟩)⟩
  | hardware alg info pk h hInfo hLen hLive =>
    exact ⟨info, pk, hInfo, rfl, hLen, .inr (.inr ⟨h, rfl, hLive, rfl, rfl⟩)⟩

theorem not_usable_none (C : Crypto) (hw : HwTable) : ¬ KeyMaterial.none.Usable C hw :=
  fun h => h.alg_ne rfl

/-- A key stays usable while the handles of its own kind that are alive stay what they are. -/
theorem KeyMaterial.Usable.mono {C : Crypto} {hw hw' : HwTable} {k : KeyMaterial}
    (h : k.Usable C hw) (hKept : ∀ kind hd pk, k.hwHandle = some hd → hw kind hd = some pk →
      hw' kind hd = some pk) : k.Usable C hw' := by
  cases h with
  | secret alg seed hAlg => exact .secret alg seed hAlg
  | seed alg info seed hInfo hLen => exact .seed alg info seed hInfo hLen
  | hardware alg info pk h hInfo hLen hLive =>
    exact .hardware alg info pk h hInfo hLen (hKept _ h pk rfl hLive)

/-- What the sections keep: the consistency of the slot, and that no lock was entered from
the middle of an operation. -/
structure KeyInv (C : Crypto) (hw : HwTable) (s : Slot) : Prop where
  consistent : s.Consistent C hw
  preLock : s.preLock ≠ .inUse

theorem KeyInv.holding {C : Crypto} {hw : HwTable} {s : Slot} (hState : s.metadata.state = .loaded)
    (hKey : s.key.Usable C hw) (hSealed : s.Sealed C) (hPre : s.preLock ≠ .inUse) :
    KeyInv C hw s where
  consistent :=
    { notInUse := by rw [hState]; exact SlotState.noConfusion
      keyState := ⟨fun _ => hKey, fun _ => .inl hState⟩
      vacant := fun hNot => absurd (.inl hState) hNot
      pins := fun hUninit => absurd (hState.symm.trans hUninit) SlotState.noConfusion
      sealed := hSealed }
  preLock := hPre

theorem KeyInv.empty {C : Crypto} {hw : HwTable} {s : Slot}
    (hState : s.metadata.state = .empty ∨ (s.metadata.state = .uninit ∧ s.NoPins))
    (hKey : s.key = .none) (hSealed : s.Sealed C) (hPre : s.preLock ≠ .inUse) :
    KeyInv C hw s := by
  have hNot : ¬ s.KeyState := by
    rintro (h | ⟨h, _⟩) <;> rcases hState with hs | ⟨hs, _⟩ <;> rw [hs] at h <;> cases h
  refine ⟨⟨?_, ⟨fun h => absurd h hNot, fun h => ?_⟩, fun _ => hKey, fun hUninit => ?_, hSealed⟩, hPre⟩
  · rcases hState with hs | ⟨hs, _⟩ <;> rw [hs] <;> exact SlotState.noConfusion
  · exact absurd (hKey ▸ h) (not_usable_none C hw)
  · rcases hState with hs | ⟨_, hPins⟩
    · exact absurd (hs.symm.trans hUninit) SlotState.noConfusion
    · exact hPins

/-- A change that leaves key and key state alone and seals again. -/
theorem KeyInv.congr {C : Crypto} {hw : HwTable} {s s' : Slot} (h : KeyInv C hw s)
    (hKey : s'.key = s.key) (hState : s'.KeyState ↔ s.KeyState)
    (hUse : s'.metadata.state ≠ .inUse) (hPins : s'.metadata.state = .uninit → s'.NoPins)
    (hSealed : s'.Sealed C) (hPre : s'.preLock ≠ .inUse) : KeyInv C hw s' where
  consistent :=
    { notInUse := hUse
      keyState := by rw [hKey, hState]; exact h.consistent.keyState
      vacant := fun hNot => by rw [hKey]; exact h.consistent.vacant (hState.not.mp hNot)
      pins := hPins
      sealed := hSealed }
  preLock := hPre

theorem KeyInv.usable {C : Crypto} {hw : HwTable} {s : Slot} (h : KeyInv C hw s)
    (hState : s.KeyState) : s.key.Usable C hw := h.consistent.keyState.mp hState

theorem KeyInv.mono {C : Crypto} {hw hw' : HwTable} {s : Slot} (h : KeyInv C hw s)
    (hKept : ∀ kind hd pk, s.hwHandle = some hd → hw kind hd = some pk → hw' kind hd = some pk) :
    KeyInv C hw' s where
  consistent :=
    { h.consistent with
      keyState := by
        refine ⟨fun hState => (h.usable hState).mono hKept, fun hUsable => ?_⟩
        by_contra hNot
        exact not_usable_none C hw' (h.consistent.vacant hNot ▸ hUsable) }
  preLock := h.preLock

/-! ### The condition on a section -/

/-- A seal that can be computed at the check can be computed again after the change, and the
sections that do not check first can compute it. -/
def SealsWork (e : Env) (evs : List Event) : Prop :=
  (e.sealOk 0 = true → e.sealOk 1 = true) ∧
    ∀ x ∈ evs, match x with
      | .zeroized _ => e.sealOk 0 = true
      | .recordRead .. => e.sealOk 0 = true
      | _ => True

/-- Initializing a token obtains its random bytes and its PIN verifier. -/
def InitWorks (e : Env) (evs : List Event) : Prop :=
  ∀ i, .initStarted i ∈ evs → e.random 0 ≠ none ∧ e.random 1 ≠ none ∧ e.cryptoOk = true

/-- A record that is read back was written from this slot, with no key or with its private
part. -/
def RecordsWhole {ι : Type} (h : DevHist ι n) (evs : List Event) : Prop :=
  ∀ i m r, .recordRead i m r ∈ evs →
    .serialized i m r ∈ h.events ∧ (m.alg = .none ∨ r.sk ≠ none ∨ r.seed ≠ none)

/-- The accelerator connection breaks only while no slot has a key in hardware, and a new
key does not receive a handle that is alive. -/
def HardwareKept {ι : Type} (h : DevHist ι n) (e : Env) (evs : List Event) : Prop :=
  (e.hwDropped = true ∨ .connectionLost ∈ evs → ∀ i, (h.shared.tok.slots i).hwHandle = none) ∧
    ∀ i hd k info hh, .handleIssued i hd k ∈ evs → pqcAlgInfo k.alg = some info →
      k.hwHandle = some hh → h.shared.hw info.kind hh = none

def keyCond {ι : Type} : Pool.Cond ι Call Env (Device n) Event Reply := fun h a evs =>
  match a with
  | .sect _ e => SealsWork e evs ∧ InitWorks e evs ∧ RecordsWhole h evs ∧ HardwareKept h e evs
  | _ => True

/-! ### Sections of one slot -/

section Moves

variable {all : Bool} {i : Nat} {e : Env} {hw : HwTable} {s : Slot}

theorem sealed_slotReseal_of_sealed {C : Crypto} (h : s.Sealed C) (e : Env) (k : Nat) :
    (slotReseal C e k s).2.Sealed C := by
  cases hSeal : e.sealOk k with
  | true => exact sealed_slotReseal hSeal s
  | false => simpa [slotReseal, hSeal] using h

/-- A slot that passed its check can be sealed again after the change. -/
theorem SealsWork.again {evs : List Event} (h : SealsWork e evs)
    (hInt : slotCheckIntegrity S.crypto e 0 s = .ok) : e.sealOk 1 = true := by
  refine h.1 ?_
  unfold slotCheckIntegrity at hInt
  split at hInt
  · exact ‹_ ∧ _›.1
  · cases hInt

theorem checkHandle_integrity {h : HsmHandle} (hCheck : checkHandle S e s h = .ok) :
    slotCheckIntegrity S.crypto e 0 s = .ok :=
  (checkHandle_eq_ok S hCheck).2.2.2

theorem freshKey_usable {hw' : HwTable} {k : KeyMaterial} (h : FreshKey S.crypto e hw k hw')
    (hAlg : pqcAlgInfo k.alg ≠ none) : k.Usable S.crypto hw' := by
  cases h with
  | secret alg seed => exact .secret alg seed fun h => hAlg ((pqcAlgInfo_eq_none_iff _).mpr h)
  | seed alg info seed hInfo hLen => exact .seed alg info seed hInfo hLen
  | hardware alg info pk h hInfo hMade hLen =>
    exact .hardware alg info pk h hInfo hLen (by simp [HwTable.insert])

theorem not_keyState_of {st : SlotState} (h : s.metadata.state = st) (hLoaded : st ≠ .loaded)
    (hLocked : st ≠ .locked) : ¬ s.KeyState := by
  rintro (hs | ⟨hs, _⟩)
  · exact hLoaded (h.symm.trans hs)
  · exact hLocked (h.symm.trans hs)

/-- A slot without a key in place keeps a key and its state apart. -/
theorem KeyInv.key_none (h : KeyInv S.crypto hw s) {st : SlotState} (hState : s.metadata.state = st)
    (hLoaded : st ≠ .loaded) (hLocked : st ≠ .locked) : s.key = .none :=
  h.consistent.vacant (not_keyState_of hState hLoaded hLocked)

theorem keyInv_initToken {r : HsmStatus × Slot × List Event} (h : InitCase S i e s r)
    (hInv : KeyInv S.crypto hw s) (hSeals : SealsWork e r.2.2) (hInit : InitWorks e r.2.2) :
    KeyInv S.crypto hw r.2.1 := by
  cases h with
  | refused st hSt => exact hInv
  | stopped s' _ _ hWhy =>
    obtain ⟨hKey, hSalt, hMac⟩ := hInit i (List.mem_singleton.mpr rfl)
    rcases hWhy with h | h | h
    · exact absurd h hKey
    · exact absurd h hSalt
    · simp [hMac] at h
  | done s' hState hInt hEmpty _ _ _ _ _ hKey hPre =>
    refine .empty (.inl (by simpa using hEmpty)) ?_ (sealed_slotReseal (hSeals.again hInt) s') ?_
    · rw [slotReseal_key, hKey]
      exact hInv.key_none hState (by decide) (by decide)
    · simpa [hPre] using hInv.preLock

theorem keyInv_setUserPin {pin : CString} {r : HsmStatus × Slot × List Event}
    (h : SetPinCase S pin i e s r) (hInv : KeyInv S.crypto hw s) (hSeals : SealsWork e r.2.2) :
    KeyInv S.crypto hw r.2.1 := by
  cases h with
  | refused st hSt => exact hInv
  | stopped salt hState =>
    exact hInv.congr rfl Iff.rfl hInv.consistent.notInUse (fun h => absurd h hState)
      hInv.consistent.sealed hInv.preLock
  | done s' hState hInt hMeta hKey hPre =>
    refine hInv.congr (by simpa using hKey) ?_ ?_ (fun h => absurd ?_ hState)
      (sealed_slotReseal (hSeals.again hInt) s') (by simpa [hPre] using hInv.preLock)
    · simp [Slot.KeyState, hMeta, hPre]
    · simpa [hMeta] using hInv.consistent.notInUse
    · simpa [hMeta] using h

theorem keyInv_withFails {role : HsmRole} {c : UInt32} (hInv : KeyInv S.crypto hw s)
    (hState : s.metadata.state ≠ .uninit) (hSeal : e.sealOk 1 = true) :
    KeyInv S.crypto hw (slotReseal S.crypto e 1 (s.withFails role c)).2 :=
  hInv.congr (by simp [Slot.key]) (by simp [Slot.KeyState])
    (by simpa using hInv.consistent.notInUse) (fun h => absurd (by simpa using h) hState)
    (sealed_slotReseal hSeal _) (by simpa using hInv.preLock)

theorem keyInv_lock (hInv : KeyInv S.crypto hw s) (hLocked : s.metadata.state ≠ .locked)
    {c : UInt32} (hSeal : e.sealOk 1 = true) :
    KeyInv S.crypto hw (slotReseal S.crypto e 1 (s.withFails .user c).lock).2 := by
  refine hInv.congr (by simp [Slot.key]) ?_ (by simp) (fun h => by simp at h)
    (sealed_slotReseal hSeal _) (by simpa using hInv.consistent.notInUse)
  simp [Slot.KeyState, hLocked]

theorem keyInv_login {sess : HsmSession} {role : HsmRole} {pin : CString}
    {r : LoginOut × Slot × List Event} (h : LoginCase S sess i role pin e s r)
    (hInv : KeyInv S.crypto hw s) (hSeals : SealsWork e r.2.2) : KeyInv S.crypto hw r.2.1 := by
  cases h with
  | refused st hSt => exact hInv
  | good m hInt hState => exact keyInv_withFails hInv hState (hSeals.again hInt)
  | badSo hInt hState => exact keyInv_withFails hInv hState (hSeals.again hInt)
  | badUser hInt hState => exact keyInv_withFails hInv hState (hSeals.again hInt)
  | lockout hInt _ hLocked => exact keyInv_lock hInv hLocked (hSeals.again hInt)

theorem keyInv_unlock {r : HsmStatus × Slot × List Event} (h : UnlockCase S i e s r)
    (hInv : KeyInv S.crypto hw s) (hSeals : SealsWork e r.2.2) : KeyInv S.crypto hw r.2.1 := by
  cases h with
  | refused st hSt => exact hInv
  | done hInt hLocked =>
    have hPre := hInv.preLock
    refine hInv.congr (by simp [Slot.key]) ?_ ?_ ?_ (sealed_slotReseal (hSeals.again hInt) _)
      (by simpa using hPre)
    · unfold Slot.KeyState
      cases h : s.preLock <;> simp_all [slotFsmUnlockTarget]
    · cases h : s.preLock <;> simp_all [slotFsmUnlockTarget]
    · cases h : s.preLock <;> simp [h, slotFsmUnlockTarget]

theorem keyInv_destroy {h : HsmHandle} {r : HsmStatus × Slot × List Event}
    (hDestroy : DestroyCase S i h e s r) (hInv : KeyInv S.crypto hw s)
    (hSeals : SealsWork e r.2.2) : KeyInv S.crypto hw r.2.1 := by
  cases hDestroy with
  | refused st hSt => exact hInv
  | done hCheck =>
    exact .empty (.inl (by simp)) (by simp [Slot.key, KeyMaterial.none])
      (sealed_slotReseal (hSeals.again (checkHandle_integrity hCheck)) _)
      (by simpa using hInv.preLock)

theorem keyInv_zeroize (hSeals : SealsWork e (doZeroize S i e s).2.2) :
    KeyInv S.crypto hw (doZeroize S i e s).2.1 := by
  rw [doZeroize_eq] at hSeals ⊢
  have hSeal : e.sealOk 0 = true := hSeals.2 (.zeroized i) List.mem_cons_self
  refine .empty (.inr ⟨by simp, ?_⟩) (by simp [Slot.key, KeyMaterial.none])
    (sealed_slotReseal hSeal _) (by simp)
  rw [slotReseal_snd]
  exact ⟨rfl, rfl, rfl, rfl, rfl, rfl, rfl⟩

theorem keyInv_create {alg : PqcAlg} {usage policy : UInt32}
    {r : (HsmStatus × Option HsmHandle) × (HwTable × Slot) × List Event}
    (h : CreateCase S i alg usage policy e hw s r) (hInv : KeyInv S.crypto hw s)
    (hSeals : SealsWork e r.2.2)
    (hKept : ∀ kind hd pk, s.hwHandle = some hd → hw kind hd = some pk →
      r.2.1.1 kind hd = some pk) : KeyInv S.crypto r.2.1.1 r.2.1.2 := by
  cases h with
  | refused st hSt => exact hInv
  | failed st hw' hSt hState hInt =>
    exact (hInv.mono hKept).congr (by simp) (by simp [Slot.KeyState])
      (by simp [hState]) (by simp [hState])
      (sealed_slotReseal_of_sealed (sealed_of_slotCheckIntegrity hInt) e 2)
      (by simpa using hInv.preLock)
  | unsealed k hw' hBad _ hInt => exact absurd (hSeals.again hInt) (by simp [hBad])
  | made k hw' hSeal _ hInt hk hAlg hFresh =>
    refine .holding (by simp) ?_ (sealed_slotReseal hSeal _) (by simpa using hInv.preLock)
    rw [slotReseal_key]
    exact freshKey_usable hFresh (hk ▸ hAlg)

theorem keyInv_use {h : HsmHandle}
    {r : (HsmStatus × Option Bytes) × (HwTable × Slot) × List Event}
    (hUse : UseCase S i h e hw s r) (hInv : KeyInv S.crypto hw s) (hSeals : SealsWork e r.2.2)
    (hKept : ∀ kind hd pk, s.hwHandle = some hd → hw kind hd = some pk →
      r.2.1.1 kind hd = some pk) : KeyInv S.crypto r.2.1.1 r.2.1.2 := by
  cases hUse with
  | refused st hSt => exact hInv
  | used r hw' count time hCheck hState =>
    exact (hInv.mono hKept).congr (by simp [Slot.key]) (by simp [Slot.KeyState])
      (by simp [hState]) (by simp [hState])
      (sealed_slotReseal (hSeals.again (checkHandle_integrity hCheck)) _)
      (by simpa using hInv.preLock)

/-- A record with no key, or with the private part of its key, of a slot in order. -/
theorem keyInv_deserialize {s₀ : Slot} {hw₀ : HwTable} (h₀ : KeyInv S.crypto hw₀ s₀)
    (hWhole : s₀.metadata.alg = .none ∨ s₀.sk ≠ none ∨ s₀.seed ≠ none) (hSeal : e.sealOk 0 = true) :
    KeyInv S.crypto hw (slotReseal S.crypto e 0 (installRecord s s₀.metadata s₀.record)).2 := by
  have hSealed := sealed_slotReseal hSeal (installRecord s s₀.metadata s₀.record) (C := S.crypto)
  have hNoHandle : s₀.hwHandle = none := by
    by_cases hState : s₀.KeyState
    · obtain ⟨_, _, _, _, _, hForm⟩ := (h₀.usable hState).forms
      rcases hForm with ⟨_, _, _, _, h⟩ | ⟨_, _, _, _, h⟩ | ⟨_, _, _, hSk, hSeed⟩
      · exact h
      · exact h
      · rcases hWhole with h | h | h
        · exact absurd h (h₀.usable hState).alg_ne
        · exact absurd hSk h
        · exact absurd hSeed h
    · exact congrArg KeyMaterial.hwHandle (h₀.consistent.vacant hState)
  have hSame : installRecord s s₀.metadata s₀.record = { s₀ with metaTag := s.metaTag } := by
    rw [installRecord_record, ← hNoHandle]
  rw [hSame] at hSealed ⊢
  have hKept : KeyInv S.crypto hw s₀ := h₀.mono fun _ hd _ hHandle => by simp [hNoHandle] at hHandle
  exact hKept.congr (by simp [Slot.key]) (by simp [Slot.KeyState])
    (by simpa using h₀.consistent.notInUse)
    (fun h => by simpa [Slot.NoPins, slotReseal_snd] using h₀.consistent.pins (by simpa using h))
    hSealed (by simpa using h₀.preLock)

/-- The table after a section: as before, cut off, or with a fresh handle of the new key. -/
theorem slotStep_hw {r : HwTable × Slot × List Event} (h : SlotStep S all i e hw s r)
    (hSeals : SealsWork e r.2.2) : r.1 = hw ∨ r.1 = hw.after e ∨
      ∃ hd k info hh pk, .handleIssued i hd k ∈ r.2.2 ∧ pqcAlgInfo k.alg = some info ∧
        k.hwHandle = some hh ∧ r.1 = hw.insert info.kind hh pk := by
  cases h with
  | create h =>
    cases h with
    | refused => exact .inl rfl
    | failed st hw' _ _ _ hHw => exact hHw.imp_right .inl
    | unsealed k hw' hBad _ hInt => exact absurd (hSeals.again hInt) (by simp [hBad])
    | made k hw' _ _ _ _ _ hFresh =>
      cases hFresh with
      | secret => exact .inl rfl
      | seed => exact .inl rfl
      | hardware alg info pk hh hInfo =>
        exact .inr (.inr ⟨_, _, info, hh, pk, List.mem_cons_self, hInfo, rfl, rfl⟩)
  | use h =>
    cases h with
    | refused => exact .inl rfl
    | used _ hw' _ _ _ _ hHw => exact hHw.imp_right .inl
  | _ => exact .inl rfl

theorem slotStep_serialized {r : HwTable × Slot × List Event} (h : SlotStep S all i e hw s r)
    (j : Nat) (m : SlotMeta) (rec : SlotRecord) : .serialized j m rec ∉ r.2.2 := by
  have hChanged : ∀ (b : Prop) [Decidable b],
      .serialized j m rec ∉ (if b then [Event.slotChanged i] else []) := by
    intro b _
    split <;> simp
  cases h with
  | initToken h => cases h <;> simp [hChanged]
  | setUserPin h => cases h <;> simp [hChanged]
  | login _ h => cases h <;> simp
  | create h => cases h <;> simp
  | use h => cases h <;> simp
  | publicKey h => cases h <;> simp
  | destroy h => cases h <;> simp [hChanged]
  | zeroize _ => simp [doZeroize_eq, hChanged]
  | unlock h => cases h <;> simp [hChanged]
  | idle => simp
  | deserialize => simp

theorem keyInv_slotStep {r : HwTable × Slot × List Event} (h : SlotStep S all i e hw s r)
    (hInv : KeyInv S.crypto hw s) (hSeals : SealsWork e r.2.2) (hInit : InitWorks e r.2.2)
    (hRecords : ∀ m rec, .recordRead i m rec ∈ r.2.2 →
      (∃ s₀ hw₀, KeyInv S.crypto hw₀ s₀ ∧ s₀.metadata = m ∧ s₀.record = rec) ∧
        (m.alg = .none ∨ rec.sk ≠ none ∨ rec.seed ≠ none))
    (hKept : ∀ kind hd pk, s.hwHandle = some hd → hw kind hd = some pk →
      r.1 kind hd = some pk) : KeyInv S.crypto r.1 r.2.1 := by
  cases h with
  | idle => exact hInv
  | initToken h => exact keyInv_initToken h hInv hSeals hInit
  | setUserPin h => exact keyInv_setUserPin h hInv hSeals
  | login _ h => exact keyInv_login h hInv hSeals
  | create h => exact keyInv_create h hInv hSeals hKept
  | use h => exact keyInv_use h hInv hSeals hKept
  | publicKey h => cases h <;> exact hInv
  | destroy h => exact keyInv_destroy h hInv hSeals
  | zeroize _ => exact keyInv_zeroize hSeals
  | unlock h => exact keyInv_unlock h hInv hSeals
  | deserialize m rec =>
    obtain ⟨⟨s₀, hw₀, h₀, rfl, rfl⟩, hWhole⟩ := hRecords m rec (List.mem_singleton.mpr rfl)
    exact keyInv_deserialize h₀ hWhole (hSeals.2 _ (List.mem_singleton.mpr rfl))

end Moves

/-! ### Runs -/

structure KeysInOrder (S : Setup) {ι : Type} (h : DevHist ι n) : Prop where
  slots : ∀ i : Fin n, KeyInv S.crypto h.shared.hw (h.shared.tok.slots i)
  records : ∀ i m r, .serialized i m r ∈ h.events →
    ∃ s hw, KeyInv S.crypto hw s ∧ s.metadata = m ∧ s.record = r

theorem keyInv_fresh (C : Crypto) (hw : HwTable) (id : Nat) : KeyInv C hw (freshSlot C id) :=
  .empty (.inr ⟨rfl, rfl, rfl, rfl, rfl, rfl, rfl, rfl⟩) rfl rfl SlotState.noConfusion

theorem keysInOrder_slotStep {ι : Type} {h : DevHist ι n} (hOrder : KeysInOrder S h) (t : ι)
    {all : Bool} {e : Env} (i : Fin n) {r : HwTable × Slot × List Event}
    (hStep : SlotStep S all i e h.shared.hw (h.shared.tok.slots i) r)
    (hok : keyCond h (.sect t e) r.2.2) :
    KeysInOrder S (h.emits t ({ h.shared.setSlot i r.2.1 with hw := r.1 }, r.2.2)) := by
  obtain ⟨hSeals, hInit, hRecords, hHw⟩ := hok
  have hKept : ∀ j kind hd pk, (h.shared.tok.slots j).hwHandle = some hd →
      h.shared.hw kind hd = some pk → r.1 kind hd = some pk := by
    intro j kind hd pk hHandle hLive
    rcases slotStep_hw hStep hSeals with hEq | hEq | ⟨hd', k, info, hh, pk', hIssued, hInfo, hk, hEq⟩
    · rwa [hEq]
    · rw [hEq]
      unfold HwTable.after
      split
      · rename_i hDropped
        simp [hHw.1 (.inl hDropped) j] at hHandle
      · exact hLive
    · have hFree := hHw.2 i hd' k info hh hIssued hInfo hk
      rw [hEq, HwTable.insert]
      by_cases hKind : kind = info.kind
      · subst hKind
        have hNe : hd ≠ hh := by
          rintro rfl
          simp [hFree] at hLive
        simpa [hNe] using hLive
      · simpa [hKind] using hLive
  refine ⟨fun j => ?_, fun j m rec hMem => ?_⟩
  · by_cases hj : j = i
    · subst j
      have hSlot := keyInv_slotStep hStep (hOrder.slots i) hSeals hInit
        (fun m rec hMem => ⟨hOrder.records i m rec (hRecords i m rec hMem).1,
          (hRecords i m rec hMem).2⟩) (hKept i)
      simpa using hSlot
    · have hOther := (hOrder.slots j).mono (hKept j)
      simpa [Function.update_of_ne hj] using hOther
  · rw [Hist.events_emits] at hMem
    rcases List.mem_append.mp hMem with hNew | hOld
    · exact absurd (List.mem_reverse.mp hNew) (slotStep_serialized hStep j m rec)
    · exact hOrder.records j m rec hOld

/-- Events without a record leave what is known of the records. -/
theorem KeysInOrder.of_quiet {ι : Type} {h : DevHist ι n} (hOrder : KeysInOrder S h) (t : ι)
    {d : Device n} {evs : List Event} (hSlots : ∀ i, KeyInv S.crypto d.hw (d.tok.slots i))
    (hEvs : ∀ i m r, .serialized i m r ∉ evs) : KeysInOrder S (h.emits t (d, evs)) := by
  refine ⟨hSlots, fun i m r hMem => ?_⟩
  rw [Hist.events_emits] at hMem
  rcases List.mem_append.mp hMem with hNew | hOld
  · exact absurd (List.mem_reverse.mp hNew) (hEvs i m r)
  · exact hOrder.records i m r hOld

theorem keysInOrder_step {ι : Type} {h : DevHist ι n} (hOrder : KeysInOrder S h) (t : ι)
    {all : Bool} {e : Env} {r : Device n × List Event} (hStep : DeviceStep S all e h.shared r)
    (hok : keyCond h (.sect t e) r.2) : KeysInOrder S (h.emits t r) := by
  cases hStep with
  | slot i r hSlot => exact keysInOrder_slotStep hOrder t i hSlot hok
  | token r hTok =>
    refine hOrder.of_quiet t (fun i => ?_) fun i m rec => ?_
    · rw [hTok.slots]
      exact hOrder.slots i
    · cases hTok <;> simp
  | store r hStore =>
    refine ⟨fun i => ?_, fun i m rec hMem => ?_⟩
    · rw [Hist.emits_shared, hStore.slots, hStore.hw]
      exact hOrder.slots i
    · rw [Hist.events_emits] at hMem
      rcases List.mem_append.mp hMem with hNew | hOld
      · cases hStore with
        | serialize j =>
          simp only [List.reverse_singleton, List.mem_singleton, Event.serialized.injEq] at hNew
          obtain ⟨rfl, rfl, rfl⟩ := hNew
          exact ⟨_, _, hOrder.slots j, rfl, rfl⟩
        | file fs evs hEvs => exact (hEvs _ (List.mem_reverse.mp hNew)).elim
        | _ => simp at hNew
      · exact hOrder.records i m rec hOld
  | hwDrop =>
    refine hOrder.of_quiet t (fun i => ?_) (by simp)
    have hNone := hok.2.2.2.1 (.inr (List.mem_singleton.mpr rfl)) i
    exact (hOrder.slots i).mono fun _ hd _ hHandle => by simp [hNone] at hHandle

/-- In every run of the slot layer, power cycles included, state, key material, PIN material
and seal of every slot agree after every section that meets the condition. -/
theorem slots_consistent {ι : Type} [DecidableEq ι] {c : DevConfig ι n}
    (h : (cycledPool S n ι).Reaches keyCond c) (i : Fin n) :
    (c.hist.shared.tok.slots i).Consistent S.crypto c.hist.shared.hw := by
  have hAll : KeysInOrder S c.hist := by
    refine cycledPool_invariant (A := KeysInOrder S) ?_ ?_ ?_ ?_ ?_ h
    · rintro d ⟨-, -, hTok, -⟩
      refine ⟨fun i => ?_, fun i m r hMem => (nomatch hMem)⟩
      change KeyInv S.crypto d.hw (d.tok.slots i)
      rw [hTok]
      exact keyInv_fresh _ _ _
    · rintro h d hA ⟨hTok, -, -⟩
      refine ⟨fun i => ?_, hA.records⟩
      change KeyInv S.crypto d.hw (d.tok.slots i)
      rw [hTok]
      exact keyInv_fresh _ _ _
    · exact fun t k h hA => ⟨hA.slots, hA.records⟩
    · exact fun t k a h hA => ⟨hA.slots, hA.records⟩
    · exact fun t h e r hStep hA hok => keysInOrder_step hA t hStep hok
  exact (hAll.slots i).consistent

section Runs

/-! ### Concrete runs -/

/-- The section meets the condition, as far as a run without an accelerator needs it. -/
def meetsKeyCond (h : DevHist Unit 1) : Act Unit Call Env → List Event → Bool
  | .sect _ e, evs =>
    e.sealOk 0 && e.sealOk 1 && (e.random 0).isSome && (e.random 1).isSome && e.cryptoOk &&
      !e.hwDropped && evs.all fun
        | .connectionLost => false
        | .handleIssued _ _ k => k.hwHandle.isNone
        | .recordRead i m r => decide (.serialized i m r ∈ h.events) && r.seed.isSome
        | _ => true
  | _, _ => true

theorem keyCond_of_meetsKeyCond (h : DevHist Unit 1) (a : Act Unit Call Env) (evs : List Event)
    (hMeets : meetsKeyCond h a evs = true) : keyCond h a evs := by
  cases a with
  | sect t e =>
    simp only [meetsKeyCond, Bool.and_eq_true, Bool.not_eq_true', List.all_eq_true] at hMeets
    obtain ⟨⟨⟨⟨⟨⟨hSeal₀, hSeal₁⟩, hKey⟩, hSalt⟩, hCrypto⟩, hKept⟩, hEvs⟩ := hMeets
    refine ⟨⟨fun _ => hSeal₁, fun x hx => ?_⟩, fun i _ => ?_, fun i m r hMem => ?_, ?_, ?_⟩
    · cases x <;> trivial
    · exact ⟨Option.ne_none_iff_isSome.mpr hKey, Option.ne_none_iff_isSome.mpr hSalt, hCrypto⟩
    · have hRead := hEvs _ hMem
      simp only [Bool.and_eq_true, decide_eq_true_eq] at hRead
      exact ⟨hRead.1, .inr (.inr (Option.ne_none_iff_isSome.mpr hRead.2))⟩
    · rintro (hDropped | hLost)
      · simp [hKept] at hDropped
      · exact absurd (hEvs _ hLost) (by simp)
    · intro i hd k info hh hMem _ hk
      have hNone := hEvs _ hMem
      simp [hk] at hNone
  | _ => trivial

theorem slots_consistent_reloaded : ∃ c : DevConfig Unit 1,
    (c.hist.shared.tok.slots 0).metadata.state = .loaded ∧
      (c.hist.shared.tok.slots 0).Consistent Setup.clear.crypto c.hist.shared.hw := by
  obtain ⟨c, hRun, hState⟩ := Pool.exists_scheduleAll meetsKeyCond keyCond_of_meetsKeyCond
    (powerUp_init_cycled Setup.clear Nat.one_pos (by decide))
    (userRun () ++ Pool.calling () (.generate firstSession .mlKem512 3 SLOT_POLICY_SEED_STORAGE) 16
      (.calm 1) ++ Pool.calling () .keystoreLoad 4 (.calm 7))
    (fun c : DevConfig Unit 1 => (c.hist.shared.tok.slots 0).metadata.state = .loaded)
    (by decide +kernel)
  exact ⟨c, hState, slots_consistent hRun 0⟩

/-- Clear cryptography and an accelerator that keeps every key. -/
def Setup.accelerated : Setup := ⟨.clear, fun _ => true, false, .hardware⟩

/-- The accelerator makes a key pair and returns handle 5. -/
def Env.accelerated : Env := { Env.calm 7 with hwKeypair := .made (List.replicate 800 1) 5 }

/-- A key that stays in the accelerator is saved without a private part; loading the file that
was just saved leaves the slot loaded with nothing to use. -/
theorem hardware_key_lost_by_load : ∃ c : DevConfig Unit 1,
    (cycledPool .accelerated 1 Unit).Reaches Pool.always c ∧
      ¬ (c.hist.shared.tok.slots 0).Consistent Setup.accelerated.crypto c.hist.shared.hw := by
  obtain ⟨c, hRun, hState, hSk, hSeed, hHandle⟩ := Pool.exists_scheduleAll Pool.unchecked
    Pool.always_of_unchecked (powerUp_init_cycled Setup.accelerated Nat.one_pos (by decide))
    (userRun () ++ Pool.calling () (.generate firstSession .mlKem512 3 0) 16 .accelerated ++
      Pool.calling () .keystoreLoad 4 (.calm 7))
    (fun c : DevConfig Unit 1 => (c.hist.shared.tok.slots 0).metadata.state = .loaded ∧
      (c.hist.shared.tok.slots 0).sk = none ∧ (c.hist.shared.tok.slots 0).seed = none ∧
      (c.hist.shared.tok.slots 0).hwHandle = none) (by decide +kernel)
  refine ⟨c, hRun, fun hConsistent => ?_⟩
  obtain ⟨_, _, _, _, _, hForm⟩ := (hConsistent.keyState.mp (.inl hState)).forms
  simp only [Slot.key] at hForm
  simp [hSk, hSeed, hHandle] at hForm

end Runs

end PqcHsm
