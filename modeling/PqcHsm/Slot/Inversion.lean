import PqcHsm.Slot.Manager

/-!
# What each section can do to a slot

One inversion for each body that runs under a slot lock. It names the outcomes, with
the guards under which they happen, the slot left behind and the events. Invariants
are proved from these and never unfold a body.
-/

namespace PqcHsm

open ByteCodec

section Reseal

variable (C : Crypto) (e : Env) (k : Nat) (s : Slot)

@[simp] theorem slotReseal_metadata : (slotReseal C e k s).2.metadata = s.metadata := by
  rw [slotReseal_snd]

@[simp] theorem slotReseal_preLock : (slotReseal C e k s).2.preLock = s.preLock := by
  rw [slotReseal_snd]

@[simp] theorem slotReseal_pinMaterial (role : HsmRole) :
    (slotReseal C e k s).2.pinMaterial role = s.pinMaterial role := by
  rw [slotReseal_snd]
  cases role <;> rfl

@[simp] theorem slotReseal_hasUserPin : (slotReseal C e k s).2.hasUserPin = s.hasUserPin := by
  rw [slotReseal_snd]

@[simp] theorem slotReseal_hasSoPin : (slotReseal C e k s).2.hasSoPin = s.hasSoPin := by
  rw [slotReseal_snd]

@[simp] theorem slotReseal_key : (slotReseal C e k s).2.key = s.key := by
  rw [slotReseal_snd]
  rfl

@[simp] theorem slotReseal_pk : (slotReseal C e k s).2.pk = s.pk := by rw [slotReseal_snd]

@[simp] theorem slotReseal_sk : (slotReseal C e k s).2.sk = s.sk := by rw [slotReseal_snd]

@[simp] theorem slotReseal_seed : (slotReseal C e k s).2.seed = s.seed := by rw [slotReseal_snd]

@[simp] theorem slotReseal_hwHandle : (slotReseal C e k s).2.hwHandle = s.hwHandle := by
  rw [slotReseal_snd]

theorem slotReseal_fst : (slotReseal C e k s).1 = if e.sealOk k then .ok else .errCrypto := by
  unfold slotReseal
  split <;> rfl

theorem slotCheckIntegrity_cases :
    slotCheckIntegrity C e k s = .ok ∨ slotCheckIntegrity C e k s = .errIntegrity := by
  unfold slotCheckIntegrity
  split
  · exact .inl rfl
  · exact .inr rfl

end Reseal

@[simps]
def Slot.withState (s : Slot) (st : SlotState) : Slot :=
  { s with metadata := { s.metadata with state := st } }

theorem fsmApply_initToken {s s' : Slot} (h : fsmApply s .initToken = some s') :
    s.metadata.state = .uninit ∧ s' = s.withState .empty := by
  unfold fsmApply at h
  cases hs : s.metadata.state <;> rw [hs] at h <;> cases h
  exact ⟨rfl, rfl⟩

theorem fsmApply_useBegin {s s' : Slot} (h : fsmApply s .useBegin = some s') :
    s.metadata.state = .loaded ∧ s' = s.withState .inUse := by
  unfold fsmApply at h
  cases hs : s.metadata.state <;> rw [hs] at h <;> cases h
  exact ⟨rfl, rfl⟩

theorem fsmApply_useEnd (s : Slot) :
    (fsmApply (s.withState .inUse) .useEnd).getD (s.withState .inUse) = s.withState .loaded := rfl

theorem fsmApply_destroy {s s' : Slot} (h : fsmApply s .destroy = some s') :
    s.metadata.state = .loaded ∧ s' = s.withState .empty := by
  unfold fsmApply at h
  cases hs : s.metadata.state <;> rw [hs] at h <;> cases h
  exact ⟨rfl, rfl⟩

theorem fsmApply_zeroize (s : Slot) : fsmApply s .zeroize = some (s.withState .uninit) := by
  unfold fsmApply
  rw [slotFsmNext_zeroize]
  rfl

theorem fsmApply_create {s s' : Slot} {ev : SlotEvent} (hev : ev = .generate ∨ ev = .load)
    (h : fsmApply s ev = some s') :
    s.metadata.state = .empty ∧ s' = s.withState .loaded := by
  unfold fsmApply at h
  rcases hev with rfl | rfl <;> cases hs : s.metadata.state <;> rw [hs] at h <;> cases h <;>
    exact ⟨rfl, rfl⟩

theorem fsmApply_soUnlock {s s' : Slot} (h : fsmApply s .soUnlock = some s') :
    s.metadata.state = .locked ∧ s' = s.withState (slotFsmUnlockTarget s.preLock) := by
  unfold fsmApply at h
  cases hs : s.metadata.state <;> rw [hs] at h <;> cases h
  exact ⟨rfl, rfl⟩

/-- The slot after a lockout. -/
@[simps]
def Slot.lock (s : Slot) : Slot := { s.withState .locked with preLock := s.metadata.state }

theorem fsmApply_pinLockout {s : Slot} (hU : s.metadata.state ≠ .uninit)
    (hL : s.metadata.state ≠ .locked) : fsmApply s .pinLockout = some s.lock := by
  unfold fsmApply
  cases hs : s.metadata.state <;> simp_all [slotFsmNext, Slot.lock, Slot.withState]

theorem withState_self (s : Slot) : s.withState s.metadata.state = s := rfl

theorem withState_of_eq {s : Slot} {st : SlotState} (h : s.metadata.state = st) :
    s.withState st = s := by
  subst h
  rfl

section Pins

variable (S : Setup)

def PinMaterial.accepts (C : Crypto) (m : PinMaterial) (slotId : UInt32) (role : HsmRole)
    (pin : CString) : Prop :=
  pinVerifierValue C m.pinKey slotId role m.salt pin = m.verifier

instance (C : Crypto) (m : PinMaterial) (slotId : UInt32) (role : HsmRole) (pin : CString) :
    Decidable (m.accepts C slotId role pin) := inferInstanceAs (Decidable (_ = _))

/-- `hsm_slot_init_token`: refused, stopped on the way with the slot already empty, or done. -/
inductive InitCase (id : Nat) (e : Env) (s : Slot) : HsmStatus × Slot × List Event → Prop where
  | refused (st : HsmStatus) : st ≠ .ok → InitCase id e s (st, s, [])
  | stopped (s' : Slot) : s.metadata.state = .uninit → slotCheckIntegrity S.crypto e 0 s = .ok →
      e.random 0 = none ∨ e.random 1 = none ∨ e.cryptoOk = false →
      s'.metadata = (s.withState .empty).metadata →
      s'.hasSoPin = s.hasSoPin → s'.hasUserPin = s.hasUserPin →
      s'.key = s.key → s'.preLock = s.preLock → InitCase id e s (.errCrypto, s', [.initStarted id])
  | done (s' : Slot) : s.metadata.state = .uninit → slotCheckIntegrity S.crypto e 0 s = .ok →
      s'.metadata.state = .empty → s'.metadata.slotId = s.metadata.slotId →
      s'.metadata.version = s.metadata.version →
      s'.metadata.generation = s.metadata.generation → s'.metadata.userPinFails = 0 →
      s'.hasUserPin = s.hasUserPin → s'.key = s.key → s'.preLock = s.preLock →
      InitCase id e s ((slotReseal S.crypto e 1 s').1, (slotReseal S.crypto e 1 s').2,
        .initStarted id :: if (slotReseal S.crypto e 1 s').1 = .ok then [.slotChanged id] else [])

theorem bytes_eq_none {e : Env} {k n : Nat} (h : e.bytes k n = none) : e.random k = none := by
  simpa [Env.bytes] using h

theorem pinVerifier_eq_none {C : Crypto} {e : Env} {pinKey : ByteVec 32} {slotId : UInt32}
    {role : HsmRole} {salt : ByteVec PIN_SALT_LEN} {pin : CString} (hPin : validPin pin = true)
    (h : pinVerifier C e pinKey slotId role salt pin = none) : e.cryptoOk = false := by
  have hLen : ¬ HSM_PIN_MAX_LEN < pin.length := by
    simp only [validPin, decide_eq_true_eq] at hPin
    omega
  unfold pinVerifier at h
  rw [if_neg hLen] at h
  split at h
  · cases h
  · simpa using ‹¬ e.cryptoOk = true›

theorem initTokenLocked_cases (label : CString) {soPin : CString} (hPin : validPin soPin = true)
    (id : Nat) (e : Env) (s : Slot) :
    InitCase S id e s (initTokenLocked S id label soPin e s) := by
  unfold initTokenLocked
  split
  · rename_i hInt
    split
    · exact .refused _ HsmStatus.noConfusion
    · rename_i s₁ hFsm
      obtain ⟨hState, rfl⟩ := fsmApply_initToken hFsm
      split
      · rename_i hKey
        exact .stopped _ hState hInt (.inl (bytes_eq_none hKey)) rfl rfl rfl rfl rfl
      · dsimp only
        split
        · rename_i hSalt
          exact .stopped _ hState hInt (.inr (.inl (bytes_eq_none hSalt))) rfl rfl rfl rfl rfl
        · split
          · rename_i hVerifier
            exact .stopped _ hState hInt (.inr (.inr (pinVerifier_eq_none hPin hVerifier)))
              rfl rfl rfl rfl rfl
          · exact .done _ hState hInt rfl rfl rfl rfl rfl rfl rfl rfl
  · rename_i st hSt
    exact .refused _ hSt

/-- `hsm_slot_set_user_pin`: refused, or the User material is replaced in part or in full. -/
inductive SetPinCase (userPin : CString) (id : Nat) (e : Env) (s : Slot) :
    HsmStatus × Slot × List Event → Prop where
  | refused (st : HsmStatus) : st ≠ .ok → SetPinCase userPin id e s (st, s, [])
  | stopped (salt : ByteVec PIN_SALT_LEN) : s.metadata.state ≠ .uninit →
      slotCheckIntegrity S.crypto e 0 s = .ok →
      SetPinCase userPin id e s (.errCrypto, { s with userSalt := salt },
        [.userPinSet id (s.pinMaterial .user) ({ s with userSalt := salt }.pinMaterial .user)])
  | done (s' : Slot) : s.metadata.state ≠ .uninit → slotCheckIntegrity S.crypto e 0 s = .ok →
      s'.metadata = { s.metadata with userPinFails := 0 } → s'.key = s.key →
      s'.preLock = s.preLock → s'.hasSoPin = s.hasSoPin → s'.pinMaterial .so = s.pinMaterial .so →
      s'.hasUserPin = true →
      SetPinCase userPin id e s ((slotReseal S.crypto e 1 s').1, (slotReseal S.crypto e 1 s').2,
        .userPinSet id (s.pinMaterial .user) (s'.pinMaterial .user) :: .userFailsReset id ::
          if (slotReseal S.crypto e 1 s').1 = .ok then [.slotChanged id] else [])

theorem setUserPinLocked_cases (userPin : CString) (id : Nat) (e : Env) (s : Slot) :
    SetPinCase S userPin id e s (setUserPinLocked S id userPin e s) := by
  unfold setUserPinLocked
  split
  · rename_i hInt
    split
    · exact .refused _ HsmStatus.noConfusion
    · rename_i hState
      split
      · exact .refused _ HsmStatus.noConfusion
      · dsimp only
        split
        · exact .stopped _ hState hInt
        · exact .done _ hState hInt rfl rfl rfl rfl rfl rfl
  · rename_i st hSt
    exact .refused _ hSt

/-- The slot with the failure counter of a role set. -/
@[simps]
def Slot.withFails (s : Slot) (role : HsmRole) (c : UInt32) : Slot :=
  { s with metadata := { s.metadata with
      soPinFails := if role = .so then c else s.metadata.soPinFails
      userPinFails := if role = .so then s.metadata.userPinFails else c } }

theorem withFails_pinMaterial (s : Slot) (role : HsmRole) (c : UInt32) (role' : HsmRole) :
    (s.withFails role c).pinMaterial role' = s.pinMaterial role' := rfl

/-- A login attempt: refused before any comparison, a good PIN, a bad SO PIN, a bad User
PIN below the limit, or the bad User PIN that locks the slot. -/
inductive LoginCase (sess : HsmSession) (id : Nat) (role : HsmRole) (pin : CString) (e : Env)
    (s : Slot) : LoginOut × Slot × List Event → Prop where
  | refused (st : HsmStatus) : st ≠ .ok → LoginCase sess id role pin e s (⟨st, false, false⟩, s, [])
  | good (m : PinMaterial) : slotCheckIntegrity S.crypto e 0 s = .ok → s.metadata.state ≠ .uninit →
      (role = .user → s.metadata.state ≠ .locked) → s.pinMaterial role = some m →
      m.accepts S.crypto s.metadata.slotId role pin →
      LoginCase sess id role pin e s
        (⟨(slotReseal S.crypto e 1 (s.withFails role 0)).1, true, true⟩,
          (slotReseal S.crypto e 1 (s.withFails role 0)).2,
          [.pinCompared sess id role pin true, .slotChanged id])
  | badSo : slotCheckIntegrity S.crypto e 0 s = .ok → s.metadata.state ≠ .uninit → role = .so →
      LoginCase sess id role pin e s (⟨.errPinIncorrect, false, true⟩,
        (slotReseal S.crypto e 1 (s.withFails .so (s.metadata.soPinFails + 1))).2,
        [.pinCompared sess id role pin false, .slotChanged id])
  | badUser : slotCheckIntegrity S.crypto e 0 s = .ok → s.metadata.state ≠ .uninit →
      s.metadata.state ≠ .locked → role ≠ .so → s.hasUserPin = true →
      (s.metadata.userPinFails + 1).toNat < HSM_PIN_MAX_FAILS →
      LoginCase sess id role pin e s (⟨.errPinIncorrect, false, true⟩,
        (slotReseal S.crypto e 1 (s.withFails .user (s.metadata.userPinFails + 1))).2,
        [.pinCompared sess id role pin false, .slotChanged id])
  | lockout : slotCheckIntegrity S.crypto e 0 s = .ok → s.metadata.state ≠ .uninit →
      s.metadata.state ≠ .locked → role ≠ .so → s.hasUserPin = true →
      HSM_PIN_MAX_FAILS ≤ (s.metadata.userPinFails + 1).toNat →
      LoginCase sess id role pin e s (⟨.errPinLocked, false, true⟩,
        (slotReseal S.crypto e 1 (s.withFails .user (s.metadata.userPinFails + 1)).lock).2,
        [.pinCompared sess id role pin false, .lockedOut id s.metadata.state, .slotChanged id])

theorem pinOf_material {s : Slot} {role : HsmRole} (h : (s.pinOf role).2.2 = true) :
    s.pinMaterial role = some ⟨s.pinKey, (s.pinOf role).1, (s.pinOf role).2.1⟩ := by
  cases role <;> simp_all [Slot.pinOf, Slot.pinMaterial]

theorem pinVerifier_eq_some {C : Crypto} {e : Env} {pinKey : ByteVec 32} {slotId : UInt32}
    {role : HsmRole} {salt : ByteVec PIN_SALT_LEN} {pin : CString} {got : ByteVec VERIFIER_LEN}
    (h : pinVerifier C e pinKey slotId role salt pin = some got) :
    pinVerifierValue C pinKey slotId role salt pin = got := by
  unfold pinVerifier at h
  split at h
  · cases h
  · split at h
    · cases h
      rfl
    · cases h

theorem loginLocked_cases (sess : HsmSession) (id : Nat) (role : HsmRole) (pin : CString)
    (e : Env) (s : Slot) (hRole : role ≠ .pub) :
    LoginCase S sess id role pin e s (loginLocked S sess id role pin e s) := by
  unfold loginLocked
  split
  · rename_i hInt
    split
    · exact .refused .errBadState HsmStatus.noConfusion
    · rename_i hUninit
      split
      · exact .refused .errPinLocked HsmStatus.noConfusion
      · rename_i hLocked
        split
        rename_i salt want has hPin
        split
        · exact .refused .errNotAuthorized HsmStatus.noConfusion
        · rename_i hHas
          have hHas : (s.pinOf role).2.2 = true := by simpa [hPin] using hHas
          split
          · exact .refused .errCrypto HsmStatus.noConfusion
          · rename_i got hGot
            obtain rfl := pinVerifier_eq_some hGot
            split
            · rename_i hEq
              have hAccepts : PinMaterial.accepts S.crypto
                  ⟨s.pinKey, (s.pinOf role).1, (s.pinOf role).2.1⟩ s.metadata.slotId role pin := by
                rw [hPin]
                exact hEq
              have hFails : { s with metadata := if role = .so then
                  { s.metadata with soPinFails := 0 } else { s.metadata with userPinFails := 0 } } =
                  s.withFails role 0 := by
                cases role <;> rfl
              dsimp only
              rw [hFails]
              exact .good _ hInt hUninit (fun hr hl => hLocked ⟨hl, hr⟩)
                (pinOf_material hHas) hAccepts
            · split
              · rename_i hSo
                subst hSo
                exact .badSo hInt hUninit rfl
              · rename_i hSo
                have hUser : role = .user := by cases role <;> simp_all
                subst hUser
                have hNotLocked : s.metadata.state ≠ .locked := fun hl => hLocked ⟨hl, rfl⟩
                dsimp only
                split
                · rename_i hMax
                  have hLock : fsmApply (s.withFails .user (s.metadata.userPinFails + 1))
                      .pinLockout = some _ := fsmApply_pinLockout hUninit hNotLocked
                  split
                  · rename_i s' hFsm
                    obtain rfl := Option.some.inj (hLock.symm.trans hFsm)
                    exact .lockout hInt hUninit hNotLocked hSo hHas hMax
                  · rename_i hFsm
                    exact absurd (hLock.symm.trans hFsm) (by simp)
                · rename_i hMax
                  exact .badUser hInt hUninit hNotLocked hSo hHas (Nat.lt_of_not_le hMax)
  · rename_i st hSt
    exact .refused _ hSt

end Pins

section Keys

variable (S : Setup)

theorem checkHandle_eq_ok {e : Env} {s : Slot} {h : HsmHandle} (hOk : checkHandle S e s h = .ok) :
    h.sid = s.metadata.slotId + 1 ∧ h.gen = s.metadata.generation ∧
      (s.metadata.state = .loaded ∨ s.metadata.state = .inUse) ∧
      slotCheckIntegrity S.crypto e 0 s = .ok := by
  unfold checkHandle at hOk
  split at hOk
  · cases hOk
  · rename_i hHandle
    split at hOk
    · cases hOk
    · rename_i hState
      refine ⟨?_, ?_, ?_, hOk⟩
      · by_contra hSid
        exact hHandle (.inr (.inl hSid))
      · by_contra hGen
        exact hHandle (.inr (.inr hGen))
      · by_contra hNot
        exact hState ⟨fun hl => hNot (.inl hl), fun hu => hNot (.inr hu)⟩

/-- A key pair as an installation obtains it: expanded from a seed and stored as the secret
key or as the seed, or made by the accelerator, which keeps the secret part. -/
inductive FreshKey (C : Crypto) (e : Env) (hw : HwTable) : KeyMaterial → HwTable → Prop where
  | secret (alg : PqcAlg) (seed : Bytes) : FreshKey C e hw
      ⟨alg, some (C.keypairFromSeed alg seed).1, some (C.keypairFromSeed alg seed).2, none, none⟩ hw
  | seed (alg : PqcAlg) (info : PqcAlgInfo) (seed : Bytes) : pqcAlgInfo alg = some info →
      seed.length = info.seedLen → FreshKey C e hw
      ⟨alg, some (C.keypairFromSeed alg seed).1, none, some seed, none⟩ hw
  | hardware (alg : PqcAlg) (info : PqcAlgInfo) (pk : Bytes) (h : UInt32) :
      pqcAlgInfo alg = some info → e.hwKeypair = .made pk h → pk.length = info.pkLen →
      FreshKey C e hw ⟨alg, some pk, none, none, some h⟩ (hw.insert info.kind h pk)

/-- The slot with a key in place of its own. -/
@[simps]
def Slot.putKey (s : Slot) (k : KeyMaterial) (usage policy : UInt32) : Slot :=
  { s with
    metadata := newKeyMeta s.metadata k.alg usage policy
    pk := k.pk
    sk := k.sk
    seed := k.seed
    hwHandle := k.hwHandle }

@[simp] theorem putKey_key (s : Slot) (k : KeyMaterial) (usage policy : UInt32) :
    (s.putKey k usage policy).key = k := rfl

/-- `install_key` fails with the slot untouched, or puts a fresh key into it and seals it. -/
inductive InstallCase (alg : PqcAlg) (usage policy : UInt32) (e : Env) (hw : HwTable) (s : Slot) :
    (HsmStatus × Option HsmHandle) × HwTable × Slot → Prop where
  | failed (st : HsmStatus) (hw' : HwTable) : st ≠ .ok → (hw' = hw ∨ hw' = hw.after e) →
      InstallCase alg usage policy e hw s ((st, none), hw', s)
  | put (k : KeyMaterial) (hw' : HwTable) : k.alg = alg → pqcAlgInfo alg ≠ none →
      FreshKey S.crypto e hw k hw' →
      InstallCase alg usage policy e hw s ((sealKey S e (s.putKey k usage policy)).1, hw',
        (sealKey S e (s.putKey k usage policy)).2)

theorem installSoftKey_cases {alg : PqcAlg} {info : PqcAlgInfo} {usage policy : UInt32}
    (seed : Option Bytes) (e : Env) (hw : HwTable) (s : Slot) (hInfo : pqcAlgInfo alg = some info) :
    InstallCase S alg usage policy e hw s
      ((installSoftKey S info alg usage policy seed e s).1, hw,
        (installSoftKey S info alg usage policy seed e s).2) := by
  have hAlg : pqcAlgInfo alg ≠ none := by simp [hInfo]
  have hFrom : ∀ seed : Bytes, seed.length = info.seedLen → InstallCase S alg usage policy e hw s
      ((installSoftKey.fromSeed S alg usage policy e s seed).1, hw,
        (installSoftKey.fromSeed S alg usage policy e s seed).2) := by
    intro seed hLen
    unfold installSoftKey.fromSeed
    split
    · exact .failed .errCrypto hw HsmStatus.noConfusion (.inl rfl)
    · dsimp only
      split
      · exact .put _ hw rfl hAlg (.seed alg info seed hInfo hLen)
      · exact .put _ hw rfl hAlg (.secret alg seed)
  unfold installSoftKey
  split
  · exact .failed .errNomem hw HsmStatus.noConfusion (.inl rfl)
  · split
    · split
      · exact .failed .errBadArg hw HsmStatus.noConfusion (.inl rfl)
      · rename_i hLen
        exact hFrom _ (not_not.mp hLen)
    · split
      · exact .failed .errCrypto hw HsmStatus.noConfusion (.inl rfl)
      · exact hFrom _ (List.Vector.toList_length _)

theorem installKey_cases (alg : PqcAlg) (usage policy : UInt32) (seed : Option Bytes) (e : Env)
    (hw : HwTable) (s : Slot) : InstallCase S alg usage policy e hw s
      (installKey S alg usage policy seed e hw s) := by
  unfold installKey
  split
  · rename_i info _ hInfo
    have hAlg : pqcAlgInfo alg ≠ none := by simp [hInfo]
    dsimp only
    split
    · split
      · exact .failed .errNomem hw HsmStatus.noConfusion (.inl rfl)
      · split
        · exact installSoftKey_cases S seed e hw s hInfo
        · exact .failed .errCrypto _ HsmStatus.noConfusion (.inr rfl)
        · rename_i pk h hMade
          split
          · exact .failed .errCrypto _ HsmStatus.noConfusion (.inr rfl)
          · rename_i hLen
            exact .put _ _ rfl hAlg (.hardware alg info pk h hInfo hMade (not_not.mp hLen))
    · exact installSoftKey_cases S seed e hw s hInfo
  · exact .failed .errBadArg hw HsmStatus.noConfusion (.inl rfl)
  · rename_i hUsage hNone
    refine .failed _ hw (fun hOk => ?_) (.inl rfl)
    cases hInfo : pqcAlgInfo alg with
    | none => exact hNone hOk hInfo
    | some info => exact hUsage _ hOk hInfo

/-- `create_object`: refused, failed with the slot as it was, failed at the seal with the new
key left in the empty slot, or done. -/
inductive CreateCase (id : Nat) (alg : PqcAlg) (usage policy : UInt32) (e : Env) (hw : HwTable)
    (s : Slot) : (HsmStatus × Option HsmHandle) × (HwTable × Slot) × List Event → Prop where
  | refused (st : HsmStatus) : st ≠ .ok →
      CreateCase id alg usage policy e hw s ((st, none), (hw, s), [])
  | failed (st : HsmStatus) (hw' : HwTable) : st ≠ .ok → s.metadata.state = .empty →
      slotCheckIntegrity S.crypto e 0 s = .ok → (hw' = hw ∨ hw' = hw.after e) →
      CreateCase id alg usage policy e hw s
        ((st, none), (hw', (slotReseal S.crypto e 2 s).2), [])
  | unsealed (k : KeyMaterial) (hw' : HwTable) : e.sealOk 1 = false →
      s.metadata.state = .empty → slotCheckIntegrity S.crypto e 0 s = .ok → k.alg = alg →
      pqcAlgInfo alg ≠ none →
      FreshKey S.crypto e hw k hw' →
      CreateCase id alg usage policy e hw s ((.errCrypto, none),
        (hw', (slotReseal S.crypto e 2 (s.putKey k usage policy)).2), [])
  | made (k : KeyMaterial) (hw' : HwTable) : e.sealOk 1 = true →
      s.metadata.state = .empty → slotCheckIntegrity S.crypto e 0 s = .ok → k.alg = alg →
      pqcAlgInfo alg ≠ none →
      FreshKey S.crypto e hw k hw' →
      CreateCase id alg usage policy e hw s ((.ok, some (makeHandle s)),
        (hw', (slotReseal S.crypto e 1 ((s.putKey k usage policy).withState .loaded)).2),
        [.handleIssued id (makeHandle s) k, .slotChanged id])

theorem sealKey_eq_good {e : Env} (hSeal : e.sealOk 1 = true) (s : Slot) :
    sealKey S e s = ((.ok, some (makeHandle s)), (slotReseal S.crypto e 1 s).2) := by
  simp [sealKey, slotReseal, hSeal, makeHandle]

theorem sealKey_eq_bad {e : Env} (hSeal : e.sealOk 1 = false) (s : Slot) :
    sealKey S e s = ((.errCrypto, none), s) := by
  simp [sealKey, slotReseal, hSeal]

theorem createObjectLocked_cases (id : Nat) (alg : PqcAlg) (usage policy : UInt32)
    (seed : Option Bytes) {ev : SlotEvent} (hev : ev = .generate ∨ ev = .load) (e : Env)
    (hw : HwTable) (s : Slot) : CreateCase S id alg usage policy e hw s
      (createObjectLocked S id alg usage policy seed ev e hw s) := by
  unfold createObjectLocked
  split
  · rename_i hInt
    split
    · exact .refused .errBadState HsmStatus.noConfusion
    · rename_i s₁ hFsm
      obtain ⟨hState, rfl⟩ := fsmApply_create hev hFsm
      have hCase := installKey_cases S alg usage policy seed e hw (s.withState .loaded)
      generalize installKey S alg usage policy seed e hw (s.withState .loaded) = out at hCase ⊢
      cases hCase with
      | failed st hw' hSt hHw =>
        split
        · rename_i hEq
          cases hEq
        · rename_i hEq
          cases hEq
          exact .failed st hw' hSt hState hInt hHw
      | put k hw' hk hAlg hFresh =>
        cases hSeal : e.sealOk 1 with
        | true =>
          rw [sealKey_eq_good S hSeal]
          simp only [slotReseal_key]
          exact .made k hw' hSeal hState hInt hk hAlg hFresh
        | false =>
          rw [sealKey_eq_bad S hSeal]
          exact .unsealed k hw' hSeal hState hInt hk hAlg hFresh
  · rename_i st hSt
    exact .refused _ hSt

/-- The slot with its use counter and the time of the last use set. -/
@[simps]
def Slot.counted (s : Slot) (count time : UInt64) : Slot :=
  { s with metadata := { s.metadata with useCount := count, lastUsedAt := time } }

theorem beginUse_eq_error {h : HsmHandle} {need : UInt32} {e : Env} {s s' : Slot}
    {st : HsmStatus} (hUse : beginUse S h need e s = (.error st, s')) : st ≠ .ok ∧ s' = s := by
  unfold beginUse at hUse
  split at hUse
  · split at hUse
    · cases hUse
      exact ⟨HsmStatus.noConfusion, rfl⟩
    · split at hUse
      · cases hUse
        exact ⟨HsmStatus.noConfusion, rfl⟩
      · rename_i s₁ hFsm
        obtain ⟨hState, rfl⟩ := fsmApply_useBegin hFsm
        split at hUse
        · cases hUse
        · rename_i st' hBorrow
          cases hUse
          refine ⟨fun hOk => ?_, ?_⟩
          · subst hOk
            unfold borrowSecret at hBorrow
            repeat' split at hBorrow
            all_goals cases hBorrow
          · rw [fsmApply_useEnd]
            exact withState_of_eq hState
  · rename_i hSt
    cases hUse
    exact ⟨hSt, rfl⟩

theorem beginUse_eq_ok {h : HsmHandle} {need : UInt32} {e : Env} {s s' : Slot}
    {sk : Option Bytes} (hUse : beginUse S h need e s = (.ok sk, s')) :
    checkHandle S e s h = .ok ∧ s.metadata.state = .loaded ∧ s' = s.withState .inUse := by
  unfold beginUse at hUse
  split at hUse
  · rename_i hCheck
    split at hUse
    · cases hUse
    · split at hUse
      · cases hUse
      · rename_i s₁ hFsm
        obtain ⟨hState, rfl⟩ := fsmApply_useBegin hFsm
        split at hUse
        · cases hUse
          exact ⟨hCheck, hState, rfl⟩
        · cases hUse
  · cases hUse

theorem endUse_eq (opSt : HsmStatus) (e : Env) {s : Slot} (hState : s.metadata.state = .loaded) :
    ∃ count time, (endUse S opSt e (s.withState .inUse)).2 =
      (slotReseal S.crypto e 1 (s.counted count time)).2 := by
  unfold endUse
  rw [fsmApply_useEnd, withState_of_eq hState]
  dsimp only
  split
  · exact ⟨_, _, rfl⟩
  · exact ⟨s.metadata.useCount, s.metadata.lastUsedAt, rfl⟩

/-- A private-key operation: refused with the slot as it was, or carried out with the key in
the slot, which afterwards is loaded again. -/
inductive UseCase (id : Nat) (h : HsmHandle) (e : Env) (hw : HwTable) (s : Slot) :
    (HsmStatus × Option Bytes) × (HwTable × Slot) × List Event → Prop where
  | refused (st : HsmStatus) : st ≠ .ok → UseCase id h e hw s ((st, none), (hw, s), [])
  | used (r : HsmStatus × Option Bytes) (hw' : HwTable) (count time : UInt64) :
      checkHandle S e s h = .ok → s.metadata.state = .loaded → (hw' = hw ∨ hw' = hw.after e) →
      UseCase id h e hw s (r, (hw', (slotReseal S.crypto e 1 (s.counted count time)).2),
        [.handleAccepted id h s.key, .keyUsed id])

theorem useCase_of_ended {id : Nat} {h : HsmHandle} {e : Env} {hw hw' : HwTable} {s : Slot}
    (hCheck : checkHandle S e s h = .ok) (hState : s.metadata.state = .loaded)
    (hHw : hw' = hw ∨ hw' = hw.after e) (opSt : HsmStatus) (out : Option Bytes) :
    UseCase S id h e hw s (((endUse S opSt e (s.withState .inUse)).1, out),
      (hw', (endUse S opSt e (s.withState .inUse)).2), [.handleAccepted id h s.key, .keyUsed id]) := by
  obtain ⟨count, time, hEnd⟩ := endUse_eq S opSt e hState
  rw [hEnd]
  exact .used _ hw' count time hCheck hState hHw

theorem signLocked_cases (id : Nat) (h : HsmHandle) (msg ctx : Bytes) (cap : Option Nat)
    (e : Env) (hw : HwTable) (s : Slot) :
    UseCase S id h e hw s (signLocked S id h msg ctx cap e hw s) := by
  unfold signLocked
  split
  · rename_i st s' hUse
    obtain ⟨hSt, rfl⟩ := beginUse_eq_error S hUse
    exact .refused st hSt
  · rename_i sk s' hUse
    obtain ⟨hCheck, hState, rfl⟩ := beginUse_eq_ok S hUse
    refine useCase_of_ended S hCheck hState ?_ _ _
    repeat' split
    all_goals first | exact .inl rfl | exact .inr rfl

theorem decapsLocked_cases (id : Nat) (h : HsmHandle) (ct : Bytes) (cap : Option Nat) (e : Env)
    (hw : HwTable) (s : Slot) : UseCase S id h e hw s (decapsLocked S id h ct cap e hw s) := by
  unfold decapsLocked
  split
  · rename_i st s' hUse
    obtain ⟨hSt, rfl⟩ := beginUse_eq_error S hUse
    exact .refused st hSt
  · rename_i sk s' hUse
    obtain ⟨hCheck, hState, rfl⟩ := beginUse_eq_ok S hUse
    refine useCase_of_ended S hCheck hState ?_ _ _
    repeat' split
    all_goals first | exact .inl rfl | exact .inr rfl

/-- `hsm_object_public_key` leaves the slot as it is. -/
inductive PublicKeyCase (id : Nat) (h : HsmHandle) (e : Env) (s : Slot) :
    (HsmStatus × Option Bytes) × Slot × List Event → Prop where
  | refused (st : HsmStatus) : st ≠ .ok → PublicKeyCase id h e s ((st, none), s, [])
  | accepted (r : HsmStatus × Option Bytes) : checkHandle S e s h = .ok →
      PublicKeyCase id h e s (r, s, [.handleAccepted id h s.key])

theorem publicKeyLocked_cases (id : Nat) (h : HsmHandle) (cap : Option Nat) (e : Env) (s : Slot) :
    PublicKeyCase S id h e s (publicKeyLocked S id h cap e s) := by
  unfold publicKeyLocked
  split
  · rename_i hCheck
    repeat' split
    all_goals exact .accepted _ hCheck
  · rename_i hSt
    exact .refused _ hSt

/-- The slot after its key was destroyed. -/
@[simps]
def Slot.destroyed (s : Slot) : Slot :=
  { slotWipeKeyMaterial s with metadata := { s.metadata with
      state := .empty
      alg := .none
      usage := 0
      policy := 0
      generation := s.metadata.generation + 1 } }

inductive DestroyCase (id : Nat) (h : HsmHandle) (e : Env) (s : Slot) :
    HsmStatus × Slot × List Event → Prop where
  | refused (st : HsmStatus) : st ≠ .ok → DestroyCase id h e s (st, s, [])
  | done : checkHandle S e s h = .ok → s.metadata.state = .loaded →
      DestroyCase id h e s ((slotReseal S.crypto e 1 s.destroyed).1,
        (slotReseal S.crypto e 1 s.destroyed).2, .handleAccepted id h s.key :: .keyUsed id ::
          .destroyed id :: if (slotReseal S.crypto e 1 s.destroyed).1 = .ok then [.slotChanged id] else [])

theorem destroyLocked_cases (id : Nat) (h : HsmHandle) (e : Env) (s : Slot) :
    DestroyCase S id h e s (destroyLocked S id h e s) := by
  unfold destroyLocked
  split
  · rename_i hCheck
    split
    · exact .refused .errBadState HsmStatus.noConfusion
    · rename_i s' hFsm
      obtain ⟨hState, rfl⟩ := fsmApply_destroy hFsm
      exact .done hCheck hState
  · rename_i hSt
    exact .refused _ hSt

/-- The slot after a zeroize. -/
@[simps]
def Slot.zeroed (s : Slot) : Slot :=
  { slotWipePins (slotWipeKeyMaterial s) with
    metadata := zeroizedMeta s.metadata
    preLock := .empty }

theorem doZeroize_eq (id : Nat) (e : Env) (s : Slot) : doZeroize S id e s =
    ((slotReseal S.crypto e 0 s.zeroed).1, (slotReseal S.crypto e 0 s.zeroed).2,
      .zeroized id :: if (slotReseal S.crypto e 0 s.zeroed).1 = .ok then [.slotChanged id] else []) := by
  unfold doZeroize
  rw [fsmApply_zeroize]
  rfl

/-- The slot after an unlock. -/
@[simps]
def Slot.unlocked (s : Slot) : Slot :=
  { s with metadata := { s.metadata with
      state := slotFsmUnlockTarget s.preLock
      userPinFails := 0 } }

inductive UnlockCase (id : Nat) (e : Env) (s : Slot) : HsmStatus × Slot × List Event → Prop where
  | refused (st : HsmStatus) : st ≠ .ok → UnlockCase id e s (st, s, [])
  | done : slotCheckIntegrity S.crypto e 0 s = .ok → s.metadata.state = .locked →
      UnlockCase id e s ((slotReseal S.crypto e 1 s.unlocked).1,
        (slotReseal S.crypto e 1 s.unlocked).2, .unlocked id ::
          if (slotReseal S.crypto e 1 s.unlocked).1 = .ok then [.slotChanged id] else [])

theorem unlockLocked_cases (id : Nat) (e : Env) (s : Slot) :
    UnlockCase S id e s (unlockLocked S id e s) := by
  unfold unlockLocked
  split
  · rename_i hInt
    split
    · exact .refused .errBadState HsmStatus.noConfusion
    · rename_i s' hFsm
      obtain ⟨hState, rfl⟩ := fsmApply_soUnlock hFsm
      exact .done hInt hState
  · rename_i hSt
    exact .refused _ hSt

end Keys

end PqcHsm
