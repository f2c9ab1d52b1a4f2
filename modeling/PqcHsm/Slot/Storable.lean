import PqcHsm.Slot.CallStep

/-!
# Slots that can be stored

In every state the slots can get into, the buffers of a slot have the lengths its
algorithm asks for and the record names the slot: what is written of it can be read
back. No condition on the run is needed, for an operation that fails half way leaves the
buffers as they were or complete.
-/

namespace PqcHsm

open ByteCodec Sections

variable {n : Nat} {S : Setup}

/-- What is written of the slot can be read back into slot `id`. -/
structure Slot.Storable (s : Slot) (id : Nat) : Prop where
  shape : s.KeyShape
  version : s.metadata.version = SLOT_META_VERSION
  slotId : s.metadata.slotId = UInt32.ofNat id

theorem Slot.KeyShape.congr {s s' : Slot} (h : s.KeyShape) (hKey : s'.key = s.key) :
    s'.KeyShape := by
  simp only [Slot.key, KeyMaterial.mk.injEq] at hKey
  obtain ⟨hAlg, hPk, hSk, hSeed, -⟩ := hKey
  unfold Slot.KeyShape at h ⊢
  rw [hAlg, hPk, hSk, hSeed]
  exact h

theorem Slot.Storable.congr {s s' : Slot} {id : Nat} (h : s.Storable id) (hKey : s'.key = s.key)
    (hVersion : s'.metadata.version = s.metadata.version)
    (hId : s'.metadata.slotId = s.metadata.slotId) : s'.Storable id :=
  ⟨h.shape.congr hKey, hVersion.trans h.version, hId.trans h.slotId⟩

theorem storable_slotReseal {s : Slot} {id : Nat} (h : s.Storable id) (e : Env) (k : Nat) :
    (slotReseal S.crypto e k s).2.Storable id :=
  h.congr (slotReseal_key ..) (by rw [slotReseal_metadata]) (by rw [slotReseal_metadata])

/-- A slot without a key. -/
theorem keyShape_vacant {s : Slot} (hAlg : s.metadata.alg = .none) (hPk : s.pk = none)
    (hSk : s.sk = none) (hSeed : s.seed = none) : s.KeyShape := by
  unfold Slot.KeyShape
  rw [hAlg]
  exact ⟨hPk, hSk, hSeed⟩

theorem FreshKey.keyShape {e : Env} {hw hw' : HwTable} {k : KeyMaterial} {s : Slot}
    (h : FreshKey S.crypto e hw k hw') (hKey : s.key = k) (hAlg : pqcAlgInfo k.alg ≠ none) :
    s.KeyShape := by
  simp only [Slot.key] at hKey
  obtain ⟨info, hInfo⟩ := Option.ne_none_iff_exists'.mp hAlg
  subst hKey
  unfold Slot.KeyShape
  rw [hInfo]
  generalize hk : KeyMaterial.mk s.metadata.alg s.pk s.sk s.seed s.hwHandle = k at h
  cases h with
  | secret alg seed =>
    obtain ⟨rfl, hPk, hSk, hSeed, -⟩ := KeyMaterial.mk.inj hk
    refine ⟨⟨_, hPk, S.crypto.length_pk _ info seed hInfo⟩, ?_, ?_⟩
    · intro sk hSome
      rw [hSk] at hSome
      cases hSome
      exact ⟨S.crypto.length_sk _ info seed hInfo, hSeed⟩
    · intro seed' hSome
      rw [hSeed] at hSome
      cases hSome
  | seed alg info' seed hInfo' hLen =>
    obtain ⟨rfl, hPk, hSk, hSeed, -⟩ := KeyMaterial.mk.inj hk
    obtain rfl : info' = info := Option.some.inj (hInfo'.symm.trans hInfo)
    refine ⟨⟨_, hPk, S.crypto.length_pk _ info' seed hInfo⟩, ?_, ?_⟩
    · intro sk hSome
      rw [hSk] at hSome
      cases hSome
    · intro seed' hSome
      rw [hSeed] at hSome
      cases hSome
      exact hLen
  | hardware alg info' pk hh hInfo' _ hLen =>
    obtain ⟨rfl, hPk, hSk, hSeed, -⟩ := KeyMaterial.mk.inj hk
    obtain rfl : info' = info := Option.some.inj (hInfo'.symm.trans hInfo)
    refine ⟨⟨_, hPk, hLen⟩, ?_, ?_⟩
    · intro sk hSome
      rw [hSk] at hSome
      cases hSome
    · intro seed' hSome
      rw [hSeed] at hSome
      cases hSome

/-- Every section on a slot keeps it storable. -/
theorem storable_slotStep {i : Fin n} {e : Env} {hw : HwTable} {s : Slot}
    {r : HwTable × Slot × List Event} (h : SlotStep S true i e hw s r) (hS : s.Storable i) :
    r.2.1.Storable i := by
  cases h with
  | idle => exact hS
  | initToken h =>
    cases h with
    | refused => exact hS
    | stopped s' _ _ _ hMeta _ _ hKey =>
      exact hS.congr hKey (by rw [hMeta]; rfl) (by rw [hMeta]; rfl)
    | done s' _ _ _ hId hVersion _ _ _ hKey =>
      exact storable_slotReseal (hS.congr hKey hVersion hId) e 1
  | setUserPin h =>
    cases h with
    | refused => exact hS
    | stopped salt => exact hS.congr rfl rfl rfl
    | done s' _ _ hMeta hKey =>
      exact storable_slotReseal (hS.congr hKey (by rw [hMeta]) (by rw [hMeta])) e 1
  | login _ h =>
    cases h with
    | refused => exact hS
    | good =>
      apply storable_slotReseal
      exact hS.congr rfl rfl rfl
    | badSo =>
      apply storable_slotReseal
      exact hS.congr rfl rfl rfl
    | badUser =>
      apply storable_slotReseal
      exact hS.congr rfl rfl rfl
    | lockout =>
      apply storable_slotReseal
      exact hS.congr rfl rfl rfl
  | create h =>
    cases h with
    | refused => exact hS
    | failed => exact storable_slotReseal hS e 2
    | unsealed k hw' _ _ _ hAlg hInfo hFresh =>
      apply storable_slotReseal
      exact ⟨hFresh.keyShape rfl (hAlg ▸ hInfo), hS.version, hS.slotId⟩
    | made k hw' _ _ _ hAlg hInfo hFresh =>
      apply storable_slotReseal
      exact ⟨hFresh.keyShape rfl (hAlg ▸ hInfo), hS.version, hS.slotId⟩
  | use h =>
    cases h with
    | refused => exact hS
    | used =>
      apply storable_slotReseal
      exact hS.congr rfl rfl rfl
  | publicKey h =>
    cases h with
    | refused => exact hS
    | accepted => exact hS
  | destroy h =>
    cases h with
    | refused => exact hS
    | done =>
      apply storable_slotReseal
      exact ⟨keyShape_vacant rfl rfl rfl rfl, hS.version, hS.slotId⟩
  | zeroize _ =>
    rw [doZeroize_eq]
    apply storable_slotReseal
    exact ⟨keyShape_vacant rfl rfl rfl rfl, rfl, hS.slotId⟩
  | unlock h =>
    cases h with
    | refused => exact hS
    | done =>
      apply storable_slotReseal
      exact hS.congr rfl rfl rfl
  | deserialize m rec hId hVersion hShape =>
    exact storable_slotReseal ⟨hShape, hVersion, hId.trans hS.slotId⟩ e 0

theorem storable_fresh (C : Crypto) (id : Nat) : (freshSlot C id).Storable id :=
  ⟨keyShape_vacant rfl rfl rfl rfl, rfl, rfl⟩

def Device.Storable (d : Device n) : Prop := ∀ i : Fin n, (d.tok.slots i).Storable i

theorem Device.Storable.step {e : Env} {d : Device n} {r : Device n × List Event}
    (h : d.Storable) (hStep : DeviceStep S true e d r) : r.1.Storable := by
  cases hStep with
  | slot i r hStep =>
    intro j
    by_cases hj : j = i
    · subst hj
      simpa using storable_slotStep hStep (h j)
    · simpa [Function.update_of_ne hj] using h j
  | token r hStep =>
    intro j
    simpa [hStep.slots] using h j
  | store r hStep =>
    intro j
    cases hStep <;> exact h j
  | hwDrop => exact h

/-- Every state a run reaches, over power cycles, can be stored. -/
theorem slots_storable {ι : Type} [DecidableEq ι] {c : DevConfig ι n}
    (h : (cycledPool S n ι).Reaches Pool.always c) : c.hist.shared.Storable := by
  refine cycledPool_invariant (A := fun h => h.shared.Storable) ?_ ?_ ?_ ?_ ?_ h
  · rintro d ⟨-, -, hTok, -⟩ i
    rw [hTok]
    exact storable_fresh S.crypto i
  · rintro h d - ⟨hTok, -⟩ i
    rw [Hist.crashes_shared, hTok]
    exact storable_fresh S.crypto i
  · exact fun t k h hA => hA
  · exact fun t k a h hA => hA
  · exact fun t h e r hStep hA _ => hA.step hStep

/-- A token that exists has no more slots than `hsm_token_new` makes. -/
theorem slots_le_max {ι : Type} [DecidableEq ι] {c : DevConfig ι n}
    (h : (cycledPool S n ι).Reaches Pool.always c) : n ≤ TOKEN_MAX_SLOTS :=
  cycledPool_invariant (A := fun _ => n ≤ TOKEN_MAX_SLOTS) (fun _ hBooted => hBooted.2.1)
    (fun _ _ hA _ => hA) (fun _ _ _ hA => hA) (fun _ _ _ _ hA => hA) (fun _ _ _ _ _ hA _ => hA) h

section Sealed

/-- Randomness, key derivation, MACs and wrapping work in the section. -/
structure Env.CryptoWorks (e : Env) : Prop where
  seals : ∀ k, e.sealOk k = true
  random : ∀ k, e.random k ≠ none
  crypto : e.cryptoOk = true

/-- While the cryptography works, no section leaves a slot unsealed. -/
theorem sealed_slotStep {all : Bool} {i : Fin n} {e : Env} {hw : HwTable} {s : Slot}
    {r : HwTable × Slot × List Event} (h : SlotStep S all i e hw s r) (hs : s.Sealed S.crypto)
    (hWorks : e.CryptoWorks) : r.2.1.Sealed S.crypto := by
  have hReseal : ∀ k (s : Slot), (slotReseal S.crypto e k s).2.Sealed S.crypto :=
    fun k s => sealed_slotReseal (hWorks.seals k) s
  cases h with
  | idle => exact hs
  | initToken h =>
    cases h with
    | refused => exact hs
    | stopped s' _ _ hStop =>
      obtain hRandom | hRandom | hCrypto := hStop
      · exact absurd hRandom (hWorks.random 0)
      · exact absurd hRandom (hWorks.random 1)
      · rw [hWorks.crypto] at hCrypto
        cases hCrypto
    | done s' => exact hReseal 1 s'
  | setUserPin h =>
    cases h with
    | refused => exact hs
    | stopped salt => exact hs
    | done s' => exact hReseal 1 _
  | login _ h =>
    cases h with
    | refused => exact hs
    | _ => exact hReseal 1 _
  | create h =>
    cases h with
    | refused => exact hs
    | _ => exact hReseal _ _
  | use h =>
    cases h with
    | refused => exact hs
    | used => exact hReseal 1 _
  | publicKey h => cases h <;> exact hs
  | destroy h =>
    cases h with
    | refused => exact hs
    | done => exact hReseal 1 _
  | zeroize _ =>
    rw [doZeroize_eq]
    exact hReseal 0 _
  | unlock h =>
    cases h with
    | refused => exact hs
    | done => exact hReseal 1 _
  | deserialize m rec => exact hReseal 0 _

/-- Runs in which the cryptography works. -/
def cryptoWorks {ι : Type} : Pool.Cond ι Call Env (Device n) Event Reply := fun _ a _ =>
  match a with
  | .sect _ e => e.CryptoWorks
  | _ => True

/-- In such runs the metadata of every slot is intact, over power cycles. -/
theorem slots_sealed {ι : Type} [DecidableEq ι] {c : DevConfig ι n}
    (h : (cycledPool S n ι).Reaches cryptoWorks c) (i : Fin n) :
    (c.hist.shared.tok.slots i).Sealed S.crypto := by
  revert i
  refine cycledPool_invariant (A := fun h => ∀ i, (h.shared.tok.slots i).Sealed S.crypto)
    ?_ ?_ ?_ ?_ ?_ h
  · rintro d ⟨-, -, hTok, -⟩ i
    rw [hTok]
    rfl
  · rintro h d - ⟨hTok, -⟩ i
    rw [Hist.crashes_shared, hTok]
    rfl
  · exact fun t k h hA => hA
  · exact fun t k a h hA => hA
  · intro t h e r hStep hA hWorks j
    cases hStep with
    | slot i r hStep =>
      by_cases hj : j = i
      · subst hj
        simpa using sealed_slotStep hStep (hA j) hWorks
      · simpa [Function.update_of_ne hj] using hA j
    | token r hStep => simpa [hStep.slots] using hA j
    | store r hStep => cases hStep <;> exact hA j
    | hwDrop => exact hA j

end Sealed

end PqcHsm
