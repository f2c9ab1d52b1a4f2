import PqcHsm.Slot.CallStep

/-!
# Object handles and the generation of a slot

A handle carries the generation its slot had when it was issued. As long as the
generation of a slot never goes back behind an issued handle, and comes back to the
generation of a handle only together with the key of that handle, an accepted handle
reaches the key it was issued for.
-/

namespace PqcHsm

open ByteCodec Sections

variable {n : Nat} {S : Setup}

/-- The state the slot is in, or goes back to when it is unlocked. -/
def Slot.home (s : Slot) : SlotState :=
  if s.metadata.state = .locked then slotFsmUnlockTarget s.preLock else s.metadata.state

/-- Nothing of the first key differs from the second; a handle to hardware may be lost. -/
def KeyMaterial.PartOf (k k' : KeyMaterial) : Prop :=
  k.alg = k'.alg ∧ k.pk = k'.pk ∧ k.sk = k'.sk ∧ k.seed = k'.seed ∧
    (k.hwHandle = none ∨ k.hwHandle = k'.hwHandle)

instance (k k' : KeyMaterial) : Decidable (k.PartOf k') := inferInstanceAs (Decidable (_ ∧ _))

theorem KeyMaterial.partOf_refl (k : KeyMaterial) : k.PartOf k := ⟨rfl, rfl, rfl, rfl, .inr rfl⟩

/-- The slot has a key in place, and it is this one. -/
def Slot.Holds (s : Slot) (k : KeyMaterial) : Prop :=
  (s.home = .loaded ∨ s.home = .inUse) ∧ s.key.PartOf k

/-- An operation that accepts a handle reaches the key the handle was issued for. -/
def HandleAgrees : Event → Event → Prop
  | .handleAccepted _ h k, .handleIssued _ h' k' => h = h' → k.PartOf k'
  | _, _ => True

instance (x y : Event) : Decidable (HandleAgrees x y) := by
  unfold HandleAgrees
  split <;> infer_instance

/-- The number of key changes of a slot. -/
def keyChanges (id : Nat) (events : List Event) : Nat :=
  events.count (.destroyed id) + events.count (.zeroized id)

/-- The generation of a slot is not bumped beyond 32 bits. -/
def GenerationFits {ι : Type} (h : DevHist ι n) (evs : List Event) : Prop :=
  ∀ i : Fin n, .destroyed i.val ∈ evs ∨ .zeroized i.val ∈ evs →
    (h.shared.tok.slots i).metadata.generation.toNat + 1 < 2 ^ 32

/-- A record that is installed is not behind a handle issued for its slot, and where it has
the generation of a handle it brings the key of that handle. -/
def RecordsFresh {ι : Type} (h : DevHist ι n) (evs : List Event) : Prop :=
  ∀ (i : Fin n) (m : SlotMeta) (r : SlotRecord), .recordRead i.val m r ∈ evs →
    ∀ (hd : HsmHandle) (k : KeyMaterial), .handleIssued i.val hd k ∈ h.events →
      hd.gen.toNat ≤ m.generation.toNat ∧
        (hd.gen = m.generation → (installRecord (h.shared.tok.slots i) m r).Holds k)

def handleCond {ι : Type} : Pool.Cond ι Call Env (Device n) Event Reply :=
  fun h _ evs => GenerationFits h evs ∧ RecordsFresh h evs

/-- An event that issues no handle, and accepts none but the present one of the slot. -/
def Event.Plain (i : Nat) (s : Slot) : Event → Prop
  | .handleIssued .. => False
  | .handleAccepted j h k => j = i ∧ h.sid = s.metadata.slotId + 1 ∧
      h.gen = s.metadata.generation ∧ k = s.key
  | _ => True

/-- What a section does to the generation and the key of a slot. -/
inductive GenMove (i : Nat) (s : Slot) : Slot → List Event → Prop where
  | keep {s' : Slot} {evs : List Event} : s'.metadata.slotId = s.metadata.slotId →
      s'.metadata.generation = s.metadata.generation → (∀ k, s.Holds k → s'.Holds k) →
      (∀ x ∈ evs, x.Plain i s) → GenMove i s s' evs
  | issue {s' : Slot} (k : KeyMaterial) : s'.metadata.slotId = s.metadata.slotId →
      s'.metadata.generation = s.metadata.generation → s.home = .empty → s'.Holds k →
      GenMove i s s' [.handleIssued i (makeHandle s) k, .slotChanged i]
  | bump {s' : Slot} {evs : List Event} : s'.metadata.slotId = s.metadata.slotId →
      s'.metadata.generation = s.metadata.generation + 1 →
      .destroyed i ∈ evs ∨ .zeroized i ∈ evs → (∀ x ∈ evs, x.Plain i s) → GenMove i s s' evs
  | record {s' : Slot} (m : SlotMeta) (r : SlotRecord) :
      s'.metadata.slotId = s.metadata.slotId → s'.metadata.generation = m.generation →
      (∀ k, (installRecord s m r).Holds k → s'.Holds k) →
      GenMove i s s' [.recordRead i m r]

theorem holds_of_eq {s s' : Slot} (hHome : s'.home = s.home) (hKey : s'.key = s.key)
    {k : KeyMaterial} (h : s.Holds k) : s'.Holds k := by
  unfold Slot.Holds
  rw [hHome, hKey]
  exact h

theorem not_holds {s : Slot} (hHome : s.home = .empty ∨ s.home = .uninit) (k : KeyMaterial) :
    ¬ s.Holds k := by
  rintro ⟨hLoaded | hUse, _⟩ <;> rcases hHome with h | h <;> simp_all

theorem home_of_state {s : Slot} {st : SlotState} (h : s.metadata.state = st)
    (hLocked : st ≠ .locked) : s.home = st := by
  unfold Slot.home
  rw [if_neg (h ▸ hLocked), h]

@[simp] theorem slotReseal_home (C : Crypto) (e : Env) (k : Nat) (s : Slot) :
    (slotReseal C e k s).2.home = s.home := by
  rw [slotReseal_snd]
  rfl

@[simp] theorem withFails_home (s : Slot) (role : HsmRole) (c : UInt32) :
    (s.withFails role c).home = s.home := rfl

@[simp] theorem withFails_key (s : Slot) (role : HsmRole) (c : UInt32) :
    (s.withFails role c).key = s.key := rfl

theorem holds_lock {s : Slot} {k : KeyMaterial} (hLocked : s.metadata.state ≠ .locked)
    (h : s.Holds k) : s.lock.Holds k := by
  obtain ⟨hHome, hKey⟩ := h
  have hState : s.home = s.metadata.state := if_neg hLocked
  refine ⟨.inl ?_, hKey⟩
  rw [hState] at hHome
  rcases hHome with h | h <;> simp [Slot.home, Slot.lock, Slot.withState, h, slotFsmUnlockTarget]

theorem home_unlocked {s : Slot} (hLocked : s.metadata.state = .locked) :
    s.unlocked.home = s.home := by
  have hTarget : slotFsmUnlockTarget s.preLock ≠ .locked := by cases s.preLock <;> decide
  have hHome : s.home = slotFsmUnlockTarget s.preLock := if_pos hLocked
  rw [hHome]
  exact home_of_state rfl hTarget

theorem Event.plain_slotChanged (i : Nat) (s : Slot) (b : Prop) [Decidable b] :
    ∀ x ∈ (if b then [Event.slotChanged i] else []), x.Plain i s := by
  intro x hx
  split at hx
  · rw [List.mem_singleton.mp hx]
    trivial
  · nomatch hx

theorem Event.plain_accepted {i : Nat} {s : Slot} {e : Env} {h : HsmHandle}
    (hCheck : checkHandle S e s h = .ok) : (Event.handleAccepted i h s.key).Plain i s := by
  obtain ⟨hSid, hGen, -, -⟩ := checkHandle_eq_ok S hCheck
  exact ⟨rfl, hSid, hGen, rfl⟩

section Moves

variable {all : Bool} {i : Nat} {e : Env} {hw : HwTable} {s : Slot}

theorem genMove_rfl : GenMove i s s [] :=
  .keep rfl rfl (fun _ hk => hk) fun _ hx => nomatch hx

theorem genMove_initToken {r : HsmStatus × Slot × List Event} (h : InitCase S i e s r) : GenMove i s r.2.1 r.2.2 := by
  cases h with
  | refused st hSt => exact genMove_rfl
  | stopped s' hState _ _ hMeta =>
    refine .keep (by simp [hMeta]) (by simp [hMeta]) (fun k hk => ?_) (by simp [Event.Plain])
    exact absurd hk (not_holds (.inr (home_of_state hState (by decide))) k)
  | done s' hState _ _ hId _ hGen =>
    refine .keep (by simpa using hId) (by simpa using hGen) (fun k hk => ?_) fun x hx => ?_
    · exact absurd hk (not_holds (.inr (home_of_state hState (by decide))) k)
    · rcases List.mem_cons.mp hx with rfl | hx
      · trivial
      · exact Event.plain_slotChanged i s _ x hx

theorem genMove_setUserPin {pin : CString} {r : HsmStatus × Slot × List Event}
    (h : SetPinCase S pin i e s r) : GenMove i s r.2.1 r.2.2 := by
  cases h with
  | refused st hSt => exact genMove_rfl
  | stopped salt =>
    refine .keep rfl rfl (fun k hk => hk) ?_
    simp [Event.Plain]
  | done s' _ _ hMeta hKey hPre =>
    have hHome : s'.home = s.home := by
      unfold Slot.home
      rw [hMeta, hPre]
    refine .keep (by simp [hMeta]) (by simp [hMeta])
      (fun k hk => holds_of_eq (by simpa using hHome) (by simpa using hKey) hk) ?_
    intro x hx
    rcases List.mem_cons.mp hx with rfl | hx
    · trivial
    · rcases List.mem_cons.mp hx with rfl | hx
      · trivial
      · exact Event.plain_slotChanged i s _ x hx

theorem genMove_login {sess : HsmSession} {role : HsmRole} {pin : CString}
    {r : LoginOut × Slot × List Event} (h : LoginCase S sess i role pin e s r) :
    GenMove i s r.2.1 r.2.2 := by
  cases h with
  | refused st hSt => exact genMove_rfl
  | good m =>
    exact .keep (by simp) (by simp) (fun k hk => holds_of_eq (by simp) (by simp) hk)
      (by simp [Event.Plain])
  | badSo =>
    exact .keep (by simp) (by simp) (fun k hk => holds_of_eq (by simp) (by simp) hk)
      (by simp [Event.Plain])
  | badUser =>
    exact .keep (by simp) (by simp) (fun k hk => holds_of_eq (by simp) (by simp) hk)
      (by simp [Event.Plain])
  | lockout _ _ hLocked =>
    refine .keep (by simp) (by simp)
      (fun k hk => ?_) (by simp [Event.Plain])
    have hFails : (s.withFails .user (s.metadata.userPinFails + 1)).lock.Holds k :=
      holds_lock hLocked hk
    exact holds_of_eq (by simp) (by simp) hFails

theorem genMove_create {alg : PqcAlg} {usage policy : UInt32}
    {r : (HsmStatus × Option HsmHandle) × (HwTable × Slot) × List Event}
    (h : CreateCase S i alg usage policy e hw s r) : GenMove i s r.2.1.2 r.2.2 := by
  cases h with
  | refused st hSt => exact genMove_rfl
  | failed st hw' =>
    exact .keep (by simp) (by simp) (fun k hk => holds_of_eq (by simp) (by simp) hk)
      (fun x hx => nomatch hx)
  | unsealed k hw' _ hState =>
    refine .keep (by simp) (by simp)
      (fun k hk => ?_) (fun x hx => nomatch hx)
    exact absurd hk (not_holds (.inl (home_of_state hState (by decide))) k)
  | made k hw' _ hState =>
    refine .issue k (by simp)
      (by simp) (home_of_state hState (by decide)) ?_
    refine ⟨.inl ?_, ?_⟩
    · rw [slotReseal_home]
      exact home_of_state rfl (by decide)
    · rw [slotReseal_key]
      exact k.partOf_refl

theorem genMove_use {h : HsmHandle} {r : (HsmStatus × Option Bytes) × (HwTable × Slot) × List Event}
    (hUse : UseCase S i h e hw s r) : GenMove i s r.2.1.2 r.2.2 := by
  cases hUse with
  | refused st hSt => exact genMove_rfl
  | used r hw' count time hCheck =>
    refine .keep (by simp) (by simp)
      (fun k hk => holds_of_eq (by simp [Slot.home]) (by simp [Slot.key]) hk) ?_
    intro x hx
    rcases List.mem_cons.mp hx with rfl | hx
    · exact Event.plain_accepted hCheck
    · obtain rfl := List.mem_singleton.mp hx
      trivial

theorem genMove_destroy {h : HsmHandle} {r : HsmStatus × Slot × List Event}
    (hDestroy : DestroyCase S i h e s r) : GenMove i s r.2.1 r.2.2 := by
  cases hDestroy with
  | refused st hSt => exact genMove_rfl
  | done hCheck =>
    refine .bump (by simp) (by simp) (.inl (by simp)) ?_
    intro x hx
    rcases List.mem_cons.mp hx with rfl | hx
    · exact Event.plain_accepted hCheck
    rcases List.mem_cons.mp hx with rfl | hx
    · trivial
    rcases List.mem_cons.mp hx with rfl | hx
    · trivial
    · exact Event.plain_slotChanged i s _ x hx

theorem genMove_zeroize : GenMove i s (doZeroize S i e s).2.1 (doZeroize S i e s).2.2 := by
  rw [doZeroize_eq]
  refine .bump (by simp) (by simp)
    (.inr (by simp)) ?_
  intro x hx
  rcases List.mem_cons.mp hx with rfl | hx
  · trivial
  · exact Event.plain_slotChanged i s _ x hx

theorem genMove_unlock {r : HsmStatus × Slot × List Event} (h : UnlockCase S i e s r) :
    GenMove i s r.2.1 r.2.2 := by
  cases h with
  | refused st hSt => exact genMove_rfl
  | done _ hLocked =>
    refine .keep (by simp) (by simp)
      (fun k hk => holds_of_eq (by simpa using home_unlocked hLocked)
        (by simp [Slot.key]) hk) ?_
    intro x hx
    rcases List.mem_cons.mp hx with rfl | hx
    · trivial
    · exact Event.plain_slotChanged i s _ x hx

theorem slotStep_genMove {r : HwTable × Slot × List Event} (h : SlotStep S all i e hw s r) :
    GenMove i s r.2.1 r.2.2 := by
  cases h with
  | idle => exact genMove_rfl
  | initToken h => exact genMove_initToken h
  | setUserPin h => exact genMove_setUserPin h
  | login _ h => exact genMove_login h
  | create h => exact genMove_create h
  | use h => exact genMove_use h
  | publicKey h =>
    cases h with
    | refused st hSt => exact genMove_rfl
    | accepted r hCheck =>
      refine .keep rfl rfl (fun k hk => hk) fun x hx => ?_
      rw [List.mem_singleton.mp hx]
      exact Event.plain_accepted hCheck
  | destroy h => exact genMove_destroy h
  | zeroize _ => exact genMove_zeroize
  | unlock h => exact genMove_unlock h
  | deserialize m r hId =>
    exact .record m r (by simpa [installRecord] using hId) (by simp [installRecord])
      fun k hk => holds_of_eq (by simp) (by simp) hk

end Moves

/-- What the issued handles say of a slot. -/
structure SlotFresh (events : List Event) (i : Nat) (s : Slot) : Prop where
  slotId : s.metadata.slotId = UInt32.ofNat i
  issued : ∀ (h : HsmHandle) (k : KeyMaterial), .handleIssued i h k ∈ events →
    h.sid = UInt32.ofNat i + 1 ∧ h.gen.toNat ≤ s.metadata.generation.toNat ∧
      (h.gen = s.metadata.generation → s.Holds k)

structure HandlesFresh {ι : Type} (h : DevHist ι n) : Prop where
  small : n ≤ TOKEN_MAX_SLOTS
  slots : ∀ i : Fin n, SlotFresh h.events i (h.shared.tok.slots i)
  inRange : ∀ (j : Nat) (hd : HsmHandle) (k : KeyMaterial),
    .handleIssued j hd k ∈ h.events → j < n
  agree : h.events.Pairwise HandleAgrees

/-- Events that issue no handle of the slot leave what is known of it. -/
theorem SlotFresh.of_events {events evs : List Event} {i : Nat} {s : Slot}
    (h : SlotFresh events i s) (hEvs : ∀ hd k, .handleIssued i hd k ∉ evs) :
    SlotFresh (evs.reverse ++ events) i s where
  slotId := h.slotId
  issued hd k hMem := by
    rcases List.mem_append.mp hMem with hNew | hOld
    · exact absurd (List.mem_reverse.mp hNew) (hEvs hd k)
    · exact h.issued hd k hOld

theorem Event.Plain.agrees {i : Nat} {s : Slot} {y : Event} (hy : y.Plain i s) (x : Event) :
    HandleAgrees x y := by
  unfold HandleAgrees
  split
  · exact hy.elim
  · trivial

/-- New events agree with the history if none of them issues a handle and each acceptance
agrees with what was issued before. -/
theorem pairwise_agree {events evs : List Event} (hOld : events.Pairwise HandleAgrees)
    (hNew : ∀ x ∈ evs, (∀ y, HandleAgrees y x) ∧ ∀ y ∈ events, HandleAgrees x y) :
    (evs.reverse ++ events).Pairwise HandleAgrees := by
  refine List.pairwise_append.mpr ⟨?_, hOld, fun x hx => (hNew x (List.mem_reverse.mp hx)).2⟩
  refine List.Pairwise.imp_of_mem (R := fun _ _ => True) (fun _ hy _ => ?_)
    (List.pairwise_of_forall fun _ _ => trivial)
  exact (hNew _ (List.mem_reverse.mp hy)).1 _

theorem uint32_ofNat_inj {a b : Nat} (ha : a < 2 ^ 32) (hb : b < 2 ^ 32)
    (h : UInt32.ofNat a = UInt32.ofNat b) : a = b := by
  have hNat := congrArg UInt32.toNat h
  rwa [UInt32.toNat_ofNat', UInt32.toNat_ofNat', Nat.mod_eq_of_lt ha, Nat.mod_eq_of_lt hb] at hNat

/-- An acceptance of the present handle of a slot agrees with every handle issued before. -/
theorem HandlesFresh.plain_agrees {ι : Type} {h : DevHist ι n} (hFresh : HandlesFresh h)
    (i : Fin n) {x : Event} (hx : x.Plain i (h.shared.tok.slots i)) :
    ∀ y ∈ h.events, HandleAgrees x y := by
  intro y hy
  unfold HandleAgrees
  split
  · rename_i i' hd k j hd' k'
    rintro rfl
    obtain ⟨-, hSid, hGen, rfl⟩ := hx
    have hLt := hFresh.inRange j hd k' hy
    obtain ⟨hSid', _, hHolds⟩ := (hFresh.slots ⟨j, hLt⟩).issued hd k' hy
    have hSame : i.val = j := by
      rw [hSid', (hFresh.slots i).slotId] at hSid
      have hSmall := hFresh.small
      have hi := i.isLt
      unfold TOKEN_MAX_SLOTS at hSmall
      exact (uint32_ofNat_inj (by omega) (by omega) ((UInt32.add_left_inj 1).mp hSid)).symm
    subst hSame
    exact (hHolds hGen).2
  · trivial

theorem uint32_bump {a g : UInt32} (hle : a.toNat ≤ g.toNat) (hFits : g.toNat + 1 < 2 ^ 32) :
    a.toNat ≤ (g + 1).toNat ∧ a ≠ g + 1 := by
  have hBump : (g + 1).toNat = g.toNat + 1 := by
    rw [UInt32.toNat_add, UInt32.toNat_one]
    exact Nat.mod_eq_of_lt hFits
  refine ⟨by omega, fun hEq => ?_⟩
  rw [hEq] at hle
  omega

/-- One section, on the slot it works on. -/
theorem SlotFresh.move {events evs : List Event} {i : Nat} {s s' : Slot}
    (h : SlotFresh events i s) (hMove : GenMove i s s' evs)
    (hFits : .destroyed i ∈ evs ∨ .zeroized i ∈ evs → s.metadata.generation.toNat + 1 < 2 ^ 32)
    (hRecord : ∀ m r, .recordRead i m r ∈ evs → ∀ hd k, .handleIssued i hd k ∈ events →
      hd.gen.toNat ≤ m.generation.toNat ∧
        (hd.gen = m.generation → (installRecord s m r).Holds k)) :
    SlotFresh (evs.reverse ++ events) i s' := by
  cases hMove with
  | keep hId hGen hHolds hPlain =>
    refine SlotFresh.of_events ⟨hId.trans h.slotId, fun hd k hMem => ?_⟩
      fun hd k hMem => (hPlain _ hMem).elim
    obtain ⟨hSid, hLe, hKey⟩ := h.issued hd k hMem
    rw [hGen]
    exact ⟨hSid, hLe, fun hEq => hHolds k (hKey hEq)⟩
  | issue k hId hGen hHome hHolds =>
    refine ⟨hId.trans h.slotId, fun hd k' hMem => ?_⟩
    rw [hGen]
    rcases List.mem_append.mp hMem with hNew | hOld
    · have hNew : hd = makeHandle s ∧ k' = k := by simpa using hNew
      obtain ⟨rfl, rfl⟩ := hNew
      exact ⟨by rw [← h.slotId]; rfl, le_refl _, fun _ => hHolds⟩
    · obtain ⟨hSid, hLe, hKey⟩ := h.issued hd k' hOld
      exact ⟨hSid, hLe, fun hEq => absurd (hKey hEq) (not_holds (.inl hHome) k')⟩
  | bump hId hGen hBump hPlain =>
    refine SlotFresh.of_events ⟨hId.trans h.slotId, fun hd k hMem => ?_⟩
      fun hd k hMem => (hPlain _ hMem).elim
    obtain ⟨hSid, hLe, -⟩ := h.issued hd k hMem
    obtain ⟨hLe', hNe⟩ := uint32_bump hLe (hFits hBump)
    rw [hGen]
    exact ⟨hSid, hLe', fun hEq => absurd hEq hNe⟩
  | record m r hId hGen hHolds =>
    refine SlotFresh.of_events ⟨hId.trans h.slotId, fun hd k hMem => ?_⟩ (by simp)
    obtain ⟨hLe, hKey⟩ := hRecord m r (List.mem_singleton.mpr rfl) hd k hMem
    rw [hGen]
    exact ⟨(h.issued hd k hMem).1, hLe, fun hEq => hHolds k (hKey hEq)⟩

theorem handlesFresh_slotStep {ι : Type} {h : DevHist ι n} (hFresh : HandlesFresh h) (t : ι)
    {all : Bool} {e : Env} (i : Fin n) {r : HwTable × Slot × List Event}
    (hStep : SlotStep S all i e h.shared.hw (h.shared.tok.slots i) r)
    (hFits : GenerationFits h r.2.2) (hRecords : RecordsFresh h r.2.2) :
    HandlesFresh (h.emits t ({ h.shared.setSlot i r.2.1 with hw := r.1 }, r.2.2)) := by
  have hMove := slotStep_genMove hStep
  have hOwn : ∀ j hd k, .handleIssued j hd k ∈ r.2.2 → j = i.val := by
    intro j hd k hMem
    revert hMem
    generalize r.2.2 = evs at hMove
    intro hMem
    cases hMove with
    | keep _ _ _ hPlain => exact (hPlain _ hMem).elim
    | issue => simp_all
    | bump _ _ _ hPlain => exact (hPlain _ hMem).elim
    | record => simp at hMem
  refine ⟨hFresh.small, fun j => ?_, fun j hd k hMem => ?_, ?_⟩
  · rw [Hist.events_emits]
    by_cases hj : j = i
    · subst j
      simpa using (hFresh.slots i).move hMove (hFits i) fun m r hMem => hRecords i m r hMem
    · have hOther : ({ h.shared.setSlot i r.2.1 with hw := r.1 } : Device n).tok.slots j =
          h.shared.tok.slots j := Function.update_of_ne hj _ _
      rw [Hist.emits_shared, hOther]
      exact (hFresh.slots j).of_events fun hd k hMem =>
        hj (Fin.ext (hOwn j.val hd k hMem))
  · rw [Hist.events_emits] at hMem
    rcases List.mem_append.mp hMem with hNew | hOld
    · rw [hOwn j hd k (List.mem_reverse.mp hNew)]
      exact i.isLt
    · exact hFresh.inRange j hd k hOld
  · rw [Hist.events_emits]
    generalize r.2.2 = evs at hMove
    cases hMove with
    | keep _ _ _ hPlain =>
      exact pairwise_agree hFresh.agree fun x hx =>
        ⟨(hPlain x hx).agrees, hFresh.plain_agrees i (hPlain x hx)⟩
    | bump _ _ _ hPlain =>
      exact pairwise_agree hFresh.agree fun x hx =>
        ⟨(hPlain x hx).agrees, hFresh.plain_agrees i (hPlain x hx)⟩
    | issue => exact .cons (by simp [HandleAgrees]) (.cons (by simp [HandleAgrees]) hFresh.agree)
    | record => exact .cons (by simp [HandleAgrees]) hFresh.agree

/-- Events that neither issue nor accept a handle. -/
def Event.Quiet : Event → Prop
  | .handleIssued .. => False
  | .handleAccepted .. => False
  | _ => True

theorem Event.Quiet.agrees {x : Event} (hx : x.Quiet) (y : Event) :
    HandleAgrees x y ∧ HandleAgrees y x := by
  constructor <;> unfold HandleAgrees <;> split <;> first | exact hx.elim | trivial

theorem HandlesFresh.of_quiet {ι : Type} {h : DevHist ι n} (hFresh : HandlesFresh h) (t : ι)
    {d : Device n} {evs : List Event} (hSlots : d.tok.slots = h.shared.tok.slots)
    (hEvs : ∀ x ∈ evs, x.Quiet) : HandlesFresh (h.emits t (d, evs)) := by
  refine ⟨hFresh.small, fun j => ?_, fun j hd k hMem => ?_, ?_⟩
  · rw [Hist.events_emits, Hist.emits_shared, hSlots]
    exact (hFresh.slots j).of_events fun hd k hMem => hEvs _ hMem
  · rw [Hist.events_emits] at hMem
    rcases List.mem_append.mp hMem with hNew | hOld
    · exact (hEvs _ (List.mem_reverse.mp hNew)).elim
    · exact hFresh.inRange j hd k hOld
  · rw [Hist.events_emits]
    exact pairwise_agree hFresh.agree fun x hx =>
      ⟨fun y => ((hEvs x hx).agrees y).2, fun y _ => ((hEvs x hx).agrees y).1⟩

theorem TokenStep.quiet {all : Bool} {tok : Token n} {r : Token n × List Event} (h : TokenStep all tok r) :
    ∀ x ∈ r.2, x.Quiet := by
  cases h <;> simp [Event.Quiet]

theorem handlesFresh_step {ι : Type} {h : DevHist ι n} (hFresh : HandlesFresh h) (t : ι)
    {all : Bool} {e : Env}
    {r : Device n × List Event} (hStep : DeviceStep S all e h.shared r)
    (hok : handleCond h (.sect t e) r.2) : HandlesFresh (h.emits t r) := by
  cases hStep with
  | slot i r hSlot => exact handlesFresh_slotStep hFresh t i hSlot hok.1 hok.2
  | token r hTok => exact hFresh.of_quiet t hTok.slots hTok.quiet
  | store r hStore =>
    refine hFresh.of_quiet t hStore.slots fun x hx => ?_
    have hx := hStore.events x hx
    cases x <;> trivial
  | hwDrop => exact hFresh.of_quiet t rfl (by simp [Event.Quiet])

/-- In a run of any number of threads, an accepted handle reaches the key it was issued for,
provided that generations do not wrap and no installed record is behind an issued handle. -/
theorem handles_reach_their_key {ι : Type} [DecidableEq ι]
    {c : DevConfig ι n} (h : (slotPool S n ι).Reaches handleCond c) :
    c.hist.events.Pairwise HandleAgrees := by
  refine (slotPool_invariant (A := HandlesFresh) ?_ ?_ ?_ ?_ h).agree
  · rintro d ⟨-, hSmall, hTok, -⟩
    refine ⟨hSmall, fun i => ⟨?_, fun hd k hMem => (nomatch hMem)⟩,
      fun j hd k hMem => (nomatch hMem), List.Pairwise.nil⟩
    change (d.tok.slots i).metadata.slotId = _
    rw [hTok]
    rfl
  · exact fun t k h hA => ⟨hA.small, hA.slots, hA.inRange, hA.agree⟩
  · exact fun t k a h hA => ⟨hA.small, hA.slots, hA.inRange, hA.agree⟩
  · exact fun t h e r hStep hA hok => handlesFresh_step hA t hStep hok

section Runs

/-! ### A run that reuses a handle -/

/-- The key is destroyed and another is generated; then a backup of the first brings the
generation back, and a third key receives the handle of the second. -/
def restoredRun (rmk : Bytes) : List (Act Unit Call Env) :=
  generatedRun ++
  Pool.calling () (.destroy firstSession ⟨0, 1⟩) 16 (.calm 7) ++
  Pool.calling () (.generate firstSession .mlKem512 3 SLOT_POLICY_SEED_STORAGE) 16 (.calm 2) ++
  restoring generatedRun rmk ++
  Pool.calling () (.destroy firstSession ⟨0, 1⟩) 16 (.calm 7) ++
  Pool.calling () (.generate firstSession .mlKem512 3 SLOT_POLICY_SEED_STORAGE) 16 (.calm 3) ++
  Pool.calling () (.decaps firstSession ⟨1, 1⟩ (List.replicate 768 0) (some 32)) 2 (.calm 7)

theorem handle_reused_after_restore : ∃ c, (slotPool .clear 1 Unit).Reaches Pool.always c ∧
    keyChanges 0 c.hist.events < 2 ^ 32 ∧ ¬ c.hist.events.Pairwise HandleAgrees :=
  Pool.exists_scheduleAll Pool.unchecked Pool.always_of_unchecked
    (powerUp_init Setup.clear Nat.one_pos (by decide)) (restoredRun (List.replicate 32 9)) _
    (by decide +kernel)

/-- No generation is bumped and no record installed. -/
def leavesGenerations (_ : DevHist Unit 1) (_ : Act Unit Call Env) (evs : List Event) : Bool :=
  evs.all fun
    | .destroyed _ => false
    | .zeroized _ => false
    | .recordRead .. => false
    | _ => true

theorem handleCond_of_leavesGenerations (h : DevHist Unit 1) (a : Act Unit Call Env)
    (evs : List Event) (hEvs : leavesGenerations h a evs = true) : handleCond h a evs := by
  have hAll := List.all_eq_true.mp hEvs
  refine ⟨fun i hBump => ?_, fun i m r hMem => ?_⟩
  · rcases hBump with hMem | hMem <;> exact absurd (hAll _ hMem) (by simp)
  · exact absurd (hAll _ hMem) (by simp)

theorem handles_reach_their_key_generated : ∃ c : DevConfig Unit 1,
    (∃ k, .handleAccepted 0 ⟨0, 1⟩ k ∈ c.hist.events ∧ .handleIssued 0 ⟨0, 1⟩ k ∈ c.hist.events) ∧
      c.hist.events.Pairwise HandleAgrees := by
  obtain ⟨c, hRun, hMem⟩ := Pool.exists_scheduleAll leavesGenerations
    handleCond_of_leavesGenerations (powerUp_init Setup.clear Nat.one_pos (by decide))
    (generatedRun ++ Pool.calling () (.decaps firstSession ⟨0, 1⟩ (List.replicate 768 0) (some 32)) 2
      (.calm 7))
    (fun c : DevConfig Unit 1 => .handleAccepted 0 ⟨0, 1⟩ (c.hist.shared.tok.slots 0).key ∈ c.hist.events ∧
      .handleIssued 0 ⟨0, 1⟩ (c.hist.shared.tok.slots 0).key ∈ c.hist.events) (by decide +kernel)
  exact ⟨c, ⟨_, hMem⟩, handles_reach_their_key hRun⟩

end Runs

end PqcHsm
