import PqcHsm.Slot.LoginGrant
import PqcHsm.Store.Written

/-!
# The target of a rejected injection

An injection destroys the old key of its target before it loads the new one. What only the load
refuses, a null output pointer and the production profile, therefore costs the old key.
-/

namespace PqcHsm

open ByteCodec Sections

variable {n : Nat}

section Calls

variable (hook : DevProg n Bool) (S : Setup)

/-- `create_object` with its output pointer, which is not null where `hasOut` is set. -/
def createObjectTo (hasOut : Bool) (sess : HsmSession) (alg : PqcAlg) (usage policy : UInt32)
    (seed : Option Bytes) (ev : SlotEvent) : DevProg n (HsmStatus × Option HsmHandle) := do
  match ← requireRole sess .user with
  | .error st => pure (st, none)
  | .ok id =>
    if !hasOut ∨ alg = .none then pure (.errBadArg, none)
    else if policyDeniedByProfile S policy then pure (.errPolicy, none)
    else
      match slotAt n id with
      | none => pure (.errBadArg, none)
      | some i => do
        let r ← hwSection i (createObjectLocked S id alg usage policy seed ev)
        let st ← commitSecurityState hook r.1
        pure (st, r.2)

/-- `hsm_slot_load_seed` with its output pointer. -/
def hsmSlotLoadSeedTo (hasOut : Bool) (sess : HsmSession) (alg : PqcAlg) (usage policy : UInt32)
    (seed : Bytes) : DevProg n (HsmStatus × Option HsmHandle) :=
  match pqcAlgInfo alg with
  | none => pure (.errBadArg, none)
  | some info =>
    if seed.length ≠ info.seedLen then pure (.errBadArg, none)
    else createObjectTo hook S hasOut sess alg usage policy (some seed) .load

/-- The commit phase of an injection with the output pointer. -/
def injectCommitTo (hasOut : Bool) (targetSess : HsmSession) (hdr : InjectHeader) (seed : Bytes) :
    DevProg n (HsmStatus × Option HsmHandle) := do
  let target ← findTargetSlot S targetSess (List.range n)
  match target with
  | none => hsmSlotLoadSeedTo hook S hasOut targetSess hdr.keyAlg hdr.usage hdr.policy seed
  | some (told, m) =>
    if m.policy &&& SLOT_POLICY_INJECTABLE = 0 then pure (.errPolicy, none)
    else
      let st ← hsmObjectDestroy hook S targetSess told
      if st = .ok then
        hsmSlotLoadSeedTo hook S hasOut targetSess hdr.keyAlg hdr.usage hdr.policy seed
      else pure (st, none)

/-- `hsm_inject_apply` with all its arguments: the container may be null, and so may the output
pointer. -/
def hsmInjectApplyTo (hasOut : Bool) (kemSess : HsmSession) (kemHandle : HsmHandle)
    (targetSess : HsmSession) (blob : Option Bytes) : DevProg n (HsmStatus × Option HsmHandle) :=
  match blob with
  | none => pure (.errBadArg, none)
  | some blob =>
    match injectHeader blob with
    | .error st => pure (st, none)
    | .ok hdr => do
      match ← hsmSessionRole targetSess with
      | .error st => pure (st, none)
      | .ok _ =>
        let ct := (blob.drop IJ_HDR_LEN).take hdr.ctLen
        match ← hsmObjectDecaps S kemSess kemHandle ct (some 64) with
        | (.ok, some ss) =>
          let keysOk ← Prog.ask fun e => e.cryptoOk
          if !keysOk then pure (.errCrypto, none)
          else
            match injectSeed S blob hdr ss with
            | none => pure (.errIntegrity, none)
            | some seed =>
              match validateUsage hdr.keyAlg hdr.usage with
              | .ok => injectCommitTo hook S hasOut targetSess hdr seed
              | st => pure (st, none)
        | (st, _) => pure (st, none)

theorem hsmSlotLoadSeedTo_true (sess : HsmSession) (alg : PqcAlg) (usage policy : UInt32)
    (seed : Bytes) : hsmSlotLoadSeedTo hook S true sess alg usage policy seed =
      hsmSlotLoadSeed hook S sess alg usage policy seed := by
  simp [hsmSlotLoadSeedTo, hsmSlotLoadSeed, createObjectTo, createObject]
  all_goals rfl

/-- With an output pointer it is the call of the pool of operations. -/
theorem hsmInjectApplyTo_some (kemSess : HsmSession) (kemHandle : HsmHandle)
    (targetSess : HsmSession) (blob : Bytes) :
    hsmInjectApplyTo hook S true kemSess kemHandle targetSess (some blob) =
      hsmInjectApply hook S kemSess kemHandle targetSess blob := by
  have hCommit : injectCommitTo hook S true = injectCommit hook S := by
    funext sess hdr seed
    simp only [injectCommitTo, injectCommit, hsmSlotLoadSeedTo_true]
    all_goals rfl
  simp only [hsmInjectApplyTo, hsmInjectApply, hCommit]
  all_goals rfl

end Calls

/-- No step of the backend fails in the section. -/
structure Env.BackendWorks (e : Env) : Prop where
  seals : ∀ k, e.sealOk k = true
  computes : e.cryptoOk = true

/-- The same key with the same answer to every handle. -/
structure Slot.KeepsKey (S : Setup) (s s' : Slot) : Prop where
  key : s'.key = s.key
  handles : ∀ e h, checkHandle S e s' h = checkHandle S e s h

/-- Nothing has happened to the slot that an injection or a handle looks at. -/
structure Slot.Alike (C : Crypto) (s s' : Slot) : Prop where
  key : s'.key = s.key
  state : s'.metadata.state = s.metadata.state
  generation : s'.metadata.generation = s.metadata.generation
  slotId : s'.metadata.slotId = s.metadata.slotId
  policy : s'.metadata.policy = s.metadata.policy
  intact : s'.Sealed C ↔ s.Sealed C

namespace Slot

variable {S : Setup} {C : Crypto} {s s' s'' : Slot}

theorem Alike.refl (s : Slot) : s.Alike C s := ⟨rfl, rfl, rfl, rfl, rfl, Iff.rfl⟩

theorem Alike.trans (h : s.Alike C s') (h' : s'.Alike C s'') : s.Alike C s'' where
  key := h'.key.trans h.key
  state := h'.state.trans h.state
  generation := h'.generation.trans h.generation
  slotId := h'.slotId.trans h.slotId
  policy := h'.policy.trans h.policy
  intact := h'.intact.trans h.intact

theorem slotCheckIntegrity_congr (h : s'.Sealed C ↔ s.Sealed C) (e : Env) (k : Nat) :
    slotCheckIntegrity C e k s' = slotCheckIntegrity C e k s := by
  simp only [Slot.Sealed] at h
  simp only [slotCheckIntegrity, h]

theorem Alike.keepsKey (h : s.Alike S.crypto s') : s.KeepsKey S s' := by
  constructor
  · exact h.key
  · intro e handle
    simp only [checkHandle, h.slotId, h.generation, h.state, slotCheckIntegrity_congr h.intact]

/-- The handle of the key in the slot. -/
def ownHandle (s : Slot) (i : Nat) : HsmHandle := ⟨s.metadata.generation, UInt32.ofNat (i + 1)⟩

/-- An injection takes the slot for occupied. -/
def Occupied (C : Crypto) (s : Slot) : Prop :=
  (s.metadata.state = .loaded ∨ s.metadata.state = .inUse) ∧ s.metaTag = slotMetaSeal C s.metadata

instance (C : Crypto) (s : Slot) : Decidable (s.Occupied C) := inferInstanceAs (Decidable (_ ∧ _))

end Slot

section Handles

variable {S : Setup} {s : Slot} {e : Env} {i : Fin n}

theorem ofNat_succ_ne_zero (hn : n ≤ TOKEN_MAX_SLOTS) (i : Fin n) : UInt32.ofNat (i.val + 1) ≠ 0 := by
  have hi := i.isLt
  simp only [TOKEN_MAX_SLOTS] at hn
  intro h
  have hNat := congrArg UInt32.toNat h
  simp only [UInt32.toNat_ofNat', UInt32.toNat_zero] at hNat
  omega

theorem ofNat_succ_inj (hn : n ≤ TOKEN_MAX_SLOTS) {i j : Nat} (hi : i < n) (hj : j < n)
    (h : UInt32.ofNat (i + 1) = UInt32.ofNat (j + 1)) : i = j := by
  simp only [TOKEN_MAX_SLOTS] at hn
  have hNat := congrArg UInt32.toNat h
  simp only [UInt32.toNat_ofNat'] at hNat
  omega

theorem ofNat_succ (i : Nat) : UInt32.ofNat (i + 1) = UInt32.ofNat i + 1 := by
  simp

theorem checkHandle_own (hn : n ≤ TOKEN_MAX_SLOTS) (hId : s.metadata.slotId = UInt32.ofNat i)
    (hWorks : e.BackendWorks) (h : s.Occupied S.crypto) :
    checkHandle S e s (s.ownHandle i) = .ok := by
  have hValid : s.ownHandle i ≠ HSM_INVALID_HANDLE := by
    intro hEq
    exact ofNat_succ_ne_zero hn i (congrArg HsmHandle.sid hEq)
  have hGood : ¬ (s.ownHandle i = HSM_INVALID_HANDLE ∨ (s.ownHandle i).sid ≠ s.metadata.slotId + 1 ∨
      (s.ownHandle i).gen ≠ s.metadata.generation) := by
    rintro (hEq | hEq | hEq)
    · exact hValid hEq
    · exact hEq (by rw [hId]; exact ofNat_succ i)
    · exact hEq rfl
  have hState : ¬ (s.metadata.state ≠ .loaded ∧ s.metadata.state ≠ .inUse) := by
    rintro ⟨hLoaded, hInUse⟩
    exact h.1.elim hLoaded hInUse
  rw [checkHandle, if_neg hGood, if_neg hState, slotCheckIntegrity, if_pos ⟨hWorks.seals 0, h.2⟩]

/-- The handle of another slot. -/
theorem checkHandle_other (hn : n ≤ TOKEN_MAX_SLOTS) (hId : s.metadata.slotId = UInt32.ofNat i)
    {j : Nat} (hj : j < n) (hNe : j ≠ i) (gen : UInt32) :
    checkHandle S e s ⟨gen, UInt32.ofNat (j + 1)⟩ = .errBadHandle := by
  refine if_pos (.inr (.inl ?_))
  rw [hId, ← ofNat_succ]
  intro hEq
  exact hNe (ofNat_succ_inj hn hj i.isLt hEq)

end Handles

section Runs

variable {S : Setup} {sess : HsmSession} {need : HsmRole} {d : Device n} {env : Nat → Env} {i : Fin n}

theorem works_rest {α : Type} {p : DevProg n α} (hWorks : ∀ k, (env k).BackendWorks) (k : Nat) :
    ((p.run env d).2.2 k).BackendWorks := by
  obtain ⟨j, hj⟩ := p.run_rest env d
  rw [hj]
  exact hWorks _

theorem slotOf_congr {tok tok' : Token n} (h : tok'.sessions = tok.sessions) :
    tok'.slotOf sess = tok.slotOf sess := by
  rw [Token.slotOf, Token.slotOf, h]

theorem run_sessionInfo_open (env : Nat → Env) (h : d.tok.slotOf sess = some i) : ∃ role,
    d.tok.roleOf sess = some role ∧
      (sessionInfo sess).run env d = (.ok (i.val, role), d, fun k => env (k + 1)) := by
  obtain ⟨k, hIndex, hMatches, hSlot, hRole⟩ := roleOf_of_slotOf h
  refine ⟨_, hRole, ?_⟩
  simp only [sessionInfo, hIndex, tokenSection, Prog.run_atomic, hMatches, if_true, slotAt_val hSlot]

theorem run_requireRole_open (h : d.tok.slotOf sess = some i) :
    (requireRole sess need).run env d =
      (if d.tok.roleOf sess = some need then .ok i.val else .error .errNotAuthorized, d,
        fun k => env (k + 1)) := by
  obtain ⟨role, hRole, hRun⟩ := run_sessionInfo_open env h
  simp only [requireRole, Prog.bind_eq_bind, Prog.run_bind, hRun, hRole, Option.some.injEq]
  rfl

theorem run_requireRole_device : ((requireRole sess need).run env d).2.1 = d := by
  simp only [requireRole, sessionInfo]
  cases sessionIndex sess with
  | none => rfl
  | some k =>
    simp only [tokenSection, Prog.bind_eq_bind, Prog.run_bind, Prog.run_atomic]
    cases (d.tok.sessions k).matches sess <;> rfl

theorem run_hsmSlotGetMeta : (hsmSlotGetMeta S i.val).run env d =
    (match slotCheckIntegrity S.crypto (env 0) 0 (d.tok.slots i) with
      | .ok => .ok (d.tok.slots i).metadata
      | st => .error st, d, fun k => env (k + 1)) := by
  simp only [hsmSlotGetMeta, slotAt_fin, slotSection, Prog.run_atomic]
  cases slotCheckIntegrity S.crypto (env 0) 0 (d.tok.slots i) <;> simp only [setSlot_self]

theorem run_hsmObjectPublicKey (h : d.tok.slotOf sess = some i) (handle : HsmHandle) (cap : Option Nat) :
    (hsmObjectPublicKey S sess handle cap).run env d =
      ((publicKeyLocked S i handle cap (env 1) (d.tok.slots i)).1, d, fun k => env (k + 2)) := by
  obtain ⟨role, -, hRun⟩ := run_sessionInfo_open env h
  have hSame : (publicKeyLocked S i handle cap (env 1) (d.tok.slots i)).2.1 = d.tok.slots i := by
    have hCase := publicKeyLocked_cases S i handle cap (env 1) (d.tok.slots i)
    revert hCase
    generalize publicKeyLocked S i handle cap (env 1) (d.tok.slots i) = r
    rintro (_ | _) <;> rfl
  simp only [hsmObjectPublicKey, Prog.bind_eq_bind, Prog.run_bind, hRun, slotAt_fin, slotSection,
    Prog.run_atomic, hSame, setSlot_self]

theorem run_findTargetSlot_own (hn : n ≤ TOKEN_MAX_SLOTS) (hNumbered : d.Numbered)
    (hTarget : d.tok.slotOf sess = some i) (hWorks : ∀ k, (env k).BackendWorks)
    (hOccupied : (d.tok.slots i).Occupied S.crypto) (ids : List Nat) :
    (findTargetSlot S sess (i.val :: ids)).run env d =
      (some ((d.tok.slots i).ownHandle i, (d.tok.slots i).metadata), d, fun k => env (k + 3)) := by
  have hState : ¬ ((d.tok.slots i).metadata.state ≠ .loaded ∧ (d.tok.slots i).metadata.state ≠ .inUse) := by
    rintro ⟨hLoaded, hInUse⟩
    exact hOccupied.1.elim hLoaded hInUse
  have hIntact : slotCheckIntegrity S.crypto (env 0) 0 (d.tok.slots i) = .ok :=
    if_pos ⟨(hWorks 0).seals 0, hOccupied.2⟩
  have hOwn := checkHandle_own hn (hNumbered i) (hWorks 2) hOccupied
  have hFound : (publicKeyLocked S i ((d.tok.slots i).ownHandle i) (some 8) (env 2)
      (d.tok.slots i)).1.1 ≠ .errBadHandle := by
    simp only [publicKeyLocked, hOwn]
    split <;> simp
  have hKey := @run_hsmObjectPublicKey n S sess d (fun k => env (k + 1)) i hTarget
    ((d.tok.slots i).ownHandle i) (some 8)
  simp only [Slot.ownHandle] at hKey hFound ⊢
  simp only [findTargetSlot, Prog.bind_eq_bind, Prog.run_bind, run_hsmSlotGetMeta, hIntact,
    if_neg hState, hKey, if_neg hFound, Prog.pure_eq_ret, Prog.run_ret]

/-- Slots of other sessions, and a slot that is not occupied, are passed over. -/
theorem run_findTargetSlot_skip (env : Nat → Env) (hn : n ≤ TOKEN_MAX_SLOTS) (hNumbered : d.Numbered)
    (hTarget : d.tok.slotOf sess = some i) {j : Fin n}
    (hSkip : j ≠ i ∨ ¬ (d.tok.slots j).Occupied S.crypto) (ids : List Nat) : ∃ k₀,
    (findTargetSlot S sess (j.val :: ids)).run env d =
      (findTargetSlot S sess ids).run (fun k => env (k + k₀)) d := by
  simp only [findTargetSlot, Prog.bind_eq_bind, Prog.run_bind, run_hsmSlotGetMeta]
  cases hIntact : slotCheckIntegrity S.crypto (env 0) 0 (d.tok.slots j) with
  | ok =>
    simp only []
    split
    · exact ⟨1, rfl⟩
    · rename_i hState
      have hNe : j ≠ i := by
        refine hSkip.resolve_right fun h => h ⟨?_, sealed_of_slotCheckIntegrity hIntact⟩
        by_cases hLoaded : (d.tok.slots j).metadata.state = .loaded
        · exact .inl hLoaded
        · exact .inr (not_not.mp fun h => hState ⟨hLoaded, h⟩)
      have hKey := @run_hsmObjectPublicKey n S sess d (fun k => env (k + 1)) i hTarget
        ⟨(d.tok.slots j).metadata.generation, UInt32.ofNat (j + 1)⟩ (some 8)
      have hBad : (publicKeyLocked S i ⟨(d.tok.slots j).metadata.generation,
          UInt32.ofNat (j + 1)⟩ (some 8) (env 2) (d.tok.slots i)).1.1 = .errBadHandle := by
        simp only [publicKeyLocked, checkHandle_other hn (hNumbered i) j.isLt
          (fun h => hNe (Fin.ext h))]
      simp only [Prog.run_bind, hKey, hBad, if_true]
      exact ⟨3, rfl⟩
  | _ => exact ⟨1, rfl⟩

/-- `find_target_slot` finds the slot of the session if that is occupied, and changes nothing. -/
theorem run_findTargetSlot (hn : n ≤ TOKEN_MAX_SLOTS) (hNumbered : d.Numbered)
    (hTarget : d.tok.slotOf sess = some i) (hWorks : ∀ k, (env k).BackendWorks) (ids : List Nat)
    (hIds : ∀ id ∈ ids, id < n) :
    ((findTargetSlot S sess ids).run env d).1 =
        (if i.val ∈ ids ∧ (d.tok.slots i).Occupied S.crypto then
          some ((d.tok.slots i).ownHandle i, (d.tok.slots i).metadata) else none) ∧
      ((findTargetSlot S sess ids).run env d).2.1 = d := by
  induction ids generalizing env with
  | nil => simp [findTargetSlot]
  | cons id ids ih =>
    have hRest := fun j => @ih (fun k => env (k + j)) (fun k => hWorks (k + j))
      fun id h => hIds id (List.mem_cons_of_mem _ h)
    obtain ⟨j, rfl⟩ : ∃ j : Fin n, j.val = id := ⟨⟨id, hIds id (List.mem_cons_self ..)⟩, rfl⟩
    by_cases hOwn : j = i ∧ (d.tok.slots i).Occupied S.crypto
    · obtain ⟨rfl, hOccupied⟩ := hOwn
      rw [run_findTargetSlot_own hn hNumbered hTarget hWorks hOccupied]
      simp [hOccupied]
    · have hSkip : j ≠ i ∨ ¬ (d.tok.slots j).Occupied S.crypto := by
        by_cases hji : j = i
        · subst hji
          exact .inr fun h => hOwn ⟨rfl, h⟩
        · exact .inl hji
      obtain ⟨k₀, hRun⟩ := run_findTargetSlot_skip env hn hNumbered hTarget hSkip ids
      have hMem : (i.val ∈ j.val :: ids ∧ (d.tok.slots i).Occupied S.crypto) ↔
          (i.val ∈ ids ∧ (d.tok.slots i).Occupied S.crypto) := by
        constructor
        · rintro ⟨hMem, hOccupied⟩
          rcases List.mem_cons.mp hMem with hEq | hMem
          · exact (hOwn ⟨(Fin.ext hEq).symm, hOccupied⟩).elim
          · exact ⟨hMem, hOccupied⟩
        · exact fun h => ⟨List.mem_cons_of_mem _ h.1, h.2⟩
      rw [hRun]
      simp only [hMem]
      exact hRest k₀

end Runs

section Steps

variable {S : Setup} {sess : HsmSession} {d : Device n} {env : Nat → Env} {i : Fin n} {e : Env}

/-- No persist step of the run fails. -/
def NoPersistFailure {α : Type} (p : DevProg n α) (env : Nat → Env) (d : Device n) : Prop :=
  Event.persistLeft false ∉ p.events env d

theorem noPersistFailure_bind {α β : Type} {p : DevProg n α} {f : α → DevProg n β}
    (h : NoPersistFailure (p.bind f) env d) : NoPersistFailure p env d ∧
      NoPersistFailure (f (p.run env d).1) (p.run env d).2.2 (p.run env d).2.1 := by
  rw [NoPersistFailure, Prog.events_bind, List.mem_append, not_or] at h
  exact h

theorem run_slotPersist {hook : DevProg n Bool} (h : NoPersistFailure (slotPersist hook) env d) :
    ((slotPersist hook).run env d).1 = true := by
  cases hEnter : (!d.tok.persistBusy && d.tok.persistFn) with
  | false =>
    simp only [slotPersist, tokenSection, Prog.bind_eq_bind, Prog.run_bind, Prog.run_atomic, hEnter,
      Bool.false_eq_true, if_false]
    rfl
  | true =>
    simp only [NoPersistFailure, slotPersist, tokenSection, Prog.bind_eq_bind, Prog.events_bind,
      Prog.run_bind, Prog.run_atomic, Prog.events_atomic, hEnter, if_true, List.mem_append, not_or,
      List.mem_singleton] at h ⊢
    generalize (hook.run _ _).1 = rc at h ⊢
    cases rc with
    | true => rfl
    | false => exact (h.2.2 rfl).elim

theorem run_commitSecurityState {st : HsmStatus}
    (h : NoPersistFailure (commitSecurityState (persistKeystore S) st) env d) :
    ((commitSecurityState (persistKeystore S) st).run env d).1 = st ∧
      ((commitSecurityState (persistKeystore S) st).run env d).2.1.tok.slots = d.tok.slots ∧
      ((commitSecurityState (persistKeystore S) st).run env d).2.1.tok.sessions = d.tok.sessions := by
  refine ⟨?_, ?_, sessions_commitSecurityState st⟩
  · simp only [commitSecurityState, Prog.bind_eq_bind] at h ⊢
    obtain ⟨h, -⟩ := noPersistFailure_bind h
    simp [run_slotPersist h]
  · exact Prog.Within.run_keeps (f := fun d => d.tok.slots) (fun _ _ _ h => h.slots)
      (stores_commitSecurityState stores_persistKeystore st) env d

/-- What a refused use of the key leaves behind, and what a use does. -/
theorem alike_useCase {id : Nat} {h : HsmHandle} {hw : HwTable} {s : Slot}
    {r : (HsmStatus × Option Bytes) × (HwTable × Slot) × List Event} (hWorks : e.BackendWorks)
    (hCase : UseCase S id h e hw s r) : s.Alike S.crypto r.2.1.2 := by
  cases hCase with
  | refused st hSt => exact .refl s
  | used out hw' count time hCheck hState hHw =>
    have hSealed : s.Sealed S.crypto := by
      unfold checkHandle at hCheck
      split at hCheck
      · cases hCheck
      · split at hCheck
        · cases hCheck
        · exact sealed_of_slotCheckIntegrity hCheck
    have hAfter := sealed_slotReseal (C := S.crypto) (hWorks.seals 1) (s.counted count time)
    constructor
    · rw [slotReseal_key]
      rfl
    · rw [slotReseal_snd]
      rfl
    · rw [slotReseal_snd]
      rfl
    · rw [slotReseal_snd]
      rfl
    · rw [slotReseal_snd]
      rfl
    · exact ⟨fun _ => hSealed, fun _ => hAfter⟩

theorem alike_setSlot {s : Slot} (h : (d.tok.slots i).Alike S.crypto s) (j : Fin n) :
    (d.tok.slots j).Alike S.crypto ((d.setSlot i s).tok.slots j) := by
  rw [setSlot_slots]
  by_cases hji : j = i
  · subst hji
    rw [Function.update_self]
    exact h
  · rw [Function.update_of_ne hji]
    exact .refl _

/-- A decapsulation changes nothing of a slot that matters here. -/
theorem run_hsmObjectDecaps (hWorks : ∀ k, (env k).BackendWorks) (h : HsmHandle) (ct : Bytes)
    (cap : Option Nat) :
    (∀ j, (d.tok.slots j).Alike S.crypto
      (((hsmObjectDecaps S sess h ct cap).run env d).2.1.tok.slots j)) ∧
    ((hsmObjectDecaps S sess h ct cap).run env d).2.1.tok.sessions = d.tok.sessions := by
  simp only [hsmObjectDecaps, Prog.bind_eq_bind, Prog.run_bind, run_requireRole_device]
  have hWorks' := works_rest (d := d) (p := requireRole sess .user) hWorks
  generalize (requireRole sess .user : DevProg n _).run env d = r at hWorks'
  obtain ⟨(st | id), d', env'⟩ := r
  · exact ⟨fun j => .refl _, rfl⟩
  · simp only []
    cases slotAt n id with
    | none => exact ⟨fun j => .refl _, rfl⟩
    | some i =>
      simp only [hwSection, Prog.run_atomic]
      exact ⟨alike_setSlot (alike_useCase (hWorks' 0) (decapsLocked_cases S id h ct cap _ d.hw _)), rfl⟩

/-- A load that fails leaves the slot as it was; with everything checked before, it can only fail
for want of memory. -/
theorem createObjectLocked_load {id : Nat} {alg : PqcAlg} {usage policy : UInt32} {seed : Bytes}
    {hw : HwTable} {s : Slot} (hWorks : e.BackendWorks)
    (h : (createObjectLocked S id alg usage policy (some seed) .load e hw s).1.1 ≠ .ok) :
    s.Alike S.crypto (createObjectLocked S id alg usage policy (some seed) .load e hw s).2.1.2 := by
  have hCase := createObjectLocked_cases S id alg usage policy (some seed) (.inr rfl) e hw s
  revert h
  generalize createObjectLocked S id alg usage policy (some seed) .load e hw s = r at hCase
  cases hCase with
  | refused st hSt => exact fun _ => .refl s
  | failed st hw' hSt hState hIntact hHw =>
    intro _
    have hSealed := sealed_of_slotCheckIntegrity hIntact
    have hSame : (slotReseal S.crypto e 2 s).2 = s := by
      rw [slotReseal_snd, if_pos (hWorks.seals 2), ← hSealed]
    simp only [hSame]
    exact .refl s
  | unsealed k hw' hSeal => exact (Bool.false_ne_true (hSeal.symm.trans (hWorks.seals 1))).elim
  | made k hw' => exact fun h => (h rfl).elim

theorem createObjectLocked_empty {id : Nat} {alg : PqcAlg} {info : PqcAlgInfo} {usage policy : UInt32}
    {seed : Bytes} {hw : HwTable} {s : Slot} (hWorks : e.BackendWorks) (hSealed : s.Sealed S.crypto)
    (hState : s.metadata.state = .empty) (hUsage : validateUsage alg usage = .ok)
    (hInfo : pqcAlgInfo alg = some info) (hLen : seed.length = info.seedLen) :
    (createObjectLocked S id alg usage policy (some seed) .load e hw s).1.1 = .ok ↔
      e.allocOk = true := by
  have hIntact : slotCheckIntegrity S.crypto e 0 s = .ok := if_pos ⟨hWorks.seals 0, hSealed⟩
  have hFsm : fsmApply s .load = some (s.withState .loaded) := by
    simp only [fsmApply, hState, slotFsmNext, Option.map_some]
    rfl
  have hComputes : (!e.cryptoOk) = false := by
    rw [hWorks.computes]
    rfl
  simp only [createObjectLocked, hIntact, hFsm, installKey, hUsage, hInfo, Option.isNone_some,
    Bool.false_eq_true, false_and, if_false, installSoftKey]
  cases hAlloc : e.allocOk with
  | false => simp
  | true =>
    simp only [Bool.not_true, Bool.false_eq_true, if_false, hLen, ne_eq, not_true_eq_false,
      installSoftKey.fromSeed, hComputes, sealKey_eq_good S (hWorks.seals 1)]

end Steps

section Commit

variable {S : Setup} {sess : HsmSession} {hasOut : Bool} {d : Device n} {env : Nat → Env} {i : Fin n}

/-- What `create_object` refuses before it takes the lock, and what it does then. -/
theorem createObjectTo_cases (hTarget : d.tok.slotOf sess = some i) {alg : PqcAlg} (hAlg : alg ≠ .none)
    {usage policy : UInt32} {seed : Option Bytes} {ev : SlotEvent}
    (hPersist : NoPersistFailure
      (createObjectTo (persistKeystore S) S hasOut sess alg usage policy seed ev) env d) :
    (((createObjectTo (persistKeystore S) S hasOut sess alg usage policy seed ev).run env d).1.1 ≠ .ok ∧
      ((createObjectTo (persistKeystore S) S hasOut sess alg usage policy seed ev).run
        env d).2.1.tok.slots = d.tok.slots ∧
      (d.tok.roleOf sess = some .user →
        ¬ (hasOut = true ∧ policyDeniedByProfile S policy = false))) ∨
    (((createObjectTo (persistKeystore S) S hasOut sess alg usage policy seed ev).run env d).1.1 =
        (createObjectLocked S i alg usage policy seed ev (env 1) d.hw (d.tok.slots i)).1.1 ∧
      ((createObjectTo (persistKeystore S) S hasOut sess alg usage policy seed ev).run
        env d).2.1.tok.slots = Function.update d.tok.slots i
          (createObjectLocked S i alg usage policy seed ev (env 1) d.hw (d.tok.slots i)).2.1.2 ∧
      hasOut = true ∧ policyDeniedByProfile S policy = false) := by
  simp only [createObjectTo, Prog.bind_eq_bind] at hPersist ⊢
  obtain ⟨-, hPersist⟩ := noPersistFailure_bind hPersist
  simp only [Prog.run_bind, run_requireRole_open hTarget] at hPersist ⊢
  by_cases hRole : d.tok.roleOf sess = some .user
  · cases hasOut with
    | false =>
      left
      simp only [if_pos hRole, Bool.not_false, true_or, if_true, Prog.pure_eq_ret, Prog.run_ret]
      simp
    | true =>
      cases hDenied : policyDeniedByProfile S policy with
      | true =>
        left
        simp only [if_pos hRole, hAlg, Bool.not_true, Bool.false_eq_true, or_self, if_false, if_true,
          Prog.pure_eq_ret, Prog.run_ret]
        simp
      | false =>
        right
        simp only [if_pos hRole, hAlg, hDenied, Bool.not_true, Bool.false_eq_true, or_self, if_false,
          slotAt_fin] at hPersist ⊢
        obtain ⟨-, hPersist⟩ := noPersistFailure_bind hPersist
        obtain ⟨hCommit, -⟩ := noPersistFailure_bind hPersist
        obtain ⟨hStatus, hSlots, -⟩ := run_commitSecurityState hCommit
        simp only [Prog.run_bind, Prog.pure_eq_ret, Prog.run_ret]
        exact ⟨hStatus, hSlots, trivial, trivial⟩
  · left
    simp only [if_neg hRole, Prog.pure_eq_ret, Prog.run_ret]
    refine ⟨HsmStatus.noConfusion, trivial, fun h => (hRole h).elim⟩

/-- A load that fails changes no slot. -/
theorem run_hsmSlotLoadSeedTo_failed (hTarget : d.tok.slotOf sess = some i)
    (hWorks : ∀ k, (env k).BackendWorks) {alg : PqcAlg} {usage policy : UInt32} {seed : Bytes}
    (hPersist : NoPersistFailure
      (hsmSlotLoadSeedTo (persistKeystore S) S hasOut sess alg usage policy seed) env d)
    (hFail : ((hsmSlotLoadSeedTo (persistKeystore S) S hasOut sess alg usage policy seed).run
      env d).1.1 ≠ .ok) (j : Fin n) :
    (d.tok.slots j).Alike S.crypto
      (((hsmSlotLoadSeedTo (persistKeystore S) S hasOut sess alg usage policy seed).run
        env d).2.1.tok.slots j) := by
  simp only [hsmSlotLoadSeedTo] at hPersist hFail ⊢
  cases hInfo : pqcAlgInfo alg with
  | none => exact .refl _
  | some info =>
    have hAlg : alg ≠ .none := (pqcAlgInfo_isSome_iff alg).mp (by simp [hInfo])
    simp only [hInfo] at hPersist hFail ⊢
    by_cases hLen : seed.length = info.seedLen
    · simp only [hLen, ne_eq, not_true_eq_false, if_false] at hPersist hFail ⊢
      rcases createObjectTo_cases hTarget hAlg hPersist with ⟨-, hSlots, -⟩ | ⟨hStatus, hSlots, -⟩
      · rw [hSlots]
        exact .refl _
      · rw [hStatus] at hFail
        rw [hSlots]
        exact alike_setSlot (createObjectLocked_load (hWorks 1) hFail) j
    · rw [if_pos hLen]
      exact .refl _

/-- Into an empty slot, with usage, length and role checked before, a load still refuses a null
output pointer and a policy that the profile denies, and it needs memory. -/
theorem run_hsmSlotLoadSeedTo_ok_iff (hTarget : d.tok.slotOf sess = some i)
    (hRole : d.tok.roleOf sess = some .user) (hWorks : ∀ k, (env k).BackendWorks) {alg : PqcAlg}
    {info : PqcAlgInfo} {usage policy : UInt32} {seed : Bytes} (hInfo : pqcAlgInfo alg = some info)
    (hLen : seed.length = info.seedLen) (hUsage : validateUsage alg usage = .ok)
    (hEmpty : (d.tok.slots i).metadata.state = .empty) (hSealed : (d.tok.slots i).Sealed S.crypto)
    (hPersist : NoPersistFailure
      (hsmSlotLoadSeedTo (persistKeystore S) S hasOut sess alg usage policy seed) env d) :
    ((hsmSlotLoadSeedTo (persistKeystore S) S hasOut sess alg usage policy seed).run env d).1.1 = .ok ↔
      hasOut = true ∧ policyDeniedByProfile S policy = false ∧ (env 1).allocOk = true := by
  have hAlg : alg ≠ .none := (pqcAlgInfo_isSome_iff alg).mp (by simp [hInfo])
  simp only [hsmSlotLoadSeedTo, hInfo, hLen, ne_eq, not_true_eq_false, if_false] at hPersist ⊢
  rcases createObjectTo_cases hTarget hAlg hPersist with ⟨hStatus, -, hWhy⟩ | ⟨hStatus, -, hOut, hAllowed⟩
  · constructor
    · exact fun h => (hStatus h).elim
    · rintro ⟨hOut, hAllowed, -⟩
      exact (hWhy hRole ⟨hOut, hAllowed⟩).elim
  · rw [hStatus, createObjectLocked_empty (hWorks 1) hSealed hEmpty hUsage hInfo hLen]
    constructor
    · exact fun hAlloc => ⟨hOut, hAllowed, hAlloc⟩
    · exact fun h => h.2.2

/-- Only a user can destroy the key, and only while it is not in use. -/
theorem run_hsmObjectDestroy_refused (hTarget : d.tok.slotOf sess = some i) {h : HsmHandle}
    (hPersist : NoPersistFailure (hsmObjectDestroy (persistKeystore S) S sess h) env d)
    (hRefused : d.tok.roleOf sess ≠ some .user ∨ (d.tok.slots i).metadata.state ≠ .loaded) :
    ((hsmObjectDestroy (persistKeystore S) S sess h).run env d).1 ≠ .ok ∧
      ((hsmObjectDestroy (persistKeystore S) S sess h).run env d).2.1.tok.slots = d.tok.slots := by
  simp only [hsmObjectDestroy, Prog.bind_eq_bind] at hPersist ⊢
  obtain ⟨-, hPersist⟩ := noPersistFailure_bind hPersist
  simp only [Prog.run_bind, run_requireRole_open hTarget] at hPersist ⊢
  by_cases hRole : d.tok.roleOf sess = some .user
  · have hState := hRefused.resolve_left (fun h => h hRole)
    simp only [if_pos hRole, slotAt_fin] at hPersist ⊢
    obtain ⟨-, hCommit⟩ := noPersistFailure_bind hPersist
    obtain ⟨hStatus, hSlots, -⟩ := run_commitSecurityState hCommit
    have hSame : (destroyLocked S i h (env 1) (d.tok.slots i)).1 ≠ .ok ∧
        (destroyLocked S i h (env 1) (d.tok.slots i)).2.1 = d.tok.slots i := by
      have hCase := destroyLocked_cases S i h (env 1) (d.tok.slots i)
      revert hCase
      generalize destroyLocked S i h (env 1) (d.tok.slots i) = r
      rintro (⟨st, hSt⟩ | ⟨-, hLoaded⟩)
      · exact ⟨hSt, rfl⟩
      · exact (hState hLoaded).elim
    simp only [Prog.run_bind]
    constructor
    · exact fun h => hSame.1 (hStatus.symm.trans h)
    · refine hSlots.trans ?_
      simp only [slotSection, Prog.run_atomic, hSame.2, setSlot_self]
  · simp only [if_neg hRole, Prog.pure_eq_ret, Prog.run_ret]
    exact ⟨HsmStatus.noConfusion, trivial⟩

theorem run_hsmObjectDestroy_done (hn : n ≤ TOKEN_MAX_SLOTS) (hNumbered : d.Numbered)
    (hTarget : d.tok.slotOf sess = some i) (hRole : d.tok.roleOf sess = some .user)
    (hWorks : ∀ k, (env k).BackendWorks) (hLoaded : (d.tok.slots i).metadata.state = .loaded)
    (hSealed : (d.tok.slots i).Sealed S.crypto)
    (hPersist : NoPersistFailure
      (hsmObjectDestroy (persistKeystore S) S sess ((d.tok.slots i).ownHandle i)) env d) :
    ((hsmObjectDestroy (persistKeystore S) S sess ((d.tok.slots i).ownHandle i)).run env d).1 = .ok ∧
      ((hsmObjectDestroy (persistKeystore S) S sess ((d.tok.slots i).ownHandle i)).run
        env d).2.1.tok.slots = Function.update d.tok.slots i
          (slotReseal S.crypto (env 1) 1 (d.tok.slots i).destroyed).2 ∧
      ((hsmObjectDestroy (persistKeystore S) S sess ((d.tok.slots i).ownHandle i)).run
        env d).2.1.tok.sessions = d.tok.sessions := by
  simp only [hsmObjectDestroy, Prog.bind_eq_bind] at hPersist ⊢
  obtain ⟨-, hPersist⟩ := noPersistFailure_bind hPersist
  simp only [Prog.run_bind, run_requireRole_open hTarget, if_pos hRole, slotAt_fin] at hPersist ⊢
  obtain ⟨-, hCommit⟩ := noPersistFailure_bind hPersist
  obtain ⟨hStatus, hSlots, hSessions⟩ := run_commitSecurityState hCommit
  have hOwn := checkHandle_own hn (hNumbered i) (hWorks 1) ⟨.inl hLoaded, hSealed⟩
  have hFsm : fsmApply (d.tok.slots i) .destroy = some ((d.tok.slots i).withState .empty) := by
    simp only [fsmApply, hLoaded, slotFsmNext, Option.map_some]
    rfl
  have hDone : (destroyLocked S i ((d.tok.slots i).ownHandle i) (env 1) (d.tok.slots i)).1 = .ok ∧
      (destroyLocked S i ((d.tok.slots i).ownHandle i) (env 1) (d.tok.slots i)).2.1 =
        (slotReseal S.crypto (env 1) 1 (d.tok.slots i).destroyed).2 := by
    simp only [destroyLocked, hOwn, hFsm]
    exact ⟨(slotReseal_status_ok_iff _ _ _).mpr ((hWorks 1).seals 1), rfl⟩
  refine ⟨hStatus.trans hDone.1, hSlots.trans ?_, hSessions.trans ?_⟩
  · simp only [slotSection, Prog.run_atomic, hDone.2, setSlot_slots]
  · simp only [slotSection, Prog.run_atomic, setSlot_sessions]

end Commit

section Main

variable {S : Setup} {kemSess target : HsmSession} {kemHandle : HsmHandle} {hasOut : Bool}
  {d : Device n} {env : Nat → Env} {i : Fin n} {hdr : InjectHeader} {seed : Bytes}

/-- The decapsulation of an injection; the target session has been looked up before it. -/
def decapsRun (S : Setup) (d : Device n) (env : Nat → Env) (kemSess : HsmSession)
    (kemHandle : HsmHandle) (blob : Bytes) (hdr : InjectHeader) :
    (HsmStatus × Option Bytes) × Device n × (Nat → Env) :=
  (hsmObjectDecaps S kemSess kemHandle ((blob.drop IJ_HDR_LEN).take hdr.ctLen) (some 64)).run
    (fun k => env (k + 1)) d

/-- The container passes the first phase of the injection and carries this seed. -/
structure AuthenticContainer (S : Setup) (d : Device n) (env : Nat → Env) (kemSess : HsmSession)
    (kemHandle : HsmHandle) (blob : Bytes) (hdr : InjectHeader) (seed : Bytes) : Prop where
  header : injectHeader blob = .ok hdr
  opens : ∃ ss, (decapsRun S d env kemSess kemHandle blob hdr).1 = (.ok, some ss) ∧
    injectSeed S blob hdr ss = some seed
  usage : validateUsage hdr.keyAlg hdr.usage = .ok

/-- The session may replace the key of its slot, which may be replaced by an injection. -/
structure Replaceable (S : Setup) (d : Device n) (target : HsmSession) (i : Fin n) : Prop where
  session : d.tok.slotOf target = some i
  role : d.tok.roleOf target = some .user
  loaded : (d.tok.slots i).metadata.state = .loaded
  intact : (d.tok.slots i).Sealed S.crypto
  injectable : (d.tok.slots i).metadata.policy &&& SLOT_POLICY_INJECTABLE ≠ 0

/-- The environments left for the load after a search for the target and its destruction. -/
def loadEnv (S : Setup) (d : Device n) (env : Nat → Env) (target : HsmSession) (i : Fin n) : Nat → Env :=
  let found := (findTargetSlot S target (List.range n)).run env d
  ((hsmObjectDestroy (persistKeystore S) S target ((d.tok.slots i).ownHandle i)).run
    found.2.2 found.2.1).2.2

/-- A target that may not be replaced keeps its key. -/
theorem run_injectCommitTo_kept (hn : n ≤ TOKEN_MAX_SLOTS) (hNumbered : d.Numbered)
    (hTarget : d.tok.slotOf target = some i) (hWorks : ∀ k, (env k).BackendWorks)
    (hPersist : NoPersistFailure
      (injectCommitTo (persistKeystore S) S hasOut target hdr seed) env d)
    (hFail : ((injectCommitTo (persistKeystore S) S hasOut target hdr seed).run env d).1.1 ≠ .ok)
    (hNot : ¬ Replaceable S d target i) (j : Fin n) : (d.tok.slots j).Alike S.crypto
      (((injectCommitTo (persistKeystore S) S hasOut target hdr seed).run env d).2.1.tok.slots j) := by
  simp only [injectCommitTo, Prog.bind_eq_bind] at hPersist hFail ⊢
  obtain ⟨-, hPersist⟩ := noPersistFailure_bind hPersist
  obtain ⟨hFound, hSame⟩ := run_findTargetSlot (S := S) hn hNumbered hTarget hWorks
    (List.range n) fun id h => List.mem_range.mp h
  have hWorks' := works_rest (d := d) (p := findTargetSlot S target (List.range n)) hWorks
  simp only [List.mem_range, i.isLt, true_and] at hFound
  simp only [Prog.run_bind, hFound, hSame] at hPersist hFail ⊢
  by_cases hOccupied : (d.tok.slots i).Occupied S.crypto
  · simp only [if_pos hOccupied] at hPersist hFail ⊢
    by_cases hInjectable : (d.tok.slots i).metadata.policy &&& SLOT_POLICY_INJECTABLE = 0
    · rw [if_pos hInjectable]
      exact .refl _
    · simp only [if_neg hInjectable] at hPersist hFail ⊢
      have hRefused : d.tok.roleOf target ≠ some .user ∨ (d.tok.slots i).metadata.state ≠ .loaded := by
        by_cases hRole : d.tok.roleOf target = some .user
        · refine .inr fun hLoaded => hNot ⟨hTarget, hRole, hLoaded, hOccupied.2, hInjectable⟩
        · exact .inl hRole
      obtain ⟨hDestroy, -⟩ := noPersistFailure_bind hPersist
      obtain ⟨hStatus, hSlots⟩ := run_hsmObjectDestroy_refused hTarget hDestroy hRefused
      simp only [Prog.run_bind, if_neg hStatus, Prog.pure_eq_ret, Prog.run_ret, hSlots]
      exact .refl _
  · simp only [if_neg hOccupied] at hPersist hFail ⊢
    exact run_hsmSlotLoadSeedTo_failed hTarget hWorks' hPersist hFail j

/-- A target that may be replaced loses its key, and the load decides whether it gets another. -/
theorem run_injectCommitTo_replaced (hn : n ≤ TOKEN_MAX_SLOTS) (hNumbered : d.Numbered)
    (hWorks : ∀ k, (env k).BackendWorks) (hReplaceable : Replaceable S d target i)
    {info : PqcAlgInfo} (hInfo : pqcAlgInfo hdr.keyAlg = some info) (hLen : seed.length = info.seedLen)
    (hUsage : validateUsage hdr.keyAlg hdr.usage = .ok)
    (hPersist : NoPersistFailure
      (injectCommitTo (persistKeystore S) S hasOut target hdr seed) env d) :
    (((injectCommitTo (persistKeystore S) S hasOut target hdr seed).run env d).1.1 = .ok ↔
      hasOut = true ∧ policyDeniedByProfile S hdr.policy = false ∧
        (loadEnv S d env target i 1).allocOk = true) ∧
    (((injectCommitTo (persistKeystore S) S hasOut target hdr seed).run env d).1.1 ≠ .ok →
      (((injectCommitTo (persistKeystore S) S hasOut target hdr seed).run
        env d).2.1.tok.slots i).metadata.state = .empty) := by
  obtain ⟨hTarget, hRole, hLoaded, hIntact, hInjectable⟩ := hReplaceable
  simp only [injectCommitTo, Prog.bind_eq_bind] at hPersist ⊢
  obtain ⟨-, hPersist⟩ := noPersistFailure_bind hPersist
  obtain ⟨hFound, hSame⟩ := run_findTargetSlot (S := S) hn hNumbered hTarget hWorks
    (List.range n) fun id h => List.mem_range.mp h
  have hWorks' := works_rest (d := d) (p := findTargetSlot S target (List.range n)) hWorks
  have hOccupied : (d.tok.slots i).Occupied S.crypto := ⟨.inl hLoaded, hIntact⟩
  simp only [List.mem_range, i.isLt, true_and, if_pos hOccupied] at hFound
  simp only [Prog.run_bind, hFound, hSame, if_neg hInjectable] at hPersist ⊢
  obtain ⟨hDestroy, hLoad⟩ := noPersistFailure_bind hPersist
  obtain ⟨hStatus, hSlots, hSessions⟩ :=
    run_hsmObjectDestroy_done hn hNumbered hTarget hRole hWorks' hLoaded hIntact hDestroy
  have hWorks'' := works_rest (d := d)
    (p := hsmObjectDestroy (persistKeystore S) S target ((d.tok.slots i).ownHandle i)) hWorks'
  simp only [loadEnv, hSame]
  generalize (hsmObjectDestroy (persistKeystore S) S target ((d.tok.slots i).ownHandle i)).run
    ((findTargetSlot S target (List.range n)).run env d).2.2 d = r
    at hStatus hSlots hSessions hLoad hWorks'' ⊢
  simp only [hStatus, if_true] at hLoad ⊢
  have hSlot : r.2.1.tok.slots i = (slotReseal S.crypto
      (((findTargetSlot S target (List.range n)).run env d).2.2 1) 1 (d.tok.slots i).destroyed).2 := by
    rw [hSlots, Function.update_self]
  have hTarget' : r.2.1.tok.slotOf target = some i := (slotOf_congr hSessions).trans hTarget
  have hEmpty : (r.2.1.tok.slots i).metadata.state = .empty := by
    rw [hSlot, slotReseal_snd]
    rfl
  have hSealed : (r.2.1.tok.slots i).Sealed S.crypto := by
    rw [hSlot]
    exact sealed_slotReseal ((hWorks' 1).seals 1) _
  constructor
  · exact run_hsmSlotLoadSeedTo_ok_iff hTarget' ((roleOf_congr hSessions).trans hRole) hWorks'' hInfo hLen
      hUsage hEmpty hSealed hLoad
  · intro hFail
    rw [(run_hsmSlotLoadSeedTo_failed hTarget' hWorks'' hLoad hFail i).state]
    exact hEmpty

theorem alike_decapsRun (kemSess : HsmSession) (kemHandle : HsmHandle)
    (hWorks : ∀ k, (env k).BackendWorks) (blob : Bytes) (hdr : InjectHeader)
    (j : Fin n) : (d.tok.slots j).Alike S.crypto
      ((decapsRun S d env kemSess kemHandle blob hdr).2.1.tok.slots j) :=
  (run_hsmObjectDecaps (fun k => hWorks (k + 1)) kemHandle _ _).1 j

theorem decapsRun_sessions (kemSess : HsmSession) (kemHandle : HsmHandle)
    (hWorks : ∀ k, (env k).BackendWorks) (blob : Bytes) (hdr : InjectHeader) :
    (decapsRun S d env kemSess kemHandle blob hdr).2.1.tok.sessions = d.tok.sessions :=
  (run_hsmObjectDecaps (S := S) (fun k => hWorks (k + 1)) kemHandle _ _).2

theorem length_injectSeed {blob : Bytes} {ss : Bytes} (h : injectSeed S blob hdr ss = some seed) :
    ∃ info, pqcAlgInfo hdr.keyAlg = some info ∧ seed.length = info.seedLen := by
  simp only [injectSeed] at h
  split at h
  · rename_i seed' info _ hInfo
    split at h
    · rename_i hLen
      cases h
      exact ⟨info, hInfo, hLen.2⟩
    · cases h
  · cases h

theorem run_hsmSessionRole_open (env : Nat → Env) (hTarget : d.tok.slotOf target = some i) : ∃ role,
    (hsmSessionRole target).run env d = (.ok role, d, fun k => env (k + 1)) := by
  obtain ⟨role, -, hInfo⟩ := run_sessionInfo_open env hTarget
  refine ⟨role, ?_⟩
  simp only [hsmSessionRole, Prog.bind_eq_bind, Prog.run_bind, hInfo]
  rfl

/-- An authentic container reaches the commit phase. -/
theorem run_hsmInjectApplyTo_authentic (hasOut : Bool) (hTarget : d.tok.slotOf target = some i)
    (hWorks : ∀ k, (env k).BackendWorks) {b : Bytes}
    (hAuth : AuthenticContainer S d env kemSess kemHandle b hdr seed) :
    (hsmInjectApplyTo (persistKeystore S) S hasOut kemSess kemHandle target (some b)).run env d =
      (injectCommitTo (persistKeystore S) S hasOut target hdr seed).run
        (fun k => (decapsRun S d env kemSess kemHandle b hdr).2.2 (k + 1))
        (decapsRun S d env kemSess kemHandle b hdr).2.1 ∧
    (NoPersistFailure
        (hsmInjectApplyTo (persistKeystore S) S hasOut kemSess kemHandle target (some b)) env d →
      NoPersistFailure (injectCommitTo (persistKeystore S) S hasOut target hdr seed)
        (fun k => (decapsRun S d env kemSess kemHandle b hdr).2.2 (k + 1))
        (decapsRun S d env kemSess kemHandle b hdr).2.1) := by
  obtain ⟨hHeader, ⟨ss, hOpen, hSeed⟩, hUsage⟩ := hAuth
  obtain ⟨role, hRole⟩ := run_hsmSessionRole_open env hTarget
  have hComputes : ((decapsRun S d env kemSess kemHandle b hdr).2.2 0).cryptoOk = true :=
    (works_rest (fun k => hWorks (k + 1)) 0).computes
  generalize hRun : decapsRun S d env kemSess kemHandle b hdr = r at hOpen hComputes ⊢
  obtain ⟨out, d₁, env₁⟩ := r
  subst hOpen
  have hComputes : (env₁ 0).cryptoOk = true := hComputes
  unfold decapsRun at hRun
  simp only [hsmInjectApplyTo, hHeader, Prog.bind_eq_bind]
  constructor
  · simp only [Prog.run_bind, hRole, hRun, Prog.run_ask, hComputes, Bool.not_true, Bool.false_eq_true,
      if_false, hSeed, hUsage]
  · intro hPersist
    obtain ⟨-, hPersist⟩ := noPersistFailure_bind hPersist
    simp only [hRole] at hPersist
    obtain ⟨-, hPersist⟩ := noPersistFailure_bind hPersist
    simp only [hRun] at hPersist
    obtain ⟨-, hPersist⟩ := noPersistFailure_bind hPersist
    simpa only [Prog.run_ask, hComputes, Bool.not_true, Bool.false_eq_true, if_false, hSeed, hUsage]
      using hPersist

/-- Any other container is rejected with every key in place. -/
theorem run_hsmInjectApplyTo_rejected (hTarget : d.tok.slotOf target = some i)
    (hWorks : ∀ k, (env k).BackendWorks) {b : Bytes}
    (hNot : ∀ hdr seed, ¬ AuthenticContainer S d env kemSess kemHandle b hdr seed) (j : Fin n) :
    (d.tok.slots j).Alike S.crypto (((hsmInjectApplyTo (persistKeystore S) S hasOut kemSess
      kemHandle target (some b)).run env d).2.1.tok.slots j) := by
  obtain ⟨role, hRole⟩ := run_hsmSessionRole_open env hTarget
  simp only [hsmInjectApplyTo]
  cases hHeader : injectHeader b with
  | error st => exact .refl _
  | ok hdr =>
    have hAlike := alike_decapsRun (S := S) (d := d) kemSess kemHandle
      hWorks b hdr j
    have hOpens := fun seed ss hUsage hOpen hSeed => hNot hdr seed ⟨hHeader, ⟨ss, hOpen, hSeed⟩, hUsage⟩
    have hComputes : ((decapsRun S d env kemSess kemHandle b hdr).2.2 0).cryptoOk = true :=
      (works_rest (fun k => hWorks (k + 1)) 0).computes
    generalize hRun : decapsRun S d env kemSess kemHandle b hdr = r at hAlike hOpens hComputes
    obtain ⟨⟨st, out⟩, d₁, env₁⟩ := r
    have hComputes : (env₁ 0).cryptoOk = true := hComputes
    unfold decapsRun at hRun
    simp only [Prog.bind_eq_bind, Prog.run_bind, hRole, hRun]
    split
    · rename_i ss hOut
      simp only [Prog.run_bind, Prog.run_ask]
      simp only [hComputes, Bool.not_true, Bool.false_eq_true, if_false]
      cases hSeed : injectSeed S b hdr ss with
      | none => exact hAlike
      | some seed =>
        simp only []
        cases hUsage : validateUsage hdr.keyAlg hdr.usage with
        | ok => exact (hOpens seed ss hUsage hOut hSeed).elim
        | _ => exact hAlike
    · exact hAlike

theorem checkHandle_of_empty {e : Env} {s : Slot} {h : HsmHandle} (hEmpty : s.metadata.state = .empty) :
    checkHandle S e s h ≠ .ok := by
  unfold checkHandle
  split
  · exact HsmStatus.noConfusion
  · rw [if_pos ⟨by simp [hEmpty], by simp [hEmpty]⟩]
    exact HsmStatus.noConfusion

/-- What makes a target replaceable survives the decapsulation. -/
theorem replaceable_decapsRun (hWorks : ∀ k, (env k).BackendWorks) {b : Bytes} :
    Replaceable S (decapsRun S d env kemSess kemHandle b hdr).2.1 target i ↔ Replaceable S d target i := by
  have hAlike := alike_decapsRun (S := S) (d := d) kemSess kemHandle
    hWorks b hdr i
  have hSessions := decapsRun_sessions (S := S) (d := d) kemSess kemHandle
    hWorks b hdr
  constructor
  · rintro ⟨hSlot, hRole, hLoaded, hIntact, hInjectable⟩
    constructor
    · rw [← hSlot, slotOf_congr hSessions]
    · rw [← hRole, roleOf_congr hSessions]
    · rw [← hLoaded, hAlike.state]
    · exact hAlike.intact.mp hIntact
    · rwa [← hAlike.policy]
  · rintro ⟨hSlot, hRole, hLoaded, hIntact, hInjectable⟩
    constructor
    · rw [← hSlot, slotOf_congr hSessions]
    · rw [← hRole, roleOf_congr hSessions]
    · rw [← hLoaded, hAlike.state]
    · exact hAlike.intact.mpr hIntact
    · rwa [hAlike.policy]

theorem numbered_decapsRun (hNumbered : d.Numbered) (hWorks : ∀ k, (env k).BackendWorks) {b : Bytes} :
    (decapsRun S d env kemSess kemHandle b hdr).2.1.Numbered :=
  fun j => (alike_decapsRun kemSess kemHandle hWorks b hdr j).slotId.trans (hNumbered j)

theorem run_hsmInjectApplyTo_kept (hn : n ≤ TOKEN_MAX_SLOTS) (hNumbered : d.Numbered)
    (hTarget : d.tok.slotOf target = some i) (hWorks : ∀ k, (env k).BackendWorks) {b : Bytes}
    (hPersist : NoPersistFailure
      (hsmInjectApplyTo (persistKeystore S) S hasOut kemSess kemHandle target (some b)) env d)
    (hAuth : AuthenticContainer S d env kemSess kemHandle b hdr seed)
    (hFail : ((hsmInjectApplyTo (persistKeystore S) S hasOut kemSess kemHandle target (some b)).run
      env d).1.1 ≠ .ok)
    (hNot : ¬ Replaceable S d target i) (j : Fin n) :
    (d.tok.slots j).Alike S.crypto (((hsmInjectApplyTo (persistKeystore S) S hasOut kemSess
      kemHandle target (some b)).run env d).2.1.tok.slots j) := by
  obtain ⟨hRun, hPersists⟩ := run_hsmInjectApplyTo_authentic hasOut hTarget hWorks hAuth
  rw [hRun] at hFail ⊢
  refine (alike_decapsRun kemSess kemHandle hWorks b hdr j).trans ?_
  exact run_injectCommitTo_kept hn (numbered_decapsRun hNumbered hWorks)
    ((slotOf_congr (decapsRun_sessions kemSess kemHandle hWorks b hdr)).trans hTarget)
    (fun k => works_rest (fun k => hWorks (k + 1)) (k + 1)) (hPersists hPersist) hFail
    (fun h => hNot ((replaceable_decapsRun hWorks).mp h)) j

theorem run_hsmInjectApplyTo_replaced (hn : n ≤ TOKEN_MAX_SLOTS) (hNumbered : d.Numbered)
    (hWorks : ∀ k, (env k).BackendWorks) {b : Bytes}
    (hPersist : NoPersistFailure
      (hsmInjectApplyTo (persistKeystore S) S hasOut kemSess kemHandle target (some b)) env d)
    (hAuth : AuthenticContainer S d env kemSess kemHandle b hdr seed) (hReplaceable : Replaceable S d target i) :
    (((hsmInjectApplyTo (persistKeystore S) S hasOut kemSess kemHandle target (some b)).run env d).1.1 = .ok ↔
      hasOut = true ∧ policyDeniedByProfile S hdr.policy = false ∧
        (loadEnv S (decapsRun S d env kemSess kemHandle b hdr).2.1
          (fun k => (decapsRun S d env kemSess kemHandle b hdr).2.2 (k + 1)) target i 1).allocOk = true) ∧
    (((hsmInjectApplyTo (persistKeystore S) S hasOut kemSess kemHandle target (some b)).run
        env d).1.1 ≠ .ok →
      (((hsmInjectApplyTo (persistKeystore S) S hasOut kemSess kemHandle target (some b)).run
        env d).2.1.tok.slots i).metadata.state = .empty) := by
  obtain ⟨hRun, hPersists⟩ := run_hsmInjectApplyTo_authentic hasOut hReplaceable.session
    hWorks hAuth
  obtain ⟨ss, -, hSeed⟩ := hAuth.opens
  obtain ⟨info, hInfo, hLen⟩ := length_injectSeed hSeed
  rw [hRun]
  exact run_injectCommitTo_replaced hn (numbered_decapsRun hNumbered hWorks)
    (fun k => works_rest (fun k => hWorks (k + 1)) (k + 1)) ((replaceable_decapsRun hWorks).mpr hReplaceable)
    hInfo hLen hAuth.usage (hPersists hPersist)

/-- A rejected injection leaves the key of its target in place exactly if the load could refuse
nothing more once the key was destroyed: the output pointer is not null, the profile allows the
policy, and there is memory. Otherwise an authentic container costs a replaceable target its key. -/
theorem rejected_injection_keeps_target_iff (hn : n ≤ TOKEN_MAX_SLOTS) (hNumbered : d.Numbered)
    (hWorks : ∀ k, (env k).BackendWorks) {blob : Option Bytes}
    (hPersist : NoPersistFailure
      (hsmInjectApplyTo (persistKeystore S) S hasOut kemSess kemHandle target blob) env d) :
    (((hsmInjectApplyTo (persistKeystore S) S hasOut kemSess kemHandle target blob).run env d).1.1 ≠ .ok →
      ∀ i, d.tok.slotOf target = some i → (d.tok.slots i).KeepsKey S (((hsmInjectApplyTo
        (persistKeystore S) S hasOut kemSess kemHandle target blob).run env d).2.1.tok.slots i)) ↔
    ∀ b hdr seed i, blob = some b → AuthenticContainer S d env kemSess kemHandle b hdr seed →
      Replaceable S d target i → hasOut = true ∧ policyDeniedByProfile S hdr.policy = false ∧
        (loadEnv S (decapsRun S d env kemSess kemHandle b hdr).2.1
          (fun k => (decapsRun S d env kemSess kemHandle b hdr).2.2 (k + 1)) target i 1).allocOk = true := by
  constructor
  · rintro hKeeps b hdr seed i rfl hAuth hReplaceable
    obtain ⟨hOk, hEmpty⟩ := run_hsmInjectApplyTo_replaced hn hNumbered hWorks hPersist hAuth hReplaceable
    refine hOk.mp (not_not.mp fun hFail => ?_)
    -- the handle that named the old key is answered no longer
    have hKept := (hKeeps hFail i hReplaceable.session).handles (env 0) ((d.tok.slots i).ownHandle i)
    rw [checkHandle_own hn (hNumbered i) (hWorks 0) ⟨.inl hReplaceable.loaded, hReplaceable.intact⟩] at hKept
    refine checkHandle_of_empty (hEmpty hFail) hKept
  · intro hAllowed hFail i hTarget
    refine Slot.Alike.keepsKey ?_
    cases blob with
    | none => exact .refl _
    | some b =>
      by_cases hAuth : ∃ hdr seed, AuthenticContainer S d env kemSess kemHandle b hdr seed
      · obtain ⟨hdr, seed, hAuth⟩ := hAuth
        by_cases hReplaceable : Replaceable S d target i
        · have hOk := (run_hsmInjectApplyTo_replaced hn hNumbered hWorks hPersist hAuth hReplaceable).1
          exact (hFail (hOk.mpr (hAllowed b hdr seed i rfl hAuth hReplaceable))).elim
        · exact run_hsmInjectApplyTo_kept hn hNumbered hTarget hWorks hPersist hAuth hFail hReplaceable i
      · exact run_hsmInjectApplyTo_rejected hTarget hWorks (fun hdr seed h => hAuth ⟨hdr, seed, h⟩) i

end Main

section Concrete

/-- The result of a call alone on a device on which nothing fails. -/
def leftCalm {α : Type} (p : DevProg n α) (d : Device n) : Device n := (p.run (fun _ => .calm 7) d).2.1

/-- A token of two slots without a persist hook. Slot 0 holds an injection key, slot 1 a signature key
that injections may replace; both sessions are logged in as user. -/
def injectionDevice : Device 2 :=
  let blank : Device 2 := ⟨hsmTokenNew .clear 2 false, fun _ _ => none, ⟨none, none, 0, none⟩⟩
  let pin : CString := [1, 2, 3, 4]
  let hook := persistKeystore .clear
  let prepared := fun (d : Device 2) (id : Nat) (sess : HsmSession) =>
    leftCalm (hsmSessionLogin hook .clear sess .user (some pin))
      (leftCalm (hsmSlotSetUserPin hook .clear sess (some pin))
        (leftCalm (hsmSessionLogin hook .clear sess .so (some pin))
          (leftCalm (hsmSessionOpen id) (leftCalm (hsmSlotInitToken hook .clear id (some []) (some pin)) d))))
  leftCalm (hsmSlotLoadSeed hook .clear ⟨2, 2⟩ .mlDsa44 KEY_USAGE_SIGN SLOT_POLICY_INJECTABLE (List.replicate 32 1))
    (prepared (leftCalm (hsmSlotGenerate hook .clear ⟨1, 1⟩ .mlKem512 KEY_USAGE_DECAP 0)
      (prepared blank 0 ⟨1, 1⟩)) 1 ⟨2, 2⟩)

/-- A container for the injection key with the seed of another signature key. -/
def injectionBlob : Bytes :=
  IJ_MAGIC ++ putU32 HSM_INJECT_VERSION ++ putU32 PqcAlg.mlKem512.toCode ++ putU32 PqcAlg.mlDsa44.toCode ++
    putU32 KEY_USAGE_SIGN ++ putU32 SLOT_POLICY_INJECTABLE ++ putU32 768 ++ List.replicate 768 0 ++
    Crypto.clear.wrap (zeros 32) [] (List.replicate 32 2) (zeros 12)

/-- The container is authentic and the target replaceable, and the output pointer is null. -/
def nullOutputRun : HsmStatus × Device 2 × List Event :=
  let call : DevProg 2 (HsmStatus × Option HsmHandle) :=
    hsmInjectApplyTo (persistKeystore .clear) .clear false ⟨1, 1⟩ ⟨0, 1⟩ ⟨2, 2⟩ (some injectionBlob)
  let r := call.run (fun _ => .calm 7) injectionDevice
  (r.1.1, r.2.1, call.events (fun _ => .calm 7) injectionDevice)

/-- The call is rejected for its argument, nothing has failed, and the key of the target is gone. -/
theorem null_output_destroys_target : nullOutputRun.1 = .errBadArg ∧
    Event.persistLeft false ∉ nullOutputRun.2.2 ∧
    injectionDevice.tok.slotOf ⟨2, 2⟩ = some 1 ∧
    (nullOutputRun.2.1.tok.slots 1).key ≠ (injectionDevice.tok.slots 1).key ∧
    checkHandle .clear (.calm 7) (injectionDevice.tok.slots 1) ⟨0, 2⟩ = .ok ∧
    checkHandle .clear (.calm 7) (nullOutputRun.2.1.tok.slots 1) ⟨0, 2⟩ = .errBadHandle := by
  decide +kernel

theorem calm_backendWorks (b : UInt8) : (Env.calm b).BackendWorks := ⟨fun _ => rfl, rfl⟩

/-- A container that is too short is rejected with the key in place. -/
theorem short_injection_keeps_target :
    ((hsmInjectApplyTo (persistKeystore .clear) .clear false ⟨1, 1⟩ ⟨0, 1⟩ ⟨2, 2⟩ (some [])).run
        (fun _ => .calm 7) injectionDevice).1.1 = .errBadArg ∧
      (injectionDevice.tok.slots 1).KeepsKey .clear
        (((hsmInjectApplyTo (persistKeystore .clear) .clear false ⟨1, 1⟩ ⟨0, 1⟩ ⟨2, 2⟩ (some [])).run
          (fun _ => .calm 7) injectionDevice).2.1.tok.slots 1) := by
  have hNumbered : injectionDevice.Numbered := by
    intro i
    revert i
    decide +kernel
  have hStatus : ((hsmInjectApplyTo (persistKeystore .clear) .clear false ⟨1, 1⟩ ⟨0, 1⟩ ⟨2, 2⟩
      (some [])).run (fun _ => .calm 7) injectionDevice).1.1 = .errBadArg := rfl
  have hKeeps : ((hsmInjectApplyTo (persistKeystore .clear) .clear false ⟨1, 1⟩ ⟨0, 1⟩ ⟨2, 2⟩
      (some [])).run (fun _ => .calm 7) injectionDevice).1.1 ≠ .ok →
      ∀ i, injectionDevice.tok.slotOf ⟨2, 2⟩ = some i →
        (injectionDevice.tok.slots i).KeepsKey .clear
          (((hsmInjectApplyTo (persistKeystore .clear) .clear false ⟨1, 1⟩ ⟨0, 1⟩ ⟨2, 2⟩
            (some [])).run (fun _ => .calm 7) injectionDevice).2.1.tok.slots i) := by
    refine (rejected_injection_keeps_target_iff (by decide) hNumbered
      (fun _ => calm_backendWorks 7)
      (by simp [NoPersistFailure, hsmInjectApplyTo, injectHeader, IJ_HDR_LEN])).mpr ?_
    rintro b hdr seed i hBlob hAuth
    cases hBlob
    have hHeader : (.error .errBadArg : Except HsmStatus InjectHeader) = .ok hdr := hAuth.header
    cases hHeader
  have hTarget : injectionDevice.tok.slotOf ⟨2, 2⟩ = some 1 := by decide +kernel
  exact ⟨hStatus, hKeeps (by rw [hStatus]; decide) 1 hTarget⟩

end Concrete

end PqcHsm
