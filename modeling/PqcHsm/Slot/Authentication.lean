import Mathlib.Logic.Relation
import PqcHsm.Slot.CallStep

/-!
# Roles and the PINs behind them

With one thread, a session that holds a role on a slot has shown a PIN that the slot
accepts for that role. Every operation keeps this, provided that nobody replaces the PIN
material of a slot under the sessions that are logged in on it: neither a record from a
file, nor an SO who sets a new User PIN, nor a zeroize that cannot seal the slot.
-/

namespace PqcHsm

open ByteCodec Sections

variable {n : Nat} {S : Setup}

/-- The handle of the session in an entry of the table. -/
def Session.handle (s : Session) (j : Fin MAX_SESSIONS) : HsmSession :=
  ⟨s.gen, UInt32.ofNat (j + 1)⟩

theorem sessionIndex_handle (s : Session) (j : Fin MAX_SESSIONS) :
    sessionIndex (s.handle j) = some j := by
  have hj := j.isLt
  unfold MAX_SESSIONS at hj
  have hIdx : (UInt32.ofNat (j + 1)).toNat = j.val + 1 := by
    rw [UInt32.toNat_ofNat', Nat.mod_eq_of_lt (by omega)]
  have hNe : UInt32.ofNat (j + 1) ≠ 0 := by
    intro h
    have := congrArg UInt32.toNat h
    rw [hIdx] at this
    cases this
  have hBoth : (s.handle j).idx ≠ 0 ∧ (s.handle j).idx.toNat ≤ MAX_SESSIONS :=
    ⟨hNe, by change (UInt32.ofNat (j + 1)).toNat ≤ _; rw [hIdx]; exact hj⟩
  rw [sessionIndex, dif_pos hBoth]
  congr 1
  apply Fin.ext
  change (UInt32.ofNat (j + 1)).toNat - 1 = j.val
  omega

/-- A handle that matches an entry is the handle of the session in it. -/
theorem eq_handle_of_matches {s : Session} {sess : HsmSession} {j : Fin MAX_SESSIONS}
    (hIndex : sessionIndex sess = some j) (hMatch : s.matches sess = true) :
    sess = s.handle j ∧ s.isOpen = true := by
  unfold Session.matches at hMatch
  simp only [Bool.and_eq_true, beq_iff_eq] at hMatch
  unfold sessionIndex at hIndex
  split at hIndex
  · rename_i h
    cases hIndex
    have hPos : sess.idx.toNat ≠ 0 := fun h0 => h.1 (UInt32.toNat_inj.mp h0)
    refine ⟨?_, hMatch.1⟩
    cases sess with
    | mk gen idx =>
      have hIdx : UInt32.ofNat (idx.toNat - 1 + 1) = idx := by
        rw [Nat.sub_add_cancel (Nat.one_le_iff_ne_zero.mpr hPos), UInt32.ofNat_toNat]
      exact HsmSession.mk.injEq .. ▸ ⟨hMatch.2.symm, hIdx.symm⟩
  · cases hIndex

/-- The event ends what a session has shown for a slot: a logout, the opening of the session
under the same handle, or the drop of all sessions of the slot. -/
def Event.endsLogin (sess : HsmSession) (id : Nat) : Event → Bool
  | .roleSet s role => s = sess ∧ role = .pub
  | .sessionOpened s => s = sess
  | .sessionsDropped i => i = id
  | _ => false

/-- The PIN a session shows for a role of a slot. -/
def Event.pinBy (sess : HsmSession) (id : Nat) (role : HsmRole) : Event → Option CString
  | .pinCompared s i r pin _ => if s = sess ∧ i = id ∧ r = role then some pin else none
  | _ => none

/-- The PINs a session has presented for a role of a slot since its last logout. -/
def presented (sess : HsmSession) (id : Nat) (role : HsmRole) (events : List Event) :
    List CString :=
  (events.takeWhile fun x => !x.endsLogin sess id).filterMap (Event.pinBy sess id role)

theorem presented_append {sess : HsmSession} {id : Nat} {role : HsmRole} {evs events : List Event}
    (hEvs : ∀ x ∈ evs, x.endsLogin sess id = false) :
    presented sess id role (evs ++ events) =
      evs.filterMap (Event.pinBy sess id role) ++ presented sess id role events := by
  unfold presented
  rw [List.takeWhile_append_of_pos (by simpa using hEvs), List.filterMap_append]

/-- An operation that a session of the role authorises put the second material in place of
the first: an SO sets the User PIN. -/
def Replaced (events : List Event) (id : Nat) (role : HsmRole) (m m' : PinMaterial) : Prop :=
  role = .so ∧ .userPinSet id (some m) (some m') ∈ events

/-- The session presented, since its last logout, a PIN that matches what the slot now stores
for the role, or what operations under that role have replaced since. -/
def Proven (C : Crypto) (events : List Event) (sess : HsmSession) (id : Nat) (role : HsmRole)
    (s : Slot) : Prop :=
  ∃ pin ∈ presented sess id role events, ∃ m m', s.pinMaterial role = some m' ∧
    Relation.ReflTransGen (Replaced events id role) m m' ∧
    m.accepts C (UInt32.ofNat id) role pin

/-- Every open session that holds a role has proven a PIN of it. -/
def SessionsProven (C : Crypto) {ι : Type} (h : DevHist ι n) : Prop :=
  ∀ j, (h.shared.tok.sessions j).isOpen = true → (h.shared.tok.sessions j).role ≠ .pub →
    ∃ i : Fin n, i.val = (h.shared.tok.sessions j).slot ∧
      Proven C h.events ((h.shared.tok.sessions j).handle j) i (h.shared.tok.sessions j).role
        (h.shared.tok.slots i)

/-- The session is logged in on the slot. -/
def Session.HoldsRole (s : Session) (id : Nat) (role : HsmRole) : Prop :=
  s.isOpen = true ∧ s.slot = id ∧ s.role = role ∧ role ≠ .pub

/-- Nobody replaces PIN material under a session that is logged in on it. -/
def authCond {ι : Type} : Pool.Cond ι Call Env (Device n) Event Reply := fun h a evs =>
  (∀ (i : Fin n) m r, .recordRead i.val m r ∈ evs → ∀ j role,
    (h.shared.tok.sessions j).HoldsRole i role → m.state ≠ .uninit ∧
      (installRecord (h.shared.tok.slots i) m r).pinMaterial role =
        (h.shared.tok.slots i).pinMaterial role) ∧
  (∀ (i : Fin n) old new, .userPinSet i.val old new ∈ evs → ∀ j,
    ¬ (h.shared.tok.sessions j).HoldsRole i .user) ∧
  match a with
  | .sect _ e => ∀ i, .zeroized i ∈ evs → e.sealOk 0 = true
  | _ => True

/-! ### Sections of one slot -/

/-- What a section does to the PIN material of a slot and to whether it is initialized. -/
inductive PinMove (i : Nat) (s s' : Slot) (evs : List Event) : Prop where
  | keep : (∀ role, s'.pinMaterial role = s.pinMaterial role) →
      (s.metadata.state ≠ .uninit → s'.metadata.state ≠ .uninit) → PinMove i s s' evs
  | fresh : s.metadata.state = .uninit → PinMove i s s' evs
  | userPin (old new : Option PinMaterial) : .userPinSet i old new ∈ evs →
      s'.pinMaterial .so = s.pinMaterial .so → s'.metadata.state = s.metadata.state →
      PinMove i s s' evs
  | record (m : SlotMeta) (r : SlotRecord) : .recordRead i m r ∈ evs →
      (∀ role, s'.pinMaterial role = (installRecord s m r).pinMaterial role) →
      s'.metadata.state = m.state → PinMove i s s' evs

theorem slotStep_pinMove {i : Nat} {e : Env} {hw : HwTable} {s : Slot}
    {r : HwTable × Slot × List Event} (h : SlotStep S false i e hw s r) :
    PinMove i s r.2.1 r.2.2 := by
  have hRefused : ∀ evs, PinMove i s s evs := fun _ => .keep (fun _ => rfl) id
  cases h with
  | idle => exact hRefused _
  | initToken h =>
    cases h with
    | refused => exact hRefused _
    | stopped _ hState => exact .fresh hState
    | done _ hState => exact .fresh hState
  | setUserPin h =>
    cases h with
    | refused => exact hRefused _
    | stopped salt => exact .userPin _ _ List.mem_cons_self rfl rfl
    | done s' _ _ hMeta _ _ _ hSo =>
      exact .userPin _ _ List.mem_cons_self (by simpa using hSo) (by simp [hMeta])
  | login _ h =>
    cases h with
    | refused => exact hRefused _
    | _ => exact .keep (fun role => slotReseal_pinMaterial _ _ _ _ role) (by simp)
  | create h =>
    cases h with
    | refused => exact hRefused _
    | _ => exact .keep (fun role => slotReseal_pinMaterial _ _ _ _ role) (by simp)
  | use h =>
    cases h with
    | refused => exact hRefused _
    | used => exact .keep (fun role => slotReseal_pinMaterial _ _ _ _ role) (by simp)
  | publicKey h => cases h <;> exact hRefused _
  | destroy h =>
    cases h with
    | refused => exact hRefused _
    | done => exact .keep (fun role => slotReseal_pinMaterial _ _ _ _ role) (by simp)
  | zeroize h => cases h
  | unlock h =>
    cases h with
    | refused => exact hRefused _
    | done =>
      refine .keep (fun role => slotReseal_pinMaterial _ _ _ _ role) fun _ => ?_
      cases hPre : s.preLock <;> simp [hPre, slotFsmUnlockTarget]
  | deserialize m r =>
    exact .record m r List.mem_cons_self (fun role => slotReseal_pinMaterial _ _ _ _ role)
      (by simp [installRecord])

/-! ### The invariant -/

/-- The session presented a PIN that the slot now accepts. -/
def Accepted (C : Crypto) (events : List Event) (sess : HsmSession) (id : Nat) (role : HsmRole)
    (s : Slot) : Prop :=
  s.metadata.state ≠ .uninit ∧ ∃ pin ∈ presented sess id role events, ∃ m,
    s.pinMaterial role = some m ∧ m.accepts C (UInt32.ofNat id) role pin

theorem Accepted.proven {C : Crypto} {events : List Event} {sess : HsmSession} {id : Nat}
    {role : HsmRole} {s : Slot} (h : Accepted C events sess id role s) :
    Proven C events sess id role s := by
  obtain ⟨-, pin, hPin, m, hMaterial, hAccepts⟩ := h
  exact ⟨pin, hPin, m, m, hMaterial, .refl, hAccepts⟩

/-- More events that do not end the login, and the same material, leave a proof standing. -/
theorem Accepted.mono {C : Crypto} {events evs : List Event} {sess : HsmSession} {id : Nat}
    {role : HsmRole} {s s' : Slot} (h : Accepted C events sess id role s)
    (hEvs : ∀ x ∈ evs, x.endsLogin sess id = false) (hState : s'.metadata.state ≠ .uninit)
    (hMaterial : s'.pinMaterial role = s.pinMaterial role) :
    Accepted C (evs ++ events) sess id role s' := by
  obtain ⟨-, pin, hPin, m, hm, hAccepts⟩ := h
  refine ⟨hState, pin, ?_, m, hMaterial.trans hm, hAccepts⟩
  rw [presented_append hEvs]
  exact List.mem_append_right _ hPin

/-- The sessions that hold a role have shown its PIN, those of slot `skip` excepted. -/
structure AuthInv (C : Crypto) (skip : Option Nat) {ι : Type} (h : DevHist ι n) : Prop where
  slotIds : ∀ i : Fin n, (h.shared.tok.slots i).metadata.slotId = UInt32.ofNat i
  inRange : ∀ j, (h.shared.tok.sessions j).isOpen = true → (h.shared.tok.sessions j).slot < n
  holders : ∀ j (i : Fin n) role, (h.shared.tok.sessions j).HoldsRole i role →
    some i.val ≠ skip →
    Accepted C h.events ((h.shared.tok.sessions j).handle j) i role (h.shared.tok.slots i)

theorem AuthInv.sessionsProven {C : Crypto} {ι : Type} {h : DevHist ι n} (hA : AuthInv C none h) :
    SessionsProven C h := by
  intro j hOpen hRole
  have hLt := hA.inRange j hOpen
  exact ⟨⟨_, hLt⟩, rfl, (hA.holders j ⟨_, hLt⟩ _ ⟨hOpen, rfl, rfl, hRole⟩ nofun).proven⟩

theorem not_endsLogin {x : Event} (h : ¬ x.OnSessions) (sess : HsmSession) (id : Nat) :
    x.endsLogin sess id = false := by
  cases x <;> first | rfl | exact absurd trivial h

theorem Event.Store.not_onSessions {x : Event} (h : x.Store) : ¬ x.OnSessions := by
  cases x <;> first | exact id | exact h.elim

theorem handle_ne {s s' : Session} {j k : Fin MAX_SESSIONS} (h : j ≠ k) :
    s.handle j ≠ s'.handle k := by
  intro hEq
  have hIndex := congrArg sessionIndex hEq
  rw [sessionIndex_handle, sessionIndex_handle] at hIndex
  exact h (Option.some.inj hIndex)

section Steps

variable {ι : Type} {C : Crypto} {skip : Option Nat} {h : DevHist ι n} {t : ι} {e : Env}

/-- A section that leaves slots and sessions alone and emits no session event. -/
theorem AuthInv.of_quiet (hA : AuthInv C skip h) {d : Device n} {evs : List Event}
    (hSlots : d.tok.slots = h.shared.tok.slots)
    (hSessions : d.tok.sessions = h.shared.tok.sessions) (hEvs : ∀ x ∈ evs, ¬ x.OnSessions) :
    AuthInv C skip (h.emits t (d, evs)) := by
  refine ⟨?_, ?_, fun j i role hHolds hSkip => ?_⟩
  · rw [Hist.emits_shared, hSlots]
    exact hA.slotIds
  · rw [Hist.emits_shared, hSessions]
    exact hA.inRange
  · rw [Hist.emits_shared, hSessions] at hHolds ⊢
    rw [hSlots, Hist.events_emits]
    have hOld := hA.holders j i role hHolds hSkip
    exact hOld.mono (fun x hx => not_endsLogin (hEvs x (List.mem_reverse.mp hx)) _ _) hOld.1 rfl

theorem authInv_slotStep (hA : AuthInv C skip h) (i : Fin n) {r : HwTable × Slot × List Event}
    (hStep : SlotStep S false i e h.shared.hw (h.shared.tok.slots i) r)
    (hok : authCond h (.sect t e) r.2.2) :
    AuthInv C skip (h.emits t ({ h.shared.setSlot i r.2.1 with hw := r.1 }, r.2.2)) := by
  obtain ⟨hRecords, hPins, -⟩ := hok
  have hEnds : ∀ sess id, ∀ x ∈ r.2.2.reverse, x.endsLogin sess id = false := fun sess id x hx =>
    not_endsLogin (hStep.not_onSessions x (List.mem_reverse.mp hx)) sess id
  refine ⟨fun k => ?_, hA.inRange, fun j k role hHolds hSkip => ?_⟩
  · by_cases hk : k = i
    · subst k
      simpa using hStep.slotId.trans (hA.slotIds i)
    · simpa [Function.update_of_ne hk] using hA.slotIds k
  · have hOld := hA.holders j k role hHolds hSkip
    rw [Hist.events_emits]
    by_cases hk : k = i
    · subst k
      have hNew : ({ h.shared.setSlot i r.2.1 with hw := r.1 } : Device n).tok.slots i = r.2.1 := by
        simp
      rw [Hist.emits_shared, hNew]
      cases slotStep_pinMove hStep with
      | keep hMaterial hState =>
        exact hOld.mono (hEnds _ _) (hState hOld.1) (hMaterial role)
      | fresh hUninit => exact absurd hUninit hOld.1
      | userPin old new hSet hSo hState =>
        have hRole : role = .so := by
          cases role with
          | so => rfl
          | user => exact absurd hHolds (hPins i old new hSet j)
          | pub => exact absurd rfl hHolds.2.2.2
        subst hRole
        exact hOld.mono (hEnds _ _) (hState ▸ hOld.1) hSo
      | record m rec hRead hMaterial hState =>
        obtain ⟨hInit, hSame⟩ := hRecords i m rec hRead j role hHolds
        exact hOld.mono (hEnds _ _) (hState ▸ hInit) ((hMaterial role).trans hSame)
    · have hOther : ({ h.shared.setSlot i r.2.1 with hw := r.1 } : Device n).tok.slots k =
          h.shared.tok.slots k := Function.update_of_ne hk _ _
      rw [Hist.emits_shared, hOther]
      exact hOld.mono (hEnds _ _) hOld.1 rfl

/-- A section on the sessions keeps the invariant when the sessions that hold a role
afterwards held it before, and none of them sees its login ended. -/
theorem AuthInv.of_sessions (hA : AuthInv C skip h) {tok : Token n} {evs : List Event}
    (hSlots : tok.slots = h.shared.tok.slots)
    (hRange : ∀ j, (tok.sessions j).isOpen = true → (tok.sessions j).slot < n)
    (hHolders : ∀ j (i : Fin n) role, (tok.sessions j).HoldsRole i role →
      tok.sessions j = h.shared.tok.sessions j ∧
        ∀ x ∈ evs, x.endsLogin ((tok.sessions j).handle j) i = false) :
    AuthInv C skip (h.emits t ({ h.shared with tok := tok }, evs)) := by
  refine ⟨?_, hRange, fun j i role hHolds hSkip => ?_⟩
  · rw [Hist.emits_shared, hSlots]
    exact hA.slotIds
  · obtain ⟨hSame, hEnds⟩ := hHolders j i role hHolds
    have hOld := hA.holders j i role (hSame ▸ hHolds) hSkip
    rw [Hist.events_emits, Hist.emits_shared, hSlots, hSame]
    exact hOld.mono (fun x hx => hSame ▸ hEnds x (List.mem_reverse.mp hx)) hOld.1 rfl

theorem authInv_tokenStep (hA : AuthInv C skip h) {r : Token n × List Event}
    (hStep : TokenStep false h.shared.tok r) :
    AuthInv C skip (h.emits t ({ h.shared with tok := r.1 }, r.2)) := by
  cases hStep with
  | read sess i =>
    exact hA.of_sessions rfl hA.inRange fun j k role _ => ⟨rfl, by simp [Event.endsLogin]⟩
  | idle => exact hA.of_sessions rfl hA.inRange fun j k role _ => ⟨rfl, by simp⟩
  | setRole sess i role hIndex hMatch hRole =>
    obtain rfl : role = .pub := hRole.resolve_right Bool.false_ne_true
    obtain ⟨rfl, -⟩ := eq_handle_of_matches hIndex hMatch
    refine hA.of_sessions rfl (fun j hOpen => ?_) fun j k role hHolds => ?_
    · by_cases hj : j = i
      · subst j
        simp only [Token.setSession, Function.update_self] at hOpen ⊢
        exact hA.inRange i hOpen
      · simp only [Token.setSession, Function.update_of_ne hj] at hOpen ⊢
        exact hA.inRange j hOpen
    · by_cases hj : j = i
      · subst j
        simp only [Token.setSession, Function.update_self] at hHolds
        exact absurd hHolds.2.2.1.symm hHolds.2.2.2
      · simp only [Token.setSession, Function.update_of_ne hj] at hHolds ⊢
        refine ⟨trivial, ?_⟩
        simp [Event.endsLogin, handle_ne (Ne.symm hj)]
  | drop id =>
    refine hA.of_sessions rfl (fun j hOpen => ?_) fun j k role hHolds => ?_
    · by_cases hCase : (h.shared.tok.sessions j).isOpen = true ∧
          (h.shared.tok.sessions j).slot = id
      · simp only [if_pos hCase] at hOpen ⊢
        exact hA.inRange j hOpen
      · simp only [if_neg hCase] at hOpen ⊢
        exact hA.inRange j hOpen
    · dsimp only at hHolds ⊢
      split at hHolds
      · exact absurd hHolds.2.2.1.symm hHolds.2.2.2
      · rename_i hCase
        simp only [hCase, if_false]
        refine ⟨trivial, ?_⟩
        have hNe : id ≠ k.val := fun hEq => hCase ⟨hHolds.1, hHolds.2.1.trans hEq.symm⟩
        simpa [Event.endsLogin] using hNe
  | opened i id hLt =>
    refine hA.of_sessions rfl (fun j hOpen => ?_) fun j k role hHolds => ?_
    · by_cases hj : j = i
      · subst j
        simpa [Token.setSession] using hLt
      · simp only [Token.setSession, Function.update_of_ne hj] at hOpen ⊢
        exact hA.inRange j hOpen
    · by_cases hj : j = i
      · subst j
        simp only [Token.setSession, Function.update_self] at hHolds
        exact absurd hHolds.2.2.1.symm hHolds.2.2.2
      · simp only [Token.setSession, Function.update_of_ne hj] at hHolds ⊢
        refine ⟨trivial, ?_⟩
        have hNe : Session.handle ⟨true, id, .pub, h.shared.tok.sessionGen + 1⟩ i ≠
            (h.shared.tok.sessions j).handle j := handle_ne (Ne.symm hj)
        simpa [Event.endsLogin, Session.handle] using hNe
  | closed sess i hIndex hMatch =>
    refine hA.of_sessions rfl (fun j hOpen => ?_) fun j k role hHolds => ?_
    · by_cases hj : j = i
      · subst j
        simp [Token.setSession] at hOpen
      · simp only [Token.setSession, Function.update_of_ne hj] at hOpen ⊢
        exact hA.inRange j hOpen
    · by_cases hj : j = i
      · subst j
        simp only [Token.setSession, Function.update_self] at hHolds
        exact absurd hHolds.2.2.1.symm hHolds.2.2.2
      · simp only [Token.setSession, Function.update_of_ne hj]
        exact ⟨trivial, by simp⟩

theorem authInv_step (hA : AuthInv C skip h) {r : Device n × List Event}
    (hStep : DeviceStep S false e h.shared r) (hok : authCond h (.sect t e) r.2) :
    AuthInv C skip (h.emits t r) := by
  cases hStep with
  | slot i r hSlot => exact authInv_slotStep hA i hSlot hok
  | token r hTok => exact authInv_tokenStep hA hTok
  | store r hStore =>
    exact hA.of_quiet hStore.slots hStore.sessions fun x hx => (hStore.events x hx).not_onSessions
  | hwDrop => exact hA.of_quiet rfl rfl (by simp [Event.OnSessions])

end Steps

/-! ### The operations that set a role or zeroize -/

section Operations

variable {C : Crypto}

/-- A login has succeeded and its role is about to be set. -/
def LoginReady (C : Crypto) (sess : HsmSession) (id : Nat) (role : HsmRole)
    (h : DevHist Unit n) : Prop :=
  (∃ j, sessionIndex sess = some j ∧ (h.shared.tok.sessions j).matches sess = true ∧
    (h.shared.tok.sessions j).slot = id) ∧
  ∃ i : Fin n, i.val = id ∧ Accepted C h.events sess i role (h.shared.tok.slots i)

theorem triple_sessionInfo {h : DevHist Unit n} (hA : AuthInv C none h) (sess : HsmSession) :
    Triple authCond anywhere (sessionInfo sess) (fun r h' => AuthInv C none h' ∧ ∀ id role,
      r = .ok (id, role) → ∃ j, sessionIndex sess = some j ∧
        (h'.shared.tok.sessions j).matches sess = true ∧
        (h'.shared.tok.sessions j).slot = id) h := by
  unfold sessionInfo
  split
  · exact ⟨trivial, hA, nofun⟩
  · rename_i j hIndex
    refine triple_atomic trivial fun e _ => ⟨trivial, ?_⟩
    dsimp only
    split
    · rename_i hMatch
      refine ⟨hA.of_sessions rfl hA.inRange fun j k role _ => ⟨rfl, by simp [Event.endsLogin]⟩, ?_⟩
      rintro id role hEq
      cases hEq
      exact ⟨j, hIndex, hMatch, rfl⟩
    · exact ⟨hA.of_sessions rfl hA.inRange fun j k role _ => ⟨rfl, by simp⟩, nofun⟩

theorem triple_requireRole {h : DevHist Unit n} (hA : AuthInv C none h) (sess : HsmSession)
    (need : HsmRole) :
    Triple authCond anywhere (requireRole sess need) (fun _ h' => AuthInv C none h') h := by
  refine triple_bind ((triple_sessionInfo hA sess).mono fun r h₁ hInfo => ?_)
  rcases r with st | ⟨sid, held⟩
  · exact ⟨trivial, hInfo.1⟩
  · exact ⟨trivial, hInfo.1⟩

theorem LoginReady.of_store {sess : HsmSession} {id : Nat} {role : HsmRole} {h : DevHist Unit n}
    (hReady : LoginReady C sess id role h) {r : Device n × List Event}
    (hStep : StoreStep S h.shared r) : LoginReady C sess id role (h.emits () r) := by
  obtain ⟨hEntry, i, hi, hAccepted⟩ := hReady
  refine ⟨by rwa [Hist.emits_shared, hStep.sessions], i, hi, ?_⟩
  rw [Hist.emits_shared, hStep.slots, Hist.events_emits]
  exact hAccepted.mono (fun x hx =>
    not_endsLogin (hStep.events x (List.mem_reverse.mp hx)).not_onSessions _ _) hAccepted.1 rfl

theorem authInv_store {h : DevHist Unit n} (hA : AuthInv C none h) {r : Device n × List Event}
    (hStep : StoreStep S h.shared r) : AuthInv C none (h.emits () r) :=
  hA.of_quiet hStep.slots hStep.sessions fun x hx => (hStep.events x hx).not_onSessions

theorem triple_commit {h : DevHist Unit n} (hA : AuthInv C none h) (st : HsmStatus) :
    Triple authCond anywhere (commitSecurityState (persistKeystore S) st) (fun _ h' => AuthInv C none h') h :=
  triple_of_stays (fun _ _ => trivial) (stays_of_within (stores_commitSecurityState stores_persistKeystore st)
    fun _ _ _ hStep hA _ => authInv_store hA hStep) hA

theorem triple_setRole {h : DevHist Unit n} (hA : AuthInv C none h) {sess : HsmSession}
    {role : HsmRole} (hRole : role ≠ .pub) {id : Nat} (hReady : LoginReady C sess id role h) :
    Triple authCond anywhere (setSessionRole sess role : DevProg n Unit) (fun _ h' => AuthInv C none h') h := by
  obtain ⟨⟨j, hIndex, hMatch, hSlot⟩, i, rfl, hAccepted⟩ := hReady
  obtain ⟨hSess, hOpen⟩ := eq_handle_of_matches hIndex hMatch
  have hEnds : ∀ s k, Event.endsLogin s k (.roleSet sess role) = false := by
    intro s k
    simp [Event.endsLogin, hRole]
  unfold setSessionRole
  rw [hIndex]
  refine triple_atomic trivial fun e _ => ⟨trivial, ?_⟩
  dsimp only
  rw [if_pos hMatch]
  refine ⟨hA.slotIds, fun k hkOpen => ?_, fun k i' role' hHolds _ => ?_⟩
  · by_cases hk : k = j
    · subst k
      simpa [Token.setSession] using hA.inRange j hOpen
    · simp only [Hist.emits_shared, Token.setSession, Function.update_of_ne hk] at hkOpen ⊢
      exact hA.inRange k hkOpen
  · rw [Hist.events_emits]
    by_cases hk : k = j
    · subst k
      simp only [Hist.emits_shared, Token.setSession, Function.update_self] at hHolds ⊢
      obtain ⟨-, hEq, hRoleEq, -⟩ := hHolds
      obtain rfl : i = i' := Fin.ext (hSlot.symm.trans hEq)
      obtain rfl : role = role' := hRoleEq
      have hHandle : Session.handle { h.shared.tok.sessions j with role := role } j = sess :=
        hSess.symm
      rw [hHandle]
      exact hAccepted.mono (by simp [hEnds]) hAccepted.1 rfl
    · simp only [Hist.emits_shared, Token.setSession, Function.update_of_ne hk] at hHolds ⊢
      have hOld := hA.holders k i' role' hHolds nofun
      exact hOld.mono (by simp [hEnds]) hOld.1 rfl

theorem triple_finishLogin {h : DevHist Unit n} (hA : AuthInv C none h) {sess : HsmSession}
    {role : HsmRole} (hRole : role ≠ .pub) {out : LoginOut} {k : Nat}
    (hReady : out.loginOk = true → LoginReady C sess k role h) :
    Triple authCond anywhere (finishLogin (persistKeystore S) sess role out)
      (fun _ h' => AuthInv C none h') h := by
  have hCommit : Triple authCond anywhere (if out.metaChanged then
      commitSecurityState (persistKeystore S) out.st else pure out.st)
      (fun _ h' => AuthInv C none h' ∧ (out.loginOk = true → LoginReady C sess k role h')) h := by
    split
    · exact triple_of_stays (fun _ _ => trivial) (stays_of_within
        (stores_commitSecurityState stores_persistKeystore out.st) fun _ _ _ hStep hA _ =>
          ⟨authInv_store hA.1 hStep, fun hOk => (hA.2 hOk).of_store hStep⟩) ⟨hA, hReady⟩
    · exact ⟨trivial, hA, hReady⟩
  refine triple_bind (hCommit.mono fun st h' hA' => ?_)
  split
  · rename_i hOk
    exact triple_bind ((triple_setRole hA'.1 hRole (hA'.2 hOk)).mono fun _ _ hA => ⟨trivial, hA⟩)
  · exact ⟨trivial, hA'.1⟩

theorem triple_hsmSessionLogin {h : DevHist Unit n} (hA : AuthInv S.crypto none h)
    (sess : HsmSession) (role : HsmRole) (pin : Option CString) :
    Triple authCond anywhere (hsmSessionLogin (persistKeystore S) S sess role pin)
      (fun _ h' => AuthInv S.crypto none h') h := by
  refine triple_bind ((triple_sessionInfo hA sess).mono fun r h₁ hInfo => ?_)
  obtain ⟨hA₁, hEntry⟩ := hInfo
  rcases r with st | ⟨id, held⟩
  · exact ⟨trivial, hA₁⟩
  obtain ⟨j, hIndex, hMatch, hSlot⟩ := hEntry id held rfl
  dsimp only
  split
  · rename_i pin i hAt
    obtain rfl := slotAt_val hAt
    split
    · exact ⟨trivial, hA₁⟩
    rename_i hRole
    refine triple_bind (triple_atomic trivial fun e hok => ⟨trivial, ?_⟩)
    have hCase := loginLocked_cases S sess i role pin e (h₁.shared.tok.slots i) hRole
    have hStep : SlotStep S false i e h₁.shared.hw (h₁.shared.tok.slots i)
        (h₁.shared.hw, (loginLocked S sess i role pin e (h₁.shared.tok.slots i)).2) :=
      .login hRole hCase
    have hA₂ := authInv_slotStep (t := ()) hA₁ i hStep hok
    refine triple_finishLogin (k := i.val) hA₂ hRole fun hOk => ?_
    refine ⟨⟨j, hIndex, hMatch, hSlot⟩, i, rfl, ?_⟩
    generalize loginLocked S sess i role pin e (h₁.shared.tok.slots i) = out at hCase hOk ⊢
    cases hCase with
    | good m _ hState _ hMaterial hAccepts =>
      rw [hA₁.slotIds i] at hAccepts
      have hNew : Accepted S.crypto
          ([.slotChanged i.val, .pinCompared sess i role pin true] ++ h₁.events) sess i role
          (slotReseal S.crypto e 1 ((h₁.shared.tok.slots i).withFails role 0)).2 := by
        refine ⟨by simpa using hState, pin, ?_, m, ?_, hAccepts⟩
        · rw [presented_append (by simp [Event.endsLogin])]
          simp [Event.pinBy]
        · rw [slotReseal_pinMaterial, withFails_pinMaterial]
          exact hMaterial
      simpa using hNew
    | _ => cases hOk
  · exact ⟨trivial, hA₁⟩

theorem not_holdsRole_dropped {s : Session} {id : Nat} {role : HsmRole} :
    ¬ (if s.isOpen ∧ s.slot = id then { s with role := .pub } else s).HoldsRole id role := by
  intro hHolds
  split at hHolds
  · exact hHolds.2.2.2 hHolds.2.2.1.symm
  · rename_i hCase
    exact hCase ⟨hHolds.1, hHolds.2.1⟩

/-- A zeroize that seals the slot drops its sessions. -/
theorem triple_zeroizeAt {h : DevHist Unit n} (hA : AuthInv S.crypto none h) (i : Fin n) :
    Triple authCond anywhere (zeroizeAt (persistKeystore S) S i i)
      (fun _ h' => AuthInv S.crypto none h') h := by
  refine triple_bind (triple_atomic trivial fun e hok => ⟨trivial, ?_⟩)
  have hEq := doZeroize_eq S i e (h.shared.tok.slots i)
  rw [hEq] at hok ⊢
  have hSeal : e.sealOk 0 = true := hok.2.2 i List.mem_cons_self
  have hSt : (slotReseal S.crypto e 0 (h.shared.tok.slots i).zeroed).1 = .ok :=
    (slotReseal_status_ok_iff e 0 _).mpr hSeal
  simp only [hSt, if_true]
  -- the sessions of the slot are out of the invariant until they are dropped
  have hMid : AuthInv S.crypto (some i.val) (h.emits () (h.shared.setSlot i
      (slotReseal S.crypto e 0 (h.shared.tok.slots i).zeroed).2, [.zeroized i, .slotChanged i])) := by
    refine ⟨fun k => ?_, hA.inRange, fun j k role hHolds hSkip => ?_⟩
    · by_cases hk : k = i
      · subst k
        simpa using hA.slotIds i
      · simpa [Function.update_of_ne hk] using hA.slotIds k
    · have hk : k ≠ i := fun hEq => hSkip (by rw [hEq])
      have hOld := hA.holders j k role hHolds nofun
      have hOther : (h.shared.setSlot i (slotReseal S.crypto e 0
          (h.shared.tok.slots i).zeroed).2).tok.slots k = h.shared.tok.slots k :=
        Function.update_of_ne hk _ _
      rw [Hist.events_emits, Hist.emits_shared, hOther]
      exact hOld.mono (by simp [Event.endsLogin]) hOld.1 rfl
  refine triple_bind (triple_atomic trivial fun e' _ => ⟨trivial, ?_⟩)
  have hDropped := authInv_tokenStep (t := ()) hMid (.drop i.val)
  refine triple_commit ⟨hDropped.slotIds, hDropped.inRange, fun j k role hHolds _ => ?_⟩ _
  refine hDropped.holders j k role hHolds fun hEq => ?_
  have hki : k.val = i.val := Option.some.inj hEq
  rw [hki] at hHolds
  exact not_holdsRole_dropped hHolds

theorem triple_hsmSlotZeroize {h : DevHist Unit n} (hA : AuthInv S.crypto none h)
    (sess : HsmSession) (id : Nat) :
    Triple authCond anywhere (hsmSlotZeroize (persistKeystore S) S sess id)
      (fun _ h' => AuthInv S.crypto none h') h := by
  refine triple_bind ((triple_requireRole hA sess .so).mono fun r h₁ hA₁ => ?_)
  split
  · exact ⟨trivial, hA₁⟩
  · split
    · exact ⟨trivial, hA₁⟩
    · rename_i i hAt
      obtain rfl := slotAt_val hAt
      split
      · exact ⟨trivial, hA₁⟩
      · exact triple_zeroizeAt hA₁ i

theorem triple_hsmSlotZeroizeForced {h : DevHist Unit n} (hA : AuthInv S.crypto none h)
    (id : Nat) :
    Triple authCond anywhere (hsmSlotZeroizeForced (persistKeystore S) S id)
      (fun _ h' => AuthInv S.crypto none h') h := by
  unfold hsmSlotZeroizeForced
  split
  · exact ⟨trivial, hA⟩
  · rename_i i hAt
    obtain rfl := slotAt_val hAt
    exact triple_zeroizeAt hA i

end Operations

/-- Between the operations of a run of one thread, every session that holds a role on a slot has
presented a PIN that the slot accepts for the role, or accepted before operations under that role
replaced it. -/
theorem sessions_proven {c : DevConfig Unit n} (h : (slotPool S n Unit).Reaches authCond c)
    (hIdle : c.thread () = none) : SessionsProven S.crypto c.hist := by
  refine ((Pool.sequential (I := anywhere) (A := AuthInv S.crypto none) ?_
    (fun _ _ _ (hReset : False) _ => hReset.elim) ?_ h).idle hIdle).sessionsProven
  · rintro d ⟨-, -, hTok, -⟩
    refine ⟨fun i => ?_, fun j hOpen => ?_, fun j i role hHolds => ?_⟩
    · change (d.tok.slots i).metadata.slotId = _
      rw [hTok]
      rfl
    · change (d.tok.sessions j).isOpen = true at hOpen
      rw [hTok] at hOpen
      cases hOpen
    · obtain ⟨hOpen, -⟩ := hHolds
      change (d.tok.sessions j).isOpen = true at hOpen
      rw [hTok] at hOpen
      cases hOpen
  · intro k h hA _
    have hCalled : AuthInv S.crypto none (h.calls () k) := ⟨hA.slotIds, hA.inRange, hA.holders⟩
    have hTriple : Triple authCond anywhere (k.prog S) (fun _ h' => AuthInv S.crypto none h')
        (h.calls () k) := by
      cases k with
      | sessionLogin sess role pin =>
        exact triple_bind ((triple_hsmSessionLogin hCalled sess role pin).mono fun _ _ hA => ⟨trivial, hA⟩)
      | zeroize sess id =>
        exact triple_bind ((triple_hsmSlotZeroize hCalled sess id).mono fun _ _ hA => ⟨trivial, hA⟩)
      | zeroizeForced id =>
        exact triple_bind ((triple_hsmSlotZeroizeForced hCalled id).mono fun _ _ hA => ⟨trivial, hA⟩)
      | _ =>
        exact triple_of_stays (fun _ _ => trivial) (stays_of_within (Call.prog_steps_plain (by simp [Call.Special]))
          fun _ _ _ hStep hA hok => authInv_step hA hStep hok) hCalled
    exact hTriple.mono fun a h' hA' _ => ⟨hA'.slotIds, hA'.inRange, hA'.holders⟩

section Runs

/-! ### Concrete runs -/

/-- Nothing is zeroized or loaded, and the User PIN is set while nobody is logged in as User. -/
def leavesPins (h : DevHist Unit 1) (_ : Act Unit Call Env) (evs : List Event) : Bool :=
  evs.all fun
    | .userPinSet .. => (List.finRange MAX_SESSIONS).all fun j =>
      decide ((h.shared.tok.sessions j).role ≠ .user)
    | .zeroized _ => false
    | .recordRead .. => false
    | _ => true

theorem authCond_of_leavesPins (h : DevHist Unit 1) (a : Act Unit Call Env)
    (evs : List Event) (hEvs : leavesPins h a evs = true) : authCond h a evs := by
  have hAll := List.all_eq_true.mp hEvs
  refine ⟨fun i m r hMem => ?_, fun i old new hMem j hHolds => ?_, ?_⟩
  · exact absurd (hAll _ hMem) (by simp)
  · have hNone := List.all_eq_true.mp (hAll _ hMem) j (List.mem_finRange j)
    exact of_decide_eq_true hNone hHolds.2.2.1
  · cases a with
    | sect t e => exact fun i hMem => absurd (hAll _ hMem) (by simp)
    | _ => trivial

theorem sessions_proven_user : ∃ c : DevConfig Unit 1,
    (c.hist.shared.tok.sessions ⟨0, by decide⟩).HoldsRole 0 .user ∧
      SessionsProven Setup.clear.crypto c.hist := by
  obtain ⟨c, hRun, hIdle, hHolds⟩ := Pool.exists_scheduleAll leavesPins authCond_of_leavesPins
    (powerUp_init Setup.clear Nat.one_pos (by decide)) (userRun ())
    (fun c : DevConfig Unit 1 => (c.thread ()).isNone = true ∧
      (c.hist.shared.tok.sessions ⟨0, by decide⟩) = ⟨true, 0, .user, 1⟩) (by decide +kernel)
  refine ⟨c, ?_, sessions_proven hRun (Option.isNone_iff_eq_none.mp hIdle)⟩
  rw [hHolds]
  exact ⟨rfl, rfl, rfl, nofun⟩

/-- The SO gives the User another PIN, the User logs in with it, and a backup brings the first
one back under the session. -/
def pinRestoredRun (rmk : Bytes) : List (Act Unit Call Env) :=
  generatedRun ++
  Pool.calling () (.sessionLogin firstSession .so (some [1, 2, 3, 4])) 17 (.calm 7) ++
  Pool.calling () (.setUserPin firstSession (some [9, 9, 9, 9])) 16 (.calm 8) ++
  Pool.calling () (.sessionLogout firstSession) 2 (.calm 7) ++
  Pool.calling () (.sessionLogin firstSession .user (some [9, 9, 9, 9])) 17 (.calm 7) ++
  restoring generatedRun rmk

theorem session_left_on_restored_pins : ∃ c : DevConfig Unit 1,
    (slotPool .clear 1 Unit).Reaches Pool.always c ∧ c.thread () = none ∧
      ¬ SessionsProven Setup.clear.crypto c.hist := by
  obtain ⟨c, hRun, hIdle, hSession, hPins⟩ := Pool.exists_scheduleAll Pool.unchecked
    Pool.always_of_unchecked (powerUp_init Setup.clear Nat.one_pos (by decide))
    (pinRestoredRun (List.replicate 32 9))
    (fun c : DevConfig Unit 1 => (c.thread ()).isNone = true ∧
      (c.hist.shared.tok.sessions ⟨0, by decide⟩) = ⟨true, 0, .user, 1⟩ ∧
      ∀ pin ∈ presented firstSession 0 .user c.hist.events,
        ((c.hist.shared.tok.slots 0).pinMaterial .user).all
          fun m => ¬ m.accepts .clear 0 .user pin) (by decide +kernel)
  refine ⟨c, hRun, Option.isNone_iff_eq_none.mp hIdle, fun hProven => ?_⟩
  obtain ⟨i, -, pin, hPin, m, m', hMaterial, hChain, hAccepts⟩ :=
    hProven ⟨0, by decide⟩ (by rw [hSession]) (by rw [hSession]; nofun)
  obtain rfl : i = 0 := Subsingleton.elim _ _
  rw [hSession] at hPin hMaterial hChain hAccepts
  -- no operation of a User replaces PIN material
  obtain rfl : m = m' := by
    induction hChain with
    | refl => rfl
    | tail _ hLast => exact nomatch hLast.1
  have hRefused := hPins pin hPin
  rw [hMaterial] at hRefused
  exact of_decide_eq_true hRefused hAccepts

end Runs

end PqcHsm
