import PqcHsm.Library.Guarded
import PqcHsm.Slot.SessionHandles

/-!
# A zeroized slot

After a zeroize a slot holds nothing but its number and its generation, and no operation on it
succeeds, until it is initialized again or a record is installed in it. Sessions lose their role in
the zeroize; a login that was called before it returned may still set one afterwards.
-/

namespace PqcHsm

open ByteCodec Sections

variable {n : Nat} {S : Setup} {ι : Type}

/-- No key, no PIN material, and the metadata of a slot that was never used, but for the number and the
generation. -/
structure Slot.Wiped (s : Slot) : Prop where
  metadata : s.metadata = { zeroizedMeta s.metadata with generation := s.metadata.generation }
  preLock : s.preLock = .empty
  key : s.pk = none ∧ s.sk = none ∧ s.seed = none ∧ s.hwHandle = none
  pinKey : s.pinKey = zeros 32
  so : s.soSalt = zeros PIN_SALT_LEN ∧ s.soVerifier = zeros VERIFIER_LEN ∧ s.hasSoPin = false
  user : s.userSalt = zeros PIN_SALT_LEN ∧ s.userVerifier = zeros VERIFIER_LEN ∧ s.hasUserPin = false

/-- Whether the event wipes the slot, or begins to fill it. -/
def Event.wipes (i : Nat) : Event → Option Bool
  | .zeroized j => if j = i then some true else none
  | .initStarted j => if j = i then some false else none
  | .recordRead j _ _ => if j = i then some false else none
  | _ => none

/-- Since the last zeroize of the slot nothing has begun to fill it. -/
def LastWiped (i : Nat) (events : List Event) : Prop :=
  (events.filterMap (Event.wipes i)).head? = some true

instance (i : Nat) (events : List Event) : Decidable (LastWiped i events) :=
  inferInstanceAs (Decidable (_ = _))

namespace Call

/-- The zeroize operations of a slot. -/
def Zeroizes (i : Nat) : Call → Prop
  | zeroize _ id => id = i
  | zeroizeForced id => id = i
  | _ => False

/-- The logins and the operations on PINs and keys under a session. -/
def ActsUnder (sess : HsmSession) : Call → Prop
  | sessionLogin s _ _ => s = sess
  | setUserPin s _ => s = sess
  | unlock s _ => s = sess
  | generate s _ _ _ => s = sess
  | loadSeed s _ _ _ _ => s = sess
  | publicKey s _ _ => s = sess
  | sign s _ _ _ _ => s = sess
  | decaps s _ _ _ => s = sess
  | destroy s _ => s = sess
  | injectApply s _ s' _ => s = sess ∨ s' = sess
  | _ => False

end Call

/-! ### The slot -/

section Slots

theorem Slot.Wiped.state {s : Slot} (h : s.Wiped) : s.metadata.state = .uninit := by
  rw [h.metadata]
  rfl

theorem wiped_zeroed (C : Crypto) (e : Env) (k : Nat) (s : Slot) :
    (slotReseal C e k s.zeroed).2.Wiped := by
  rw [slotReseal_snd]
  exact ⟨rfl, rfl, ⟨rfl, rfl, rfl, rfl⟩, rfl, ⟨rfl, rfl, rfl⟩, rfl, rfl, rfl⟩

/-- Another zeroize only counts the generation and seals it. -/
theorem Slot.Wiped.doZeroize {s : Slot} (h : s.Wiped) (id : Nat) (e : Env) :
    (PqcHsm.doZeroize S id e s).2.1 = (slotReseal S.crypto e 0
      { s with metadata := { s.metadata with generation := s.metadata.generation + 1 } }).2 := by
  have hSame : s.zeroed =
      { s with metadata := { s.metadata with generation := s.metadata.generation + 1 } } := by
    obtain ⟨hMeta, hPre, ⟨hPk, hSk, hSeed, hHw⟩, hKey, ⟨hSs, hSv, hSo⟩, hUs, hUv, hUser⟩ := h
    cases s
    simp only at hMeta hPre hPk hSk hSeed hHw hKey hSs hSv hSo hUs hUv hUser
    subst hPre hPk hSk hSeed hHw hKey hSs hSv hSo hUs hUv hUser
    unfold Slot.zeroed slotWipePins slotWipeKeyMaterial
    rw [hMeta]
    rfl
  rw [doZeroize_eq, hSame]

theorem checkHandle_wiped {s : Slot} (h : s.Wiped) (e : Env) (hd : HsmHandle) :
    checkHandle S e s hd ≠ .ok := by
  intro hOk
  rcases (checkHandle_eq_ok S hOk).2.2.1 with hState | hState <;> rw [h.state] at hState <;>
    cases hState

/-- What a section does to a slot that may be wiped. -/
theorem slotStep_wiped {i : Nat} {e : Env} {hw : HwTable} {s : Slot}
    {r : HwTable × Slot × List Event} (h : SlotStep S true i e hw s r) :
    (r.2.2.filterMap (Event.wipes i) = [] ∧ (s.Wiped → r.2.1 = s)) ∨
    (r.2.2.filterMap (Event.wipes i) = [true] ∧ r.2.1.Wiped) ∨
    r.2.2.filterMap (Event.wipes i) = [false] := by
  have hNot : s.metadata.state ≠ .uninit → ∀ s', s.Wiped → s' = s :=
    fun hNe _ hWiped => absurd hWiped.state hNe
  cases h with
  | idle => exact .inl ⟨rfl, fun _ => rfl⟩
  | initToken h =>
    cases h with
    | refused st hSt => exact .inl ⟨rfl, fun _ => rfl⟩
    | stopped s' => exact .inr (.inr (by simp [Event.wipes]))
    | done s' => exact .inr (.inr (by split <;> simp [Event.wipes]))
  | setUserPin h =>
    cases h with
    | refused st hSt => exact .inl ⟨rfl, fun _ => rfl⟩
    | stopped salt hSt => exact .inl ⟨rfl, hNot hSt _⟩
    | done s' hSt => exact .inl ⟨by split <;> rfl, hNot hSt _⟩
  | login hRole h =>
    cases h with
    | refused st hSt => exact .inl ⟨rfl, fun _ => rfl⟩
    | good m hInt hSt => exact .inl ⟨rfl, hNot hSt _⟩
    | badSo hInt hSt => exact .inl ⟨rfl, hNot hSt _⟩
    | badUser hInt hSt => exact .inl ⟨rfl, hNot hSt _⟩
    | lockout hInt hSt => exact .inl ⟨rfl, hNot hSt _⟩
  | create h =>
    cases h with
    | refused st hSt => exact .inl ⟨rfl, fun _ => rfl⟩
    | failed st hw' hFail hSt => exact .inl ⟨rfl, hNot (by simp [hSt]) _⟩
    | unsealed k hw' hSeal hSt => exact .inl ⟨rfl, hNot (by simp [hSt]) _⟩
    | made k hw' hSeal hSt => exact .inl ⟨rfl, hNot (by simp [hSt]) _⟩
  | use h =>
    cases h with
    | refused st hSt => exact .inl ⟨rfl, fun _ => rfl⟩
    | used r hw' count time hCheck hSt => exact .inl ⟨rfl, hNot (by simp [hSt]) _⟩
  | publicKey h => cases h <;> exact .inl ⟨rfl, fun _ => rfl⟩
  | destroy h =>
    cases h with
    | refused st hSt => exact .inl ⟨rfl, fun _ => rfl⟩
    | done hCheck hSt => exact .inl ⟨by split <;> rfl, hNot (by simp [hSt]) _⟩
  | zeroize _ =>
    rw [doZeroize_eq]
    exact .inr (.inl ⟨by split <;> simp [Event.wipes], wiped_zeroed _ _ _ _⟩)
  | unlock h =>
    cases h with
    | refused st hSt => exact .inl ⟨rfl, fun _ => rfl⟩
    | done hInt hSt => exact .inl ⟨by split <;> rfl, hNot (by simp [hSt]) _⟩
  | deserialize m r hId hVersion hShape => exact .inr (.inr (by simp [Event.wipes]))

theorem slotStep_wipes_other {i j : Nat} (hj : j ≠ i) {e : Env} {hw : HwTable} {s : Slot}
    {r : HwTable × Slot × List Event} (h : SlotStep S true j e hw s r) :
    r.2.2.filterMap (Event.wipes i) = [] := by
  cases h with
  | idle => rfl
  | initToken h => cases h <;> [rfl; skip; split] <;> simp [Event.wipes, hj]
  | setUserPin h => cases h <;> [rfl; rfl; split] <;> simp [Event.wipes]
  | login hRole h => cases h <;> rfl
  | create h => cases h <;> rfl
  | use h => cases h <;> rfl
  | publicKey h => cases h <;> rfl
  | destroy h => cases h <;> [rfl; split] <;> rfl
  | zeroize _ =>
    rw [doZeroize_eq]
    dsimp only
    split <;> simp [Event.wipes, hj]
  | unlock h => cases h <;> [rfl; split] <;> rfl
  | deserialize m r => simp [Event.wipes, hj]

theorem wipes_eq_none {i : Nat} {x : Event} (h : ¬x.OnSlot) : x.wipes i = none := by
  cases x with
  | zeroized j => exact absurd trivial h
  | initStarted j => exact absurd trivial h
  | recordRead j m r => exact absurd trivial h
  | _ => rfl

/-- What a section of the device does to a slot that may be wiped. -/
theorem deviceStep_wiped {i : Fin n} {e : Env} {d : Device n} {r : Device n × List Event}
    (h : DeviceStep S true e d r) :
    (r.2.filterMap (Event.wipes i) = [] ∧ ((d.tok.slots i).Wiped → r.1.tok.slots i = d.tok.slots i)) ∨
    (r.2.filterMap (Event.wipes i) = [true] ∧ (r.1.tok.slots i).Wiped) ∨
    r.2.filterMap (Event.wipes i) = [false] := by
  cases h with
  | slot j r hStep =>
    by_cases hj : j = i
    · subst j
      rcases slotStep_wiped hStep with ⟨hEvs, hSame⟩ | ⟨hEvs, hWiped⟩ | hEvs
      · refine .inl ⟨hEvs, fun hW => ?_⟩
        simp only [setSlot_slots, Function.update_self]
        exact hSame hW
      · refine .inr (.inl ⟨hEvs, ?_⟩)
        simpa only [setSlot_slots, Function.update_self] using hWiped
      · exact .inr (.inr hEvs)
    · have hVal : j.val ≠ i.val := fun hEq => hj (Fin.ext hEq)
      refine .inl ⟨slotStep_wipes_other hVal hStep, fun _ => ?_⟩
      simp only [setSlot_slots, Function.update_of_ne (Ne.symm hj)]
  | token r hStep =>
    refine .inl ⟨List.filterMap_eq_nil_iff.mpr fun x hx => ?_, fun _ => by rw [hStep.slots]⟩
    cases hStep with
    | read => simp only [List.mem_singleton] at hx; subst hx; rfl
    | idle => cases hx
    | setRole => simp only [List.mem_singleton] at hx; subst hx; rfl
    | drop => simp only [List.mem_singleton] at hx; subst hx; rfl
    | opened => simp only [List.mem_singleton] at hx; subst hx; rfl
    | closed => cases hx
  | store r hStep =>
    refine .inl ⟨List.filterMap_eq_nil_iff.mpr fun x hx => wipes_eq_none fun hOn => ?_,
      fun _ => by rw [hStep.slots]⟩
    have hStore := hStep.events x hx
    cases x <;> first | exact hOn | exact hStore
  | hwDrop => exact .inl ⟨rfl, fun _ => rfl⟩

theorem wiped_of_lastWiped {i : Fin n} [DecidableEq ι]
    {ok : Pool.Cond ι Call Env (Device n) Event Reply} {c : DevConfig ι n}
    (h : (slotPool S n ι).Reaches ok c) (hLast : LastWiped i c.hist.events) :
    (c.hist.shared.tok.slots i).Wiped := by
  refine slotPool_invariant (A := fun h => LastWiped i h.events → (h.shared.tok.slots i).Wiped)
    ?_ ?_ ?_ ?_ h hLast
  · exact fun d _ hLast => nomatch hLast
  · exact fun t k h hA hLast => hA hLast
  · exact fun t k a h hA hLast => hA hLast
  · intro t h e r hStep hA _ hLast
    unfold LastWiped at hLast
    rw [Hist.events_emits, List.filterMap_append, List.filterMap_reverse] at hLast
    rcases deviceStep_wiped hStep with ⟨hEvs, hSame⟩ | ⟨hEvs, hWiped⟩ | hEvs
    · rw [hEvs] at hLast
      have hOld := hA hLast
      rw [Hist.emits_shared, hSame hOld]
      exact hOld
    · exact hWiped
    · rw [hEvs] at hLast
      exact nomatch hLast

end Slots

/-! ### Operations under a session of the slot -/

section Refusal

/-- The slot is wiped, and a session under the handle is on this slot. -/
def WipedFor (i : Fin n) (sess : HsmSession) (d : Device n) : Prop :=
  (d.tok.slots i).Wiped ∧ ∀ r, findSession d.tok sess = some r → r.1 = i

/-- As long as the slot is wiped, the program returns in `Q`. -/
abbrev DevProg.Ends {β : Type} (i : Fin n) (sess : HsmSession) (Q : β → Prop) (p : DevProg n β) : Prop :=
  Guarded (WipedFor i sess) (fun _ => True) Q p

variable {i : Fin n} {sess : HsmSession} {β : Type}

variable {W : Device n → Prop}

theorem ends_commitSecurityState {hook : DevProg n Bool} {st : HsmStatus} (hSt : st ≠ .ok) :
    Guarded W (fun _ => True) (· ≠ .ok) (commitSecurityState hook st) := by
  refine guarded_bind (guarded_true _) fun rc _ => ?_
  change (if (!rc && decide (st = .ok)) = true then HsmStatus.errCrypto else st) ≠ .ok
  rw [if_neg (by simp [hSt])]
  exact hSt

/-- The session is not found, or it is on the slot. -/
theorem ends_sessionInfo : DevProg.Ends i sess
    (fun r : Except HsmStatus (Nat × HsmRole) =>
      (∀ st, r = .error st → st ≠ .ok) ∧ ∀ x, r = .ok x → x.1 = i)
    (sessionInfo sess : DevProg n _) := by
  have hNone : ∀ st, (Except.error .errBadArg : Except HsmStatus (Nat × HsmRole)) = .error st →
      st ≠ .ok := by
    rintro st hEq
    cases hEq
    exact nofun
  unfold sessionInfo
  cases hIndex : sessionIndex sess with
  | none => exact ⟨hNone, nofun⟩
  | some j =>
    refine guarded_atomic fun _ d hW => ⟨fun _ _ => trivial, ?_⟩
    dsimp only
    split
    · rename_i hMatch
      refine ⟨nofun, fun x hx => ?_⟩
      cases hx
      exact hW.2 _ (findSession_eq_some.mpr ⟨j, hIndex, hMatch, rfl⟩)
    · exact ⟨hNone, nofun⟩

theorem ends_requireRole (need : HsmRole) : DevProg.Ends i sess
    (fun r : Except HsmStatus Nat => (∀ st, r = .error st → st ≠ .ok) ∧ ∀ id, r = .ok id → id = i)
    (requireRole sess need : DevProg n _) := by
  refine guarded_bind ends_sessionInfo fun r hr => ?_
  rcases r with st | ⟨id, role⟩
  · refine ⟨fun st' hEq => ?_, nofun⟩
    cases hEq
    exact hr.1 st rfl
  · dsimp only
    by_cases hRole : role = need
    · rw [if_pos hRole]
      refine ⟨nofun, fun x hx => ?_⟩
      cases hx
      exact hr.2 _ rfl
    · rw [if_neg hRole]
      refine ⟨fun st hEq => ?_, nofun⟩
      cases hEq
      exact nofun

theorem ends_sessionInfo_error (sess' : HsmSession) : Guarded W (fun _ => True)
    (fun r : Except HsmStatus (Nat × HsmRole) => ∀ st, r = .error st → st ≠ .ok)
    (sessionInfo sess' : DevProg n _) := by
  unfold sessionInfo
  cases sessionIndex sess' with
  | none =>
    rintro st hEq
    cases hEq
    exact nofun
  | some j =>
    refine guarded_atomic fun _ d _ => ⟨fun _ _ => trivial, fun st hEq => ?_⟩
    dsimp only at hEq
    split at hEq <;> cases hEq
    exact nofun

theorem ends_requireRole_error (sess' : HsmSession) (need : HsmRole) : Guarded W (fun _ => True)
    (fun r : Except HsmStatus Nat => ∀ st, r = .error st → st ≠ .ok)
    (requireRole sess' need : DevProg n _) := by
  refine guarded_bind (ends_sessionInfo_error sess') fun r hr => ?_
  rcases r with st | ⟨id, role⟩
  · intro st' hEq
    cases hEq
    exact hr st rfl
  · dsimp only
    intro st hEq
    split at hEq <;> cases hEq
    exact nofun

theorem ends_hsmSessionRole (sess' : HsmSession) : DevProg.Ends i sess
    (fun r : Except HsmStatus HsmRole => ∀ st, r = .error st → st ≠ .ok)
    (hsmSessionRole sess' : DevProg n _) := by
  refine guarded_bind (ends_sessionInfo_error sess') fun r hr => ?_
  rcases r with st | ⟨id, role⟩
  · intro st' hEq
    cases hEq
    exact hr st rfl
  · exact nofun

theorem slotAt_self (i : Fin n) : slotAt n i.val = some i := dif_pos i.isLt

theorem ends_slotSection {body : Env → Slot → β × Slot × List Event} {Q : β → Prop}
    (hBody : ∀ e s, s.Wiped → Q (body e s).1) : DevProg.Ends i sess Q (slotSection i body) :=
  guarded_atomic fun e _ hW => ⟨fun _ _ => trivial, hBody e _ hW.1⟩

theorem ends_hwSection {body : Env → HwTable → Slot → β × (HwTable × Slot) × List Event}
    {Q : β → Prop} (hBody : ∀ e hw s, s.Wiped → Q (body e hw s).1) :
    DevProg.Ends i sess Q (hwSection i body) :=
  guarded_atomic fun e d hW => ⟨fun _ _ => trivial, hBody e d.hw _ hW.1⟩

/-- The part of an operation after the role was found and the slot was looked up. -/
theorem ends_withRole {need : HsmRole} {f : Except HsmStatus Nat → DevProg n β} {Q : β → Prop}
    (hError : ∀ st, st ≠ .ok → DevProg.Ends i sess Q (f (.error st)))
    (hOk : DevProg.Ends i sess Q (f (.ok i))) :
    DevProg.Ends i sess Q ((requireRole sess need).bind f) := by
  refine guarded_bind (ends_requireRole need) fun r hr => ?_
  rcases r with st | id
  · exact hError st (hr.1 st rfl)
  · obtain rfl := hr.2 id rfl
    exact hOk

theorem ends_withSession {f : Except HsmStatus (Nat × HsmRole) → DevProg n β} {Q : β → Prop}
    (hError : ∀ st, st ≠ .ok → DevProg.Ends i sess Q (f (.error st)))
    (hOk : ∀ role, DevProg.Ends i sess Q (f (.ok (i, role)))) :
    DevProg.Ends i sess Q ((sessionInfo sess).bind f) := by
  refine guarded_bind ends_sessionInfo fun r hr => ?_
  rcases r with st | ⟨id, role⟩
  · exact hError st (hr.1 st rfl)
  · obtain rfl : id = i := hr.2 _ rfl
    exact hOk role

variable {hook : DevProg n Bool}

theorem ends_loginSection {role : HsmRole} (pin : CString) (hRole : role ≠ .pub) :
    DevProg.Ends i sess (fun out : LoginOut => out.st ≠ .ok ∧ out.loginOk = false ∧
      out.metaChanged = false) (slotSection i (loginLocked S sess i role pin)) := by
  refine ends_slotSection fun e s hW => ?_
  have hCase := loginLocked_cases S sess i role pin e s hRole
  generalize loginLocked S sess i role pin e s = r at hCase
  cases hCase with
  | refused st hSt => exact ⟨hSt, rfl, rfl⟩
  | good m hInt hState => exact absurd hW.state hState
  | badSo hInt hState => exact absurd hW.state hState
  | badUser hInt hState => exact absurd hW.state hState
  | lockout hInt hState => exact absurd hW.state hState

theorem ends_hsmSessionLogin (role : HsmRole) (pin : Option CString) :
    DevProg.Ends i sess (· ≠ .ok) (hsmSessionLogin hook S sess role pin : DevProg n _) := by
  refine ends_withSession (fun st hSt => hSt) fun _ => ?_
  dsimp only
  rw [slotAt_self]
  cases pin with
  | none => exact nofun
  | some pin =>
    dsimp only
    split
    · exact nofun
    · rename_i hRole
      refine guarded_bind (ends_loginSection pin hRole) fun out hOut => ?_
      unfold finishLogin
      rw [hOut.2.1, hOut.2.2]
      exact hOut.1

theorem ends_hsmSlotSetUserPin (userPin : Option CString) :
    DevProg.Ends i sess (· ≠ .ok) (hsmSlotSetUserPin hook S sess userPin : DevProg n _) := by
  refine ends_withRole (fun st hSt => hSt) ?_
  dsimp only
  rw [slotAt_self]
  cases userPin with
  | none => exact nofun
  | some userPin =>
    dsimp only
    split
    · exact nofun
    · refine guarded_bind (ends_slotSection (Q := (· ≠ .ok)) fun e s hW => ?_) fun st hSt =>
        ends_commitSecurityState hSt
      have hCase := setUserPinLocked_cases S userPin i e s
      generalize setUserPinLocked S i userPin e s = r at hCase
      cases hCase with
      | refused st hSt => exact hSt
      | stopped salt hState => exact absurd hW.state hState
      | done s' hState => exact absurd hW.state hState

theorem ends_hsmSlotUnlock (id : Nat) :
    DevProg.Ends i sess (· ≠ .ok) (hsmSlotUnlock hook S sess id : DevProg n _) := by
  refine ends_withRole (fun st hSt => hSt) ?_
  dsimp only
  cases hSlot : slotAt n id with
  | none => exact nofun
  | some j =>
    dsimp only
    split
    · exact nofun
    · rename_i hSame
      have hId := slotAt_val hSlot
      have hj : j = i := Fin.ext (hId.trans (not_not.mp hSame).symm)
      subst hj
      refine guarded_bind (ends_slotSection (Q := (· ≠ .ok)) fun e s hW => ?_) fun st hSt =>
        ends_commitSecurityState hSt
      have hCase := unlockLocked_cases S id e s
      generalize unlockLocked S id e s = r at hCase
      cases hCase with
      | refused st hSt => exact hSt
      | done hInt hState =>
        rw [hW.state] at hState
        cases hState

theorem ends_createObject (alg : PqcAlg) (usage policy : UInt32) (seed : Option Bytes)
    {ev : SlotEvent} (hev : ev = .generate ∨ ev = .load) :
    DevProg.Ends i sess (fun r : HsmStatus × Option HsmHandle => r.1 ≠ .ok)
      (createObject hook S sess alg usage policy seed ev : DevProg n _) := by
  refine ends_withRole (fun st hSt => hSt) ?_
  dsimp only
  split
  · exact nofun
  · split
    · exact nofun
    · rw [slotAt_self]
      dsimp only
      refine guarded_bind (ends_hwSection (Q := fun r => r.1 ≠ .ok) fun e hw s hW => ?_) fun r hr =>
        guarded_bind (ends_commitSecurityState hr) fun st hSt => hSt
      have hCase := createObjectLocked_cases S i alg usage policy seed hev e hw s
      generalize createObjectLocked S i alg usage policy seed ev e hw s = r at hCase
      cases hCase with
      | refused st hSt => exact hSt
      | failed st hw' hSt => exact hSt
      | unsealed k hw' => exact nofun
      | made k hw' hSeal hState =>
        rw [hW.state] at hState
        cases hState

theorem ends_hsmSlotLoadSeed (alg : PqcAlg) (usage policy : UInt32) (seed : Bytes) :
    DevProg.Ends i sess (fun r : HsmStatus × Option HsmHandle => r.1 ≠ .ok)
      (hsmSlotLoadSeed hook S sess alg usage policy seed : DevProg n _) := by
  unfold hsmSlotLoadSeed
  split
  · exact nofun
  · split
    · exact nofun
    · exact ends_createObject _ _ _ _ (.inr rfl)

theorem ends_hsmObjectPublicKey (h : HsmHandle) (cap : Option Nat) :
    DevProg.Ends i sess (fun r : HsmStatus × Option Bytes => r.1 ≠ .ok)
      (hsmObjectPublicKey S sess h cap : DevProg n _) := by
  refine ends_withSession (fun st hSt => hSt) fun role => ?_
  dsimp only
  rw [slotAt_self]
  refine ends_slotSection fun e s hW => ?_
  have hCase := publicKeyLocked_cases S i h cap e s
  generalize publicKeyLocked S i h cap e s = r at hCase
  cases hCase with
  | refused st hSt => exact hSt
  | accepted r hCheck => exact absurd hCheck (checkHandle_wiped hW e h)

theorem useCase_wiped {h : HsmHandle} {e : Env} {hw : HwTable} {s : Slot} (hW : s.Wiped)
    {r : (HsmStatus × Option Bytes) × (HwTable × Slot) × List Event}
    (hCase : UseCase S i h e hw s r) : r.1.1 ≠ .ok := by
  cases hCase with
  | refused st hSt => exact hSt
  | used r hw' count time hCheck => exact absurd hCheck (checkHandle_wiped hW e h)

theorem ends_hsmObjectSign (h : HsmHandle) (msg ctx : Bytes) (cap : Option Nat) :
    DevProg.Ends i sess (fun r : HsmStatus × Option Bytes => r.1 ≠ .ok)
      (hsmObjectSign S sess h msg ctx cap : DevProg n _) := by
  refine ends_withRole (fun st hSt => hSt) ?_
  dsimp only
  rw [slotAt_self]
  exact ends_hwSection fun e hw s hW => useCase_wiped hW (signLocked_cases S i h msg ctx cap e hw s)

theorem ends_hsmObjectDecaps (h : HsmHandle) (ct : Bytes) (cap : Option Nat) :
    DevProg.Ends i sess (fun r : HsmStatus × Option Bytes => r.1 ≠ .ok)
      (hsmObjectDecaps S sess h ct cap : DevProg n _) := by
  refine ends_withRole (fun st hSt => hSt) ?_
  dsimp only
  rw [slotAt_self]
  exact ends_hwSection fun e hw s hW => useCase_wiped hW (decapsLocked_cases S i h ct cap e hw s)

theorem ends_hsmObjectDestroy (h : HsmHandle) :
    DevProg.Ends i sess (· ≠ .ok) (hsmObjectDestroy hook S sess h : DevProg n _) := by
  refine ends_withRole (fun st hSt => hSt) ?_
  dsimp only
  rw [slotAt_self]
  refine guarded_bind (ends_slotSection (Q := (· ≠ .ok)) fun e s hW => ?_) fun st hSt =>
    ends_commitSecurityState hSt
  have hCase := destroyLocked_cases S i h e s
  generalize destroyLocked S i h e s = r at hCase
  cases hCase with
  | refused st hSt => exact hSt
  | done hCheck => exact absurd hCheck (checkHandle_wiped hW e h)

theorem ends_injectCommit (hdr : InjectHeader) (seed : Bytes) :
    DevProg.Ends i sess (fun r : HsmStatus × Option HsmHandle => r.1 ≠ .ok)
      (injectCommit hook S sess hdr seed : DevProg n _) := by
  refine guarded_bind (guarded_true _) fun target _ => ?_
  rcases target with - | ⟨told, m⟩
  · exact ends_hsmSlotLoadSeed _ _ _ _
  · dsimp only
    split
    · exact nofun
    · refine guarded_bind (ends_hsmObjectDestroy told) fun st hSt => ?_
      rw [if_neg hSt]
      exact hSt

theorem injectHeader_error {blob : Bytes} {st : HsmStatus} (h : injectHeader blob = .error st) :
    st ≠ .ok := by
  rintro rfl
  unfold injectHeader at h
  repeat' split at h
  all_goals cases h

theorem endUse_ok {opSt : HsmStatus} {e : Env} {s : Slot} (h : (endUse S opSt e s).1 = .ok) :
    opSt = .ok := by
  unfold endUse at h
  dsimp only at h
  by_contra hSt
  rw [if_pos hSt] at h
  exact hSt h

/-- A decapsulation that succeeds has a result. -/
theorem decapsLocked_some {id : Nat} {h : HsmHandle} {ct : Bytes} {cap : Option Nat} {e : Env}
    {hw : HwTable} {s : Slot} (hOk : (decapsLocked S id h ct cap e hw s).1.1 = .ok) :
    (decapsLocked S id h ct cap e hw s).1.2 ≠ none := by
  unfold decapsLocked at hOk ⊢
  split at hOk
  · rename_i st s' hUse
    exact absurd hOk (beginUse_eq_error S hUse).1
  · have hOp := endUse_ok hOk
    clear hOk
    revert hOp
    dsimp only
    repeat' split
    all_goals simp

theorem ends_decaps_some (sess' : HsmSession) (h : HsmHandle) (ct : Bytes) (cap : Option Nat) :
    DevProg.Ends i sess (fun r : HsmStatus × Option Bytes => r.1 = .ok → r.2 ≠ none)
      (hsmObjectDecaps S sess' h ct cap : DevProg n _) := by
  refine guarded_bind (ends_requireRole_error sess' .user) fun r hr => ?_
  rcases r with st | id
  · exact fun hOk => absurd hOk (hr st rfl)
  · dsimp only
    split
    · exact nofun
    · exact guarded_atomic fun e d _ => ⟨fun _ _ => trivial, decapsLocked_some⟩

theorem ends_hsmInjectApply {kemSess targetSess : HsmSession}
    (hUnder : kemSess = sess ∨ targetSess = sess) (kemHandle : HsmHandle) (blob : Bytes) :
    DevProg.Ends i sess (fun r : HsmStatus × Option HsmHandle => r.1 ≠ .ok)
      (hsmInjectApply hook S kemSess kemHandle targetSess blob : DevProg n _) := by
  unfold hsmInjectApply
  cases hHeader : injectHeader blob with
  | error st => exact injectHeader_error hHeader
  | ok hdr =>
    dsimp only
    refine guarded_bind (ends_hsmSessionRole targetSess) fun r hr => ?_
    rcases r with st | role
    · exact hr st rfl
    · dsimp only
      have hDecaps : DevProg.Ends i sess (fun r : HsmStatus × Option Bytes =>
          (r.1 = .ok → r.2 ≠ none) ∧ (kemSess = sess → r.1 ≠ .ok))
          (hsmObjectDecaps S kemSess kemHandle ((blob.drop IJ_HDR_LEN).take hdr.ctLen) (some 64) :
            DevProg n _) := by
        by_cases hKem : kemSess = sess
        · subst hKem
          exact (ends_hsmObjectDecaps _ _ _).mono fun r hr => ⟨fun hOk => absurd hOk hr, fun _ => hr⟩
        · exact (ends_decaps_some _ _ _ _).mono fun r hr => ⟨hr, fun hEq => absurd hEq hKem⟩
      refine guarded_bind hDecaps fun out hOut => ?_
      split
      · rename_i ss
        refine guarded_bind (guarded_true _) fun keysOk _ => ?_
        split
        · exact nofun
        · split
          · exact nofun
          · split
            · have hTarget : targetSess = sess :=
                hUnder.resolve_left fun hKem => hOut.2 hKem rfl
              subst hTarget
              exact ends_injectCommit _ _
            · rename_i hUsage
              exact hUsage
      · rename_i st out' hNot
        intro hOk
        rcases out' with - | ss
        · exact hOut.1 hOk rfl
        · exact hNot ss hOk rfl

end Refusal

section Refused

variable {i : Fin n} {sess : HsmSession} {β : Type}

theorem ends_replying {p : DevProg n β} {f : β → Reply} {P : Prop}
    (h : P → DevProg.Ends i sess (fun b => (f b).st ≠ .ok) p) :
    DevProg.Ends i sess (fun a => P → a.st ≠ .ok) (replying p f) := by
  by_cases hP : P
  · exact guarded_bind (h hP) fun b hb _ => hb
  · exact (guarded_true _).mono fun _ _ h => absurd h hP

/-- No login and no operation on the PINs or the key succeeds. -/
theorem Call.prog_refused (k : Call) :
    DevProg.Ends i sess (fun a => k.ActsUnder sess → a.st ≠ .ok) (k.prog S) := by
  have hOther : (k.ActsUnder sess → False) →
      DevProg.Ends i sess (fun a => k.ActsUnder sess → a.st ≠ .ok) (k.prog S) :=
    fun hNot => (guarded_true _).mono fun _ _ h => (hNot h).elim
  cases k with
  | sessionLogin s role pin =>
    refine ends_replying ?_
    rintro rfl
    exact ends_hsmSessionLogin role pin
  | setUserPin s userPin =>
    refine ends_replying ?_
    rintro rfl
    exact ends_hsmSlotSetUserPin userPin
  | unlock s id =>
    refine ends_replying ?_
    rintro rfl
    exact ends_hsmSlotUnlock id
  | generate s alg usage policy =>
    refine ends_replying ?_
    rintro rfl
    exact ends_createObject _ _ _ _ (.inl rfl)
  | loadSeed s alg usage policy seed =>
    refine ends_replying ?_
    rintro rfl
    exact ends_hsmSlotLoadSeed _ _ _ _
  | publicKey s h cap =>
    refine ends_replying ?_
    rintro rfl
    exact ends_hsmObjectPublicKey h cap
  | sign s h msg ctx cap =>
    refine ends_replying ?_
    rintro rfl
    exact ends_hsmObjectSign h msg ctx cap
  | decaps s h ct cap =>
    refine ends_replying ?_
    rintro rfl
    exact ends_hsmObjectDecaps h ct cap
  | destroy s h =>
    refine ends_replying ?_
    rintro rfl
    exact ends_hsmObjectDestroy h
  | injectApply s h s' blob => exact ends_replying fun hUnder => ends_hsmInjectApply hUnder h blob
  | _ => exact hOther id

end Refused

/-! ### Roles -/

section Roles

variable {i : Fin n} {sess : HsmSession} {β : Type}

/-- The event gives the session no role. -/
def Event.NoRole (sess : HsmSession) (x : Event) : Prop :=
  ∀ role, x = .roleSet sess role → role = .pub

abbrev DevProg.NoRole (sess : HsmSession) (p : DevProg n β) : Prop :=
  p.Within fun _ _ r => ∀ x ∈ r.2, x.NoRole sess

theorem noRole_of_steps {p : DevProg n β} (h : DevProg.Steps S false p) : DevProg.NoRole sess p := by
  refine Prog.Within.mono h fun e d r hStep x hx => ?_
  rintro role rfl
  cases hStep with
  | slot j r hSlot => exact absurd trivial (hSlot.not_onSessions _ hx)
  | token r hTok =>
    cases hTok with
    | setRole s j role' hIndex hMatch hRole =>
      simp only [List.mem_singleton, Event.roleSet.injEq] at hx
      exact hx.2.trans (hRole.resolve_right Bool.noConfusion)
    | _ => simp at hx
  | store r hStore => exact (hStore.events _ hx).elim
  | hwDrop => simp at hx

theorem noRole_of_stores {p : DevProg n β} (h : DevProg.Stores S p) : DevProg.NoRole sess p :=
  noRole_of_steps (h.steps S)

theorem noRole_slotSection {j : Fin n} {body : Env → Slot → β × Slot × List Event}
    (h : ∀ e s x, x ∈ (body e s).2.2 → x.OnSlot) : DevProg.NoRole sess (slotSection j body) := by
  refine Prog.within_atomic fun e d x hx => ?_
  rintro role rfl
  exact (h e _ _ hx).elim

theorem noRole_commit (st : HsmStatus) :
    DevProg.NoRole sess (commitSecurityState (persistKeystore S) st : DevProg n _) :=
  noRole_of_stores (stores_commitSecurityState stores_persistKeystore st)

theorem noRole_sessionInfo (s : HsmSession) :
    DevProg.NoRole sess (sessionInfo s : DevProg n _) := by
  have hQuiet : DevProg.Quiet Setup.clear false false (sessionInfo s : DevProg n _) := quiet_sessionInfo s
  exact noRole_of_steps (Prog.Within.mono hQuiet fun _ _ _ => QuietStep.deviceStep)

theorem noRole_requireRole (s : HsmSession) (need : HsmRole) :
    DevProg.NoRole sess (requireRole s need : DevProg n _) := by
  refine Prog.within_bind (noRole_sessionInfo s) fun r => ?_
  rcases r with st | info <;> trivial

theorem noRole_setSessionRole {s : HsmSession} (hs : s ≠ sess) (role : HsmRole) :
    DevProg.NoRole sess (setSessionRole s role : DevProg n _) := by
  unfold setSessionRole
  split
  · trivial
  · refine Prog.within_atomic fun _ d x hx => ?_
    rintro role' rfl
    dsimp only at hx
    split at hx
    · simp only [List.mem_singleton, Event.roleSet.injEq] at hx
      exact absurd hx.1.symm hs
    · cases hx

theorem noRole_dropSessionsOnSlot (id : Nat) :
    DevProg.NoRole sess (dropSessionsOnSlot id : DevProg n _) := by
  refine Prog.within_atomic fun _ d x hx => ?_
  rintro role rfl
  simp at hx

theorem noRole_loginSection {j : Fin n} (s : HsmSession) (id : Nat) {role : HsmRole} (pin : CString)
    (hRole : role ≠ .pub) : DevProg.NoRole sess (slotSection j (loginLocked S s id role pin)) :=
  noRole_slotSection fun e sl x hx => by
    have hStep : SlotStep S true id e (fun _ _ => none) sl (fun _ _ => none, (loginLocked S s id role pin e sl).2) :=
      .login hRole (loginLocked_cases S s id role pin e sl hRole)
    exact hStep.onSlot x hx

/-- A login gives no role to another session, nor to its own on a wiped slot. -/
theorem login_noRole (s : HsmSession) (role : HsmRole) (pin : Option CString) :
    Guarded (WipedFor i sess) (Event.NoRole sess) (fun _ => True)
      (hsmSessionLogin (persistKeystore S) S s role pin : DevProg n _) := by
  by_cases hs : s = sess
  · subst hs
    refine guarded_bind (ends_sessionInfo.of_within (noRole_sessionInfo s) fun _ _ _ h => h)
      fun r hr => ?_
    rcases r with st | ⟨id, role'⟩
    · trivial
    · obtain rfl : id = i := hr.2 _ rfl
      dsimp only
      rw [slotAt_self]
      cases pin with
      | none => trivial
      | some pin =>
        dsimp only
        split
        · trivial
        · rename_i hRole
          refine guarded_bind ((ends_loginSection pin hRole).of_within
            (noRole_loginSection s i pin hRole) fun _ _ _ h => h) fun out hOut => ?_
          unfold finishLogin
          rw [hOut.2.1, hOut.2.2]
          trivial
  · refine (guarded_true _).of_within (R := fun _ _ r => ∀ x ∈ r.2, x.NoRole sess) ?_
      fun _ _ _ h => h
    refine Prog.within_bind (noRole_sessionInfo s) fun r => ?_
    rcases r with st | ⟨id, role'⟩
    · trivial
    · dsimp only
      split
      · split
        · trivial
        · rename_i hRole
          refine Prog.within_bind (noRole_loginSection s id _ hRole) fun out => ?_
          refine Prog.within_bind ?_ fun st => ?_
          · split
            · exact noRole_commit _
            · trivial
          · split
            · exact Prog.within_bind (noRole_setSessionRole hs role) fun _ => trivial
            · trivial
      · trivial

theorem noRole_zeroizeAt (j : Fin n) (id : Nat) :
    DevProg.NoRole sess (zeroizeAt (persistKeystore S) S j id) := by
  refine Prog.within_bind (noRole_slotSection fun e s x hx => ?_) fun st => ?_
  · have hStep : SlotStep S true id e (fun _ _ => none) s (fun _ _ => none, (doZeroize S id e s).2) :=
      .zeroize rfl
    exact hStep.onSlot x hx
  · split
    · exact Prog.within_bind (noRole_dropSessionsOnSlot id) fun _ => noRole_commit st
    · exact noRole_commit st

theorem Call.prog_noRole (k : Call) : Guarded (WipedFor i sess) (Event.NoRole sess) (fun _ => True)
    (k.prog S : DevProg n Reply) := by
  by_cases hk : k.Special
  · cases k with
    | sessionLogin s role pin => exact guarded_bind (login_noRole s role pin) fun _ _ => trivial
    | zeroize s id =>
      refine (guarded_true _).of_within (R := fun _ _ r => ∀ x ∈ r.2, x.NoRole sess) ?_
        fun _ _ _ h => h
      refine Prog.within_bind (Prog.within_bind (noRole_requireRole s .so) fun r => ?_) fun _ => trivial
      rcases r with st | sid
      · trivial
      · dsimp only
        split
        · trivial
        · split
          · trivial
          · exact noRole_zeroizeAt _ _
    | zeroizeForced id =>
      refine (guarded_true _).of_within (R := fun _ _ r => ∀ x ∈ r.2, x.NoRole sess) ?_
        fun _ _ _ h => h
      refine Prog.within_bind ?_ fun _ => trivial
      unfold hsmSlotZeroizeForced
      split
      · trivial
      · exact noRole_zeroizeAt _ _
    | _ => exact hk.elim
  · exact (guarded_true _).of_within (noRole_of_steps (Call.prog_steps_plain (S := S) hk))
      fun _ _ _ h => h

/-- The entries that give the session a role, or take the roles of the slot. -/
def Entry.touches (sess : HsmSession) (i : Nat) : Entry ι Call Event Reply → Bool
  | .emit _ (.roleSet s _) => s = sess
  | .emit _ (.sessionsDropped j) => j = i
  | _ => false

theorem find?_touches {i : Nat} {h : DevHist ι n} {t : ι} {r : Device n × List Event}
    (hEvs : ∀ x ∈ r.2, ¬Entry.touches sess i (.emit t x)) :
    (h.emits t r).trace.find? (Entry.touches sess i) = h.trace.find? (Entry.touches sess i) :=
  Hist.unchanged_emits (fun x hx _ => List.find?_cons_of_neg (hEvs x hx)) h

/-- The role of a session was the last thing to happen to the roles of it and of its slot. -/
def RolesGiven (h : DevHist ι n) : Prop :=
  ∀ j, (h.shared.tok.sessions j).isOpen = true → (h.shared.tok.sessions j).role ≠ .pub →
    ∃ u, h.trace.find? (Entry.touches ((h.shared.tok.sessions j).handle j)
        (h.shared.tok.sessions j).slot) =
      some (.emit u (.roleSet ((h.shared.tok.sessions j).handle j) (h.shared.tok.sessions j).role))

theorem RolesGiven.of_same {h : DevHist ι n} {t : ι} {r : Device n × List Event}
    (hRoles : RolesGiven h) (hSessions : r.1.tok.sessions = h.shared.tok.sessions)
    (hEvs : ∀ x ∈ r.2, ∀ s i, ¬Entry.touches s i (.emit t x)) : RolesGiven (h.emits t r) := by
  intro j hOpen hRole
  rw [Hist.emits_shared, hSessions] at hOpen hRole ⊢
  rw [find?_touches fun x hx => hEvs x hx _ _]
  exact hRoles j hOpen hRole

theorem RolesGiven.emits {h : DevHist ι n} {t : ι} {e : Env} {r : Device n × List Event}
    (hRoles : RolesGiven h) (hStep : DeviceStep S true e h.shared r) :
    RolesGiven (h.emits t r) := by
  cases hStep with
  | slot i r hSlot =>
    refine hRoles.of_same rfl fun x hx s i => ?_
    have hNot := hSlot.not_onSessions x hx
    cases x <;> first | exact Bool.false_ne_true | exact absurd trivial hNot
  | token r hTok =>
    cases hTok with
    | read s i => exact hRoles.of_same rfl (by simp [Entry.touches])
    | idle => exact hRoles.of_same rfl (by simp)
    | setRole s i role hIndex hMatch hRole =>
      obtain ⟨hEq, hWas⟩ := eq_handle_of_matches hIndex hMatch
      intro j hOpen hPub
      by_cases hj : j = i
      · subst j
        simp only [Hist.emits_shared, Token.setSession, Function.update_self] at hOpen hPub ⊢
        have hSame : { h.shared.tok.sessions i with role := role }.handle i = s := hEq.symm
        rw [hSame]
        exact ⟨t, List.find?_cons_of_pos (decide_eq_true rfl)⟩
      · simp only [Hist.emits_shared, Token.setSession, Function.update_of_ne hj] at hOpen hPub ⊢
        have hNe : s ≠ (h.shared.tok.sessions j).handle j := by
          intro hSame
          have hBoth := congrArg sessionIndex (hEq.symm.trans hSame)
          rw [sessionIndex_handle, sessionIndex_handle] at hBoth
          exact hj (Option.some.inj hBoth).symm
        rw [find?_touches (by simp [Entry.touches, hNe])]
        exact hRoles j hOpen hPub
    | drop id =>
      intro j hOpen hPub
      simp only [Hist.emits_shared] at hOpen hPub ⊢
      split at hPub
      · exact absurd rfl hPub
      · rename_i hOff
        rw [if_neg hOff] at hOpen
        rw [if_neg hOff]
        have hSlot : id ≠ (h.shared.tok.sessions j).slot := fun hEq => hOff ⟨hOpen, hEq.symm⟩
        rw [find?_touches (by simp [Entry.touches, hSlot])]
        exact hRoles j hOpen hPub
    | opened i id hId hFree =>
      intro j hOpen hPub
      by_cases hj : j = i
      · subst j
        simp [Token.setSession] at hPub
      · simp only [Hist.emits_shared, Token.setSession, Function.update_of_ne hj] at hOpen hPub ⊢
        rw [find?_touches (by simp [Entry.touches])]
        exact hRoles j hOpen hPub
    | closed s i hIndex hMatch =>
      intro j hOpen hPub
      by_cases hj : j = i
      · subst j
        simp [Token.setSession] at hOpen
      · simp only [Hist.emits_shared, Token.setSession, Function.update_of_ne hj] at hOpen hPub ⊢
        exact hRoles j hOpen hPub
  | store r hStore =>
    refine hRoles.of_same hStore.sessions fun x hx s i => ?_
    have hOf := hStore.events x hx
    cases x <;> first | exact Bool.false_ne_true | exact hOf.elim
  | hwDrop => exact hRoles.of_same rfl (by simp [Entry.touches])

theorem rolesGiven_of_reaches [DecidableEq ι] {ok : Pool.Cond ι Call Env (Device n) Event Reply}
    {c : DevConfig ι n} (h : (slotPool S n ι).Reaches ok c) : RolesGiven c.hist := by
  refine slotPool_invariant (A := RolesGiven) ?_ ?_ ?_ (fun t h e r hStep hA _ => hA.emits hStep) h
  · rintro d ⟨-, -, hTok, -⟩ j hOpen
    rw [hTok] at hOpen
    cases hOpen
  · exact fun t k h hA j hOpen hRole => hA j hOpen hRole
  · exact fun t k a h hA j hOpen hRole => hA j hOpen hRole

/-- A zeroize that succeeds has taken the roles of the slot. -/
theorem Call.prog_announces (i : Fin n) (k : Call) :
    Announces (.sessionsDropped i) (fun a => k.Zeroizes i ∧ a.st = .ok)
      (k.prog S : DevProg n Reply) := by
  have hAt : ∀ (j : Fin n) (id : Nat), id = i →
      Announces (.sessionsDropped i) (· = .ok) (zeroizeAt (persistKeystore S) S j id) := by
    rintro j id rfl
    refine announces_bind (guarded_true _) fun st _ => ?_
    split
    · exact fun e d => .inl List.mem_cons_self
    · rename_i hSt
      refine announces_of_guarded ?_
      exact ends_commitSecurityState hSt
  have hReply : ∀ {p : DevProg n HsmStatus} {P : Prop},
      (P → Announces (.sessionsDropped i) (· = .ok) p) →
      Announces (.sessionsDropped i) (fun a : Reply => P ∧ a.st = .ok) (replying p .ofStatus) := by
    intro p P hp
    by_cases hP : P
    · exact (hp hP).bind fun st hSt hQ => hSt hQ.2
    · exact announces_of_not (fun _ hQ => hP hQ.1) _
  cases k with
  | zeroize s id =>
    refine hReply fun hId => ?_
    refine announces_bind (ends_requireRole_error s .so) fun r hr => ?_
    rcases r with st | sid
    · exact hr st rfl
    · dsimp only
      split
      · exact nofun
      · split
        · exact nofun
        · exact hAt _ id hId
  | zeroizeForced id =>
    refine hReply fun hId => ?_
    unfold hsmSlotZeroizeForced
    split
    · exact nofun
    · exact hAt _ id hId
  | _ => exact announces_of_not (fun _ hQ => hQ.1) _

end Roles

/-! ### After the zeroize -/

section Zeroized

variable [DecidableEq ι] {i : Fin n} {sess : HsmSession} {t : ι}

/-- Nothing begins to fill the slot, and the session is on no other slot. -/
def StaysZeroized (i : Fin n) (sess : HsmSession) (_ : DevConfig ι n) (l : Act ι Call Env × List Event)
    (c' : DevConfig ι n) : Prop :=
  (∀ x ∈ l.2, x.wipes i ≠ some false) ∧ ∀ r, findSession c'.hist.shared.tok sess = some r → r.1 = i

/-- What holds in a configuration that follows on one where a thread's zeroize of the slot returned. -/
structure ZeroizedSince (S : Setup) (i : Fin n) (sess : HsmSession) (t : ι)
    (c₁ c₂ : DevConfig ι n) : Prop where
  wiped : (c₂.hist.shared.tok.slots i).Wiped
  rejected : ∀ e h, checkHandle S e (c₂.hist.shared.tok.slots i) h ≠ .ok
  refused : ∀ newest u k a since, c₂.hist.trace = newest ++ .ret u k a :: (since ++ c₁.hist.trace) →
    CalledIn u since → k.ActsUnder sess → a.st ≠ .ok
  roles : ∃ after before, c₁.hist.trace = after ++ .emit t (.sessionsDropped i) :: before ∧
    ¬CalledIn t after ∧ ∀ role, findSession c₂.hist.shared.tok sess = some (i.val, role) → role ≠ .pub →
    ∃ u newest between, c₂.hist.trace = newest ++ .emit u (.roleSet sess role) ::
      (between ++ .emit t (.sessionsDropped i) :: before) ∧
    ∀ since, between ++ .emit t (.sessionsDropped i) :: before = since ++ c₁.hist.trace →
      ¬CalledIn u since
  again : ∀ id e, (doZeroize S id e (c₂.hist.shared.tok.slots i)).2.1 =
    (slotReseal S.crypto e 0 { c₂.hist.shared.tok.slots i with
      metadata := { (c₂.hist.shared.tok.slots i).metadata with
        generation := (c₂.hist.shared.tok.slots i).metadata.generation + 1 } }).2

theorem wipedFor_keep {c c' : DevConfig ι n} {l : Act ι Call Env × List Event}
    (hStep : (slotPool S n ι).Step c l c')
    (hDevice : ∀ t e, l.1 = .sect t e → DeviceStep S true e c.hist.shared (c'.hist.shared, l.2))
    (hok : StaysZeroized i sess c l c') (hW : WipedFor i sess c.hist.shared) :
    WipedFor i sess c'.hist.shared := by
  refine ⟨?_, hok.2⟩
  cases hStep with
  | call hIdle => exact hW.1
  | ret hThread => exact hW.1
  | crash hReset => exact hReset.elim
  | @sect t k act next e hThread =>
    rcases deviceStep_wiped (i := i) (hDevice t e rfl) with ⟨-, hSame⟩ | ⟨-, hWiped⟩ | hEvs
    · exact (hSame hW.1).symm ▸ hW.1
    · exact hWiped
    · have hMem : false ∈ (act e c.hist.shared).2.filterMap (Event.wipes i) :=
        hEvs ▸ List.mem_singleton_self _
      obtain ⟨x, hx, hFills⟩ := List.mem_filterMap.mp hMem
      exact absurd hFills (hok.1 x hx)

/-- The first entry that satisfies `p` is not older than one that does. -/
theorem find?_newer {α : Type} {p : α → Bool} {x y : α} {newer older : List α}
    (hFind : (newer ++ y :: older).find? p = some x) (hy : p y = true) (hNe : x ≠ y) :
    ∃ newest between, newer = newest ++ x :: between := by
  induction newer with
  | nil =>
    rw [List.nil_append, List.find?_cons_of_pos hy] at hFind
    exact absurd (Option.some.inj hFind).symm hNe
  | cons z newer ih =>
    rw [List.cons_append] at hFind
    cases hz : p z with
    | true =>
      rw [List.find?_cons_of_pos hz] at hFind
      exact ⟨[], newer, by rw [Option.some.inj hFind]; rfl⟩
    | false =>
      rw [List.find?_cons_of_neg (by simp [hz])] at hFind
      obtain ⟨newest, between, rfl⟩ := ih hFind
      exact ⟨z :: newest, between, rfl⟩

omit [DecidableEq ι] in
theorem findSession_rolesGiven {h : DevHist ι n} (hRoles : RolesGiven h) {role : HsmRole}
    (hFound : findSession h.shared.tok sess = some (i.val, role)) (hRole : role ≠ .pub) :
    ∃ u, h.trace.find? (Entry.touches sess i) = some (.emit u (.roleSet sess role)) := by
  obtain ⟨j, hIndex, hMatch, hEq⟩ := findSession_eq_some.mp hFound
  obtain ⟨hHandle, hOpen⟩ := eq_handle_of_matches hIndex hMatch
  obtain ⟨hSlot, hIs⟩ := Prod.mk.inj hEq
  rw [hHandle, hSlot, hIs]
  exact hRoles j hOpen (hIs ▸ hRole)

theorem zeroize_absorbs {c₁ c₂ : DevConfig ι n} (hReach : (slotPool S n ι).Reaches Pool.always c₁)
    {k : Call} {older : List (Entry ι Call Event Reply)}
    (hRet : c₁.hist.trace = .ret t k (.ofStatus .ok) :: older) (hk : k.Zeroizes i)
    (hLast : LastWiped i c₁.hist.events)
    (hOn : ∀ r, findSession c₁.hist.shared.tok sess = some r → r.1 = i)
    (hLeads : Transition.Leads (slotPool S n ι).system (StaysZeroized i sess) c₁ c₂) :
    ZeroizedSince S i sess t c₁ c₂ := by
  have hW₁ : WipedFor i sess c₁.hist.shared := ⟨wiped_of_lastWiped hReach hLast, hOn⟩
  have hThreads := Pool.threadsWithin_of_reaches (fun k => Call.prog_steps (S := S) (n := n) k) hReach
  obtain ⟨hW₂, newer, hTrace, hRefused⟩ := Pool.obeys (W := WipedFor i sess) (E := fun _ => True)
    (Q := fun k a => k.ActsUnder sess → a.st ≠ .ok) Call.prog_steps (fun _ _ _ => wipedFor_keep)
    Call.prog_refused hThreads hLeads hW₁
  obtain ⟨-, newer', hTrace', hNoRole⟩ := Pool.obeys (W := WipedFor i sess) (E := Event.NoRole sess)
    (Q := fun _ _ => True) Call.prog_steps (fun _ _ _ => wipedFor_keep)
    Call.prog_noRole hThreads hLeads hW₁
  obtain rfl : newer' = newer := List.append_cancel_right (hTrace'.symm.trans hTrace)
  have hReach₂ : (slotPool S n ι).Reaches Pool.always c₂ :=
    Transition.Reachable.leads hReach (hLeads.mono fun _ _ _ _ => trivial)
  obtain ⟨after, before, hOlder, hAfter⟩ :=
    Pool.announced (Q := fun k a => k.Zeroizes i ∧ a.st = .ok) (Call.prog_announces i) hReach hRet
      ⟨hk, rfl⟩
  constructor
  · exact hW₂.1
  · exact checkHandle_wiped hW₂.1
  · intro newest u k a since hEq hCall
    rw [hTrace, ← List.cons_append, ← List.append_assoc] at hEq
    have hNewer := List.append_cancel_right hEq
    rw [hNewer] at hRefused
    exact hRefused.ret hCall
  · refine ⟨.ret t k (.ofStatus .ok) :: after, before, by rw [hRet, hOlder]; rfl,
      fun hCall => hAfter ((calledIn_cons_of_ne nofun).mp hCall), fun role hFound hRole => ?_⟩
    obtain ⟨u, hFind⟩ := findSession_rolesGiven (rolesGiven_of_reaches hReach₂) hFound hRole
    have hSplit : c₂.hist.trace = (newer' ++ .ret t k (.ofStatus .ok) :: after) ++
        .emit t (.sessionsDropped i) :: before := by
      rw [hTrace, hRet, hOlder]
      simp
    rw [hSplit] at hFind
    obtain ⟨newest, between, hNewer⟩ := find?_newer hFind (by simp [Entry.touches]) nofun
    rw [hNewer] at hSplit
    refine ⟨u, newest, between, by rw [hSplit]; simp, fun since hEq hCall => ?_⟩
    have hAll : newer' ++ c₁.hist.trace =
        (newest ++ .emit u (.roleSet sess role) :: since) ++ c₁.hist.trace := by
      rw [← hTrace, hSplit, List.append_assoc, List.cons_append, hEq, List.append_assoc]
      rfl
    rw [List.append_cancel_right hAll] at hNoRole
    exact hRole (hNoRole.emit hCall role rfl)
  · exact fun id e => hW₂.1.doZeroize id e

end Zeroized

section Runs

/-- A zeroize of the slot of a key. -/
def zeroizedRun : List (Act Unit Call Env) :=
  generatedRun ++ Pool.calling () (.zeroizeForced 0) 16 (.calm 7)

def onSlotZero (c : DevConfig Unit 1) : Bool :=
  (findSession c.hist.shared.tok firstSession).all fun r => r.1 = 0

theorem onSlotZero_eq_true {c : DevConfig Unit 1} (h : onSlotZero c = true) {r : Nat × HsmRole}
    (hr : findSession c.hist.shared.tok firstSession = some r) : r.1 = 0 := by
  rw [onSlotZero, hr] at h
  exact of_decide_eq_true h

def userLogin : Call := .sessionLogin firstSession .user (some [5, 6, 7, 8])

/-- The login of before is refused after the zeroize. -/
theorem zeroized_slot_refuses : ∃ c₁ c₂ : DevConfig Unit 1,
    c₂.hist.trace.head? = some (.ret () userLogin (.ofStatus .errBadState)) ∧
      ZeroizedSince .clear 0 firstSession () c₁ c₂ := by
  obtain ⟨c₁, hReach, ⟨hRet, hLast, hOn⟩, hAfter⟩ : ∃ c₁, _ ∧ _ ∧ _ := Pool.exists_scheduleAll Pool.unchecked
    Pool.always_of_unchecked (powerUp_init .clear Nat.one_pos (by decide)) zeroizedRun
    (fun c : DevConfig Unit 1 =>
      (c.hist.trace.head? = some (.ret () (.zeroizeForced 0) (.ofStatus .ok)) ∧
        LastWiped 0 c.hist.events ∧ onSlotZero c = true) ∧
      ((slotPool .clear 1 Unit).follow (fun evs c' => evs.all (fun x => x.wipes 0 ≠ some false) &&
        onSlotZero c') c
        (Pool.calling () userLogin 2 (.calm 7))).any
        (fun c => c.hist.trace.head? = some (.ret () userLogin (.ofStatus .errBadState))) = true)
    (by decide +kernel)
  obtain ⟨c₂, hFollow, hRefused⟩ := (Option.any_eq_true _ _).mp hAfter
  obtain ⟨older, hTrace⟩ := List.head?_eq_some_iff.mp hRet
  refine ⟨c₁, c₂, of_decide_eq_true hRefused,
    zeroize_absorbs (i := 0) hReach hTrace rfl hLast (fun _ => onSlotZero_eq_true hOn) (Pool.leads_follow ?_ hFollow)⟩
  intro c l c' hCheck
  obtain ⟨hEvs, hAt⟩ := (Bool.and_eq_true _ _).mp hCheck
  exact ⟨fun x hx => of_decide_eq_true (List.all_eq_true.mp hEvs x hx), fun _ => onSlotZero_eq_true hAt⟩

def zeroizeReturned : Entry Unit Call Event Reply := .ret () (.zeroizeForced 0) (.ofStatus .ok)

def callsInit : Entry ι Call Event Reply → Bool
  | .call _ (.initToken ..) => true
  | _ => false

/-- A backup is restored into the zeroized slot, and the User logs in. -/
theorem login_after_restore : ∃ (c : DevConfig Unit 1) (since older : List (Entry Unit Call Event Reply)),
    (slotPool .clear 1 Unit).Reaches Pool.always c ∧
    c.hist.trace = .ret () userLogin (.ofStatus .ok) ::
      (since ++ .ret () (.zeroizeForced 0) (.ofStatus .ok) :: older) ∧
    ∀ id label so, .call () (.initToken id label so) ∉ since := by
  obtain ⟨c, hReach, hHead, hZero, hNone⟩ := Pool.exists_scheduleAll Pool.unchecked
    Pool.always_of_unchecked (powerUp_init .clear Nat.one_pos (by decide))
    (zeroizedRun ++ restoring generatedRun (List.replicate 32 9) ++
      Pool.calling () userLogin 17 (.calm 7))
    (fun c : DevConfig Unit 1 => c.hist.trace.head? = some (.ret () userLogin (.ofStatus .ok)) ∧
      (c.hist.trace.tail.dropWhile (· ≠ zeroizeReturned)).head? = some zeroizeReturned ∧
      (c.hist.trace.tail.takeWhile (· ≠ zeroizeReturned)).all (fun x => !callsInit x) = true)
    (by decide +kernel)
  obtain ⟨tail, hTail⟩ := List.head?_eq_some_iff.mp hHead
  obtain ⟨older, hOlder⟩ := List.head?_eq_some_iff.mp hZero
  refine ⟨c, c.hist.trace.tail.takeWhile (· ≠ zeroizeReturned), older, hReach, ?_, fun id label so hMem => ?_⟩
  · change _ = _ :: (_ ++ zeroizeReturned :: older)
    rw [← hOlder, List.takeWhile_append_dropWhile, hTail]
    rfl
  · exact absurd (List.all_eq_true.mp hNone _ hMem) (by simp [callsInit])

end Runs

end PqcHsm
