import PqcHsm.Slot.CallStep

/-!
# A failed login and the role of its session

The role is set by a flag that the comparison of the PIN has raised, whatever the sealing of the
slot and the persist hook made of the status afterwards.
-/

namespace PqcHsm

open ByteCodec Sections

variable {n : Nat}

/-- The role of an open session. -/
def Token.roleOf (tok : Token n) (sess : HsmSession) : Option HsmRole :=
  (sessionIndex sess).bind fun k =>
    if (tok.sessions k).matches sess then some (tok.sessions k).role else none

/-- The slot of an open session. -/
def Token.slotOf (tok : Token n) (sess : HsmSession) : Option (Fin n) :=
  (sessionIndex sess).bind fun k =>
    if (tok.sessions k).matches sess then slotAt n (tok.sessions k).slot else none

/-- The slot lets the PIN in: nothing forbids a login, and the verifier can be computed and is the
stored one. -/
structure Slot.Admits (s : Slot) (C : Crypto) (e : Env) (role : HsmRole) (pin : CString) : Prop where
  intact : slotCheckIntegrity C e 0 s = .ok
  initialized : s.metadata.state ≠ .uninit
  unlocked : ¬ (s.metadata.state = .locked ∧ role = .user)
  hasPin : (s.pinOf role).2.2 = true
  verifies : pinVerifier C e s.pinKey s.metadata.slotId role (s.pinOf role).1 pin = some (s.pinOf role).2.1

section Locked

variable {S : Setup} {s : Slot} {e : Env} {role : HsmRole} {pin : CString} {sess : HsmSession} {id : Nat}

theorem loginLocked_admitted (h : s.Admits S.crypto e role pin) :
    (loginLocked S sess id role pin e s).1 =
        ⟨(slotReseal S.crypto e 1 (s.withFails role 0)).1, true, true⟩ ∧
      (loginLocked S sess id role pin e s).2.1 = (slotReseal S.crypto e 1 (s.withFails role 0)).2 := by
  have hFails : { s with metadata := if role = .so then
      { s.metadata with soPinFails := 0 } else { s.metadata with userPinFails := 0 } } =
      s.withFails role 0 := by
    cases role <;> rfl
  unfold loginLocked
  simp only [h.intact, if_neg h.initialized, if_neg h.unlocked, h.hasPin, h.verifies, hFails,
    Bool.not_true, Bool.false_eq_true, if_false, if_true]
  exact ⟨trivial, trivial⟩

theorem loginLocked_refused (h : ¬ s.Admits S.crypto e role pin) :
    (loginLocked S sess id role pin e s).1.loginOk = false := by
  unfold loginLocked
  split
  · rename_i hInt
    split
    · rfl
    rename_i hInit
    split
    · rfl
    rename_i hOpen
    split
    rename_i salt want has hPin
    split
    · rfl
    rename_i hHas
    split
    · rfl
    rename_i got hGot
    split
    · rename_i hEq
      refine (h ⟨hInt, hInit, hOpen, ?_, ?_⟩).elim
      · rw [hPin]
        simpa using hHas
      · rw [hPin, hGot, hEq]
    split
    · rfl
    dsimp only
    split
    · split <;> rfl
    · rfl
  · rfl

end Locked

section Login

variable {S : Setup} {sess : HsmSession} {role : HsmRole} {d : Device n} {env : Nat → Env}

theorem roleOf_congr {tok tok' : Token n} (h : tok'.sessions = tok.sessions) :
    tok'.roleOf sess = tok.roleOf sess := by
  rw [Token.roleOf, Token.roleOf, h]

theorem sessions_commitSecurityState (st : HsmStatus) :
    ((commitSecurityState (persistKeystore S) st).run env d).2.1.tok.sessions = d.tok.sessions :=
  Prog.Within.run_keeps (f := fun d => d.tok.sessions) (fun _ _ _ h => h.sessions)
    (stores_commitSecurityState stores_persistKeystore st) env d

/-- Where the session is open, the role is set. -/
theorem roleOf_setSessionRole {held : HsmRole} (h : d.tok.roleOf sess = some held) :
    ((setSessionRole sess role).run env d).2.1.tok.roleOf sess = some role := by
  obtain ⟨k, hIndex, hRole⟩ := Option.bind_eq_some_iff.mp h
  split at hRole
  · rename_i hMatches
    simp only [setSessionRole, hIndex, tokenSection, Prog.run_atomic, hMatches, if_true]
    have hSame : ((d.tok.setSession k { d.tok.sessions k with role }).sessions k).matches sess = true := by
      simpa [Token.setSession, Session.matches] using hMatches
    simp only [Token.roleOf, hIndex, Option.bind_some, hSame, if_true]
    simp [Token.setSession]
  · cases hRole

/-- The persist hook, called on a device, succeeds or is skipped. -/
def Persists (S : Setup) (d : Device n) (env : Nat → Env) : Prop :=
  ((slotPersist (persistKeystore S)).run env d).1 = true

instance (S : Setup) (d : Device n) (env : Nat → Env) : Decidable (Persists S d env) :=
  inferInstanceAs (Decidable (_ = _))

theorem status_commitSecurityState (st : HsmStatus) :
    ((commitSecurityState (persistKeystore S) st).run env d).1 = .ok ↔ st = .ok ∧ Persists S d env := by
  simp only [commitSecurityState, Prog.bind_eq_bind, Prog.run_bind, Prog.pure_eq_ret, Prog.run_ret,
    Persists]
  cases ((slotPersist (persistKeystore S)).run env d).1 <;> cases st <;> simp

end Login

section Main

variable {S : Setup} {sess : HsmSession} {role : HsmRole} {pin : Option CString} {d : Device n}
  {env : Nat → Env}

/-- The PIN passes in the slot of the session. The slot is read in the second section of the call. -/
def PinPasses (S : Setup) (d : Device n) (env : Nat → Env) (sess : HsmSession) (role : HsmRole)
    (pin : Option CString) (i : Fin n) : Prop :=
  d.tok.slotOf sess = some i ∧ role ≠ .pub ∧
    ∃ p, pin = some p ∧ (d.tok.slots i).Admits S.crypto (env 1) role p

/-- The slot that a good PIN leaves behind: its counter is cleared, and sealed if that succeeds. -/
def afterGoodPin (S : Setup) (d : Device n) (env : Nat → Env) (role : HsmRole) (i : Fin n) :
    HsmStatus × Device n :=
  let r := slotReseal S.crypto (env 1) 1 ((d.tok.slots i).withFails role 0)
  (r.1, d.setSlot i r.2)

theorem roleOf_of_slotOf {i : Fin n} (h : d.tok.slotOf sess = some i) :
    ∃ k, sessionIndex sess = some k ∧ (d.tok.sessions k).matches sess = true ∧
      slotAt n (d.tok.sessions k).slot = some i ∧ d.tok.roleOf sess = some (d.tok.sessions k).role := by
  obtain ⟨k, hIndex, hSlot⟩ := Option.bind_eq_some_iff.mp h
  split at hSlot
  · rename_i hMatches
    refine ⟨k, hIndex, hMatches, hSlot, ?_⟩
    simp only [Token.roleOf, hIndex, Option.bind_some, hMatches, if_true]
  · cases hSlot

/-- A good PIN sets the role, whatever becomes of the status. -/
theorem run_login_good {i : Fin n} (h : PinPasses S d env sess role pin i) :
    (((hsmSessionLogin (persistKeystore S) S sess role pin).run env d).1 = .ok ↔
      (afterGoodPin S d env role i).1 = .ok ∧
        Persists S (afterGoodPin S d env role i).2 fun k => env (k + 2)) ∧
    ((hsmSessionLogin (persistKeystore S) S sess role pin).run env d).2.1.tok.roleOf sess = some role := by
  obtain ⟨hSlotOf, hRole, p, rfl, hAdmits⟩ := h
  obtain ⟨k, hIndex, hMatches, hSlot, hHeld⟩ := roleOf_of_slotOf hSlotOf
  obtain ⟨hOut, hLeft⟩ := @loginLocked_admitted S _ _ _ p sess (d.tok.sessions k).slot hAdmits
  have hRun : (hsmSessionLogin (persistKeystore S) S sess role (some p)).run env d =
      (finishLogin (persistKeystore S) sess role ⟨(afterGoodPin S d env role i).1, true, true⟩).run
        (fun k => env (k + 2)) (afterGoodPin S d env role i).2 := by
    simp only [hsmSessionLogin, sessionInfo, hIndex, tokenSection, Prog.bind_eq_bind, Prog.run_bind,
      Prog.run_atomic, hMatches, if_true, hSlot, if_neg hRole, slotSection, hOut, hLeft]
    rfl
  rw [hRun]
  simp only [finishLogin, if_true, Prog.bind_eq_bind, Prog.run_bind, Prog.pure_eq_ret, Prog.run_ret]
  refine ⟨status_commitSecurityState _, ?_⟩
  have hOpen : ((afterGoodPin S d env role i).2.tok).roleOf sess = some (d.tok.sessions k).role := by
    rw [← hHeld]
    rfl
  exact roleOf_setSessionRole ((roleOf_congr (sessions_commitSecurityState _)).trans hOpen)

theorem run_finishLogin_bad {out : LoginOut} (h : out.loginOk = false) :
    ((finishLogin (persistKeystore S) sess role out).run env d).2.1.tok.sessions = d.tok.sessions := by
  obtain ⟨st, loginOk, metaChanged⟩ := out
  cases h
  cases metaChanged with
  | false => rfl
  | true =>
    simp only [finishLogin, if_true, Prog.bind_eq_bind, Prog.run_bind, Bool.false_eq_true, if_false,
      Prog.pure_eq_ret, Prog.run_ret]
    exact sessions_commitSecurityState st

/-- Without a good PIN no role changes. -/
theorem run_login_bad (h : ∀ i, ¬ PinPasses S d env sess role pin i) :
    ((hsmSessionLogin (persistKeystore S) S sess role pin).run env d).2.1.tok.roleOf sess =
      d.tok.roleOf sess := by
  simp only [hsmSessionLogin, sessionInfo]
  cases hIndex : sessionIndex sess with
  | none => rfl
  | some k =>
    simp only [tokenSection, Prog.bind_eq_bind, Prog.run_bind, Prog.run_atomic]
    cases hMatches : (d.tok.sessions k).matches sess with
    | false =>
      simp only [Bool.false_eq_true, if_false]
      rfl
    | true =>
      simp only [if_true]
      cases pin with
      | none => rfl
      | some p =>
        cases hSlot : slotAt n (d.tok.sessions k).slot with
        | none => rfl
        | some i =>
          simp only []
          split
          · rfl
          · rename_i hRole
            have hRefused : ¬ (d.tok.slots i).Admits S.crypto (env 1) role p := by
              rintro hAdmits
              refine h i ⟨?_, hRole, p, rfl, hAdmits⟩
              simp only [Token.slotOf, hIndex, Option.bind_some, hMatches, if_true, hSlot]
            simp only [slotSection, Prog.run_bind, Prog.run_atomic]
            exact roleOf_congr (run_finishLogin_bad (loginLocked_refused hRefused))

/-- A login that fails leaves the role of its session as it was, exactly if the PIN does not pass, or
both the sealing of the slot and the persist hook succeed, or the session has the role already. -/
theorem failed_login_grants_nothing_iff (S : Setup) (d : Device n) (env : Nat → Env)
    (sess : HsmSession) (role : HsmRole) (pin : Option CString) :
    (((hsmSessionLogin (persistKeystore S) S sess role pin).run env d).1 ≠ .ok →
      ((hsmSessionLogin (persistKeystore S) S sess role pin).run env d).2.1.tok.roleOf sess =
        d.tok.roleOf sess) ↔
    ∀ i, PinPasses S d env sess role pin i →
      ((afterGoodPin S d env role i).1 = .ok ∧
        Persists S (afterGoodPin S d env role i).2 fun k => env (k + 2)) ∨
      d.tok.roleOf sess = some role := by
  constructor
  · rintro hKeeps i hPasses
    obtain ⟨hStatus, hSet⟩ := run_login_good hPasses
    by_cases hOk : ((hsmSessionLogin (persistKeystore S) S sess role pin).run env d).1 = .ok
    · exact .inl (hStatus.mp hOk)
    · exact .inr ((hKeeps hOk).symm.trans hSet)
  · rintro hWhen hFail
    by_cases hPasses : ∃ i, PinPasses S d env sess role pin i
    · obtain ⟨i, hPasses⟩ := hPasses
      obtain ⟨hStatus, hSet⟩ := run_login_good hPasses
      rcases hWhen i hPasses with hOk | hSame
      · exact (hFail (hStatus.mpr hOk)).elim
      · rw [hSet, hSame]
    · exact run_login_bad (not_exists.mp hPasses)

end Main

section Concrete

/-- Slot 0 is initialized and the first session is open. -/
def openedDevice : Device 1 :=
  ((hsmSessionOpen 0).run (fun _ => .calm 7)
    ((hsmSlotInitToken (persistKeystore .clear) .clear 0 (some []) (some [1, 2, 3, 4])).run
      (fun _ => .calm 7) (Config.powerUp .clear 1 Unit).hist.shared).2.1).2.1

/-- Nothing can be written. -/
def diskFull : Env := { Env.calm 7 with ioOk := false }

/-- The right SO PIN, and the key store cannot be written: the login fails and the session is SO. -/
theorem failed_login_grants_so :
    ((hsmSessionLogin (persistKeystore .clear) .clear firstSession .so (some [1, 2, 3, 4])).run
        (fun _ => diskFull) openedDevice).1 = .errCrypto ∧
      openedDevice.tok.roleOf firstSession = some .pub ∧
      ((hsmSessionLogin (persistKeystore .clear) .clear firstSession .so (some [1, 2, 3, 4])).run
        (fun _ => diskFull) openedDevice).2.1.tok.roleOf firstSession = some .so := by
  refine ⟨?_, ?_, ?_⟩
  · decide +kernel
  · decide +kernel
  · decide +kernel

end Concrete

end PqcHsm
