import PqcHsm.P11.Moves

/-!
# What a multi-part operation covers

While an operation is active, its session has accumulated what the start of the operation found there,
and the parts of the updates since then. The end of the operation signs or verifies just that.
-/

namespace PqcHsm

open ByteCodec Sections Transition

variable {n : Nat}

/-- The parts of the updates since the latest successful start of the operation. -/
def updatesSince (k : MsgKind) (hs : CkHandle) : List (P11Entry n) → List Bytes
  | [] => []
  | e :: past =>
    match e.call with
    | .init k' h _ _ =>
      if k' = k ∧ h = hs ∧ e.out.rv = .ok then [] else updatesSince k hs past
    | .update k' h part _ =>
      if k' = k ∧ h = hs ∧ e.out.rv = .ok then updatesSince k hs past ++ [part.toBytes]
      else updatesSince k hs past
    | _ => updatesSince k hs past

/-- What the session of a handle has accumulated. -/
def P11State.accumulated (st : P11State n) (k : MsgKind) (hs : CkHandle) : Bytes :=
  match sessionSlot hs with
  | none => []
  | some i => ((st.gSessions i).op k).acc.data

/-- What the latest successful start of the operation found accumulated. -/
def foundAtStart (k : MsgKind) (hs : CkHandle) : List (P11Entry n) → Bytes
  | [] => []
  | e :: past =>
    match e.call with
    | .init k' h _ _ =>
      if k' = k ∧ h = hs ∧ e.out.rv = .ok then e.before.accumulated k hs
      else foundAtStart k hs past
    | _ => foundAtStart k hs past

section State

variable {st : P11State n} {i j : Fin MAX_P11_SESSIONS} {k k' : MsgKind} {o : P11MsgOp}
  {d : AeadDir} {c : P11AeadCtx}

@[simp] theorem op_setOp_self : ((st.setOp i k o).gSessions i).op k = o := by
  cases k <;> simp [P11State.setOp, P11State.setSession, P11Session.setOp, P11Session.op]

theorem op_setOp_of_ne (h : ¬(k' = k ∧ j = i)) :
    ((st.setOp i k o).gSessions j).op k' = (st.gSessions j).op k' := by
  by_cases hij : j = i
  · subst hij
    cases k <;> cases k' <;>
      simp_all [P11State.setOp, P11State.setSession, P11Session.setOp, P11Session.op]
  · simp [P11State.setOp, P11State.setSession, Function.update_of_ne hij]

@[simp] theorem op_setCtx :
    ((st.setCtx i d c).gSessions j).op k = (st.gSessions j).op k := by
  by_cases hij : j = i
  · subst hij
    cases d <;> cases k <;> simp [P11State.setCtx, P11State.setSession, P11Session.op]
  · simp [P11State.setCtx, P11State.setSession, Function.update_of_ne hij]

theorem accumulated_eq {hs : CkHandle} (h : sessionSlot hs = some i) :
    st.accumulated k hs = ((st.gSessions i).op k).acc.data := by
  rw [P11State.accumulated, h]

end State

section History

variable {k : MsgKind} {hs : CkHandle} {e : P11Entry n} {past : List (P11Entry n)}

theorem updatesSince_skip (h : e.call.Extends → e.out.rv ≠ .ok) :
    updatesSince k hs (e :: past) = updatesSince k hs past := by
  obtain ⟨before, c, out⟩ := e
  cases c with
  | init k' hs' m key => exact if_neg fun hSame => h trivial hSame.2.2
  | update k' hs' part malloc => exact if_neg fun hSame => h trivial hSame.2.2
  | _ => rfl

variable {st : P11State n} {out : P11Out} {k' : MsgKind} {h key : CkHandle} {m : Option UInt64}
  {part : Span} {malloc : Bool}

theorem updatesSince_init : updatesSince k hs (⟨st, .init k' h m key, out⟩ :: past) =
    if k' = k ∧ h = hs ∧ out.rv = .ok then [] else updatesSince k hs past := rfl

theorem updatesSince_update : updatesSince k hs (⟨st, .update k' h part malloc, out⟩ :: past) =
    if k' = k ∧ h = hs ∧ out.rv = .ok then updatesSince k hs past ++ [part.toBytes]
    else updatesSince k hs past := rfl

theorem foundAtStart_init : foundAtStart k hs (⟨st, .init k' h m key, out⟩ :: past) =
    if k' = k ∧ h = hs ∧ out.rv = .ok then st.accumulated k hs else foundAtStart k hs past := rfl

theorem foundAtStart_update : foundAtStart k hs (⟨st, .update k' h part malloc, out⟩ :: past) =
    foundAtStart k hs past := rfl

theorem foundAtStart_skip (h : e.call.Extends → e.out.rv ≠ .ok) :
    foundAtStart k hs (e :: past) = foundAtStart k hs past := by
  obtain ⟨before, c, out⟩ := e
  cases c with
  | init k' hs' m key => exact if_neg fun hSame => h trivial hSame.2.2
  | _ => rfl

end History

/-- Active operations have accumulated what they found and the updates since. -/
def P11Run.Accumulates (r : P11Run n) : Prop :=
  ∀ k hs i, sessionSlot hs = some i → ((r.st.gSessions i).op k).active = true →
    ((r.st.gSessions i).op k).acc.data =
      foundAtStart k hs r.past ++ (updatesSince k hs r.past).flatten

section Step

variable {st st' : P11State n} {past : List (P11Entry n)} {c : P11Call} {out : P11Out}

theorem accumulates_skip (h : P11Run.Accumulates ⟨st, past⟩) (hSkip : c.Extends → out.rv ≠ .ok)
    (hOps : ∀ i k, (st'.gSessions i).op k = (st.gSessions i).op k ∨
      ((st'.gSessions i).op k).active = false) :
    P11Run.Accumulates ⟨st', ⟨st, c, out⟩ :: past⟩ := by
  intro k hs i hSlot hActive
  rw [updatesSince_skip hSkip, foundAtStart_skip hSkip]
  rcases hOps i k with hEq | hOver
  · rw [hEq] at hActive ⊢
    exact h k hs i hSlot hActive
  · rw [hOver] at hActive
    cases hActive

theorem accumulates_start {k : MsgKind} {hs : CkHandle} {m : Option UInt64} {key : CkHandle}
    {i : Fin MAX_P11_SESSIONS} (h : P11Run.Accumulates ⟨st, past⟩) (hRv : out.rv = .ok)
    (hSlot : sessionSlot hs = some i) (hSessions : st'.gSessions =
      (st.setOp i k ⟨true, key, ((st.gSessions i).op k).acc⟩).gSessions) :
    P11Run.Accumulates ⟨st', ⟨st, .init k hs m key, out⟩ :: past⟩ := by
  intro k' hs' i' hSlot' hActive
  dsimp only at hActive ⊢
  rw [hSessions] at hActive ⊢
  rw [updatesSince_init, foundAtStart_init]
  by_cases hSame : k = k' ∧ hs = hs'
  · obtain ⟨rfl, rfl⟩ := hSame
    obtain rfl : i = i' := Option.some.inj (hSlot.symm.trans hSlot')
    rw [op_setOp_self]
    simp [hRv, accumulated_eq hSlot]
  · have hNe : ¬(k' = k ∧ i' = i) := by
      rintro ⟨rfl, rfl⟩
      exact hSame ⟨rfl, sessionSlot_inj hSlot hSlot'⟩
    rw [op_setOp_of_ne hNe] at hActive ⊢
    rw [if_neg fun hAll => hSame ⟨hAll.1, hAll.2.1⟩, if_neg fun hAll => hSame ⟨hAll.1, hAll.2.1⟩]
    exact h k' hs' i' hSlot' hActive

theorem accumulates_add {k : MsgKind} {hs : CkHandle} {part : Span} {malloc : Bool}
    {i : Fin MAX_P11_SESSIONS} {acc : P11Buf} (h : P11Run.Accumulates ⟨st, past⟩)
    (hRv : out.rv = .ok) (hSlot : sessionSlot hs = some i)
    (hActive : ((st.gSessions i).op k).active = true)
    (hAcc : acc.data = ((st.gSessions i).op k).acc.data ++ part.toBytes)
    (hSessions : st'.gSessions =
      (st.setOp i k ⟨true, ((st.gSessions i).op k).key, acc⟩).gSessions) :
    P11Run.Accumulates ⟨st', ⟨st, .update k hs part malloc, out⟩ :: past⟩ := by
  intro k' hs' i' hSlot' hActive'
  dsimp only at hActive' ⊢
  rw [hSessions] at hActive' ⊢
  rw [updatesSince_update, foundAtStart_update]
  by_cases hSame : k = k' ∧ hs = hs'
  · obtain ⟨rfl, rfl⟩ := hSame
    obtain rfl : i = i' := Option.some.inj (hSlot.symm.trans hSlot')
    have hBefore := h k hs i hSlot hActive
    dsimp only at hBefore
    rw [op_setOp_self, hAcc, hBefore]
    simp [hRv]
  · have hNe : ¬(k' = k ∧ i' = i) := by
      rintro ⟨rfl, rfl⟩
      exact hSame ⟨rfl, sessionSlot_inj hSlot hSlot'⟩
    rw [op_setOp_of_ne hNe] at hActive' ⊢
    rw [if_neg fun hAll => hSame ⟨hAll.1, hAll.2.1⟩]
    exact h k' hs' i' hSlot' hActive'

theorem accumulates_move (h : P11Run.Accumulates ⟨st, past⟩) (hMove : P11Move st c (out, st')) :
    P11Run.Accumulates ⟨st', ⟨st, c, out⟩ :: past⟩ := by
  cases hMove with
  | none hRefused hSame =>
    exact accumulates_skip h hRefused fun i k => .inl (by rw [hSame.sessions])
  | ended hCall hSessions hSecrets =>
    apply accumulates_skip h fun hExt => (hCall hExt).elim
    intro i k
    rcases hSessions i with hEq | hIdle
    · rw [hEq]
      exact .inl rfl
    · exact .inr (hIdle.op k)
  | started hCall hRv hCheck hSame =>
    subst hCall
    exact accumulates_start h hRv (slot_of_initCheck hCheck) hSame.sessions
  | added hCall hRv hEnter hActive hAcc hSame =>
    subst hCall
    exact accumulates_add h hRv (slot_of_enter hEnter) hActive hAcc hSame.sessions
  | @finished _ _ k i o hRefused hOver hSame =>
    apply accumulates_skip h hRefused
    intro i' k'
    rw [hSame.sessions]
    by_cases hHere : k' = k ∧ i' = i
    · obtain ⟨rfl, rfl⟩ := hHere
      rw [op_setOp_self]
      exact .inr hOver
    · exact .inl (op_setOp_of_ne hHere)
  | keyed hCall hRv hSlot hSecret hKey hSame =>
    subst hCall
    intro k hs i hSlot hActive
    dsimp only at hActive ⊢
    rw [hSame.sessions, op_setCtx] at hActive ⊢
    exact h k hs i hSlot hActive
  | unkeyed hRefused hOver hSame =>
    apply accumulates_skip h hRefused
    intro i k
    rw [hSame.sessions]
    exact .inl op_setCtx
  | made hCall hFree hSessions hSecrets =>
    exact accumulates_skip h (fun hExt => (hCall hExt).elim) fun i k => .inl (by rw [hSessions])

end Step

section Runs

variable {S : Setup} {L : P11Lib} {ok : P11Run n → P11Call × (Nat → Env) → P11Run n → Prop}
  {r : P11Run n}

theorem accumulates_reachable (h : Reachable (p11System S L n) ok r) : r.Accumulates := by
  apply h.invariant
  · rintro ⟨st, past⟩ ⟨-, -, -, -, hSessions, -⟩ k hs i - hActive
    dsimp only at hSessions hActive
    rw [hSessions] at hActive
    rw [P11Session.idle_closed.op k] at hActive
    cases hActive
  · rintro ⟨st, past⟩ a _ hInv rfl -
    exact accumulates_move hInv (p11Step_move S L st a.2 a.1)

/-- The check of a start passes only where nothing is accumulated. -/
def startsClean (r : P11Run n) (a : P11Call × (Nat → Env)) (_ : P11Run n) : Prop :=
  match a.1 with
  | .init k hs m key => (initCheck k r.st hs m key).isOk = true → r.st.accumulated k hs = []
  | _ => True

instance (r : P11Run n) (a : P11Call × (Nat → Env)) (r' : P11Run n) :
    Decidable (startsClean r a r') := by
  unfold startsClean
  split <;> infer_instance

theorem foundAtStart_clean (h : Reachable (p11System S L n) startsClean r) (k : MsgKind)
    (hs : CkHandle) : foundAtStart k hs r.past = [] := by
  refine h.invariant (I := fun r => foundAtStart k hs r.past = []) ?_ ?_
  · rintro ⟨st, past⟩ ⟨-, -, hPast, -⟩
    dsimp only at hPast ⊢
    rw [hPast]
    rfl
  · rintro ⟨st, past⟩ ⟨c, env⟩ _ hInv rfl hClean
    generalize hStep : p11Step S L st env c = res
    have hMove := p11Step_move S L st env c
    rw [P11Run.next, hStep]
    rw [hStep] at hMove
    cases hMove with
    | @started out st' k' hs' m key i hCall hRv hCheck hSame =>
      subst hCall
      dsimp only
      rw [foundAtStart_init]
      split
      · rename_i hAll
        obtain ⟨rfl, rfl, -⟩ := hAll
        exact hClean (by dsimp only; rw [hCheck]; rfl)
      · exact hInv
    | added hCall hRv hEnter hActive hAcc hSame =>
      subst hCall
      exact hInv
    | keyed hCall hRv hSlot hSecret hKey hSame =>
      subst hCall
      exact hInv
    | none hRefused hSame => exact (foundAtStart_skip hRefused).trans hInv
    | ended hCall hSessions hSecrets =>
      exact (foundAtStart_skip fun hExt => (hCall hExt).elim).trans hInv
    | finished hRefused hOver hSame => exact (foundAtStart_skip hRefused).trans hInv
    | unkeyed hRefused hOver hSame => exact (foundAtStart_skip hRefused).trans hInv
    | made hCall hFree hSessions hSecrets =>
      exact (foundAtStart_skip fun hExt => (hCall hExt).elim).trans hInv

end Runs

/-! ### The end of an operation -/

section Ends

variable {S : Setup} {L : P11Lib} {st : P11State n} {hs : CkHandle} {env : Nat → Env} {m : Bytes}

/-- The end of a multi-part signature answers like a one-shot call on what is accumulated. -/
theorem cSignFinal_eq_cSign (sig : OutBuf) :
    (cSignFinal S st hs sig env).1 = (cSign S st hs (st.accumulated .sign hs) sig env).1 ∧
    (cSignFinal S st hs sig env).2.gTok =
      (cSign S st hs (st.accumulated .sign hs) sig env).2.gTok := by
  unfold cSignFinal cSign
  cases hEnter : st.enter hs sig.len.isSome with
  | error rv => exact ⟨rfl, rfl⟩
  | ok i =>
    have hAcc : (st.gSessions i).sign.acc.data = st.accumulated .sign hs :=
      (accumulated_eq (k := .sign) (slot_of_enter hEnter)).symm
    dsimp only
    rw [hAcc]
    split
    · exact ⟨rfl, rfl⟩
    · refine ⟨rfl, ?_⟩
      dsimp only
      generalize (signAttempt S _ _ _ sig).run env st.gTok = r
      obtain ⟨_ | _ | ⟨status, _⟩, _⟩ := r
      · rfl
      · rfl
      · cases status <;> rfl

theorem cVerifyFinal_eq_cVerify (sig : Bytes) :
    (cVerifyFinal S L st hs (some sig) env).1 =
      (cVerify S L st hs (st.accumulated .verify hs) sig env).1 ∧
    (cVerifyFinal S L st hs (some sig) env).2.gTok =
      (cVerify S L st hs (st.accumulated .verify hs) sig env).2.gTok := by
  unfold cVerifyFinal cVerify
  cases hEnter : st.enter hs true with
  | error rv =>
    rw [Option.isSome_some, hEnter]
    exact ⟨rfl, rfl⟩
  | ok i =>
    have hAcc : (st.gSessions i).verify.acc.data = st.accumulated .verify hs :=
      (accumulated_eq (k := .verify) (slot_of_enter hEnter)).symm
    rw [Option.isSome_some, hEnter]
    dsimp only
    rw [hAcc]
    split
    · exact ⟨rfl, rfl⟩
    · exact ⟨rfl, rfl⟩

theorem message_of_signOutcome {data : Bytes} {o : SignOutcome}
    (h : (o.out data).message = some m) : m = data := by
  cases o with
  | refused rv => cases h
  | length rv len => cases h
  | tried status sig =>
    cases status <;>
    · cases h
      rfl

/-- Only an active operation has a message signed, and it is what is accumulated. -/
theorem message_of_cSignFinal {sig : OutBuf} (h : (cSignFinal S st hs sig env).1.message = some m) :
    ∃ i, sessionSlot hs = some i ∧ ((st.gSessions i).op .sign).active = true ∧
      m = ((st.gSessions i).op .sign).acc.data := by
  unfold cSignFinal at h
  split at h
  · cases h
  rename_i i hEnter
  dsimp only at h
  split at h
  · cases h
  rename_i hActive
  exact ⟨i, slot_of_enter hEnter, by simpa [P11Session.op] using hActive, message_of_signOutcome h⟩

theorem message_of_verifyWithPubkey {sess : HsmSession} {key : CkHandle} {data sig : Bytes}
    {d : Device n} (h : ((verifyWithPubkey S L sess key data sig).run env d).1.2 = some m) :
    m = data := by
  unfold verifyWithPubkey at h
  simp only [Prog.bind_eq_bind, Prog.run_bind] at h
  split at h
  · cases h
  split at h
  · cases h
  split at h
  · cases h
  simp only [Prog.run_bind] at h
  split at h
  · cases h
  simp only [Prog.run_bind] at h
  split at h
  · cases h
    rfl
  · cases h

theorem message_of_cVerifyFinal {sig : Option Bytes}
    (h : (cVerifyFinal S L st hs sig env).1.message = some m) :
    ∃ i, sessionSlot hs = some i ∧ ((st.gSessions i).op .verify).active = true ∧
      m = ((st.gSessions i).op .verify).acc.data := by
  unfold cVerifyFinal at h
  split at h
  · cases h
  rename_i i hEnter
  dsimp only at h
  split at h
  · cases h
  rename_i hActive
  exact ⟨i, slot_of_enter hEnter, by simpa [P11Session.op] using hActive, message_of_verifyWithPubkey h⟩

end Ends

/-! ### Main results -/

section Main

variable (S : Setup) (L : P11Lib)

/-- The message of an ending operation is the parts together, and the call answers like a one-shot
call on them, with the same effect on the token. -/
structure CoversParts (parts : List Bytes) (message : Bytes) (fin oneShot : P11Out × P11State n) :
    Prop where
  message_eq : message = parts.flatten
  out_eq : fin.1 = oneShot.1
  token_eq : fin.2.gTok = oneShot.2.gTok

/-- The next `C_SignFinal` of the session covers the updates. -/
def P11Run.SignCovers (r : P11Run n) (hs : CkHandle) (sig : OutBuf) (env : Nat → Env)
    (message : Bytes) : Prop :=
  CoversParts (updatesSince .sign hs r.past) message (cSignFinal S r.st hs sig env)
    (cSign S r.st hs (updatesSince .sign hs r.past).flatten sig env)

/-- The next `C_VerifyFinal` of the session covers the updates. -/
def P11Run.VerifyCovers (r : P11Run n) (hs : CkHandle) (sig : Bytes) (env : Nat → Env)
    (message : Bytes) : Prop :=
  CoversParts (updatesSince .verify hs r.past) message (cVerifyFinal S L r.st hs (some sig) env)
    (cVerify S L r.st hs (updatesSince .verify hs r.past).flatten sig env)

variable {S L} {r : P11Run n} {hs : CkHandle} {env : Nat → Env} {m : Bytes}

theorem append_flatten_eq_iff {found : Bytes} {parts : List Bytes} :
    found ++ parts.flatten = parts.flatten ↔ found = [] := by
  simp

theorem signCovers_iff (h : r.Accumulates) {sig : OutBuf}
    (hSigned : (cSignFinal S r.st hs sig env).1.message = some m) :
    r.SignCovers S hs sig env m ↔ foundAtStart .sign hs r.past = [] := by
  obtain ⟨i, hSlot, hActive, hMessage⟩ := message_of_cSignFinal hSigned
  have hAcc := h .sign hs i hSlot hActive
  constructor
  · rintro ⟨hParts, -, -⟩
    rw [← hMessage, hParts] at hAcc
    exact append_flatten_eq_iff.mp hAcc.symm
  · intro hFound
    rw [hFound, List.nil_append] at hAcc
    obtain ⟨hOut, hTok⟩ := @cSignFinal_eq_cSign _ S r.st hs env sig
    rw [accumulated_eq hSlot, hAcc] at hOut hTok
    exact ⟨hMessage.trans hAcc, hOut, hTok⟩

theorem verifyCovers_iff (h : r.Accumulates) {sig : Bytes}
    (hVerified : (cVerifyFinal S L r.st hs (some sig) env).1.message = some m) :
    r.VerifyCovers S L hs sig env m ↔ foundAtStart .verify hs r.past = [] := by
  obtain ⟨i, hSlot, hActive, hMessage⟩ := message_of_cVerifyFinal hVerified
  have hAcc := h .verify hs i hSlot hActive
  constructor
  · rintro ⟨hParts, -, -⟩
    rw [← hMessage, hParts] at hAcc
    exact append_flatten_eq_iff.mp hAcc.symm
  · intro hFound
    rw [hFound, List.nil_append] at hAcc
    obtain ⟨hOut, hTok⟩ := @cVerifyFinal_eq_cVerify _ S L r.st hs env sig
    rw [accumulated_eq hSlot, hAcc] at hOut hTok
    exact ⟨hMessage.trans hAcc, hOut, hTok⟩

end Main

/-- A multi-part operation covers exactly its updates if and only if its start found nothing
accumulated; so it does in every run in which no start finds anything. -/
theorem multiPart_covers_updates (S : Setup) (L : P11Lib) (n : Nat) :
    (∀ r, Reachable (p11System S L n) anyStep r → ∀ hs env m,
      (∀ sig, (cSignFinal S r.st hs sig env).1.message = some m →
        (r.SignCovers S hs sig env m ↔ foundAtStart .sign hs r.past = [])) ∧
      (∀ sig, (cVerifyFinal S L r.st hs (some sig) env).1.message = some m →
        (r.VerifyCovers S L hs sig env m ↔ foundAtStart .verify hs r.past = []))) ∧
    (∀ r, Reachable (p11System S L n) startsClean r → ∀ hs env m,
      (∀ sig, (cSignFinal S r.st hs sig env).1.message = some m → r.SignCovers S hs sig env m) ∧
      (∀ sig, (cVerifyFinal S L r.st hs (some sig) env).1.message = some m →
        r.VerifyCovers S L hs sig env m)) := by
  constructor
  · intro r hReach hs env m
    have hAcc := accumulates_reachable hReach
    exact ⟨fun _ => signCovers_iff hAcc, fun _ => verifyCovers_iff hAcc⟩
  · intro r hReach hs env m
    have hAcc := accumulates_reachable hReach
    constructor
    · intro sig hSigned
      exact (signCovers_iff hAcc hSigned).mpr (foundAtStart_clean hReach .sign hs)
    · intro sig hVerified
      exact (verifyCovers_iff hAcc hVerified).mpr (foundAtStart_clean hReach .verify hs)

/-- A User with an ML-DSA key makes calls on the first session. -/
def signingRun (calls : List P11Call) : P11Run 1 :=
  replay (P11Run.next .clear .clear) (.loaded .clear 1) (calmly (userCalls ++
    .onToken (.generate firstSession .mlDsa44 KEY_USAGE_SIGN SLOT_POLICY_BACKUPABLE) :: calls))

theorem multiPart_covers_two_parts :
    (signingRun [.init .sign 1 (some CKM_ML_DSA) 1, .update .sign 1 (.mem [1]) true,
      .update .sign 1 (.mem [2]) true]).SignCovers .clear 1 ⟨true, some 2420⟩ (fun _ => .calm 7)
        [1, 2] :=
  ((multiPart_covers_updates .clear .clear 1).2 _
    ((Reachable.init init_loaded).leads (leads_replay (by decide))) 1 _ _).1 _
      (by decide +kernel)

/-- An operation that is started again signs what an abandoned one has left. -/
theorem restarted_signature_covers_more : ∃ r : P11Run 1,
    Reachable (p11System .clear .clear 1) anyStep r ∧
    (cSignFinal .clear r.st 1 ⟨true, some 2420⟩ fun _ => .calm 7).1.rv = .ok ∧
    (cSignFinal .clear r.st 1 ⟨true, some 2420⟩ fun _ => .calm 7).1.message = some [1, 2] ∧
    updatesSince .sign 1 r.past = [[2]] :=
  ⟨signingRun [.init .sign 1 (some CKM_ML_DSA) 1, .update .sign 1 (.mem [1]) true,
      .init .sign 1 (some CKM_ML_DSA) 1, .update .sign 1 (.mem [2]) true],
    reachable_replay (.init init_loaded) _,
    by decide +kernel, by decide +kernel, by decide +kernel⟩

end PqcHsm
