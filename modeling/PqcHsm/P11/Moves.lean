import PqcHsm.P11.Module

/-!
# What one call can do to the tables

Sessions and secret objects change in few ways, whatever the token answers. The invariants of the
runs are read off these.
-/

namespace PqcHsm

open ByteCodec Sections Transition

variable {n : Nat}

/-- Nothing is active in the session. -/
structure P11Session.Idle (s : P11Session) : Prop where
  op : ∀ k, (s.op k).active = false
  ctx : ∀ d, (s.ctx d).active = false

theorem P11Session.idle_closed : P11Session.closed.Idle where
  op k := by cases k <;> rfl
  ctx d := by cases d <;> rfl

theorem P11Session.idle_opened (sess : HsmSession) (slot : Nat) :
    (P11Session.opened sess slot).Idle where
  op k := by cases k <;> rfl
  ctx d := by cases d <;> rfl

/-- The calls that start an operation or add to one. -/
def P11Call.Extends : P11Call → Prop
  | .init .. => True
  | .update .. => True
  | .aeadInit .. => True
  | _ => False

/-- The tables of two states are the same. -/
structure P11State.SameTables (st st' : P11State n) : Prop where
  sessions : st'.gSessions = st.gSessions
  secrets : st'.gSecrets = st.gSecrets

theorem P11State.sameTables_refl (st : P11State n) : st.SameTables st := ⟨rfl, rfl⟩

inductive P11Move (st : P11State n) (c : P11Call) : P11Out × P11State n → Prop where
  /-- The tables stay. -/
  | none {out : P11Out} {st' : P11State n} (hRefused : c.Extends → out.rv ≠ .ok)
      (hSame : st.SameTables st') : P11Move st c (out, st')
  /-- Sessions start, or end with their secret objects, or an object is destroyed. -/
  | ended {out : P11Out} {st' : P11State n} (hCall : ¬c.Extends)
      (hSessions : ∀ i, st'.gSessions i = st.gSessions i ∨ (st'.gSessions i).Idle)
      (hSecrets : ∀ j, st'.gSecrets j = st.gSecrets j ∨ st'.gSecrets j = .none) :
      P11Move st c (out, st')
  /-- An operation on messages starts. -/
  | started {out : P11Out} {st' : P11State n} {k : MsgKind} {hs : CkHandle} {m : Option UInt64}
      {key : CkHandle} {i : Fin MAX_P11_SESSIONS} (hCall : c = .init k hs m key)
      (hRv : out.rv = .ok) (hCheck : initCheck k st hs m key = .ok i)
      (hSame : (st.setOp i k ⟨true, key, ((st.gSessions i).op k).acc⟩).SameTables st') :
      P11Move st c (out, st')
  /-- A part is added to an operation on messages. -/
  | added {out : P11Out} {st' : P11State n} {k : MsgKind} {hs : CkHandle} {part : Span}
      {malloc : Bool} {i : Fin MAX_P11_SESSIONS} {acc : P11Buf}
      (hCall : c = .update k hs part malloc) (hRv : out.rv = .ok)
      (hEnter : st.enter hs true = .ok i) (hActive : ((st.gSessions i).op k).active = true)
      (hAcc : acc.data = ((st.gSessions i).op k).acc.data ++ part.toBytes)
      (hSame : (st.setOp i k ⟨true, ((st.gSessions i).op k).key, acc⟩).SameTables st') :
      P11Move st c (out, st')
  /-- An operation on messages is over. -/
  | finished {out : P11Out} {st' : P11State n} {k : MsgKind} {i : Fin MAX_P11_SESSIONS}
      {o : P11MsgOp} (hRefused : c.Extends → out.rv ≠ .ok) (hOver : o.active = false)
      (hSame : (st.setOp i k o).SameTables st') : P11Move st c (out, st')
  /-- An encryption starts. -/
  | keyed {out : P11Out} {st' : P11State n} {d : AeadDir} {hs : CkHandle}
      {m : Option CkMechanism} {key : CkHandle} {malloc : Bool} {i : Fin MAX_P11_SESSIONS}
      {ctx : P11AeadCtx} (hCall : c = .aeadInit d hs m key malloc) (hRv : out.rv = .ok)
      (hSlot : sessionSlot hs = some i) (hSecret : (st.secretAt key).isSome)
      (hKey : ctx.key = key) (hSame : (st.setCtx i d ctx).SameTables st') :
      P11Move st c (out, st')
  /-- An encryption is over. -/
  | unkeyed {out : P11Out} {st' : P11State n} {d : AeadDir} {i : Fin MAX_P11_SESSIONS}
      {ctx : P11AeadCtx} (hRefused : c.Extends → out.rv ≠ .ok) (hOver : ctx.active = false)
      (hSame : (st.setCtx i d ctx).SameTables st') : P11Move st c (out, st')
  /-- A secret object is made in the first free entry. -/
  | made {out : P11Out} {st' : P11State n} {j : Fin MAX_SECRETS} {s : P11Secret}
      (hCall : ¬c.Extends) (hFree : st.freeSecret = some j)
      (hSessions : st'.gSessions = st.gSessions)
      (hSecrets : st'.gSecrets = Function.update st.gSecrets j (some s)) : P11Move st c (out, st')

theorem update_kept_or_new {ι β : Type} [DecidableEq ι] (f : ι → β) (i : ι) (b : β) (j : ι) :
    Function.update f i b j = f j ∨ Function.update f i b j = b := by
  rw [Function.update_apply]
  split
  · exact .inr rfl
  · exact .inl rfl

theorem update_kept_or_idle {s : P11Session} (h : s.Idle)
    (sessions : Fin MAX_P11_SESSIONS → P11Session) (i j : Fin MAX_P11_SESSIONS) :
    Function.update sessions i s j = sessions j ∨ (Function.update sessions i s j).Idle := by
  rcases update_kept_or_new sessions i s j with hKept | hNew
  · exact .inl hKept
  · rw [hNew]
    exact .inr h

section Checks

variable {st : P11State n} {i : Fin MAX_P11_SESSIONS} {k : MsgKind}

theorem enter_error {h : CkHandle} {b : Bool} {rv : CkRv} (hErr : st.enter h b = .error rv) :
    rv ≠ .ok := by
  unfold P11State.enter at hErr
  split at hErr
  · cases hErr
    decide
  split at hErr
  · cases hErr
    decide
  split at hErr
  · cases hErr
  · cases hErr
    decide

theorem slot_of_enter {h : CkHandle} {b : Bool} (hOk : st.enter h b = .ok i) :
    sessionSlot h = some i := by
  unfold P11State.enter at hOk
  split at hOk
  · cases hOk
  split at hOk
  · cases hOk
  rename_i hAt
  split at hOk
  · cases hOk
    exact (Option.filter_eq_some_iff.mp hAt).1
  · cases hOk

theorem initCheck_error {h key : CkHandle} {m : Option UInt64} {rv : CkRv}
    (hErr : initCheck k st h m key = .error rv) : rv ≠ .ok := by
  unfold initCheck at hErr
  split at hErr
  · rename_i hEnter
    cases hErr
    exact enter_error hEnter
  split at hErr
  · cases hErr
    decide
  split at hErr
  · cases hErr
    decide
  · cases hErr

theorem slot_of_initCheck {h key : CkHandle} {m : Option UInt64}
    (hOk : initCheck k st h m key = .ok i) : sessionSlot h = some i := by
  unfold initCheck at hOk
  split at hOk
  · cases hOk
  rename_i hEnter
  split at hOk
  · cases hOk
  split at hOk
  · cases hOk
  · cases hOk
    exact slot_of_enter hEnter

theorem aeadCheck_error {m : CkMechanism} {h : CkHandle} {c : P11AeadCtx} {rv : CkRv}
    (hErr : aeadCheck st m h c = .error rv) : rv ≠ .ok := by
  unfold aeadCheck at hErr
  repeat' (split at hErr)
  all_goals
    cases hErr
    try decide

theorem secret_of_aeadCheck {m : CkMechanism} {h : CkHandle} {c : P11AeadCtx} {p : GcmParams}
    (hOk : aeadCheck st m h c = .ok p) : (st.secretAt h).isSome := by
  unfold aeadCheck at hOk
  split at hOk
  · cases hOk
  split at hOk
  · cases hOk
  split at hOk
  · cases hOk
  · rename_i hAt
    rw [hAt]
    rfl

end Checks

/-! ### The calls on messages -/

section Messages

variable {st : P11State n} {hs : CkHandle}

theorem opInit_move (k : MsgKind) (m : Option UInt64) (key : CkHandle) :
    P11Move st (.init k hs m key) (opInit k st hs m key) := by
  unfold opInit
  split
  · rename_i hCheck
    exact .none (fun _ => initCheck_error hCheck) st.sameTables_refl
  · rename_i hCheck
    exact .started rfl rfl hCheck ⟨rfl, rfl⟩

theorem opUpdate_move (k : MsgKind) (part : Span) (malloc : Bool) :
    P11Move st (.update k hs part malloc) (opUpdate k st hs part malloc) := by
  unfold opUpdate
  split
  · rename_i hEnter
    exact .none (fun _ => enter_error hEnter) st.sameTables_refl
  rename_i hEnter
  dsimp only
  split
  · exact .none (fun _ => (nomatch ·)) st.sameTables_refl
  rename_i hActive
  split
  · exact .none (fun _ => (nomatch ·)) st.sameTables_refl
  split
  · rename_i hAppend
    exact .added rfl rfl hEnter (by simpa using hActive) (data_of_bufAppend hAppend) ⟨rfl, rfl⟩
  · exact .finished (fun _ => (nomatch ·)) rfl ⟨rfl, rfl⟩

variable {S : Setup} {L : P11Lib} {env : Nat → Env}

theorem cSign_move (data : Bytes) (sig : OutBuf) :
    P11Move st (.sign hs data sig) (cSign S st hs data sig env) := by
  unfold cSign
  split
  · exact .none (fun h => h.elim) st.sameTables_refl
  dsimp only
  split
  · exact .none (fun h => h.elim) st.sameTables_refl
  split
  · exact .finished (fun h => h.elim) rfl ⟨rfl, rfl⟩
  · exact .none (fun h => h.elim) ⟨rfl, rfl⟩

theorem cSignFinal_move (sig : OutBuf) :
    P11Move st (.signFinal hs sig) (cSignFinal S st hs sig env) := by
  unfold cSignFinal
  split
  · exact .none (fun h => h.elim) st.sameTables_refl
  dsimp only
  split
  · exact .none (fun h => h.elim) st.sameTables_refl
  split
  · exact .finished (fun h => h.elim) rfl ⟨rfl, rfl⟩
  · exact .none (fun h => h.elim) ⟨rfl, rfl⟩

theorem cVerify_move (data sig : Bytes) :
    P11Move st (.verify hs data sig) (cVerify S L st hs data sig env) := by
  unfold cVerify
  split
  · exact .none (fun h => h.elim) st.sameTables_refl
  dsimp only
  split
  · exact .none (fun h => h.elim) st.sameTables_refl
  · exact .finished (fun h => h.elim) rfl ⟨rfl, rfl⟩

theorem cVerifyFinal_move (sig : Option Bytes) :
    P11Move st (.verifyFinal hs sig) (cVerifyFinal S L st hs sig env) := by
  unfold cVerifyFinal
  split
  · exact .none (fun h => h.elim) st.sameTables_refl
  dsimp only
  split
  · exact .none (fun h => h.elim) st.sameTables_refl
  · exact .finished (fun h => h.elim) rfl ⟨rfl, rfl⟩

end Messages

/-! ### The calls on secret objects -/

section Secrets

variable {st : P11State n} {hs : CkHandle} {c : P11Call}

/-- What `finishSecret` does after the token has changed. -/
theorem finishSecret_move {d : Device n} {q : SecretRequest} (hCall : ¬c.Extends) :
    P11Move st c (finishSecret { st with gTok := d } q) := by
  unfold finishSecret P11State.keepSecret
  split
  · exact .none (fun h => (hCall h).elim) ⟨rfl, rfl⟩
  split
  · exact .none (fun h => (hCall h).elim) ⟨rfl, rfl⟩
  · rename_i hKeep
    obtain ⟨j, hFree, hEq⟩ := Option.map_eq_some_iff.mp hKeep
    cases hEq
    exact .made hCall hFree rfl rfl

theorem P11Move.setTok {out : P11Out} {st' : P11State n} (d : Device n)
    (h : P11Move st c (out, st')) : P11Move st c (out, { st' with gTok := d }) := by
  cases h with
  | none hRefused hSame => exact .none hRefused ⟨hSame.sessions, hSame.secrets⟩
  | ended hCall hSessions hSecrets => exact .ended hCall hSessions hSecrets
  | started hCall hRv hCheck hSame => exact .started hCall hRv hCheck ⟨hSame.sessions, hSame.secrets⟩
  | added hCall hRv hEnter hActive hAcc hSame =>
    exact .added hCall hRv hEnter hActive hAcc ⟨hSame.sessions, hSame.secrets⟩
  | finished hRefused hOver hSame => exact .finished hRefused hOver ⟨hSame.sessions, hSame.secrets⟩
  | keyed hCall hRv hSlot hSecret hKey hSame =>
    exact .keyed hCall hRv hSlot hSecret hKey ⟨hSame.sessions, hSame.secrets⟩
  | unkeyed hRefused hOver hSame => exact .unkeyed hRefused hOver ⟨hSame.sessions, hSame.secrets⟩
  | made hCall hFree hSessions hSecrets => exact .made hCall hFree hSessions hSecrets

variable {S : Setup} {L : P11Lib} {env : Nat → Env}

theorem cCreateObject_move (t : Option (List CkAttribute)) (phObject : Bool) :
    P11Move st (.createObject hs t phObject) (cCreateObject S st hs t phObject env) := by
  unfold cCreateObject
  split
  · exact .none (fun h => h.elim) st.sameTables_refl
  dsimp only
  split
  · exact finishSecret_move (d := st.gTok) id
  split
  · exact .none (fun h => h.elim) st.sameTables_refl
  split
  · exact .none (fun h => h.elim) st.sameTables_refl
  · exact .none (fun h => h.elim) ⟨rfl, rfl⟩

theorem cEncapsulateKey_move (m : Option UInt64) (key : CkHandle) (t : List CkAttribute)
    (out : OutBuf) (phKey : Bool) : P11Move st (.encapsulateKey hs m key t out phKey)
      (cEncapsulateKey S L st hs m key t out phKey env) := by
  unfold cEncapsulateKey
  split
  · exact .none (fun h => h.elim) st.sameTables_refl
  split
  · exact .none (fun h => h.elim) st.sameTables_refl
  · exact finishSecret_move id

theorem cDecapsulateKey_move (m : Option UInt64) (key : CkHandle) (t : List CkAttribute)
    (ct : Option Bytes) (phKey : Bool) : P11Move st (.decapsulateKey hs m key t ct phKey)
      (cDecapsulateKey S st hs m key t ct phKey env) := by
  unfold cDecapsulateKey
  split
  · exact .none (fun h => h.elim) st.sameTables_refl
  split
  · exact .none (fun h => h.elim) st.sameTables_refl
  dsimp only
  split
  · exact (finishSecret_move id).setTok _
  · exact finishSecret_move id

theorem cDestroyObject_move (key : CkHandle) :
    P11Move st (.destroyObject hs key) (cDestroyObject S st hs key env) := by
  unfold cDestroyObject
  split
  · exact .none (fun h => h.elim) st.sameTables_refl
  split
  · split
    · exact .none (fun h => h.elim) st.sameTables_refl
    split
    · exact .none (fun h => h.elim) st.sameTables_refl
    · exact .ended id (fun _ => .inl rfl) (update_kept_or_new _ _ _)
  · exact .none (fun h => h.elim) ⟨rfl, rfl⟩

theorem aeadInit_move (d : AeadDir) (m : Option CkMechanism) (key : CkHandle) (malloc : Bool) :
    P11Move st (.aeadInit d hs m key malloc) (aeadInit d st hs m key malloc) := by
  unfold aeadInit
  split
  · rename_i hEnter
    exact .none (fun _ => enter_error hEnter) st.sameTables_refl
  · exact .none (fun _ => (nomatch ·)) st.sameTables_refl
  rename_i hEnter
  split
  · rename_i hCheck
    exact .none (fun _ => aeadCheck_error hCheck) st.sameTables_refl
  rename_i hCheck
  split
  · exact @P11Move.unkeyed _ _ _ _ _ _ _ ⟨false, _, _, _, _⟩ (fun _ => (nomatch ·)) rfl ⟨rfl, rfl⟩
  · exact .keyed rfl rfl (slot_of_enter hEnter) (secret_of_aeadCheck hCheck) rfl ⟨rfl, rfl⟩

theorem cEncrypt_move (data : Bytes) (out : OutBuf) (lib : Bool) :
    P11Move st (.encrypt hs data out lib) (cEncrypt L st hs data out lib) := by
  unfold cEncrypt
  dsimp only
  repeat' split
  all_goals first
    | exact .none (fun h => h.elim) st.sameTables_refl
    | exact .unkeyed (fun h => h.elim) rfl ⟨rfl, rfl⟩

theorem cDecrypt_move (data : Bytes) (out : OutBuf) (lib : Bool) :
    P11Move st (.decrypt hs data out lib) (cDecrypt L st hs data out lib) := by
  unfold cDecrypt
  dsimp only
  repeat' split
  all_goals first
    | exact .none (fun h => h.elim) st.sameTables_refl
    | exact .unkeyed (fun h => h.elim) rfl ⟨rfl, rfl⟩

end Secrets

/-! ### The calls on sessions -/

section Sessions

variable {st : P11State n} {c : P11Call} {S : Setup} {env : Nat → Env}

/-- Sessions and secret objects only come to an end. -/
structure P11State.Ends (st st' : P11State n) : Prop where
  sessions : ∀ i, st'.gSessions i = st.gSessions i ∨ (st'.gSessions i).Idle
  secrets : ∀ j, st'.gSecrets j = st.gSecrets j ∨ st'.gSecrets j = none

theorem P11State.ends_refl (st : P11State n) : st.Ends st := ⟨fun _ => .inl rfl, fun _ => .inl rfl⟩

theorem secretsDropOwner_kept_or_gone (owner : CkHandle)
    (secrets : Fin MAX_SECRETS → Option P11Secret) (j : Fin MAX_SECRETS) :
    secretsDropOwner owner secrets j = secrets j ∨ secretsDropOwner owner secrets j = none := by
  unfold secretsDropOwner
  cases h : secrets j with
  | none => exact .inl rfl
  | some k =>
    rw [Option.filter_some]
    split
    · exact .inl rfl
    · exact .inr rfl

theorem closeEntry_ends (i : Fin MAX_P11_SESSIONS) : st.Ends (st.closeEntry i env).1 where
  sessions := update_kept_or_idle P11Session.idle_closed st.gSessions i
  secrets := secretsDropOwner_kept_or_gone _ _

theorem P11State.Ends.trans {st' st'' : P11State n} (h : st.Ends st') (h' : st'.Ends st'') :
    st.Ends st'' where
  sessions i := by
    rcases h'.sessions i with hEq | hIdle
    · rw [hEq]
      exact h.sessions i
    · exact .inr hIdle
  secrets j := by
    rcases h'.secrets j with hEq | hNone
    · rw [hEq]
      exact h.secrets j
    · exact .inr hNone

theorem cInitialize_move (audit : Bool) :
    P11Move st (.moduleInit audit) (cInitialize S st audit env) := by
  unfold cInitialize
  split
  · exact .none (fun h => h.elim) st.sameTables_refl
  dsimp only
  split
  · exact .ended id (fun _ => .inr P11Session.idle_closed) (fun _ => .inl rfl)
  · exact .none (fun h => h.elim) ⟨rfl, rfl⟩

theorem cFinalize_move (pReserved : Bool) :
    P11Move st (.moduleFinal pReserved) (cFinalize S st pReserved env) := by
  unfold cFinalize
  split
  · exact .none (fun h => h.elim) st.sameTables_refl
  split
  · exact .none (fun h => h.elim) st.sameTables_refl
  · exact .ended id (fun _ => .inr P11Session.idle_closed) (secretsDropOwner_kept_or_gone _ _)

theorem cOpenSession_move (slotID : Nat) (serial phSession : Bool) :
    P11Move st (.openSession slotID serial phSession)
      (cOpenSession st slotID serial phSession env) := by
  unfold cOpenSession
  repeat' split
  all_goals try exact .none (fun h => h.elim) st.sameTables_refl
  dsimp only
  split
  · exact .ended id (update_kept_or_idle (P11Session.idle_opened _ _) _ _) (fun _ => .inl rfl)
  · exact .none (fun h => h.elim) ⟨rfl, rfl⟩

theorem cCloseSession_move (hs : CkHandle) :
    P11Move st (.closeSession hs) (cCloseSession st hs env) := by
  unfold cCloseSession
  split
  · exact .none (fun h => h.elim) st.sameTables_refl
  · exact .ended id (closeEntry_ends _).sessions (closeEntry_ends _).secrets

/-- The loop of `C_CloseAllSessions`. -/
theorem closeEntries_ends (slotID : Nat) (is : List (Fin MAX_P11_SESSIONS))
    (acc : P11State n × (Nat → Env)) : acc.1.Ends (is.foldl (fun acc i =>
      if (acc.1.gSessions i).inUse ∧ (acc.1.gSessions i).slot = slotID then
        acc.1.closeEntry i acc.2
      else acc) acc).1 := by
  induction is generalizing acc with
  | nil => exact acc.1.ends_refl
  | cons i is ih =>
    rw [List.foldl_cons]
    split
    · exact (closeEntry_ends i).trans (ih _)
    · exact ih _

theorem cCloseAllSessions_move (slotID : Nat) :
    P11Move st (.closeAllSessions slotID) (cCloseAllSessions st slotID env) := by
  have h := closeEntries_ends slotID (List.finRange MAX_P11_SESSIONS) (st, env)
  exact .ended id h.sessions h.secrets

end Sessions

theorem p11Step_move (S : Setup) (L : P11Lib) (st : P11State n) (env : Nat → Env) (c : P11Call) :
    P11Move st c (p11Step S L st env c) := by
  cases c with
  | moduleInit audit => exact cInitialize_move audit
  | moduleFinal pReserved => exact cFinalize_move pReserved
  | openSession slotID serial phSession => exact cOpenSession_move slotID serial phSession
  | closeSession hs => exact cCloseSession_move hs
  | closeAllSessions slotID => exact cCloseAllSessions_move slotID
  | onToken c => exact .none (fun h => h.elim) ⟨rfl, rfl⟩
  | init k hs m key => cases k <;> exact opInit_move _ m key
  | update k hs part malloc => cases k <;> exact opUpdate_move _ part malloc
  | sign hs data sig => exact cSign_move data sig
  | signFinal hs sig => exact cSignFinal_move sig
  | verify hs data sig => exact cVerify_move data sig
  | verifyFinal hs sig => exact cVerifyFinal_move sig
  | createObject hs t phObject => exact cCreateObject_move t phObject
  | encapsulateKey hs m key t out phKey => exact cEncapsulateKey_move m key t out phKey
  | decapsulateKey hs m key t ct phKey => exact cDecapsulateKey_move m key t ct phKey
  | destroyObject hs key => exact cDestroyObject_move key
  | aeadInit d hs m key malloc => cases d <;> exact aeadInit_move _ m key malloc
  | encrypt hs data out lib => exact cEncrypt_move data out lib
  | decrypt hs data out lib => exact cDecrypt_move data out lib

end PqcHsm
