import PqcHsm.P11.Moves

/-!
# The key an encryption uses

An encryption keeps a handle, and a handle is an entry of a table. So it uses the key named at its
start as long as no entry that has held an object is taken again.
-/

namespace PqcHsm

open ByteCodec Sections Transition

variable {n : Nat}

/-- The key bytes which the handle of the latest successful start denoted then. -/
def namedAtInit (d : AeadDir) (hs : CkHandle) : List (P11Entry n) → Option Bytes
  | [] => none
  | e :: past =>
    match e.call with
    | .aeadInit d' h _ key _ =>
      if d' = d ∧ h = hs ∧ e.out.rv = .ok then (e.before.secretAt key).map P11Secret.val
      else namedAtInit d hs past
    | _ => namedAtInit d hs past

/-- The entry of the table of secrets holds an object now, or has held one. -/
def P11Run.Held (r : P11Run n) (j : Fin MAX_SECRETS) : Prop :=
  (r.st.gSecrets j).isSome ∨ ∃ e ∈ r.past, (e.before.gSecrets j).isSome

instance (r : P11Run n) (j : Fin MAX_SECRETS) : Decidable (r.Held j) :=
  inferInstanceAs (Decidable (_ ∨ _))

/-- The first free entry, when a step fills it, has never held an object. -/
def takesNewEntry (r : P11Run n) (_ : P11Call × (Nat → Env)) (r' : P11Run n) : Prop :=
  ∀ j, r.st.freeSecret = some j → (r'.st.gSecrets j).isSome → ¬r.Held j

instance (r : P11Run n) (a : P11Call × (Nat → Env)) (r' : P11Run n) :
    Decidable (takesNewEntry r a r') :=
  inferInstanceAs (Decidable (∀ _, _ → _ → _))

section State

variable {st : P11State n} {i i' : Fin MAX_P11_SESSIONS} {k : MsgKind} {o : P11MsgOp}
  {d d' : AeadDir} {c : P11AeadCtx}

@[simp] theorem ctx_setCtx_self : ((st.setCtx i d c).gSessions i).ctx d = c := by
  cases d <;> simp [P11State.setCtx, P11State.setSession, P11Session.ctx]

theorem ctx_setCtx_of_ne (h : ¬(d' = d ∧ i' = i)) :
    ((st.setCtx i d c).gSessions i').ctx d' = (st.gSessions i').ctx d' := by
  by_cases hij : i' = i
  · subst hij
    cases d <;> cases d' <;>
      simp_all [P11State.setCtx, P11State.setSession, P11Session.ctx]
  · simp [P11State.setCtx, P11State.setSession, Function.update_of_ne hij]

@[simp] theorem ctx_setOp : ((st.setOp i k o).gSessions i').ctx d = (st.gSessions i').ctx d := by
  by_cases hij : i' = i
  · subst hij
    cases d <;> cases k <;>
      simp [P11State.setOp, P11State.setSession, P11Session.setOp, P11Session.ctx]
  · simp [P11State.setOp, P11State.setSession, Function.update_of_ne hij]

theorem free_of_freeSecret {j : Fin MAX_SECRETS} (h : st.freeSecret = some j) :
    st.gSecrets j = none := by
  have hNone := List.find?_some h
  exact Option.isNone_iff_eq_none.mp hNone

theorem secretSlot_secretHandle (j : Fin MAX_SECRETS) : secretSlot (secretHandle j) = some j := by
  revert j
  decide

theorem secretAt_eq {h : CkHandle} {j : Fin MAX_SECRETS} (hSlot : secretSlot h = some j) :
    st.secretAt h = st.gSecrets j := by
  rw [P11State.secretAt, hSlot, Option.bind_some]

end State

/-! ### What a conditioned step does to the table of secrets -/

section Secrets

variable {S : Setup} {L : P11Lib} {r r' : P11Run n} {a : P11Call × (Nat → Env)}
  {j : Fin MAX_SECRETS} {s : P11Secret}

theorem P11Run.Held.next (h : r.Held j) : (r.next S L a).Held j := by
  rcases h with hNow | ⟨e, hMem, hHeld⟩
  · exact .inr ⟨_, List.mem_cons_self, hNow⟩
  · exact .inr ⟨e, List.mem_cons_of_mem _ hMem, hHeld⟩

/-- An entry stays, is emptied, or is the first free one and is filled. -/
theorem secrets_move {st : P11State n} {c : P11Call} {res : P11Out × P11State n}
    (h : P11Move st c res) (j : Fin MAX_SECRETS) :
    res.2.gSecrets j = st.gSecrets j ∨ res.2.gSecrets j = none ∨
      st.freeSecret = some j ∧ (res.2.gSecrets j).isSome := by
  cases h with
  | none hRefused hSame => exact .inl (congrFun hSame.secrets j)
  | ended hCall hSessions hSecrets => exact (hSecrets j).imp_right .inl
  | started hCall hRv hCheck hSame => exact .inl (congrFun hSame.secrets j)
  | added hCall hRv hEnter hActive hAcc hSame => exact .inl (congrFun hSame.secrets j)
  | finished hRefused hOver hSame => exact .inl (congrFun hSame.secrets j)
  | @keyed _ _ d _ _ _ _ i ctx hCall hRv hSlot hSecret hKey hSame =>
    exact .inl ((congrFun hSame.secrets j).trans (by cases d <;> rfl))
  | @unkeyed _ _ d i ctx hRefused hOver hSame =>
    exact .inl ((congrFun hSame.secrets j).trans (by cases d <;> rfl))
  | @made _ _ j' s hCall hFree hSessions hSecrets =>
    dsimp only
    rw [hSecrets]
    by_cases hj : j = j'
    · subst hj
      rw [Function.update_self]
      exact .inr (.inr ⟨hFree, rfl⟩)
    · exact .inl (Function.update_of_ne hj ..)

/-- The object of an entry stays in it until the entry is empty, for good. -/
theorem held_entry_step (hHeld : r.Held j) (hOk : takesNewEntry r a (r.next S L a)) :
    (r.next S L a).st.gSecrets j = r.st.gSecrets j ∨ (r.next S L a).st.gSecrets j = none := by
  rcases secrets_move (p11Step_move S L r.st a.2 a.1) j with hSame | hNone | ⟨hFree, hFilled⟩
  · exact .inl hSame
  · exact .inr hNone
  · exact (hOk j hFree hFilled hHeld).elim

/-- What is left of an entry once an object was in it. -/
def P11Run.Keeps (r : P11Run n) (j : Fin MAX_SECRETS) (s : P11Secret) : Prop :=
  r.Held j ∧ (r.st.gSecrets j = some s ∨ r.st.gSecrets j = none)

def P11Run.Gone (r : P11Run n) (j : Fin MAX_SECRETS) : Prop :=
  r.Held j ∧ r.st.gSecrets j = none

theorem keeps_step (h : r.Keeps j s) (hStep : (p11System S L n).step r a r')
    (hOk : takesNewEntry r a r') : r'.Keeps j s := by
  obtain rfl : r' = r.next S L a := hStep
  refine ⟨h.1.next, ?_⟩
  rcases held_entry_step h.1 hOk with hSame | hNone
  · rw [hSame]
    exact h.2
  · exact .inr hNone

theorem gone_step (h : r.Gone j) (hStep : (p11System S L n).step r a r')
    (hOk : takesNewEntry r a r') : r'.Gone j := by
  obtain rfl : r' = r.next S L a := hStep
  refine ⟨h.1.next, ?_⟩
  rcases held_entry_step h.1 hOk with hSame | hNone
  · rw [hSame]
    exact h.2
  · exact hNone

theorem keeps_leads (h : Leads (p11System S L n) takesNewEntry r r')
    (hNow : r.st.gSecrets j = some s) : r'.Keeps j s :=
  h.preserves (fun _ _ _ => keeps_step) ⟨.inl (by rw [hNow]; rfl), .inl hNow⟩

theorem gone_leads (h : Leads (p11System S L n) takesNewEntry r r') (hGone : r.Gone j) :
    r'.Gone j :=
  h.preserves (fun _ _ _ => gone_step) hGone

/-- A step takes a new entry, or none, exactly when what is destroyed stays so under every
handle. -/
theorem takesNewEntry_iff : takesNewEntry r a (r.next S L a) ↔
    ∀ handle j, secretSlot handle = some j → r.Gone j →
      (r.next S L a).st.secretAt handle = none := by
  constructor
  · intro hOk handle j hSlot hGone
    rw [secretAt_eq hSlot]
    exact (gone_step (S := S) (L := L) hGone rfl hOk).2
  · intro hStays j hFree hFilled hHeld
    have hNone := hStays _ j (secretSlot_secretHandle j) ⟨hHeld, free_of_freeSecret hFree⟩
    rw [secretAt_eq (secretSlot_secretHandle j)] at hNone
    rw [hNone] at hFilled
    cases hFilled

end Secrets

/-! ### The key of an active encryption -/

section History

variable {d d' : AeadDir} {hs h key : CkHandle} {e : P11Entry n} {past : List (P11Entry n)}
  {st : P11State n} {out : P11Out} {m : Option CkMechanism} {malloc : Bool}

theorem namedAtInit_skip (h : e.call.Extends → e.out.rv ≠ .ok) :
    namedAtInit d hs (e :: past) = namedAtInit d hs past := by
  obtain ⟨before, c, out⟩ := e
  cases c with
  | aeadInit d' hs' m key malloc => exact if_neg fun hSame => h trivial hSame.2.2
  | _ => rfl

theorem namedAtInit_init : namedAtInit d hs (⟨st, .aeadInit d' h m key malloc, out⟩ :: past) =
    if d' = d ∧ h = hs ∧ out.rv = .ok then (st.secretAt key).map P11Secret.val
    else namedAtInit d hs past := rfl

end History

/-- The key of an active encryption was in an entry that holds it still, or holds nothing. -/
def P11Run.KeysNamed (r : P11Run n) : Prop :=
  ∀ d hs i, sessionSlot hs = some i → ((r.st.gSessions i).ctx d).active = true →
    ∃ j s, secretSlot ((r.st.gSessions i).ctx d).key = some j ∧ r.Keeps j s ∧
      namedAtInit d hs r.past = some s.val

section Step

variable {S : Setup} {L : P11Lib} {st : P11State n} {past : List (P11Entry n)} {env : Nat → Env}
  {c : P11Call}

/-- The invariant after a step that changes no active encryption. -/
theorem keysNamed_skip {st' : P11State n} {out : P11Out} (h : P11Run.KeysNamed ⟨st, past⟩)
    (hKeeps : ∀ j s, P11Run.Keeps ⟨st, past⟩ j s → P11Run.Keeps ⟨st', ⟨st, c, out⟩ :: past⟩ j s)
    (hPast : ∀ d hs, namedAtInit d hs (⟨st, c, out⟩ :: past) = namedAtInit d hs past)
    (hCtx : ∀ i d, (st'.gSessions i).ctx d = (st.gSessions i).ctx d ∨
      ((st'.gSessions i).ctx d).active = false) :
    P11Run.KeysNamed ⟨st', ⟨st, c, out⟩ :: past⟩ := by
  intro d hs i hSlot hActive
  dsimp only at hActive ⊢
  rcases hCtx i d with hEq | hOver
  · rw [hEq] at hActive ⊢
    obtain ⟨j, s, hKey, hKeep, hNamed⟩ := h d hs i hSlot hActive
    exact ⟨j, s, hKey, hKeeps j s hKeep, (hPast d hs).trans hNamed⟩
  · rw [hOver] at hActive
    cases hActive

theorem keysNamed_move {st' : P11State n} {out : P11Out} (h : P11Run.KeysNamed ⟨st, past⟩)
    (hKeeps : ∀ j s, P11Run.Keeps ⟨st, past⟩ j s → P11Run.Keeps ⟨st', ⟨st, c, out⟩ :: past⟩ j s)
    (hMove : P11Move st c (out, st')) : P11Run.KeysNamed ⟨st', ⟨st, c, out⟩ :: past⟩ := by
  cases hMove with
  | none hRefused hSame =>
    apply keysNamed_skip h hKeeps (fun _ _ => namedAtInit_skip hRefused)
    intro i d
    rw [hSame.sessions]
    exact .inl rfl
  | ended hCall hSessions hSecrets =>
    apply keysNamed_skip h hKeeps fun _ _ => namedAtInit_skip fun hExt => (hCall hExt).elim
    intro i d
    rcases hSessions i with hEq | hIdle
    · rw [hEq]
      exact .inl rfl
    · exact .inr (hIdle.ctx d)
  | started hCall hRv hCheck hSame =>
    subst hCall
    apply keysNamed_skip h hKeeps fun _ _ => rfl
    intro i d
    rw [hSame.sessions]
    exact .inl ctx_setOp
  | added hCall hRv hEnter hActive hAcc hSame =>
    subst hCall
    apply keysNamed_skip h hKeeps fun _ _ => rfl
    intro i d
    rw [hSame.sessions]
    exact .inl ctx_setOp
  | finished hRefused hOver hSame =>
    apply keysNamed_skip h hKeeps fun _ _ => namedAtInit_skip hRefused
    intro i d
    rw [hSame.sessions]
    exact .inl ctx_setOp
  | @unkeyed _ _ d i ctx hRefused hOver hSame =>
    apply keysNamed_skip h hKeeps fun _ _ => namedAtInit_skip hRefused
    intro i' d'
    rw [hSame.sessions]
    by_cases hHere : d' = d ∧ i' = i
    · obtain ⟨rfl, rfl⟩ := hHere
      rw [ctx_setCtx_self]
      exact .inr hOver
    · exact .inl (ctx_setCtx_of_ne hHere)
  | made hCall hFree hSessions hSecrets =>
    apply keysNamed_skip h hKeeps fun _ _ => namedAtInit_skip fun hExt => (hCall hExt).elim
    intro i d
    rw [hSessions]
    exact .inl rfl
  | @keyed _ _ d hs m key malloc i ctx hCall hRv hSlot hSecret hKey hSame =>
    subst hCall
    intro d' hs' i' hSlot' hActive
    dsimp only at hActive ⊢
    rw [hSame.sessions] at hActive ⊢
    rw [namedAtInit_init]
    by_cases hHere : d = d' ∧ hs = hs'
    · obtain ⟨rfl, rfl⟩ := hHere
      obtain rfl : i = i' := Option.some.inj (hSlot.symm.trans hSlot')
      obtain ⟨s, hAt⟩ := Option.isSome_iff_exists.mp hSecret
      obtain ⟨j, hEntry, hNow⟩ := Option.bind_eq_some_iff.mp hAt
      rw [ctx_setCtx_self, hKey, if_pos ⟨rfl, rfl, hRv⟩, hAt]
      exact ⟨j, s, hEntry, hKeeps j s ⟨.inl (by rw [hNow]; rfl), .inl hNow⟩, rfl⟩
    · have hNe : ¬(d' = d ∧ i' = i) := by
        rintro ⟨rfl, rfl⟩
        exact hHere ⟨rfl, sessionSlot_inj hSlot hSlot'⟩
      rw [ctx_setCtx_of_ne hNe] at hActive ⊢
      rw [if_neg fun hAll => hHere ⟨hAll.1, hAll.2.1⟩]
      obtain ⟨j, s, hEntry, hKeep, hNamed⟩ := h d' hs' i' hSlot' hActive
      exact ⟨j, s, hEntry, hKeeps j s hKeep, hNamed⟩

theorem keysNamed_reachable {r : P11Run n}
    (h : Reachable (p11System S L n) takesNewEntry r) : r.KeysNamed := by
  apply h.invariant
  · rintro ⟨st, past⟩ ⟨-, -, -, -, hSessions, -⟩ d hs i - hActive
    dsimp only at hSessions hActive
    rw [hSessions, P11Session.idle_closed.ctx d] at hActive
    cases hActive
  · rintro ⟨st, past⟩ a _ hInv rfl hOk
    exact keysNamed_move hInv (fun j s hKeep => keeps_step (S := S) (L := L) hKeep rfl hOk)
      (p11Step_move S L st a.2 a.1)

end Step

/-! ### Main results -/

section Main

variable {S : Setup} {L : P11Lib} {st : P11State n} {hs : CkHandle} {data key : Bytes}
  {out : OutBuf} {lib : Bool}

theorem keyUsed_of_cEncrypt (h : (cEncrypt L st hs data out lib).1.keyUsed = some key) :
    ∃ i s, sessionSlot hs = some i ∧ ((st.gSessions i).ctx .encrypt).active = true ∧
      st.secretAt ((st.gSessions i).ctx .encrypt).key = some s ∧ key = s.val := by
  unfold cEncrypt at h
  split at h
  · cases h
  rename_i i hEnter
  dsimp only at h
  split at h
  · cases h
  rename_i hActive
  split at h
  · cases h
  split at h
  · cases h
  split at h
  · cases h
  rename_i s hAt
  refine ⟨i, s, slot_of_enter hEnter, by simpa [P11Session.ctx] using hActive, hAt, ?_⟩
  split at h <;>
  · cases h
    rfl

theorem keyUsed_of_cDecrypt (h : (cDecrypt L st hs data out lib).1.keyUsed = some key) :
    ∃ i s, sessionSlot hs = some i ∧ ((st.gSessions i).ctx .decrypt).active = true ∧
      st.secretAt ((st.gSessions i).ctx .decrypt).key = some s ∧ key = s.val := by
  unfold cDecrypt at h
  split at h
  · cases h
  rename_i i hEnter
  dsimp only at h
  split at h
  · cases h
  rename_i hActive
  split at h
  · cases h
  split at h
  · cases h
  split at h
  · cases h
  split at h
  · cases h
  rename_i s hAt
  refine ⟨i, s, slot_of_enter hEnter, by simpa [P11Session.ctx] using hActive, hAt, ?_⟩
  split at h <;>
  · cases h
    rfl

theorem named_of_used {r : P11Run n} {d : AeadDir} {i : Fin MAX_P11_SESSIONS} {s : P11Secret}
    (h : r.KeysNamed) (hSlot : sessionSlot hs = some i)
    (hActive : ((r.st.gSessions i).ctx d).active = true)
    (hAt : r.st.secretAt ((r.st.gSessions i).ctx d).key = some s) :
    namedAtInit d hs r.past = some s.val := by
  obtain ⟨j, s', hEntry, ⟨-, hKeep⟩, hNamed⟩ := h d hs i hSlot hActive
  rw [secretAt_eq hEntry] at hAt
  rcases hKeep with hSame | hNone
  · obtain rfl : s = s' := Option.some.inj (hAt.symm.trans hSame)
    exact hNamed
  · rw [hNone] at hAt
    cases hAt

end Main

/-- In every run in which no entry that has held a secret object is taken again, encryptions and
decryptions use the key named at their start, and a handle denotes its one object until it is
destroyed and nothing from then on. -/
theorem encryption_uses_named_key (S : Setup) (L : P11Lib) (n : Nat) (r : P11Run n)
    (h : Reachable (p11System S L n) takesNewEntry r) :
    (∀ hs data out lib key, (cEncrypt L r.st hs data out lib).1.keyUsed = some key →
      namedAtInit .encrypt hs r.past = some key) ∧
    (∀ hs data out lib key, (cDecrypt L r.st hs data out lib).1.keyUsed = some key →
      namedAtInit .decrypt hs r.past = some key) ∧
    (∀ r' handle s, Leads (p11System S L n) takesNewEntry r r' →
      r.st.secretAt handle = some s → r'.st.secretAt handle = some s ∨
        r'.st.secretAt handle = none ∧
          ∀ r'', Leads (p11System S L n) takesNewEntry r' r'' →
            r''.st.secretAt handle = none) := by
  have hNamed := keysNamed_reachable h
  refine ⟨?_, ?_, ?_⟩
  · intro hs data out lib key hUsed
    obtain ⟨i, s, hSlot, hActive, hAt, rfl⟩ := keyUsed_of_cEncrypt hUsed
    exact named_of_used hNamed hSlot hActive hAt
  · intro hs data out lib key hUsed
    obtain ⟨i, s, hSlot, hActive, hAt, rfl⟩ := keyUsed_of_cDecrypt hUsed
    exact named_of_used hNamed hSlot hActive hAt
  · intro r' handle s hLeads hAt
    obtain ⟨j, hEntry, hNow⟩ := Option.bind_eq_some_iff.mp hAt
    obtain ⟨hHeld, hSame | hNone⟩ := keeps_leads hLeads hNow
    · rw [secretAt_eq hEntry]
      exact .inl hSame
    · right
      rw [secretAt_eq hEntry]
      refine ⟨hNone, ?_⟩
      intro r'' hLater
      rw [secretAt_eq hEntry]
      exact (gone_leads hLater ⟨hHeld, hNone⟩).2

/-- The template of an AES key of 16 equal bytes. -/
def secretTemplate (b : UInt8) : List CkAttribute :=
  [⟨CKA_CLASS, some (putU64 CKO_SECRET_KEY)⟩, ⟨CKA_VALUE, some (List.replicate 16 b)⟩]

/-- AES-GCM with a 12-byte vector and a full tag. -/
def gcmMechanism : CkMechanism :=
  ⟨CKM_AES_GCM, some ⟨.mem (List.replicate 12 0), .null 0, 128⟩⟩

/-- A session makes a secret object, starts an encryption with it and makes further calls. -/
def encryptingRun (calls : List P11Call) : P11Run 1 :=
  replay (P11Run.next .clear .clear) (.loaded .clear 1) (calmly (
    .moduleInit true :: .openSession 0 true true ::
    .createObject 1 (some (secretTemplate 1)) true ::
    .aeadInit .encrypt 1 (some gcmMechanism) 0x40000001 true :: calls))

theorem encryption_uses_first_key :
    namedAtInit .encrypt 1 (encryptingRun []).past = some (List.replicate 16 1) :=
  (encryption_uses_named_key .clear .clear 1 (encryptingRun [])
    ((Reachable.init init_loaded).leads (leads_replay (by decide)))).1 1 [5]
      ⟨true, some 17⟩ true _ (by decide)

/-- An entry taken again gives a pending encryption, and a destroyed handle, another key. -/
theorem destroyed_handle_denotes_again : ∃ r r' : P11Run 1,
    Reachable (p11System .clear .clear 1) anyStep r ∧ Leads (p11System .clear .clear 1) anyStep r r' ∧
    (∃ e ∈ r.past, (e.before.secretAt 0x40000001).isSome) ∧ r.st.secretAt 0x40000001 = none ∧
    (r'.st.secretAt 0x40000001).map P11Secret.val = some (List.replicate 16 2) ∧
    (cEncrypt .clear r'.st 1 [5] ⟨true, some 17⟩ true).1.rv = .ok ∧
    (cEncrypt .clear r'.st 1 [5] ⟨true, some 17⟩ true).1.keyUsed = some (List.replicate 16 2) ∧
    namedAtInit .encrypt 1 r'.past = some (List.replicate 16 1) :=
  ⟨encryptingRun [.destroyObject 1 0x40000001],
    encryptingRun [.destroyObject 1 0x40000001, .createObject 1 (some (secretTemplate 2)) true],
    reachable_replay (.init init_loaded) _, .single ⟨_, rfl, trivial⟩, by decide,
    by decide, by decide, by decide, by decide, by decide⟩

end PqcHsm
