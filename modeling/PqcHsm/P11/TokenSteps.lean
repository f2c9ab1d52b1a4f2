import PqcHsm.P11.Moves
import PqcHsm.Store.Written

/-!
# What one call can do to the token

The front end changes the token through the operations of the slot manager only. So a token in use
keeps the numbers that its slots were made with.
-/

namespace PqcHsm

open ByteCodec Sections Transition

variable {n : Nat} {S : Setup} {all : Bool} {β : Type}

section Device

variable {d : Device n}

theorem DeviceStep.slotIds {e : Env} {r : Device n × List Event} (h : DeviceStep S all e d r)
    (i : Fin n) : (r.1.tok.slots i).metadata.slotId = (d.tok.slots i).metadata.slotId := by
  cases h with
  | slot j r hStep =>
    by_cases hij : i = j
    · subst hij
      simpa using hStep.slotId
    · simp [Function.update_of_ne hij]
  | token r hStep => cases hStep <;> rfl
  | store r hStep => rw [hStep.slots]
  | hwDrop => rfl

theorem numbered_run {p : DevProg n β} (hp : DevProg.Steps S all p) (env : Nat → Env)
    (h : d.Numbered) : (p.run env d).2.1.Numbered := by
  intro i
  rw [← h i]
  exact Prog.Within.run_keeps (f := fun d => (d.tok.slots i).metadata.slotId)
    (fun _ _ _ hStep => hStep.slotIds i) hp env d

end Device

section Programs

variable {sess : HsmSession}

/-- The steps of a program that has nothing to commit, with or without records to install. -/
theorem steps_of_quiet {p : DevProg n β} (loads : Bool) (h : DevProg.Quiet S all loads p) :
    DevProg.Steps S all p :=
  Prog.Within.mono h fun _ _ _ => QuietStep.deviceStep

theorem steps_ask (read : Env → β) : DevProg.Steps S all (Prog.ask read : DevProg n β) :=
  steps_of_quiet true (quiet_ask read)

theorem steps_persist : DevProg.Steps S all (persist S : DevProg n Unit) :=
  Prog.within_bind (stores_hsmKeystoreSave.steps S) fun _ => trivial

theorem steps_hsmSlotGetMeta (id : Nat) : DevProg.Steps S all (hsmSlotGetMeta S id : DevProg n _) :=
  steps_of_quiet true (quiet_hsmSlotGetMeta id)

theorem steps_hsmObjectPublicKey (h : HsmHandle) (cap : Option Nat) :
    DevProg.Steps S all (hsmObjectPublicKey S sess h cap : DevProg n _) :=
  steps_of_quiet true (quiet_hsmObjectPublicKey sess h cap)

theorem stores_noHook : DevProg.Stores S (noHook : DevProg n Bool) := trivial

theorem steps_coreHandleOf (h : CkHandle) : DevProg.Steps S all (coreHandleOf S h : DevProg n _) := by
  unfold coreHandleOf
  split
  · trivial
  dsimp only
  split
  · trivial
  refine Prog.within_bind (steps_hsmSlotGetMeta _) fun r => ?_
  rcases r with st | m
  · trivial
  · dsimp only
    split <;> trivial

theorem steps_signAttempt (key : CkHandle) (data : Bytes) (sig : OutBuf) :
    DevProg.Steps S all (signAttempt S sess key data sig : DevProg n _) := by
  refine Prog.within_bind (steps_hsmSlotGetMeta _) fun r => ?_
  rcases r with st | m
  · trivial
  dsimp only
  cases pqcAlgInfo m.alg with
  | none => trivial
  | some info =>
    dsimp only
    split
    · trivial
    split
    · trivial
    split
    · trivial
    refine Prog.within_bind (steps_coreHandleOf key) fun h => ?_
    refine Prog.within_bind (steps_of_quiet true (quiet_hsmObjectSign sess h data [] _)) fun r => ?_
    split
    · exact Prog.within_bind steps_persist fun _ => trivial
    · trivial

theorem steps_verifyWithPubkey (L : P11Lib) (key : CkHandle) (data sig : Bytes) :
    DevProg.Steps S all (verifyWithPubkey S L sess key data sig : DevProg n _) := by
  refine Prog.within_bind (steps_hsmSlotGetMeta _) fun r => ?_
  rcases r with st | m
  · trivial
  dsimp only
  cases pqcAlgInfo m.alg with
  | none => trivial
  | some info =>
    dsimp only
    split
    · trivial
    refine Prog.within_bind (steps_ask _) fun alloc => ?_
    split
    · trivial
    refine Prog.within_bind (steps_coreHandleOf key) fun h => ?_
    refine Prog.within_bind (steps_hsmObjectPublicKey h _) fun r => ?_
    split <;> trivial

theorem steps_loadSeedObject (q : SeedImport) :
    DevProg.Steps S all (loadSeedObject S sess q : DevProg n _) := by
  have hCommits : Commits S noHook all true false
      (hsmSlotLoadSeed noHook S sess q.alg q.usage q.policy q.seed : DevProg n _) :=
    commits_hsmSlotLoadSeed sess _ _ _ _
  refine Prog.within_bind (hCommits.steps stores_noHook) fun r => ?_
  split
  · exact Prog.within_bind steps_persist fun _ => trivial
  · trivial

theorem steps_encapsRequest (L : P11Lib) (owner h : CkHandle) (t : List CkAttribute) (out : OutBuf)
    (phKey : Bool) :
    DevProg.Steps S all (encapsRequest S L sess owner h t out phKey : DevProg n _) := by
  unfold encapsRequest
  split
  · trivial
  refine Prog.within_bind (steps_hsmSlotGetMeta _) fun r => ?_
  rcases r with st | m
  · trivial
  dsimp only
  cases pqcAlgInfo m.alg with
  | none => trivial
  | some info =>
    dsimp only
    split
    · trivial
    split
    · trivial
    split
    · trivial
    split
    · trivial
    split
    · trivial
    refine Prog.within_bind (steps_ask _) fun alloc => ?_
    split
    · trivial
    refine Prog.within_bind (steps_coreHandleOf h) fun core => ?_
    refine Prog.within_bind (steps_hsmObjectPublicKey core _) fun r => ?_
    split
    · refine Prog.within_bind (steps_ask _) fun r => ?_
      split <;> trivial
    · trivial

theorem steps_decapsRequest (owner h : CkHandle) (t : List CkAttribute) (ct : Bytes) :
    DevProg.Steps S all (decapsRequest S sess owner h t ct : DevProg n _) := by
  unfold decapsRequest
  split
  · trivial
  refine Prog.within_bind (steps_hsmSlotGetMeta _) fun r => ?_
  rcases r with st | m
  · trivial
  dsimp only
  cases pqcAlgInfo m.alg with
  | none => trivial
  | some info =>
    dsimp only
    split
    · trivial
    split
    · trivial
    refine Prog.within_bind (steps_coreHandleOf h) fun core => ?_
    refine Prog.within_bind (steps_of_quiet true (quiet_hsmObjectDecaps sess core ct _)) fun r => ?_
    split <;> trivial

theorem steps_destroyObject (h : CkHandle) :
    DevProg.Steps S all (destroyObject S sess h : DevProg n _) := by
  refine Prog.within_bind (steps_coreHandleOf h) fun core => ?_
  split
  · trivial
  have hCommits : Commits S noHook all true false
      (hsmObjectDestroy noHook S sess core : DevProg n _) := commits_hsmObjectDestroy sess core
  refine Prog.within_bind (hCommits.steps stores_noHook) fun st => ?_
  dsimp only
  split
  · exact Prog.within_bind steps_persist fun _ => trivial
  · trivial

end Programs

/-! ### The token in use -/

/-- The slots of a token in use carry their numbers. -/
def P11State.Numbered (st : P11State n) : Prop := st.gInit = true → st.gTok.Numbered

section Calls

variable {L : P11Lib} {st : P11State n} {env : Nat → Env} {hs : CkHandle}

theorem P11State.Numbered.run {p : DevProg n β} (h : st.Numbered) (hp : DevProg.Steps S true p) :
    P11State.Numbered { st with gTok := (p.run env st.gTok).2.1 } :=
  fun hInit => numbered_run hp env (h hInit)

theorem numbered_opInit (h : st.Numbered) (k : MsgKind) (m : Option UInt64) (key : CkHandle) :
    (opInit k st hs m key).2.Numbered := by
  unfold opInit
  split
  · exact h
  · exact h

theorem numbered_opUpdate (h : st.Numbered) (k : MsgKind) (part : Span) (malloc : Bool) :
    (opUpdate k st hs part malloc).2.Numbered := by
  unfold opUpdate
  split
  · exact h
  dsimp only
  split
  · exact h
  split
  · exact h
  split
  · exact h
  · exact h

theorem numbered_cSign (h : st.Numbered) (data : Bytes) (sig : OutBuf) :
    (cSign S st hs data sig env).2.Numbered := by
  unfold cSign
  split
  · exact h
  dsimp only
  split
  · exact h
  split
  · exact h.run (steps_signAttempt _ _ _)
  · exact h.run (steps_signAttempt _ _ _)

theorem numbered_cSignFinal (h : st.Numbered) (sig : OutBuf) :
    (cSignFinal S st hs sig env).2.Numbered := by
  unfold cSignFinal
  split
  · exact h
  dsimp only
  split
  · exact h
  split
  · exact h.run (steps_signAttempt _ _ _)
  · exact h.run (steps_signAttempt _ _ _)

theorem numbered_cVerify (h : st.Numbered) (data sig : Bytes) :
    (cVerify S L st hs data sig env).2.Numbered := by
  unfold cVerify
  split
  · exact h
  dsimp only
  split
  · exact h
  · exact h.run (steps_verifyWithPubkey L _ _ _)

theorem numbered_cVerifyFinal (h : st.Numbered) (sig : Option Bytes) :
    (cVerifyFinal S L st hs sig env).2.Numbered := by
  unfold cVerifyFinal
  split
  · exact h
  dsimp only
  split
  · exact h
  · exact h.run (steps_verifyWithPubkey L _ _ _)

theorem numbered_finishSecret (h : st.Numbered) (req : SecretRequest) :
    (finishSecret st req).2.Numbered := by
  unfold finishSecret
  split
  · exact h
  unfold P11State.keepSecret
  cases st.freeSecret with
  | none => exact h
  | some j => exact h

theorem numbered_cCreateObject (h : st.Numbered) (t : Option (List CkAttribute))
    (phObject : Bool) : (cCreateObject S st hs t phObject env).2.Numbered := by
  unfold cCreateObject
  split
  · exact h
  dsimp only
  split
  · exact numbered_finishSecret h _
  split
  · exact h
  split
  · exact h
  · exact h.run (steps_loadSeedObject _)

theorem numbered_cEncapsulateKey (h : st.Numbered) (m : Option UInt64) (key : CkHandle)
    (t : List CkAttribute) (out : OutBuf) (phKey : Bool) :
    (cEncapsulateKey S L st hs m key t out phKey env).2.Numbered := by
  unfold cEncapsulateKey
  split
  · exact h
  split
  · exact h
  · exact numbered_finishSecret (h.run (steps_encapsRequest L _ _ t out phKey)) _

theorem numbered_cDecapsulateKey (h : st.Numbered) (m : Option UInt64) (key : CkHandle)
    (t : List CkAttribute) (ct : Option Bytes) (phKey : Bool) :
    (cDecapsulateKey S st hs m key t ct phKey env).2.Numbered := by
  unfold cDecapsulateKey
  split
  · exact h
  split
  · exact h
  dsimp only
  split
  · exact (numbered_finishSecret (h.run (steps_decapsRequest hs key t _)) _).run steps_persist
  · exact numbered_finishSecret (h.run (steps_decapsRequest hs key t _)) _

theorem numbered_cDestroyObject (h : st.Numbered) (key : CkHandle) :
    (cDestroyObject S st hs key env).2.Numbered := by
  unfold cDestroyObject
  split
  · exact h
  split
  · split
    · exact h
    split
    · exact h
    · exact h
  · exact h.run (steps_destroyObject key)

theorem numbered_setCtx (h : st.Numbered) (i : Fin MAX_P11_SESSIONS) (d : AeadDir)
    (c : P11AeadCtx) : (st.setCtx i d c).Numbered := by
  cases d <;> exact h

theorem numbered_aeadInit (h : st.Numbered) (d : AeadDir) (m : Option CkMechanism) (key : CkHandle)
    (malloc : Bool) : (aeadInit d st hs m key malloc).2.Numbered := by
  unfold aeadInit
  split
  · exact h
  · exact h
  split
  · exact h
  split
  · exact numbered_setCtx h _ _ _
  · exact numbered_setCtx h _ _ _

theorem numbered_cEncrypt (h : st.Numbered) (data : Bytes) (out : OutBuf) (lib : Bool) :
    (cEncrypt L st hs data out lib).2.Numbered := by
  unfold cEncrypt
  split
  · exact h
  dsimp only
  repeat' split
  all_goals exact h

theorem numbered_cDecrypt (h : st.Numbered) (data : Bytes) (out : OutBuf) (lib : Bool) :
    (cDecrypt L st hs data out lib).2.Numbered := by
  unfold cDecrypt
  split
  · exact h
  dsimp only
  repeat' split
  all_goals exact h

/-! ### Sessions -/

theorem numbered_openToken (d : Device n) : ((openToken S).run env d).2.1.Numbered := by
  have hLoad : DevProg.Steps S true (do
      let st ← hsmKeystoreLoad S
      let absent ← fileSection fun _ fs => (fs.file.isNone, fs, [])
      pure (st = .ok || absent) : DevProg n Bool) := by
    refine Prog.within_bind (steps_of_quiet true quiet_hsmKeystoreLoad) fun st => ?_
    exact Prog.within_bind (steps_of_quiet true quiet_fileSection) fun _ => trivial
  rw [openToken, Prog.bind_eq_bind, Prog.run_bind]
  exact numbered_run hLoad _ fun i => rfl

theorem numbered_cInitialize (h : st.Numbered) (audit : Bool) :
    (cInitialize S st audit env).2.Numbered := by
  unfold cInitialize
  split
  · exact h
  dsimp only
  split
  · exact fun _ => numbered_openToken st.gTok
  · exact fun _ => numbered_openToken st.gTok

theorem numbered_cFinalize (h : st.Numbered) (pReserved : Bool) :
    (cFinalize S st pReserved env).2.Numbered := by
  unfold cFinalize
  split
  · exact h
  split
  · exact h
  · intro hInit
    cases hInit

theorem numbered_cOpenSession (h : st.Numbered) (slotID : Nat) (serial phSession : Bool) :
    (cOpenSession st slotID serial phSession env).2.Numbered := by
  have hOpen : DevProg.Steps .clear true (hsmSessionOpen slotID : DevProg n _) :=
    steps_of_quiet true (quiet_hsmSessionOpen slotID)
  unfold cOpenSession
  split
  · exact h
  split
  · exact h
  split
  · exact h
  split
  · exact h
  dsimp only
  split
  · exact h.run hOpen
  · exact h.run hOpen

theorem numbered_closeEntry (h : st.Numbered) (i : Fin MAX_P11_SESSIONS) :
    (st.closeEntry i env).1.Numbered :=
  h.run (steps_of_quiet true (quiet_hsmSessionClose (S := .clear) _))

theorem numbered_cCloseSession (h : st.Numbered) : (cCloseSession st hs env).2.Numbered := by
  unfold cCloseSession
  split
  · exact h
  · exact numbered_closeEntry h _

theorem numbered_closeEntries (slotID : Nat) (is : List (Fin MAX_P11_SESSIONS))
    (acc : P11State n × (Nat → Env)) (h : acc.1.Numbered) : (is.foldl (fun acc i =>
      if (acc.1.gSessions i).inUse ∧ (acc.1.gSessions i).slot = slotID then
        acc.1.closeEntry i acc.2
      else acc) acc).1.Numbered := by
  induction is generalizing acc with
  | nil => exact h
  | cons i is ih =>
    rw [List.foldl_cons]
    split
    · exact ih _ (numbered_closeEntry h i)
    · exact ih _ h

theorem numbered_cCloseAllSessions (h : st.Numbered) (slotID : Nat) :
    (cCloseAllSessions st slotID env).2.Numbered := by
  have hAll := numbered_closeEntries slotID (List.finRange MAX_P11_SESSIONS) (st, env) h
  unfold cCloseAllSessions
  dsimp only
  exact hAll

theorem numbered_p11Step (h : st.Numbered) (c : P11Call) : (p11Step S L st env c).2.Numbered := by
  cases c with
  | moduleInit audit => exact numbered_cInitialize h audit
  | moduleFinal pReserved => exact numbered_cFinalize h pReserved
  | openSession slotID serial phSession => exact numbered_cOpenSession h slotID serial phSession
  | closeSession hs => exact numbered_cCloseSession h
  | closeAllSessions slotID => exact numbered_cCloseAllSessions h slotID
  | onToken c => exact h.run c.prog_steps
  | init k hs m key => cases k <;> exact numbered_opInit h _ m key
  | update k hs part malloc => cases k <;> exact numbered_opUpdate h _ part malloc
  | sign hs data sig => exact numbered_cSign h data sig
  | signFinal hs sig => exact numbered_cSignFinal h sig
  | verify hs data sig => exact numbered_cVerify h data sig
  | verifyFinal hs sig => exact numbered_cVerifyFinal h sig
  | createObject hs t phObject => exact numbered_cCreateObject h t phObject
  | encapsulateKey hs m key t out phKey => exact numbered_cEncapsulateKey h m key t out phKey
  | decapsulateKey hs m key t ct phKey => exact numbered_cDecapsulateKey h m key t ct phKey
  | destroyObject hs key => exact numbered_cDestroyObject h key
  | aeadInit d hs m key malloc => cases d <;> exact numbered_aeadInit h _ m key malloc
  | encrypt hs data out lib => exact numbered_cEncrypt h data out lib
  | decrypt hs data out lib => exact numbered_cDecrypt h data out lib

end Calls

/-- In every run the slots of a token in use carry their numbers. -/
theorem numbered_reachable {L : P11Lib} {ok : P11Run n → P11Call × (Nat → Env) → P11Run n → Prop}
    {r : P11Run n} (h : Reachable (p11System S L n) ok r) : r.st.Numbered := by
  refine Reachable.invariant (I := fun r => r.st.Numbered) ?_ ?_ h
  · rintro r ⟨-, -, -, hInit, -, -⟩ hInit'
    rw [hInit] at hInit'
    cases hInit'
  · rintro r a _ hr rfl -
    exact numbered_p11Step hr a.1

end PqcHsm
