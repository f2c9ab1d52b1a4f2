import PqcHsm.Daemon.FailClosed
import PqcHsm.Library.Transition

/-!
# The handles of a connection

The daemon serves one connection after the other. What a connection has been given is read off the
answers to its requests: the handles with the parameter sets and the wrapped seeds. The tables hold
exactly that, unless a KeyGen of ML-KEM ends with a whole public key after a failed access.
-/

namespace PqcHsm

open ByteCodec Stateful Transition

/-- The parameter set and the seed of each key that is in use. -/
abbrev LiveKeys := SeedTgt → Nat → Option (UInt32 × Bytes)

def liveOf (keys : SeedTgt → Nat → KeyEntry) : LiveKeys := fun tgt h =>
  if h < tgt.capacity ∧ (keys tgt h).used = true then some ((keys tgt h).pset, (keys tgt h).blob)
  else none

def Fpgad.live (d : Fpgad) : LiveKeys := liveOf d.keys

/-- A handle that an answer has given out. -/
structure Issued where
  core : SeedTgt
  handle : Nat
  pset : UInt32
  blob : Bytes
  deriving DecidableEq

def newBlob (tgt : SeedTgt) (tee : List (TeeCmd × Option Bytes)) : Option Bytes :=
  tee.findSome? fun x => if x.1 = .seedNew tgt then x.2 else none

/-- What the answer to a request gives out. The handle is its first word; the key is the one that
the trusted application has made for the request, or the imported one. -/
def granted (q : PqcsReq) (r : OpReply) (tee : List (TeeCmd × Option Bytes)) : Option Issued :=
  if r.status ≠ SDR_OK then none
  else if q.op = OP_MLKEM_KEYGEN then
    (newBlob .mlkem tee).map (⟨.mlkem, ofLe (r.out.take 4), q.a0, ·⟩)
  else if q.op = OP_MLDSA_KEYGEN then
    (newBlob .mldsa tee).map (⟨.mldsa, ofLe (r.out.take 4), q.a0, ·⟩)
  else if q.op = OP_PQC_BLOB_IMPORT then
    some ⟨if q.a0 = 0 then .mlkem else .mldsa, ofLe (r.out.take 4), q.a1, q.payload.val⟩
  else none

/-! ### Connections -/

/-- The daemon between two requests; `conn` is what the open connection has been given. -/
structure Serving where
  daemon : Fpgad
  conn : Option (List Issued)

inductive ConnAct where
  | connect
  | request (q : PqcsReq) (e : FpgadEnv)
  | disconnect (e : FpgadEnv)

def Fpgad.served (d : Fpgad) (q : PqcsReq) (e : FpgadEnv) : OpReply × Fpgad :=
  (serveReq q).run e d.fresh

/-- A connection may end at any point; an answer that could not be written ends it as well. -/
def Serving.next (s : Serving) : ConnAct → Serving
  | .connect => match s.conn with
    | none => { s with conn := some [] }
    | some _ => s
  | .request q e => match s.conn with
    | none => s
    | some issued =>
      let r := s.daemon.served q e
      ⟨r.2, some (issued ++ (granted q r.1 r.2.tee).toList)⟩
  | .disconnect e => match s.conn with
    | none => s
    | some _ => ⟨(sessionEnd.run e s.daemon.fresh).2, none⟩

def Serving.Boots (s : Serving) : Prop :=
  s.conn = none ∧ s.daemon.keys = fun _ _ => .free

def servingSystem : System Serving ConnAct := System.ofFun Serving.Boots Serving.next

/-- The daemon behind the guard of the serve loop. -/
def guarded (e : FpgadEnv) (d : Fpgad) : Fpgad :=
  let guard : FpgadM Unit := do
    onBus clearFault
    let _ ← onBus guardWiping
    onBus clearFault
  (guard.run e d.fresh).2

/-- The bus when a KeyGen of ML-KEM runs its command. -/
def keygenBus (e : FpgadEnv) (d : Fpgad) : Bus :=
  ((seedNewClean .mlkem).run e (guarded e d)).2.bus

/-- The command of a KeyGen of ML-KEM returns a whole public key although an access has failed. -/
def KeyDespiteFault (q : PqcsReq) (e : FpgadEnv) (d : Fpgad) : Prop :=
  let r := (mlkemKeygenRun q.a0).run e.bus (keygenBus e d)
  q.op = OP_MLKEM_KEYGEN ∧ r.1.toOption.any (·.length = (mlkemLen q.a0).ek) ∧ r.2.fault = true

instance (q : PqcsReq) (e : FpgadEnv) (d : Fpgad) : Decidable (KeyDespiteFault q e d) := by
  unfold KeyDespiteFault
  infer_instance

/-- No KeyGen of ML-KEM ends with a whole public key after a failed access. -/
def KeysSound (s : Serving) (a : ConnAct) (_ : Serving) : Prop :=
  match a with
  | .request q e => ¬KeyDespiteFault q e s.daemon
  | _ => True

instance (s : Serving) (a : ConnAct) (s' : Serving) : Decidable (KeysSound s a s') := by
  unfold KeysSound
  split <;> infer_instance

/-! ### Tables -/

section Tables

variable {keys : SeedTgt → Nat → KeyEntry} {tgt : SeedTgt} {h : Nat} {k : KeyEntry} {d : Fpgad}

theorem below_of_freeHandle (hFree : d.freeHandle tgt = some h) : h < tgt.capacity :=
  List.mem_range.mp (List.mem_of_find?_eq_some hFree)

theorem unused_of_freeHandle (hFree : d.freeHandle tgt = some h) : (d.keys tgt h).used = false := by
  have hFound := List.find?_some hFree
  simpa using hFound

theorem live_of_usedEntry {u : UInt32} (hUsed : d.usedEntry tgt u = some k) :
    d.live tgt u.toNat = some (k.pset, k.blob) := by
  rw [Fpgad.usedEntry] at hUsed
  split at hUsed
  · cases hUsed
  · rename_i hIn
    cases hUsed
    rw [not_or, Nat.not_le, Bool.not_eq_false] at hIn
    exact if_pos hIn

theorem live_none (hFree : (keys tgt h).used = false) : liveOf keys tgt h = none := by
  simp [liveOf, hFree]

/-- Changing an entry that is not in use and stays so does not show. -/
theorem liveOf_setUnused (hOld : (keys tgt h).used = false) (hNew : k.used = false) :
    liveOf (Function.update keys tgt (Function.update (keys tgt) h k)) = liveOf keys := by
  funext tgt' j
  by_cases hTgt : tgt' = tgt
  · subst tgt'
    by_cases hEq : j = h
    · subst j
      simp [liveOf, hOld, hNew]
    · simp [liveOf, hEq]
  · simp [liveOf, hTgt]

/-- A handle that was not in use denotes the key now; the others denote what they did. -/
structure Extends (live live' : LiveKeys) (i : Issued) : Prop where
  fresh : live i.core i.handle = none
  below : i.handle < i.core.capacity
  now : ∀ tgt h, live' tgt h =
    if tgt = i.core ∧ h = i.handle then some (i.pset, i.blob) else live tgt h

theorem extends_setUsed (hFree : (keys tgt h).used = false) (hBelow : h < tgt.capacity)
    (hUsed : k.used = true) :
    Extends (liveOf keys) (liveOf (Function.update keys tgt (Function.update (keys tgt) h k)))
      ⟨tgt, h, k.pset, k.blob⟩ where
  fresh := live_none hFree
  below := hBelow
  now tgt' j := by
    by_cases hTgt : tgt' = tgt
    · subst tgt'
      by_cases hEq : j = h
      · subst j
        simp [liveOf, hBelow, hUsed]
      · simp [liveOf, hEq]
    · simp [liveOf, hTgt]

end Tables

/-! ### What a request does to the tables -/

section Requests

variable {keys : SeedTgt → Nat → KeyEntry} {t : List (TeeCmd × Option Bytes)}

theorem Handler.keeps_keys {α : Type} {S : α → Prop} {p : FpgadM α} {w : Bool}
    (h : Handler w S p) (hw : w = false) : Keeps (fun d => d.keys = keys) p := by
  induction h with
  | pure _ => exact keeps_pure _
  | get => exact keeps_get
  | env => exact keeps_read
  | onBus _ => exact fun _ _ h => h
  | tee _ => exact fun _ _ h => h
  | setKey _ _ _ => cases hw
  | bind _ _ ihp ihf => exact keeps_bind (ihp hw) fun a => ihf a hw

/-- The tables and the commands that have been given are these. -/
def Fpgad.At (keys : SeedTgt → Nat → KeyEntry) (t : List (TeeCmd × Option Bytes)) (d : Fpgad) :
    Prop :=
  d.keys = keys ∧ d.tee = t

theorem keeps_at_onBus {α : Type} (p : BusM α) : Keeps (Fpgad.At keys t) (onBus p) :=
  fun _ _ h => h

theorem spec_teeInvoke (cmd : TeeCmd) : Spec (Fpgad.At keys t) (teeInvoke cmd) fun r =>
    Fpgad.At keys (t ++ [(cmd, r)]) := by
  rintro e d ⟨hKeys, hLog⟩
  exact ⟨hKeys, by rw [← hLog]; rfl⟩

theorem spec_seedNewClean (tgt : SeedTgt) : Spec (Fpgad.At keys t) (seedNewClean tgt) fun r d =>
    d.keys = keys ∧ ∀ blob, r = some blob → d.tee = t ++ [(.seedNew tgt, some blob)] := by
  refine spec_bind (keeps_at_onBus _) fun cleared => spec_ite (fun _ => ?_) fun _ => ?_
  · exact spec_pure fun _ h => ⟨h.1, fun _ h => nomatch h⟩
  · refine spec_bind (spec_teeInvoke _) fun blob => ?_
    cases blob with
    | some blob =>
      apply spec_pure
      rintro d ⟨hKeys, hLog⟩
      exact ⟨hKeys, by rintro _ ⟨⟩; exact hLog⟩
    | none =>
      refine spec_bind (keeps_at_onBus _) fun _ => spec_pure ?_
      exact fun d h => ⟨h.1, fun _ h => nomatch h⟩

theorem spec_seedReplayClean (tgt : SeedTgt) (blob : Bytes) :
    Spec (Fpgad.At keys t) (seedReplayClean tgt blob) fun r d =>
      Fpgad.At keys t d ∧ r = false ∨
        ∃ ans, Fpgad.At keys (t ++ [(.seedReplay tgt blob, ans)]) d := by
  refine spec_bind (keeps_at_onBus _) fun cleared => spec_ite (fun _ => ?_) fun _ => ?_
  · exact spec_pure fun _ h => .inl ⟨h, rfl⟩
  · refine spec_bind (spec_teeInvoke _) fun done => ?_
    cases done with
    | some _ => exact spec_pure fun _ h => .inr ⟨_, h⟩
    | none => exact spec_bind (keeps_at_onBus _) fun _ => spec_pure fun _ h => .inr ⟨_, h⟩

/-- A KeyGen or an import fails and the live keys stay, or it gives out the handle of the key. -/
def Makes (tgt : SeedTgt) (pset : UInt32) (made : Fpgad → Option Bytes) (live : LiveKeys)
    (r : OpReply) (d : Fpgad) : Prop :=
  d.live = live ∧ r.status ≠ SDR_OK ∨
    ∃ h blob rest, r = ⟨SDR_OK, toLe 4 h ++ rest⟩ ∧ made d = some blob ∧
      Extends live d.live ⟨tgt, h, pset, blob⟩

theorem hardfail_ne : SDR_HARDFAIL ≠ SDR_OK := by decide

theorem inargerr_ne : SDR_INARGERR ≠ SDR_OK := by decide

theorem unknowerr_ne : SDR_UNKNOWERR ≠ SDR_OK := by decide

theorem newBlob_singleton (tgt : SeedTgt) (blob : Bytes) :
    newBlob tgt [(.seedNew tgt, some blob)] = some blob := by
  simp [newBlob]

theorem spec_fails {P : Fpgad → Prop} {tgt : SeedTgt} {pset status : UInt32}
    {made : Fpgad → Option Bytes} {live : LiveKeys} (hNe : status ≠ SDR_OK)
    (hLive : ∀ d, P d → d.live = live) :
    Spec P (pure (.bare status) : FpgadM OpReply) (Makes tgt pset made live) :=
  spec_pure fun d h => .inl ⟨hLive d h, hNe⟩

theorem live_of_at {d : Fpgad} (h : d.At keys t) : d.live = liveOf keys := by
  rw [Fpgad.live, h.1]

theorem spec_getAt : Spec (Fpgad.At keys t) (Stateful.get : FpgadM Fpgad) fun a d =>
    a.keys = keys ∧ Fpgad.At keys t d :=
  fun _ _ h => ⟨h.1, h⟩

theorem spec_opKeygen (tgt : SeedTgt) (pset : UInt32) (run : BusM (Except Int Bytes))
    (pkLen : Nat) : Spec (Fpgad.At keys []) (opKeygen tgt pset run pkLen)
      (Makes tgt pset (fun d => newBlob tgt d.tee) (liveOf keys)) := by
  refine spec_ite (fun _ => spec_fails inargerr_ne fun _ => live_of_at) fun _ => ?_
  refine spec_bind spec_getAt fun a => ?_
  cases hFree : a.freeHandle tgt with
  | none => exact spec_fails unknowerr_ne fun _ h => live_of_at h.2
  | some h =>
    rintro e d ⟨rfl, hAt⟩
    have hUnused := unused_of_freeHandle hFree
    let staged (blob : Bytes) : SeedTgt → Nat → KeyEntry :=
      Function.update a.keys tgt (Function.update (a.keys tgt) h { a.keys tgt h with blob := blob })
    have hSame (blob : Bytes) : liveOf (staged blob) = liveOf a.keys :=
      liveOf_setUnused hUnused hUnused
    refine (spec_bind (spec_seedNewClean tgt) fun blob => ?_ : Spec _ _ _) e d hAt
    cases blob with
    | none => exact spec_fails hardfail_ne fun d h => by rw [Fpgad.live, h.1]
    | some blob =>
      have hStage : Spec
          (fun d : Fpgad => d.keys = a.keys ∧
            ∀ b, some blob = some b → d.tee = [] ++ [(.seedNew tgt, some b)])
          (Stateful.modify fun d => d.setKey tgt h { d.keys tgt h with blob := blob } : FpgadM Unit)
          fun _ => Fpgad.At (staged blob) [(.seedNew tgt, some blob)] := by
        rintro e d ⟨hKeys, hTee⟩
        refine ⟨?_, hTee blob rfl⟩
        show Function.update d.keys tgt _ = _
        rw [hKeys]
      refine spec_bind hStage fun _ => spec_bind (keeps_at_onBus _) fun r => ?_
      cases r with
      | error _ => exact spec_fails hardfail_ne fun d h => (live_of_at h).trans (hSame blob)
      | ok pk =>
        apply spec_ite
        · exact fun _ => spec_fails hardfail_ne fun d h => (live_of_at h).trans (hSame blob)
        · rintro - e d ⟨hKeys, hTee⟩
          refine .inr ⟨h, blob, pk, rfl, ?_, ?_⟩
          · show newBlob tgt d.tee = some blob
            rw [hTee, newBlob_singleton]
          · show Extends _ (liveOf (Function.update d.keys tgt _)) _
            rw [hKeys]
            have hEntry : staged blob tgt h = { a.keys tgt h with blob := blob } := by
              simp [staged]
            rw [hEntry, ← hSame blob]
            exact extends_setUsed (by rw [hEntry]; exact hUnused) (below_of_freeHandle hFree) rfl

/-- The core of an import. -/
def importTgt (kind : UInt32) : SeedTgt := if kind = 0 then .mlkem else .mldsa

theorem kindTgt_eq {kind : UInt32} {tgt : SeedTgt} (h : kindTgt kind = some tgt) :
    tgt = importTgt kind := by
  unfold kindTgt at h
  unfold importTgt
  split at h
  · rw [if_pos ‹_›]
    exact (Option.some.inj h).symm
  · rw [if_neg ‹_›]
    split at h
    · exact (Option.some.inj h).symm
    · cases h

theorem spec_opPqcBlobImport (kind pset : UInt32) (pay : Bytes) :
    Spec (Fpgad.At keys []) (opPqcBlobImport kind pset pay)
      (Makes (importTgt kind) pset (fun _ => some pay) (liveOf keys)) := by
  unfold opPqcBlobImport
  cases hKind : kindTgt kind with
  | none => exact spec_fails inargerr_ne fun _ => live_of_at
  | some tgt =>
    rw [← kindTgt_eq hKind]
    refine spec_ite (fun _ => spec_fails inargerr_ne fun _ => live_of_at) fun _ => ?_
    refine spec_bind spec_getAt fun a => ?_
    cases hFree : a.freeHandle tgt with
    | none => exact spec_fails unknowerr_ne fun _ h => live_of_at h.2
    | some h =>
      rintro e d ⟨rfl, hKeys, -⟩
      refine .inr ⟨h, pay, [], by simp, rfl, ?_⟩
      show Extends _ (liveOf (Function.update d.keys tgt _)) _
      rw [hKeys]
      exact @extends_setUsed a.keys tgt h ⟨true, pset, pay⟩ (unused_of_freeHandle hFree)
        (below_of_freeHandle hFree) rfl

/-- The handle of a key that is in use, and the seed that the trusted application replays for it. -/
def Uses (tgt : SeedTgt) (h : UInt32) (live : LiveKeys) (r : OpReply) (d : Fpgad) : Prop :=
  (r.status ≠ SDR_OK ∧ d.tee = []) ∨
    ∃ pset blob, live tgt h.toNat = some (pset, blob) ∧
      ∀ x ∈ d.tee, x.1 = .seedReplay tgt blob

theorem keynotexist_ne : SDR_KEYNOTEXIST ≠ SDR_OK := by decide

/-- The trusted application has been asked to replay this seed at most. -/
def Replays (tgt : SeedTgt) (blob : Bytes) (d : Fpgad) : Prop :=
  ∀ x ∈ d.tee, x.1 = .seedReplay tgt blob

theorem spec_replays (tgt : SeedTgt) (blob : Bytes) :
    Spec (Fpgad.At keys []) (seedReplayClean tgt blob) fun _ => Replays tgt blob := by
  refine (spec_seedReplayClean tgt blob).mono (fun _ h => h) fun r d => ?_
  rintro (⟨⟨-, hTee⟩, -⟩ | ⟨ans, -, hTee⟩) x hx
  · rw [hTee] at hx
    cases hx
  · rw [hTee] at hx
    cases List.mem_singleton.mp hx
    rfl

section Uses

variable {tgt : SeedTgt} {h : UInt32} {k : KeyEntry} {a : Fpgad} {live : LiveKeys}

theorem uses_refused {P : Fpgad → Prop} {status : UInt32} (hNe : status ≠ SDR_OK)
    (hTee : ∀ d, P d → d.tee = []) :
    Spec P (pure (.bare status) : FpgadM OpReply) (Uses tgt h live) :=
  spec_pure fun d hP => .inl ⟨hNe, hTee d hP⟩

theorem uses_replayed (hUsed : a.usedEntry tgt h = some k) (r : OpReply) :
    Spec (Replays tgt k.blob) (pure r : FpgadM OpReply) (Uses tgt h a.live) :=
  spec_pure fun _ hReplays => .inr ⟨k.pset, k.blob, live_of_usedEntry hUsed, hReplays⟩

theorem keeps_replays_onBus {α : Type} {blob : Bytes} (p : BusM α) :
    Keeps (Replays tgt blob) (onBus p) := fun _ _ h => h

end Uses

theorem spec_opMlkemDecaps (h : UInt32) (pay : Bytes) :
    Spec (Fpgad.At keys []) (opMlkemDecaps h pay) (Uses .mlkem h (liveOf keys)) := by
  refine spec_bind spec_getAt fun a => ?_
  cases hUsed : a.usedEntry .mlkem h with
  | none => exact uses_refused keynotexist_ne fun _ hAt => hAt.2.2
  | some k =>
    rintro e d ⟨rfl, hAt⟩
    refine (?_ : Spec (Fpgad.At a.keys []) _ (Uses .mlkem h a.live)) e d hAt
    refine spec_ite (fun _ => uses_refused inargerr_ne fun _ hAt => hAt.2) fun _ => ?_
    refine spec_bind (spec_replays _ _) fun staged => ?_
    refine spec_ite (fun _ => uses_replayed hUsed _) fun _ => ?_
    refine spec_bind (keeps_replays_onBus _) fun r => ?_
    cases r with
    | error _ => exact uses_replayed hUsed _
    | ok out => exact uses_replayed hUsed _

theorem spec_opMldsaSign (h a1 : UInt32) (pay : Bytes) :
    Spec (Fpgad.At keys []) (opMldsaSign h a1 pay) (Uses .mldsa h (liveOf keys)) := by
  refine spec_bind spec_getAt fun a => ?_
  cases hUsed : a.usedEntry .mldsa h with
  | none => exact uses_refused keynotexist_ne fun _ hAt => hAt.2.2
  | some k =>
    rintro e d ⟨rfl, hAt⟩
    refine (?_ : Spec (Fpgad.At a.keys []) _ (Uses .mldsa h a.live)) e d hAt
    refine spec_ite (fun _ => uses_refused inargerr_ne fun _ hAt => hAt.2) fun _ => ?_
    refine spec_ite (fun _ => uses_refused inargerr_ne fun _ hAt => hAt.2) fun _ => ?_
    refine spec_bind (keeps_read (I := Fpgad.At a.keys [])) fun env => ?_
    refine spec_ite (fun _ => uses_refused unknowerr_ne fun _ hAt => hAt.2) fun _ => ?_
    refine spec_bind (keeps_at_onBus _) fun rnd => ?_
    cases rnd with
    | error _ => exact uses_refused hardfail_ne fun _ hAt => hAt.2
    | ok rnd =>
      refine spec_bind (spec_replays _ _) fun staged => ?_
      refine spec_ite (fun _ => uses_replayed hUsed _) fun _ => ?_
      refine spec_bind (keeps_replays_onBus _) fun r => ?_
      cases r with
      | error _ => exact uses_replayed hUsed _
      | ok sig => exact spec_ite (fun _ => uses_replayed hUsed _) fun _ => uses_replayed hUsed _

/-! ### Faults behind an answer OK -/

/-- A KeyGen that says OK ends where its command has ended, with a whole public key. -/
theorem run_opKeygen_ok {tgt : SeedTgt} {pset : UInt32} {run : BusM (Except Int Bytes)}
    {pkLen : Nat} {e : FpgadEnv} {d : Fpgad}
    (h : ((opKeygen tgt pset run pkLen).run e d).1.status = SDR_OK) :
    ∃ pk, pk.length = pkLen ∧ run.run e.bus ((seedNewClean tgt).run e d).2.bus =
      (.ok pk, ((opKeygen tgt pset run pkLen).run e d).2.bus) := by
  unfold opKeygen at h ⊢
  split
  · rename_i hPset
    rw [if_pos hPset] at h
    exact absurd h inargerr_ne
  · rename_i hPset
    rw [if_neg hPset] at h
    simp only [run_bind, run_get] at h ⊢
    cases hFree : d.freeHandle tgt with
    | none =>
      rw [hFree] at h
      exact absurd h unknowerr_ne
    | some handle =>
      rw [hFree] at h
      simp only [run_bind] at h ⊢
      cases hSeed : ((seedNewClean tgt).run e d).1 with
      | none =>
        rw [hSeed] at h
        exact absurd h hardfail_ne
      | some blob =>
        rw [hSeed] at h
        simp only [run_bind, run_modify, run_onBus, Fpgad.bus_setKey] at h ⊢
        cases hRun : (run.run e.bus ((seedNewClean tgt).run e d).2.bus).1 with
        | error _ =>
          rw [hRun] at h
          exact absurd h hardfail_ne
        | ok pk =>
          rw [hRun] at h
          dsimp only at h ⊢
          split
          · rename_i hLen
            rw [if_pos hLen] at h
            exact absurd h hardfail_ne
          · rename_i hLen
            exact ⟨pk, not_not.mp hLen, Prod.ext hRun rfl⟩

end Requests

/-! ### One request of a connection -/

section Served

variable {q : PqcsReq} {e : FpgadEnv} {d : Fpgad}

theorem guarded_at : (guarded e d).At d.keys [] := ⟨rfl, rfl⟩

theorem guarded_fault : (guarded e d).bus.fault = false := rfl

/-- A request is refused by the guard, or its handler decides; after a fault it cannot say OK. -/
theorem served_cases :
    (d.served q e).1 = .bare SDR_HARDFAIL ∧ (d.served q e).2.At d.keys [] ∨
    (d.served q e).2 = ((handleOp q).run e (guarded e d)).2 ∧
      ((d.served q e).1 = ((handleOp q).run e (guarded e d)).1 ∧
          (((handleOp q).run e (guarded e d)).1.status = SDR_OK →
            ((handleOp q).run e (guarded e d)).2.bus.fault = false) ∨
        (d.served q e).1 = .bare SDR_HARDFAIL ∧
          ((handleOp q).run e (guarded e d)).2.bus.fault = true) := by
  have hGuarded : guarded e d = ⟨(clearFault.run e.bus
      (guardWiping.run e.bus (clearFault.run e.bus d.fresh.bus).2).2).2, d.fresh.tee, d.fresh.keys⟩ :=
    rfl
  have hFlag (b : Bus) : hwFault.run e.bus b = (b.fault, b) := rfl
  rw [hGuarded]
  unfold Fpgad.served serveReq
  simp only [run_bind, run_ite, run_onBus, run_pure, hFlag]
  split
  · exact .inl ⟨rfl, rfl, rfl⟩
  · right
    split
    · rename_i hFault
      rw [Bool.and_eq_true, decide_eq_true_eq] at hFault
      exact ⟨rfl, .inr ⟨rfl, hFault.1⟩⟩
    · rename_i hFault
      rw [Bool.and_eq_true, decide_eq_true_eq, not_and'] at hFault
      exact ⟨rfl, .inl ⟨rfl, fun hOk => Bool.eq_false_of_not_eq_true (hFault hOk)⟩⟩

/-- What a request does to a connection: nothing, or it gives out one handle more. -/
def Advances (q : PqcsReq) (live : LiveKeys) (r : OpReply) (d : Fpgad) : Prop :=
  granted q r d.tee = none ∧ d.live = live ∨
    ∃ i, granted q r d.tee = some i ∧ Extends live d.live i

theorem granted_hardfail (t : List (TeeCmd × Option Bytes)) :
    granted q (.bare SDR_HARDFAIL) t = none := if_pos hardfail_ne

theorem handle_of_out {tgt : SeedTgt} {h : Nat} (hBelow : h < tgt.capacity) (rest : Bytes) :
    ofLe ((toLe 4 h ++ rest).take 4) = h := by
  have hSmall : h < 256 ^ 4 := by
    cases tgt with
    | mlkem => exact Nat.lt_trans hBelow (by decide)
    | mldsa => exact Nat.lt_trans hBelow (by decide)
  rw [List.take_left' (length_toLe 4 h), ofLe_toLe, Nat.mod_eq_of_lt hSmall]

theorem advances_of_makes {tgt : SeedTgt} {pset : UInt32} {made : Fpgad → Option Bytes}
    (hGrant : ∀ out (d' : Fpgad), granted q ⟨SDR_OK, out⟩ d'.tee =
      (made d').map (⟨tgt, ofLe (out.take 4), pset, ·⟩))
    (hMakes : Makes tgt pset made d.live ((handleOp q).run e (guarded e d)).1
      ((handleOp q).run e (guarded e d)).2)
    (hFault : ((handleOp q).run e (guarded e d)).1.status = SDR_OK →
      ((handleOp q).run e (guarded e d)).2.bus.fault = false) :
    Advances q d.live (d.served q e).1 (d.served q e).2 := by
  rcases served_cases with ⟨hReply, hAt⟩ | ⟨hState, hReply⟩
  · exact .inl ⟨hReply ▸ granted_hardfail _, live_of_at hAt⟩
  · rw [hState]
    rcases hMakes with ⟨hLive, hNe⟩ | ⟨h, blob, rest, hOk, hMade, hExtends⟩
    · refine .inl ⟨?_, hLive⟩
      rcases hReply with ⟨hSame, -⟩ | ⟨hHard, -⟩
      · rw [hSame, granted, if_pos hNe]
      · rw [hHard, granted_hardfail]
    · rcases hReply with ⟨hSame, -⟩ | ⟨-, hUp⟩
      · refine .inr ⟨_, ?_, hExtends⟩
        rw [hSame, hOk, hGrant, hMade, handle_of_out hExtends.below]
        rfl
      · rw [hFault (by rw [hOk])] at hUp
        cases hUp

theorem op_ne_keygen : OP_MLDSA_KEYGEN ≠ OP_MLKEM_KEYGEN := by decide

theorem advances_mlkemKeygen (hOp : q.op = OP_MLKEM_KEYGEN) (hSound : ¬KeyDespiteFault q e d) :
    Advances q d.live (d.served q e).1 (d.served q e).2 := by
  have hHandle : handleOp q = opMlkemKeygen q.a0 := by
    rw [handleOp, hOp]
    rfl
  have hGrant (out : Bytes) (d' : Fpgad) : granted q ⟨SDR_OK, out⟩ d'.tee =
      (newBlob .mlkem d'.tee).map (⟨.mlkem, ofLe (out.take 4), q.a0, ·⟩) := by
    simp [granted, hOp]
  apply advances_of_makes hGrant
  · rw [hHandle]
    exact spec_opKeygen _ _ _ _ e _ guarded_at
  · rw [hHandle]
    intro hOk
    obtain ⟨pk, hLen, hRun⟩ := run_opKeygen_ok hOk
    refine Bool.eq_false_of_not_eq_true fun hUp => hSound ⟨hOp, ?_, ?_⟩
    · rw [keygenBus, hRun]
      simpa [Except.toOption] using hLen
    · rw [keygenBus, hRun]
      exact hUp

/-- The fault flag is down where a command has a result. -/
def Flagged {α : Type} (r : Except Int α) (b : Bus) : Prop := ∀ a, r = .ok a → b.fault = false

theorem flagged_error {α : Type} {P : Bus → Prop} (rc : Int) :
    Spec P (pure (.error rc) : BusM (Except Int α)) Flagged :=
  spec_pure fun _ _ _ h => nomatch h

theorem spec_hwFault {P : Bus → Prop} : Spec P hwFault fun r b => r = b.fault := fun _ _ _ => rfl

theorem flagged_mldsaResult (st : UInt32) (cap : Nat) :
    Spec (fun _ => True) (mldsaResult st cap) Flagged := by
  refine spec_bind (spec_any _) fun fault => ?_
  refine spec_ite (fun _ => flagged_error _) fun _ => spec_bind (spec_any _) fun n => ?_
  refine spec_ite (fun _ => flagged_error _) fun _ => spec_bind (spec_any _) fun out => ?_
  refine spec_bind spec_hwFault fun fault => spec_ite (fun _ => flagged_error _) fun hDown => ?_
  exact spec_pure fun b hFault _ _ => hFault ▸ Bool.eq_false_of_not_eq_true hDown

theorem flagged_mldsaRun (op pset modeExtra : UInt32) (input : Bytes) (msgLen ctxLen : UInt32)
    (cap : Nat) :
    Spec (fun _ => True) (mldsaRun op pset modeExtra input msgLen ctxLen cap) Flagged := by
  refine spec_bind (spec_any _) fun _ => spec_bind (spec_any _) fun idle => ?_
  refine spec_ite (fun _ => flagged_error _) fun _ => spec_bind (spec_any _) fun _ => ?_
  refine spec_bind (spec_any _) fun _ => spec_bind (spec_any _) fun _ => ?_
  refine spec_bind (spec_any _) fun _ => spec_bind (spec_any _) fun _ => ?_
  refine spec_bind (spec_any _) fun _ => spec_bind (spec_any _) fun fault => ?_
  refine spec_ite (fun _ => flagged_error _) fun _ => spec_bind (spec_any _) fun inPtr => ?_
  refine spec_ite (fun _ => spec_bind (spec_any _) fun _ => flagged_error _) fun _ => ?_
  refine spec_bind (spec_any _) fun _ => spec_bind (spec_any _) fun e => ?_
  refine spec_bind (spec_any _) fun st => ?_
  cases st with
  | error rc => exact flagged_error _
  | ok st => exact flagged_mldsaResult _ _

theorem flagged_mldsaKeygenRun (pset : UInt32) :
    Spec (fun _ => True) (mldsaKeygenRun pset) Flagged := by
  refine spec_bind (flagged_mldsaRun _ _ _ _ _ _ _) fun r => spec_pure fun b hFlagged pk hPk => ?_
  cases r with
  | error rc => cases hPk
  | ok out => exact hFlagged out rfl

theorem keeps_fault_import (kind pset : UInt32) (pay : Bytes) :
    Keeps (fun d => d.bus.fault = false) (opPqcBlobImport kind pset pay) := by
  unfold opPqcBlobImport
  split
  · exact keeps_pure _
  · refine keeps_ite (keeps_pure _) (keeps_bind keeps_get fun a => ?_)
    split
    · exact keeps_pure _
    · exact keeps_bind (fun _ _ h => h) fun _ => keeps_pure _

theorem advances_mldsaKeygen (hOp : q.op = OP_MLDSA_KEYGEN) :
    Advances q d.live (d.served q e).1 (d.served q e).2 := by
  have hHandle : handleOp q = opMldsaKeygen q.a0 := by
    rw [handleOp, hOp]
    rfl
  have hGrant (out : Bytes) (d' : Fpgad) : granted q ⟨SDR_OK, out⟩ d'.tee =
      (newBlob .mldsa d'.tee).map (⟨.mldsa, ofLe (out.take 4), q.a0, ·⟩) := by
    simp [granted, hOp, op_ne_keygen]
  apply advances_of_makes hGrant
  · rw [hHandle]
    exact spec_opKeygen _ _ _ _ e _ guarded_at
  · rw [hHandle]
    intro hOk
    obtain ⟨pk, -, hRun⟩ := run_opKeygen_ok hOk
    have hFault := flagged_mldsaKeygenRun q.a0 e.bus
      ((seedNewClean .mldsa).run e (guarded e d)).2.bus trivial pk
    rw [hRun] at hFault
    exact hFault rfl

theorem advances_pqcBlobImport (hOp : q.op = OP_PQC_BLOB_IMPORT) :
    Advances q d.live (d.served q e).1 (d.served q e).2 := by
  have hHandle : handleOp q = opPqcBlobImport q.a0 q.a1 q.payload.val := by
    rw [handleOp, hOp]
    rfl
  have hGrant (out : Bytes) (d' : Fpgad) : granted q ⟨SDR_OK, out⟩ d'.tee =
      (some q.payload.val).map (⟨importTgt q.a0, ofLe (out.take 4), q.a1, ·⟩) := by
    simp [granted, hOp, importTgt, OP_PQC_BLOB_IMPORT, OP_MLKEM_KEYGEN, OP_MLDSA_KEYGEN]
  apply advances_of_makes hGrant
  · rw [hHandle]
    exact spec_opPqcBlobImport _ _ _ e _ guarded_at
  · rw [hHandle]
    exact fun _ => keeps_fault_import _ _ _ e _ guarded_fault

theorem advances_other (hKem : q.op ≠ OP_MLKEM_KEYGEN) (hDsa : q.op ≠ OP_MLDSA_KEYGEN)
    (hImport : q.op ≠ OP_PQC_BLOB_IMPORT) :
    Advances q d.live (d.served q e).1 (d.served q e).2 := by
  have hGrant : granted q (d.served q e).1 (d.served q e).2.tee = none := by
    simp [granted, hKem, hDsa, hImport]
  have hKeys : Keeps (fun d' : Fpgad => d'.keys = d.keys) (handleOp q) := by
    by_cases hDna : q.op = OP_DEVICE_DNA
    · have hHandle : handleOp q = opDeviceDna := by
        rw [handleOp, hDna]
        rfl
      rw [hHandle]
      refine keeps_bind (fun _ _ h => h) fun dna => ?_
      cases dna with
      | none => exact keeps_pure _
      | some dna => exact keeps_pure _
    · exact (handler_handleOp hDna (.inr ⟨hKem, hDsa, hImport⟩)).keeps_keys rfl
  refine .inl ⟨hGrant, ?_⟩
  rcases served_cases with ⟨-, hAt⟩ | ⟨hState, -⟩
  · exact live_of_at hAt
  · rw [hState, Fpgad.live, hKeys e (guarded e d) rfl]
    rfl

theorem advances_served (hSound : ¬KeyDespiteFault q e d) :
    Advances q d.live (d.served q e).1 (d.served q e).2 := by
  by_cases hKem : q.op = OP_MLKEM_KEYGEN
  · exact advances_mlkemKeygen hKem hSound
  · by_cases hDsa : q.op = OP_MLDSA_KEYGEN
    · exact advances_mldsaKeygen hDsa
    · by_cases hImport : q.op = OP_PQC_BLOB_IMPORT
      · exact advances_pqcBlobImport hImport
      · exact advances_other hKem hDsa hImport

/-- A private-key operation on a core and the handle it names. -/
def PrivateOp (q : PqcsReq) (tgt : SeedTgt) : Prop :=
  q.op = OP_MLKEM_DECAPS ∧ tgt = .mlkem ∨ q.op = OP_MLDSA_SIGN ∧ tgt = .mldsa

theorem uses_served {tgt : SeedTgt} (hOp : PrivateOp q tgt) :
    Uses tgt q.a0 d.live (d.served q e).1 (d.served q e).2 := by
  have hUses : Uses tgt q.a0 d.live ((handleOp q).run e (guarded e d)).1
      ((handleOp q).run e (guarded e d)).2 := by
    rcases hOp with ⟨hOp, rfl⟩ | ⟨hOp, rfl⟩
    · have hHandle : handleOp q = opMlkemDecaps q.a0 q.payload.val := by
        rw [handleOp, hOp]
        rfl
      rw [hHandle]
      exact spec_opMlkemDecaps _ _ e _ guarded_at
    · have hHandle : handleOp q = opMldsaSign q.a0 q.a1 q.payload.val := by
        rw [handleOp, hOp]
        rfl
      rw [hHandle]
      exact spec_opMldsaSign _ _ _ e _ guarded_at
  rcases served_cases with ⟨hReply, hAt⟩ | ⟨hState, hReply⟩
  · exact .inl ⟨hReply ▸ hardfail_ne, hAt.2⟩
  · rw [hState]
    rcases hUses with ⟨hNe, hTee⟩ | hUsed
    · refine .inl ⟨?_, hTee⟩
      rcases hReply with ⟨hSame, -⟩ | ⟨hHard, -⟩
      · rwa [hSame]
      · rw [hHard]
        exact hardfail_ne
    · exact .inr hUsed

end Served

/-! ### Runs -/

/-- The tables hold what the open connection has been given. -/
structure Holds (issued : List Issued) (live : LiveKeys) : Prop where
  live_iff : ∀ tgt h pset blob, live tgt h = some (pset, blob) ↔ ⟨tgt, h, pset, blob⟩ ∈ issued
  distinct : (issued.map fun i => (i.core, i.handle)).Nodup
  below : ∀ i ∈ issued, i.handle < i.core.capacity

theorem Holds.advance {issued : List Issued} {live live' : LiveKeys} {i : Issued}
    (h : Holds issued live) (hExtends : Extends live live' i) : Holds (issued ++ [i]) live' := by
  have hNew : ∀ pset blob, (⟨i.core, i.handle, pset, blob⟩ : Issued) ∉ issued := by
    intro pset blob hMem
    rw [← h.live_iff, hExtends.fresh] at hMem
    cases hMem
  constructor
  · intro tgt k pset blob
    rw [hExtends.now, List.mem_append, List.mem_singleton]
    split
    · rename_i hSame
      obtain ⟨rfl, rfl⟩ := hSame
      constructor
      · intro hKey
        obtain ⟨rfl, rfl⟩ := Prod.mk.inj (Option.some.inj hKey)
        exact .inr rfl
      · rintro (hOld | hNow)
        · exact absurd hOld (hNew pset blob)
        · rw [← hNow]
    · rename_i hOther
      rw [h.live_iff]
      constructor
      · exact .inl
      · rintro (hOld | hNow)
        · exact hOld
        · exact absurd ⟨congrArg Issued.core hNow, congrArg Issued.handle hNow⟩ hOther
  · rw [List.map_append, List.map_singleton, List.nodup_append]
    refine ⟨h.distinct, List.nodup_singleton _, ?_⟩
    rintro x hx y hy rfl
    obtain ⟨j, hj, hEq⟩ := List.mem_map.mp hx
    obtain ⟨hCore, hHandle⟩ := Prod.mk.inj (hEq.trans (List.mem_singleton.mp hy))
    obtain ⟨core, handle, pset, blob⟩ := j
    dsimp only at hCore hHandle
    subst hCore hHandle
    exact hNew pset blob hj
  · intro j hj
    rcases List.mem_append.mp hj with hOld | hNow
    · exact h.below j hOld
    · cases List.mem_singleton.mp hNow
      exact hExtends.below

theorem live_free : liveOf (fun _ _ => .free) = fun _ _ => none := by
  funext tgt h
  exact live_none rfl

/-- Between connections the tables are empty, and in a connection they hold what it was given. -/
structure Serving.Kept (s : Serving) : Prop where
  empty : s.conn = none → s.daemon.keys = fun _ _ => .free
  holds : ∀ issued, s.conn = some issued → Holds issued s.daemon.live

theorem kept_next {s : Serving} {a : ConnAct} (h : s.Kept) (hSound : KeysSound s a (s.next a)) :
    (s.next a).Kept := by
  cases hConn : s.conn with
  | none =>
    cases a with
    | connect =>
      have hNext : s.next .connect = { s with conn := some [] } := by
        simp [Serving.next, hConn]
      rw [hNext]
      refine ⟨(fun hNone => nomatch hNone), ?_⟩
      rintro issued ⟨⟩
      have hLive : s.daemon.live = fun _ _ => none := by
        rw [Fpgad.live, h.empty hConn, live_free]
      exact ⟨by simp [hLive], List.nodup_nil, fun i hi => nomatch hi⟩
    | request q e =>
      have hNext : s.next (.request q e) = s := by simp [Serving.next, hConn]
      rwa [hNext]
    | disconnect e =>
      have hNext : s.next (.disconnect e) = s := by simp [Serving.next, hConn]
      rwa [hNext]
  | some issued =>
    cases a with
    | connect =>
      have hNext : s.next .connect = s := by simp [Serving.next, hConn]
      rwa [hNext]
    | request q e =>
      have hNext : s.next (.request q e) = ⟨(s.daemon.served q e).2, some (issued ++
          (granted q (s.daemon.served q e).1 (s.daemon.served q e).2.tee).toList)⟩ := by
        simp [Serving.next, hConn]
      rw [hNext]
      refine ⟨(fun hNone => nomatch hNone), ?_⟩
      rintro _ ⟨⟩
      rcases advances_served hSound with ⟨hNone, hLive⟩ | ⟨i, hSome, hExtends⟩
      · rw [hNone]
        dsimp only
        rw [hLive, Option.toList_none, List.append_nil]
        exact h.holds issued hConn
      · rw [hSome, Option.toList_some]
        exact (h.holds issued hConn).advance hExtends
    | disconnect e =>
      have hNext : s.next (.disconnect e) = ⟨(sessionEnd.run e s.daemon.fresh).2, none⟩ := by
        simp [Serving.next, hConn]
      rw [hNext]
      exact ⟨fun _ => rfl, fun issued hSome => nomatch hSome⟩

theorem kept_of_reachable {s : Serving} (hRun : Reachable servingSystem KeysSound s) : s.Kept := by
  induction hRun with
  | init hInit =>
    refine ⟨fun _ => hInit.2, fun issued hConn => ?_⟩
    rw [hInit.1] at hConn
    cases hConn
  | step _ hStep hSound ih =>
    cases hStep
    exact kept_next ih hSound

/-- What separates the connections: no key is left between them, the live keys of a connection are
those it was given under distinct handles below the capacity, and a private-key operation that says
OK, or for which a seed is replayed, is on the key of such a handle. -/
structure Serving.Isolated (s : Serving) : Prop where
  empty : s.conn = none → s.daemon.keys = fun _ _ => .free
  holds : ∀ issued, s.conn = some issued → Holds issued s.daemon.live
  accepted : ∀ issued, s.conn = some issued → ∀ q e tgt, PrivateOp q tgt →
    (s.daemon.served q e).1.status = SDR_OK ∨ (s.daemon.served q e).2.tee ≠ [] →
    ∃ i ∈ issued, i.core = tgt ∧ i.handle = q.a0.toNat ∧
      ∀ x ∈ (s.daemon.served q e).2.tee, x.1 = .seedReplay tgt i.blob

theorem connections_isolated {s : Serving} (hRun : Reachable servingSystem KeysSound s) :
    s.Isolated := by
  have hKept := kept_of_reachable hRun
  refine ⟨hKept.empty, hKept.holds, fun issued hConn q e tgt hOp hAccepted => ?_⟩
  rcases uses_served hOp with ⟨hNe, hTee⟩ | ⟨pset, blob, hLive, hReplay⟩
  · rcases hAccepted with hOk | hSome
    · exact absurd hOk hNe
    · exact absurd hTee hSome
  · exact ⟨⟨tgt, q.a0.toNat, pset, blob⟩, ((hKept.holds issued hConn).live_iff ..).mp hLive, rfl, rfl,
      hReplay⟩

/-! ### A key made before and after a fault -/

def sampleServing : Serving := ⟨⟨⟨[], false⟩, [], fun _ _ => .free⟩, none⟩

/-- A core that is idle, that reads back so many input bytes at the place of that access, is done at
the second next one and has so many output bytes; one access may be rejected. -/
def sampleAnswer (inPtrAt : Nat) (inLen outLen : UInt32) (rejected : Option Nat) (n : Nat) :
    Option UInt32 :=
  if some n = rejected then none
  else if n = inPtrAt then some inLen
  else if n = inPtrAt + 2 ∨ n = inPtrAt + 3 then some MKS_DONE
  else if n = inPtrAt + 4 then some outLen
  else some 0

def sampleEnv (answer : Nat → Option UInt32) : FpgadEnv :=
  ⟨⟨answer, 0, fun _ => 0⟩, fun _ => some [1, 2, 3], true⟩

def sampleKeygen : PqcsReq := ⟨OP_MLKEM_KEYGEN, 0, 0, .empty⟩

def sampleDecaps : PqcsReq :=
  ⟨OP_MLKEM_DECAPS, 0, 0, List.replicate 768 0, by rw [List.length_replicate]; decide⟩

def keygenEnv (rejected : Option Nat) : FpgadEnv := sampleEnv (sampleAnswer 8 0 800 rejected)

def decapsEnv : FpgadEnv := sampleEnv (sampleAnswer 200 768 32 none)

def keygenActs (rejected : Option Nat) : List ConnAct :=
  [.connect, .request sampleKeygen (keygenEnv rejected)]

theorem connection_with_key_isolated :
    let s := replay Serving.next sampleServing
      (keygenActs none ++ [.request sampleDecaps decapsEnv])
    s.conn = some [⟨.mlkem, 0, 0, [1, 2, 3]⟩] ∧ s.Isolated := by
  have hMeets : ReplayMeets Serving.next KeysSound sampleServing
      (keygenActs none ++ [.request sampleDecaps decapsEnv]) := by decide +kernel
  refine ⟨by decide +kernel, connections_isolated ?_⟩
  exact Reachable.leads (.init ⟨rfl, rfl⟩) (leads_replay hMeets)

/-- The twentieth access of a KeyGen, in the transfer of the public key, is rejected: the answer is a
failure, but handle 0 is in use, and a Decaps with it says OK. -/
theorem key_never_issued :
    ¬∀ s, Reachable servingSystem anyStep s → s.Isolated := by
  intro hAll
  have hIsolated := hAll _ (reachable_replay (.init ⟨rfl, rfl⟩ : Reachable servingSystem anyStep
    sampleServing) (keygenActs (some 20)))
  have hConn : (replay Serving.next sampleServing (keygenActs (some 20))).conn = some [] := by
    decide +kernel
  have hOk : ((replay Serving.next sampleServing (keygenActs (some 20))).daemon.served sampleDecaps
      decapsEnv).1.status = SDR_OK := by decide +kernel
  obtain ⟨i, hi, -⟩ := hIsolated.accepted [] hConn sampleDecaps decapsEnv .mlkem (.inl ⟨rfl, rfl⟩)
    (.inl hOk)
  cases hi

end PqcHsm
