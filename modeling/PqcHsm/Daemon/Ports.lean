import PqcHsm.Daemon.Requests

/-!
# What the programs of the daemon touch

A program on the bus that reaches the registers through `rd` and `wr` only keeps whatever these two
keep. A handler is made of such programs, of commands to the trusted application and of changes of
the tables, if it makes any.
-/

namespace PqcHsm

open ByteCodec Stateful

/-- The program reaches the bus through the two accessors only. -/
inductive ByPorts : {α : Type} → BusM α → Prop
  | pure {α : Type} (a : α) : ByPorts (pure a)
  | env : ByPorts Stateful.read
  | hwFault : ByPorts hwFault
  | rd (off : Nat) : ByPorts (rd off)
  | wr (off : Nat) (v : UInt32) : ByPorts (wr off v)
  | bind {α β : Type} {p : BusM α} {f : α → BusM β} :
    ByPorts p → (∀ a, ByPorts (f a)) → ByPorts (p >>= f)

theorem ByPorts.keeps {I : Bus → Prop} (hRd : ∀ off, Keeps I (PqcHsm.rd off))
    (hWr : ∀ off v, Keeps I (PqcHsm.wr off v)) {α : Type} {p : BusM α} (h : ByPorts p) :
    Keeps I p := by
  induction h with
  | pure a => exact keeps_pure a
  | env => exact keeps_read
  | hwFault => exact fun _ _ h => h
  | rd off => exact hRd off
  | wr off v => exact hWr off v
  | bind _ _ ihp ihf => exact keeps_bind ihp ihf

section ByPorts

theorem byPorts_ite {α : Type} {c : Prop} [Decidable c] {p q : BusM α} (hp : ByPorts p)
    (hq : ByPorts q) : ByPorts (if c then p else q) := by
  split
  · exact hp
  · exact hq

theorem byPorts_spinUntil (reg : Nat) (bit : UInt32) (limit : Nat) :
    ByPorts (spinUntil reg bit limit) := by
  induction limit with
  | zero => exact .pure ()
  | succ limit ih =>
    refine .bind .hwFault fun fault => byPorts_ite (.pure ()) ?_
    exact .bind (.rd reg) fun v => byPorts_ite (.pure ()) ih

theorem byPorts_waitClear (reg : Nat) (bit : UInt32) (limit : Nat) :
    ByPorts (waitClear reg bit limit) := by
  induction limit with
  | zero => exact .pure false
  | succ limit ih =>
    refine .bind (.rd reg) fun v => .bind .hwFault fun fault => ?_
    exact byPorts_ite (.pure false) (byPorts_ite (.pure true) ih)

theorem byPorts_trngWords (words : Nat) : ByPorts (trngWords words) := by
  induction words with
  | zero => exact .pure _
  | succ words ih =>
    refine .bind (byPorts_spinUntil _ _ _) fun _ => .bind (.rd _) fun st => ?_
    exact byPorts_ite (.pure _) (.bind (.rd _) fun w => .bind ih fun rest => .pure _)

theorem byPorts_trngBytes (n : Nat) : ByPorts (trngBytes n) := by
  refine .bind (.wr _ _) fun _ => .bind (byPorts_spinUntil _ _ _) fun _ => .bind (.rd _) fun st => ?_
  exact byPorts_ite (.pure _) (.bind (byPorts_trngWords _) fun got => .pure _)

theorem byPorts_feedBytes (reg1 : Nat) (input : Bytes) : ByPorts (feedBytes reg1 input) := by
  induction input with
  | nil => exact .pure ()
  | cons b rest ih =>
    exact .bind .hwFault fun fault => byPorts_ite (.pure ()) (.bind (.wr _ _) fun _ => ih)

theorem byPorts_feedPacked (reg4 reg1 : Nat) (input : Bytes) :
    ByPorts (feedPacked reg4 reg1 input) := by
  induction input using feedPacked.induct with
  | case1 a b c d rest ih =>
    exact .bind .hwFault fun fault => byPorts_ite (.pure ()) (.bind (.wr _ _) fun _ => ih)
  | case2 rest hShort =>
    rw [feedPacked.eq_2 _ _ _ hShort]
    exact byPorts_feedBytes _ _

theorem byPorts_drainBytes (reg1 n : Nat) : ByPorts (drainBytes reg1 n) := by
  induction n with
  | zero => exact .pure _
  | succ n ih =>
    refine .bind .hwFault fun fault => byPorts_ite (.pure _) ?_
    exact .bind (.rd _) fun v => .bind ih fun rest => .pure _

theorem byPorts_drainRead (reg4 reg1 n : Nat) : ByPorts (drainRead reg4 reg1 n) := by
  induction n using drainRead.induct with
  | case1 n ih =>
    refine .bind .hwFault fun fault => byPorts_ite (.pure _) ?_
    exact .bind (.rd _) fun v => .bind ih fun rest => .pure _
  | case2 n hShort =>
    rw [drainRead.eq_2 _ _ _ hShort]
    exact byPorts_drainBytes _ _

theorem byPorts_drainPacked (reg4 reg1 n : Nat) : ByPorts (drainPacked reg4 reg1 n) :=
  .bind (byPorts_drainRead _ _ _) fun _ => .bind .env fun _ => .pure _

theorem byPorts_mlkemPoll (spins : Nat) : ByPorts (mlkemPoll spins) := by
  induction spins with
  | zero => exact .pure _
  | succ spins ih =>
    exact .bind (.rd _) fun st => byPorts_ite (.pure _) (byPorts_ite (.pure _) ih)

theorem byPorts_mlkemResult (cap : Nat) : ByPorts (mlkemResult cap) := by
  refine .bind (.rd _) fun st => byPorts_ite (.pure _) (.bind (.rd _) fun n => ?_)
  exact byPorts_ite (.pure _) (.bind (byPorts_drainPacked _ _ _) fun out => .pure _)

theorem byPorts_mlkemRun (mode pset modeExtra : UInt32) (input : Bytes) (cap : Nat) :
    ByPorts (mlkemRun mode pset modeExtra input cap) := by
  refine .bind (byPorts_waitClear _ _ _) fun idle => byPorts_ite (.pure _) ?_
  refine .bind (.wr _ _) fun _ => .bind (.wr _ _) fun _ => ?_
  refine .bind (byPorts_feedPacked _ _ _) fun _ => .bind (.rd _) fun inPtr => ?_
  refine byPorts_ite (.bind (.rd _) fun _ => .pure _) (.bind (.wr _ _) fun _ => ?_)
  refine .bind (byPorts_mlkemPoll _) fun st => ?_
  cases st with
  | error e => exact .pure _
  | ok _ => exact byPorts_mlkemResult _

theorem byPorts_mldsaPoll (polls : Nat) (st : UInt32) : ByPorts (mldsaPoll polls st) := by
  induction polls generalizing st with
  | zero => exact .pure _
  | succ polls ih =>
    refine .bind .hwFault fun fault => byPorts_ite (.pure _) (.bind (.rd _) fun st => ?_)
    exact byPorts_ite (.pure _) (byPorts_ite (.pure _) (ih st))

theorem byPorts_mldsaResult (st : UInt32) (cap : Nat) : ByPorts (mldsaResult st cap) := by
  refine .bind .hwFault fun fault => byPorts_ite (.pure _) (.bind (.rd _) fun n => ?_)
  refine byPorts_ite (.pure _) (.bind (byPorts_drainPacked _ _ _) fun out => ?_)
  exact .bind .hwFault fun fault => byPorts_ite (.pure _) (.pure _)

theorem byPorts_mldsaRun (op pset modeExtra : UInt32) (input : Bytes) (msgLen ctxLen : UInt32)
    (cap : Nat) : ByPorts (mldsaRun op pset modeExtra input msgLen ctxLen cap) := by
  refine .bind (.wr _ _) fun _ => .bind (byPorts_waitClear _ _ _) fun idle => ?_
  refine byPorts_ite (.pure _) (.bind (.wr _ _) fun _ => .bind (.wr _ _) fun _ => ?_)
  refine .bind (.wr _ _) fun _ => .bind (.wr _ _) fun _ => .bind (.wr _ _) fun _ => ?_
  refine .bind (byPorts_feedPacked _ _ _) fun _ => .bind .hwFault fun fault => ?_
  refine byPorts_ite (.pure _) (.bind (.rd _) fun inPtr => ?_)
  refine byPorts_ite (.bind (.rd _) fun _ => .pure _) (.bind (.wr _ _) fun _ => ?_)
  refine .bind .env fun e => .bind (byPorts_mldsaPoll _ _) fun st => ?_
  cases st with
  | error e => exact .pure _
  | ok st => exact byPorts_mldsaResult _ _

theorem byPorts_writeWords (reg : Nat) (ws : List UInt32) : ByPorts (writeWords reg ws) := by
  induction ws generalizing reg with
  | nil => exact .pure ()
  | cons w ws ih => exact .bind (.wr _ _) fun _ => ih _

theorem byPorts_readWords (reg n : Nat) : ByPorts (readWords reg n) := by
  induction n generalizing reg with
  | zero => exact .pure _
  | succ n ih => exact .bind (.rd _) fun w => .bind (ih _) fun rest => .pure _

theorem byPorts_symBlock (alg slot : UInt32) (dec : Bool) (input : Bytes) :
    ByPorts (symBlock alg slot dec input) := by
  refine .bind (.wr _ _) fun _ => .bind (.wr _ _) fun _ => .bind (.rd _) fun st => ?_
  refine byPorts_ite (.pure _) (.bind (.wr _ _) fun _ => ?_)
  refine .bind (byPorts_spinUntil _ _ _) fun _ => .bind (.rd _) fun st => ?_
  refine byPorts_ite (.pure _) (.bind (byPorts_writeWords _ _) fun _ => ?_)
  refine .bind (.wr _ _) fun _ => .bind (byPorts_spinUntil _ _ _) fun _ => ?_
  refine .bind (.rd _) fun st => byPorts_ite (.pure _) ?_
  exact .bind (byPorts_readWords _ _) fun out => .pure _

theorem byPorts_symStep (alg slot : UInt32) (dec : Bool) (mode : SymMode) (fb block : Bytes) :
    ByPorts (symStep alg slot dec mode fb block) := by
  cases mode with
  | cbc =>
    refine byPorts_ite ?_ ?_
    · exact .bind (byPorts_symBlock _ _ _ _) fun out => .pure _
    · exact .bind (byPorts_symBlock _ _ _ _) fun out => .pure _
  | ecb => exact .bind (byPorts_symBlock _ _ _ _) fun out => .pure _
  | ctr => exact .bind (byPorts_symBlock _ _ _ _) fun out => .pure _
  | cfb => exact .bind (byPorts_symBlock _ _ _ _) fun out => .pure _
  | ofb => exact .bind (byPorts_symBlock _ _ _ _) fun out => .pure _

theorem byPorts_symCrypt (alg slot : UInt32) (dec : Bool) (mode : SymMode) (blocks : Nat)
    (fb data : Bytes) : ByPorts (symCrypt alg slot dec mode blocks fb data) := by
  induction blocks generalizing fb data with
  | zero => exact .pure _
  | succ blocks ih =>
    refine .bind (byPorts_symStep _ _ _ _ _ _) fun step => ?_
    cases step with
    | error e => exact .pure _
    | ok step => exact .bind (ih _ _) fun rest => .pure _

theorem byPorts_hashBytes (input : Bytes) : ByPorts (hashBytes input) := by
  induction input with
  | nil => exact .pure _
  | cons b rest ih =>
    exact .bind (.wr _ _) fun _ => .bind .hwFault fun fault => byPorts_ite (.pure _) ih

theorem byPorts_symSm3 (input : Bytes) : ByPorts (symSm3 input) := by
  refine .bind (.wr _ _) fun _ => .bind (.wr _ _) fun _ => ?_
  refine .bind (byPorts_hashBytes _) fun done => byPorts_ite (.pure _) (.bind (.wr _ _) fun _ => ?_)
  refine .bind (byPorts_spinUntil _ _ _) fun _ => .bind (.rd _) fun st => ?_
  exact byPorts_ite (.pure _) (.bind (byPorts_readWords _ _) fun out => .pure _)

theorem byPorts_seedClr (tgt : SeedTgt) : ByPorts (seedClr tgt) := by
  cases tgt with
  | mlkem =>
    refine .bind (byPorts_waitClear _ _ _) fun still => byPorts_ite (.pure _) ?_
    refine .bind (byPorts_waitClear _ _ _) fun idle => byPorts_ite (.pure _) ?_
    exact .bind (.wr _ _) fun _ => .bind .hwFault fun fault => .pure _
  | mldsa =>
    refine .bind (byPorts_waitClear _ _ _) fun still => byPorts_ite (.pure _) ?_
    refine .bind (byPorts_waitClear _ _ _) fun idle => byPorts_ite (.pure _) ?_
    exact .bind (.wr _ _) fun _ => .bind .hwFault fun fault => .pure _

end ByPorts

/-! ### Handlers -/

/-- An answer that is not OK has no payload. -/
def OpReply.Closed (r : OpReply) : Prop := r.status ≠ SDR_OK → r.out = []

/-- The program touches the bus through the ports, and the tables only if `w`; what it returns
satisfies `S`. -/
inductive Handler : Bool → {α : Type} → (α → Prop) → FpgadM α → Prop
  | pure {w : Bool} {α : Type} {S : α → Prop} {a : α} : S a → Handler w S (pure a)
  | get {w : Bool} : Handler w (fun _ => True) Stateful.get
  | env {w : Bool} : Handler w (fun _ => True) Stateful.read
  | onBus {w : Bool} {α : Type} {p : BusM α} : ByPorts p → Handler w (fun _ => True) (onBus p)
  | tee {w : Bool} (cmd : TeeCmd) : Handler w (fun _ => True) (teeInvoke cmd)
  | setKey (tgt : SeedTgt) (h : Nat) (k : Fpgad → KeyEntry) :
    Handler true (fun _ => True) (Stateful.modify fun d => d.setKey tgt h (k d))
  | bind {w : Bool} {α β : Type} {S : β → Prop} {p : FpgadM α} {f : α → FpgadM β} :
    Handler w (fun _ => True) p → (∀ a, Handler w S (f a)) → Handler w S (p >>= f)

section Handlers

variable {w : Bool}

theorem handler_ite {α : Type} {S : α → Prop} {c : Prop} [Decidable c] {p q : FpgadM α}
    (hp : Handler w S p) (hq : Handler w S q) : Handler w S (if c then p else q) := by
  split
  · exact hp
  · exact hq

theorem handler_bare (status : UInt32) : Handler w OpReply.Closed (pure (.bare status)) :=
  .pure fun _ => rfl

theorem handler_full (out : Bytes) : Handler w OpReply.Closed (pure ⟨SDR_OK, out⟩) :=
  .pure fun h => absurd rfl h

theorem handler_seedNewClean (tgt : SeedTgt) : Handler w (fun _ => True) (seedNewClean tgt) := by
  refine .bind (.onBus (byPorts_seedClr tgt)) fun cleared => ?_
  refine handler_ite (.pure trivial) (.bind (Handler.tee _) fun blob => ?_)
  cases blob with
  | some blob => exact .pure trivial
  | none => exact .bind (.onBus (byPorts_seedClr tgt)) fun _ => .pure trivial

theorem handler_seedReplayClean (tgt : SeedTgt) (blob : Bytes) :
    Handler w (fun _ => True) (seedReplayClean tgt blob) := by
  refine .bind (.onBus (byPorts_seedClr tgt)) fun cleared => ?_
  refine handler_ite (.pure trivial) (.bind (Handler.tee _) fun done => ?_)
  cases done with
  | some _ => exact .pure trivial
  | none => exact .bind (.onBus (byPorts_seedClr tgt)) fun _ => .pure trivial

theorem handler_opPing : Handler w OpReply.Closed (opPing) := by
  refine .bind (.onBus (.rd _)) fun mlkem => ?_
  refine .bind (.onBus (.rd _)) fun sym => ?_
  exact .bind (.onBus (.rd _)) fun mldsa => handler_full _

theorem handler_opRandom (n : UInt32) : Handler w OpReply.Closed (opRandom n) := by
  refine handler_ite (handler_bare _) (.bind (.onBus (byPorts_trngBytes _)) fun r => ?_)
  cases r with
  | error e => exact handler_bare _
  | ok out => exact handler_full _

theorem handler_opKeygen (tgt : SeedTgt) (pset : UInt32) {run : BusM (Except Int Bytes)}
    (hRun : ByPorts run) (pkLen : Nat) :
    Handler true OpReply.Closed (opKeygen tgt pset run pkLen) := by
  refine handler_ite (handler_bare _) (.bind .get fun d => ?_)
  cases d.freeHandle tgt with
  | none => exact handler_bare _
  | some h =>
    refine .bind (handler_seedNewClean _) fun blob => ?_
    cases blob with
    | none => exact handler_bare _
    | some blob =>
      refine .bind (.setKey _ _ _) fun _ => .bind (.onBus hRun) fun r => ?_
      cases r with
      | error e => exact handler_bare _
      | ok pk =>
        exact handler_ite (handler_bare _) (.bind (.setKey _ _ _) fun _ => handler_full _)

theorem handler_opMlkemKeygen (pset : UInt32) :
    Handler true OpReply.Closed (opMlkemKeygen pset) :=
  handler_opKeygen _ _ (byPorts_mlkemRun _ _ _ _ _) _

theorem handler_opMlkemEncaps (pset : UInt32) (pay : Bytes) :
    Handler w OpReply.Closed (opMlkemEncaps pset pay) := by
  refine handler_ite (handler_bare _) (handler_ite (handler_bare _) ?_)
  refine .bind (.onBus (byPorts_trngBytes _)) fun m => ?_
  cases m with
  | error e => exact handler_bare _
  | ok m =>
    refine .bind (.onBus (byPorts_mlkemRun _ _ _ _ _)) fun r => ?_
    cases r with
    | error e => exact handler_bare _
    | ok out => exact handler_ite (handler_bare _) (handler_full _)

theorem handler_opMlkemDecaps (h : UInt32) (pay : Bytes) :
    Handler w OpReply.Closed (opMlkemDecaps h pay) := by
  refine .bind .get fun d => ?_
  cases d.usedEntry .mlkem h with
  | none => exact handler_bare _
  | some k =>
    refine handler_ite (handler_bare _) (.bind (handler_seedReplayClean _ _) fun staged => ?_)
    refine handler_ite (handler_bare _) (.bind (.onBus (byPorts_mlkemRun _ _ _ _ _)) fun r => ?_)
    cases r with
    | error e => exact handler_bare _
    | ok out => exact handler_full _

theorem handler_opMldsaKeygen (pset : UInt32) :
    Handler true OpReply.Closed (opMldsaKeygen pset) :=
  handler_opKeygen _ _ (.bind (byPorts_mldsaRun _ _ _ _ _ _ _) fun _ => .pure _) _

theorem handler_opMldsaSign (h a1 : UInt32) (pay : Bytes) :
    Handler w OpReply.Closed (opMldsaSign h a1 pay) := by
  refine .bind .get fun d => ?_
  cases d.usedEntry .mldsa h with
  | none => exact handler_bare _
  | some k =>
    refine handler_ite (handler_bare _) (handler_ite (handler_bare _) (.bind .env fun e => ?_))
    refine handler_ite (handler_bare _) (.bind (.onBus (byPorts_trngBytes _)) fun rnd => ?_)
    cases rnd with
    | error e => exact handler_bare _
    | ok rnd =>
      refine .bind (handler_seedReplayClean _ _) fun staged => handler_ite (handler_bare _) ?_
      refine .bind (.onBus (byPorts_mldsaRun _ _ _ _ _ _ _)) fun r => ?_
      cases r with
      | error e => exact handler_bare _
      | ok sig => exact handler_ite (handler_bare _) (handler_full _)

theorem handler_opMldsaVerify (pset a1 : UInt32) (pay : Bytes) :
    Handler w OpReply.Closed (opMldsaVerify pset a1 pay) := by
  refine handler_ite (handler_bare _) (handler_ite (handler_bare _) (handler_ite (handler_bare _) ?_))
  refine .bind (.onBus (byPorts_mldsaRun _ _ _ _ _ _ _)) fun r => ?_
  cases r with
  | error e => exact handler_bare _
  | ok out => exact handler_bare _

theorem handler_opSymkeyGen (slot keyLen : UInt32) :
    Handler w OpReply.Closed (opSymkeyGen slot keyLen) := by
  refine handler_ite (handler_bare _) (.bind (.tee _) fun blob => ?_)
  cases blob with
  | none => exact handler_bare _
  | some blob => exact handler_full _

theorem handler_opSymkeyLoad (slot : UInt32) (pay : Bytes) :
    Handler w OpReply.Closed (opSymkeyLoad slot pay) := by
  refine handler_ite (handler_bare _) (.bind (.tee _) fun done => ?_)
  cases done with
  | none => exact handler_bare _
  | some _ => exact handler_full _

theorem handler_opSymkeyKat (vec : UInt32) : Handler w OpReply.Closed (opSymkeyKat vec) := by
  refine .bind (.tee _) fun done => ?_
  cases done with
  | none => exact handler_bare _
  | some _ => exact handler_full _

theorem handler_opPqcBlobExport (kind h : UInt32) :
    Handler w OpReply.Closed (opPqcBlobExport kind h) := by
  refine .bind .get fun d => ?_
  cases (kindTgt kind).bind fun tgt => d.usedEntry tgt h with
  | none => exact handler_bare _
  | some k => exact handler_full _

theorem handler_opPqcBlobImport (kind pset : UInt32) (pay : Bytes) :
    Handler true OpReply.Closed (opPqcBlobImport kind pset pay) := by
  unfold opPqcBlobImport
  cases kindTgt kind with
  | none => exact handler_bare _
  | some tgt =>
    refine handler_ite (handler_bare _) (.bind .get fun d => ?_)
    cases d.freeHandle tgt with
    | none => exact handler_bare _
    | some h => exact .bind (.setKey _ _ _) fun _ => handler_full _

theorem handler_opSymBlock (a0 a1 : UInt32) (pay : Bytes) :
    Handler w OpReply.Closed (opSymBlock a0 a1 pay) := by
  refine handler_ite (handler_bare _) (handler_ite (handler_bare _) ?_)
  refine .bind (.onBus (byPorts_symBlock _ _ _ _)) fun r => ?_
  cases r with
  | error e => exact handler_bare _
  | ok out => exact handler_full _

theorem handler_opSm3 (pay : Bytes) : Handler w OpReply.Closed (opSm3 pay) := by
  refine handler_ite (handler_bare _) (.bind (.onBus (byPorts_symSm3 _)) fun r => ?_)
  cases r with
  | error e => exact handler_bare _
  | ok out => exact handler_full _

theorem handler_opSymCrypt (a0 a1 : UInt32) (pay : Bytes) :
    Handler w OpReply.Closed (opSymCrypt a0 a1 pay) := by
  unfold opSymCrypt
  dsimp only
  split
  · exact handler_bare _
  · refine handler_ite (handler_bare _) (handler_ite (handler_bare _) (handler_ite (handler_bare _) ?_))
    refine handler_ite (handler_bare _) (handler_ite (handler_bare _) ?_)
    refine .bind (.onBus (byPorts_symCrypt _ _ _ _ _ _ _)) fun r => ?_
    cases r with
    | error e => exact handler_bare _
    | ok out => exact handler_full _

theorem handler_if {α : Type} {S : α → Prop} {c : Prop} [Decidable c] {p q : FpgadM α}
    (hp : c → Handler w S p) (hq : Handler w S q) : Handler w S (if c then p else q) := by
  split
  · exact hp ‹_›
  · exact hq

/-- Of the operations that reach the registers through the ports, three change the tables. -/
theorem handler_handleOp {q : PqcsReq} (hDna : q.op ≠ OP_DEVICE_DNA) (hWrites : w = true ∨
    q.op ≠ OP_MLKEM_KEYGEN ∧ q.op ≠ OP_MLDSA_KEYGEN ∧ q.op ≠ OP_PQC_BLOB_IMPORT) :
    Handler w OpReply.Closed (handleOp q) := by
  have hKem (hOp : q.op = OP_MLKEM_KEYGEN) : Handler w OpReply.Closed (opMlkemKeygen q.a0) := by
    rcases hWrites with rfl | ⟨hNe, -, -⟩
    · exact handler_opMlkemKeygen _
    · exact absurd hOp hNe
  have hDsa (hOp : q.op = OP_MLDSA_KEYGEN) : Handler w OpReply.Closed (opMldsaKeygen q.a0) := by
    rcases hWrites with rfl | ⟨-, hNe, -⟩
    · exact handler_opMldsaKeygen _
    · exact absurd hOp hNe
  have hImport (hOp : q.op = OP_PQC_BLOB_IMPORT) :
      Handler w OpReply.Closed (opPqcBlobImport q.a0 q.a1 q.payload.val) := by
    rcases hWrites with rfl | ⟨-, -, hNe⟩
    · exact handler_opPqcBlobImport _ _ _
    · exact absurd hOp hNe
  refine handler_ite handler_opPing ?_
  rw [if_neg hDna]
  refine handler_ite (handler_opRandom _) (handler_if hKem ?_)
  refine handler_ite (handler_opMlkemEncaps _ _) (handler_ite (handler_opMlkemDecaps _ _) ?_)
  refine handler_if hDsa (handler_ite (handler_opMldsaSign _ _ _) ?_)
  refine handler_ite (handler_opMldsaVerify _ _ _) (handler_ite (handler_bare _) ?_)
  refine handler_ite (handler_opSymkeyGen _ _) (handler_ite (handler_opSymkeyLoad _ _) ?_)
  refine handler_ite (handler_opPqcBlobExport _ _) (handler_if hImport ?_)
  refine handler_ite (handler_opSymkeyKat _) (handler_ite (handler_opSymBlock _ _ _) ?_)
  exact handler_ite (handler_opSm3 _) (handler_ite (handler_opSymCrypt _ _ _) (handler_bare _))

end Handlers

end PqcHsm
