import PqcHsm.Hal.Accel

/-!
# Handshakes of the accelerator that do not overlap

A handshake writes every register and all of the input that its start reads, and reads only what its
start has set. So an operation whose handshakes overlap no other one returns what it returns alone.
-/

namespace PqcHsm

open ByteCodec Exclusion Transition

variable {core : AccelCore}

/-- The two transports hold the same result. -/
def SameResult (t t' : AccelTransport) : Prop :=
  t.outLen = t'.outLen ∧ t.stream = t'.stream ∧ t.outValid = t'.outValid ∧ t.output = t'.output

theorem fetch_sameResult {t t' : AccelTransport} (h : SameResult t t') :
    SameResult t.fetch t'.fetch := by
  obtain ⟨hLen, hStream, hValid, hOutput⟩ := h
  simp only [SameResult, AccelTransport.fetch, hLen, hStream, hValid]
  split <;> simp [hLen, hStream, hValid, hOutput]

theorem readData_sameResult {t t' : AccelTransport} (h : SameResult t t') (off n : Nat) :
    t.readData off n = t'.readData off n := by
  obtain ⟨-, -, -, hOutput⟩ := fetch_sameResult h
  simp only [AccelTransport.readData, hOutput]

theorem agrees_axReadData (off n : Nat) :
    (axReadData off n).Agrees SameResult fun _ => SameResult := by
  intro t t' h
  constructor
  · simp [axReadData, Thread.outcome, readData_sameResult h]
  · simpa [axReadData] using fetch_sameResult h

/-! ### The command handshake -/

theorem run_pollDone_done {t : AccelTransport} (h : t.status &&& ACCEL_ST_DONE ≠ 0)
    (spins : Nat) (st : UInt32) : (pollDone (spins + 1) st).run t = (t.status, [], t) := by
  simp [pollDone, axReadStatus, h]

theorem run_pollDone_busy {t : AccelTransport} (h : t.status &&& ACCEL_ST_DONE = 0)
    (spins : Nat) {st : UInt32} (hSt : st &&& ACCEL_ST_DONE = 0) :
    ∃ st', st' &&& ACCEL_ST_DONE = 0 ∧ (pollDone spins st).run t = (st', [], t) := by
  induction spins generalizing st with
  | zero => exact ⟨st, hSt, rfl⟩
  | succ spins ih =>
    obtain ⟨st', hSt', hRun⟩ := ih h
    exact ⟨st', hSt', by simp [pollDone, axReadStatus, h, hRun]⟩

/-- The registers and the input that a handshake writes before its start. -/
def AccelTransport.loaded (t : AccelTransport) (mode param : UInt32) (input : Bytes) :
    AccelTransport :=
  let t := { t with mode := mode, param := param, inLen := UInt32.ofNat input.length }
  if input.length ≠ 0 then t.writeData 0 input else t

theorem loaded_fields (t : AccelTransport) (mode param : UInt32) {input : Bytes}
    (h : input.length ≤ ACCEL_BUF_MAX) :
    (t.loaded mode param input).mode = mode ∧ (t.loaded mode param input).param = param ∧
      (t.loaded mode param input).startInput = input := by
  have hLen : (UInt32.ofNat input.length).toNat = input.length := by
    rw [UInt32.toNat_ofNat']
    simp only [ACCEL_BUF_MAX] at h
    omega
  rw [AccelTransport.loaded]
  split
  · have hFits : 0 < ACCEL_BUF_MAX ∧ input.length ≤ ACCEL_BUF_MAX - 0 := ⟨by decide, h⟩
    simp [AccelTransport.writeData, AccelTransport.startInput, hFits.1, hLen, h]
  · rename_i hEmpty
    have hNil : input = [] := List.length_eq_zero_iff.mp (not_not.mp hEmpty)
    simp [AccelTransport.startInput, hNil]

theorem run_commandResult_done {t : AccelTransport} (h : t.status = ACCEL_ST_DONE) :
    commandResult.run t = ((.ok, t.outLen), [], t) := by
  have hDone : t.status &&& ACCEL_ST_DONE ≠ 0 := by rw [h]; decide
  have hErr : ¬t.status &&& ACCEL_ST_ERR ≠ 0 := by rw [h]; decide
  simp only [commandResult, Thread.bind_eq_bind, Thread.run_bind]
  rw [run_pollDone_done hDone, if_neg hDone, if_neg hErr]
  simp [axReadOutLen]

theorem run_commandResult_failed {t : AccelTransport}
    (h : t.status = ACCEL_ST_DONE ||| ACCEL_ST_ERR) :
    commandResult.run t =
      ((if t.errCode = 3 then .errUnsupported else .errBackend, 0), [], t) := by
  have hDone : t.status &&& ACCEL_ST_DONE ≠ 0 := by rw [h]; decide
  have hErr : t.status &&& ACCEL_ST_ERR ≠ 0 := by rw [h]; decide
  simp only [commandResult, Thread.bind_eq_bind, Thread.run_bind]
  rw [run_pollDone_done hDone, if_neg hDone, if_pos hErr]
  simp [axReadErrCode]

theorem zero_busy : (0 : UInt32) &&& ACCEL_ST_DONE = 0 := by decide

theorem run_commandResult_hung {t : AccelTransport} (h : t.status = ACCEL_ST_BUSY) :
    commandResult.run t = ((.errBackend, 0), [], t) := by
  have hBusy : t.status &&& ACCEL_ST_DONE = 0 := by rw [h]; decide
  obtain ⟨st, hSt, hPoll⟩ := run_pollDone_busy hBusy 1000000 zero_busy
  simp only [commandResult, Thread.bind_eq_bind, Thread.run_bind]
  rw [hPoll, if_pos hSt]
  simp

theorem run_runParam (core : AccelCore) (t : AccelTransport) (mode param : UInt32) {input : Bytes}
    (h : input.length ≤ ACCEL_BUF_MAX) :
    (runParam core mode param input).run t =
      (match core mode param input with
        | .done outLen _ => (.ok, outLen)
        | .failed code => (if code = 3 then .errUnsupported else .errBackend, 0)
        | .hung => (.errBackend, 0),
      [.start mode param input], (t.loaded mode param input).start core) := by
  obtain ⟨hMode, hParam, hInput⟩ := loaded_fields t mode param h
  have hRun : (runParam core mode param input).run t =
      ((commandResult.run ((t.loaded mode param input).start core)).1,
        .start mode param input ::
          (commandResult.run ((t.loaded mode param input).start core)).2.1,
        (commandResult.run ((t.loaded mode param input).start core)).2.2) := by
    rw [runParam, if_neg (Nat.not_lt_of_le h)]
    rw [AccelTransport.loaded] at hMode hParam hInput ⊢
    split
    · rename_i hLen
      rw [if_pos hLen] at hMode hParam hInput
      simp [axWriteMode, axWriteParam, axWriteInLen, axWriteData, axStart, hMode, hParam, hInput]
    · rename_i hLen
      rw [if_neg hLen] at hMode hParam hInput
      simp [axWriteMode, axWriteParam, axWriteInLen, axStart, hInput]
  rw [hRun]
  simp only [AccelTransport.start, hMode, hParam, hInput]
  cases core mode param input with
  | done outLen out => rw [run_commandResult_done rfl]
  | failed code => rw [run_commandResult_failed rfl]
  | hung => rw [run_commandResult_hung rfl]

theorem agrees_runParam (mode param : UInt32) (input : Bytes) :
    (runParam core mode param input).Agrees (fun _ _ => True)
      fun r t t' => r.1 = .ok → SameResult t t' := by
  intro t t' _
  by_cases h : input.length ≤ ACCEL_BUF_MAX
  · have hStart := run_runParam core t mode param h
    have hStart' := run_runParam core t' mode param h
    obtain ⟨hMode, hParam, hInput⟩ := loaded_fields t mode param h
    obtain ⟨hMode', hParam', hInput'⟩ := loaded_fields t' mode param h
    constructor
    · rw [Thread.outcome, Thread.outcome, hStart, hStart']
    · rw [hStart, hStart']
      simp only [AccelTransport.start, hMode, hMode', hParam, hParam', hInput, hInput']
      cases core mode param input with
      | done outLen out => exact fun _ => ⟨rfl, rfl, rfl, rfl⟩
      | failed code =>
        intro hOk
        dsimp only at hOk
        split at hOk <;> cases hOk
      | hung => exact fun hOk => nomatch hOk
  · simp [runParam, Thread.outcome, Nat.lt_of_not_le h]

/-! ### Plain bodies -/

theorem plain_pollDone (spins : Nat) (st : UInt32) : (pollDone spins st).Plain := by
  induction spins generalizing st with
  | zero => trivial
  | succ spins ih =>
    apply Thread.plain_bind (Thread.plain_access _)
    intro st
    split
    · trivial
    · exact ih st

theorem plain_commandResult : commandResult.Plain := by
  apply Thread.plain_bind (plain_pollDone _ _)
  intro st
  split
  · trivial
  · split
    · exact fun _ => trivial
    · exact fun _ => trivial

theorem plain_runParam (mode param : UInt32) (input : Bytes) :
    (runParam core mode param input).Plain := by
  rw [runParam]
  split
  · trivial
  · intro _ _ _
    split
    · exact fun _ _ => plain_commandResult
    · exact fun _ => plain_commandResult

/-- A body that runs one command and then reads its result. -/
theorem bracketed_command {α : Type} (locked : Bool) (mode param : UInt32) (input : Bytes)
    {f : PqcStatus × UInt32 → AccelThread α} (hPlain : ∀ r, (f r).Plain)
    (hRead : ∀ r, (f r).Agrees (fun t t' => r.1 = .ok → SameResult t t') fun _ _ _ => True) :
    (Thread.bracket locked ((runParam core mode param input).bind f)).Bracketed false :=
  Thread.bracketed_bracket (Thread.plain_bind (plain_runParam mode param input) hPlain)
    (Thread.agrees_bind (agrees_runParam mode param input) hRead).fresh

/-- A body whose result is decided by the command. -/
theorem agrees_pure {α : Type} {R : AccelTransport → AccelTransport → Prop} (a : α) :
    (pure a : AccelThread α).Agrees R fun _ _ _ => True :=
  Thread.agrees_ret fun _ _ _ => trivial

/-- Reading is the same from the same result. -/
theorem agrees_read {α : Type} {R : AccelTransport → AccelTransport → Prop} {off n : Nat}
    {f : Bytes → AccelThread α} (hSame : ∀ t t', R t t' → SameResult t t')
    (hf : ∀ a, (f a).Agrees SameResult fun _ _ _ => True) :
    ((axReadData off n).bind f).Agrees R fun _ _ _ => True :=
  Thread.agrees_bind (fun t t' h => agrees_axReadData off n t t' (hSame t t' h)) hf

/-! ### The operations -/

theorem bracketed_pure {α : Type} (a : α) : (pure a : AccelThread α).Bracketed false := trivial

theorem bracketed_acKeypairFromSeed (alg : PqcAlg) (seed : Mem) (seedLen : Nat) :
    (acKeypairFromSeed core alg seed seedLen).Bracketed false := by
  rw [acKeypairFromSeed]
  split
  · trivial
  · split
    · trivial
    · apply bracketed_command
      · rintro ⟨st, out⟩
        dsimp only
        split
        · trivial
        · split
          · trivial
          · exact fun _ _ => trivial
      · rintro ⟨st, out⟩
        dsimp only
        split
        · exact agrees_pure _
        · rename_i hOk
          split
          · exact agrees_pure _
          · apply agrees_read
            · exact fun t t' h => h (not_not.mp hOk)
            · exact fun _ => agrees_read (fun _ _ h => h) fun _ => agrees_pure _

theorem bracketed_acKeypair (alg : PqcAlg) (random : Option Mem) :
    (acKeypair core alg random).Bracketed false := by
  unfold acKeypair
  split
  · trivial
  · trivial
  · exact bracketed_acKeypairFromSeed _ _ _

theorem bracketed_acEncapsDerand (alg : PqcAlg) (pk m : Mem) (mLen : Nat) :
    (acEncapsDerand core alg pk m mLen).Bracketed false := by
  rw [acEncapsDerand]
  split
  · trivial
  · split
    · trivial
    · split
      · trivial
      · apply bracketed_command
        · rintro ⟨st, out⟩
          dsimp only
          split
          · trivial
          · exact fun _ _ => trivial
        · rintro ⟨st, out⟩
          dsimp only
          split
          · exact agrees_pure _
          · rename_i hOk
            apply agrees_read
            · exact fun t t' h => h (not_not.mp hOk)
            · exact fun _ => agrees_read (fun _ _ h => h) fun _ => agrees_pure _

theorem bracketed_acEncaps (alg : PqcAlg) (pk : Mem) (random : Option Mem) :
    (acEncaps core alg pk random).Bracketed false := by
  unfold acEncaps
  split
  · trivial
  · exact bracketed_acEncapsDerand _ _ _ _

theorem bracketed_acDecaps (alg : PqcAlg) (sk ct : Mem) :
    (acDecaps core alg sk ct).Bracketed false := by
  rw [acDecaps]
  split
  · trivial
  · split
    · trivial
    · split
      · trivial
      · apply bracketed_command
        · rintro ⟨st, out⟩
          dsimp only
          split
          · trivial
          · exact fun _ => trivial
        · rintro ⟨st, out⟩
          dsimp only
          split
          · exact agrees_pure _
          · rename_i hOk
            apply agrees_read
            · exact fun t t' h => h (not_not.mp hOk)
            · exact fun _ => agrees_pure _

theorem bracketed_acSign (alg : PqcAlg) (sk msg : Mem) (msgLen : Nat) (ctx : Mem) (ctxLen : Nat)
    (rnd : Option Mem) (sigLen : Option Nat) :
    (acSign core alg sk msg msgLen ctx ctxLen rnd sigLen).Bracketed false := by
  unfold acSign
  split
  · trivial
  · split
    · trivial
    · split
      · trivial
      · apply bracketed_command
        · rintro ⟨st, out⟩
          dsimp only
          split
          · trivial
          · split
            · trivial
            · exact fun _ => trivial
        · rintro ⟨st, out⟩
          dsimp only
          split
          · exact agrees_pure _
          · rename_i hOk
            split
            · exact agrees_pure _
            · apply agrees_read
              · exact fun t t' h => h (not_not.mp hOk)
              · exact fun _ => agrees_pure _

theorem bracketed_acVerify (alg : PqcAlg) (pk msg : Mem) (msgLen : Nat) (ctx : Mem) (ctxLen : Nat)
    (sig : Mem) (sigLen : Nat) :
    (acVerify core alg pk msg msgLen ctx ctxLen sig sigLen).Bracketed false := by
  rw [acVerify]
  split
  · trivial
  · split
    · trivial
    · split
      · trivial
      · apply Thread.bracketed_bind
        · exact Thread.bracketed_bracket (plain_runParam _ _ _) (agrees_runParam _ _ _).fresh
        · rintro ⟨st, out⟩
          dsimp only
          split
          · trivial
          · trivial

theorem bracketed_accelBlock (mode : UInt32) (block : Bytes) :
    (accelBlock core mode block).Bracketed false := by
  apply bracketed_command
  · rintro ⟨st, olen⟩
    dsimp only
    split
    · trivial
    · exact fun _ => trivial
  · rintro ⟨st, olen⟩
    dsimp only
    split
    · exact agrees_pure _
    · rename_i hOk
      apply agrees_read
      · exact fun t t' h => h (not_not.mp fun hNe => hOk (.inl hNe))
      · exact fun _ => agrees_pure _

theorem bracketed_accelNtt (input : Option Mem) (hasOut inverse : Bool) :
    (accelNtt core input hasOut inverse).Bracketed false := by
  unfold accelNtt
  split
  · exact bracketed_accelBlock _ _
  · trivial

theorem bracketed_accelKeccakF1600 (stateIn : Option Mem) (hasOut : Bool) :
    (accelKeccakF1600 core stateIn hasOut).Bracketed false := by
  unfold accelKeccakF1600
  split
  · exact bracketed_accelBlock _ _
  · trivial

theorem bracketed_shakeInPl (rate : UInt32) (suffix : UInt8) (msg : Bytes) (outLen : Nat) :
    (shakeInPl core rate suffix msg outLen).Bracketed false := by
  rw [shakeInPl]
  split
  · trivial
  · apply bracketed_command
    · rintro ⟨st, olen⟩
      dsimp only
      split
      · trivial
      · split
        · trivial
        · exact fun _ => trivial
    · rintro ⟨st, olen⟩
      dsimp only
      split
      · exact agrees_pure _
      · split
        · exact agrees_pure _
        · rename_i hOk
          apply agrees_read
          · exact fun t t' h => h (not_not.mp fun hNe => hOk (.inl hNe))
          · exact fun _ => agrees_pure _

theorem bracketed_permuteState (state : Bytes) : (permuteState core state).Bracketed false :=
  bracketed_accelKeccakF1600 _ _

theorem bracketed_shakeAbsorb (rate blocks : Nat) (msg state : Bytes) :
    (shakeAbsorb core rate blocks msg state).Bracketed false := by
  induction blocks generalizing msg state with
  | zero => trivial
  | succ blocks ih =>
    apply Thread.bracketed_bind (bracketed_permuteState _)
    intro state'
    cases state' with
    | none => trivial
    | some state' => exact ih _ _

theorem bracketed_shakeSqueeze (rate outLen blocks : Nat) (out state : Bytes) :
    (shakeSqueeze core rate outLen blocks out state).Bracketed false := by
  induction blocks generalizing out state with
  | zero => trivial
  | succ blocks ih =>
    apply Thread.bracketed_bind (bracketed_permuteState _)
    intro state'
    cases state' with
    | none => trivial
    | some state' => exact ih _ _

theorem bracketed_shakeInSoftware (rate : Nat) (suffix : UInt8) (msg : Bytes) (outLen : Nat) :
    (shakeInSoftware core rate suffix msg outLen).Bracketed false := by
  apply Thread.bracketed_bind (bracketed_shakeAbsorb _ _ _ _)
  intro state
  cases state with
  | none => trivial
  | some state =>
    apply Thread.bracketed_bind (bracketed_permuteState _)
    intro state'
    cases state' with
    | none => trivial
    | some state' => exact bracketed_shakeSqueeze _ _ _ _ _

theorem bracketed_accelShake (rate : Int) (suffix : UInt8) (msg : Option Mem) (msgLen : Nat)
    (hasOut : Bool) (outLen : Nat) :
    (accelShake core rate suffix msg msgLen hasOut outLen).Bracketed false := by
  rw [accelShake]
  split
  · trivial
  · apply Thread.bracketed_bind (bracketed_shakeInPl _ _ _ _)
    intro hw
    cases hw with
    | done out => trivial
    | failed => trivial
    | notThere => exact bracketed_shakeInSoftware _ _ _ _

theorem bracketed_thread (call : AccelCall) : (call.thread core).Bracketed false := by
  cases call with
  | keypair alg random => exact bracketed_acKeypair _ _
  | keypairFromSeed alg seed seedLen => exact bracketed_acKeypairFromSeed _ _ _
  | encaps alg pk random => exact bracketed_acEncaps _ _ _
  | encapsDerand alg pk m mLen => exact bracketed_acEncapsDerand _ _ _ _
  | decaps alg sk ct => exact bracketed_acDecaps _ _ _
  | sign alg sk msg msgLen ctx ctxLen rnd sigLen => exact bracketed_acSign _ _ _ _ _ _ _ _
  | verify alg pk msg msgLen ctx ctxLen sig sigLen => exact bracketed_acVerify _ _ _ _ _ _ _ _
  | ntt input hasOut inverse =>
    exact Thread.bracketed_bind (bracketed_accelNtt _ _ _) fun _ => trivial
  | keccakF1600 stateIn hasOut =>
    exact Thread.bracketed_bind (bracketed_accelKeccakF1600 _ _) fun _ => trivial
  | shake rate suffix msg msgLen hasOut outLen => exact bracketed_accelShake _ _ _ _ _ _

/-! ### The operations of all threads -/

section Threads

variable {ι : Type} [DecidableEq ι]

/-- While no handshake that takes no lock overlaps another one, an operation returns and gives to
the core what it does alone. -/
theorem accel_outcome_alone (core : AccelCore)
    {c : Config ι AccelCall AccelTransport AccelEvent AccelReply}
    (hRun : Reachable (system ι (AccelCall.thread core)) Apart c)
    (x : Returned ι AccelCall AccelEvent AccelReply) (hReturned : x ∈ c.returned)
    (alone : AccelTransport) :
    (x.op.thread core).outcome alone = (x.result, x.events) :=
  outcome_of_returned bracketed_thread hRun x hReturned alone

end Threads

/-! ### Two threads that make key pairs -/

def sampleTransport : AccelTransport := ⟨0, 0, 0, [], 0, 0, 0, [], true, []⟩

/-- A core whose results repeat the first byte of the input. -/
def sampleCore : AccelCore := fun _ _ input => .done 2432 (List.replicate 2432 (input.headD 0))

abbrev SampleConfig := Config Bool AccelCall AccelTransport AccelEvent AccelReply

def sampleKeypair (b : UInt8) : AccelCall := .keypairFromSeed .mlKem512 (fun _ => b) 64

/-- The accesses of a handshake up to its start, and those from its start on. -/
def loadActs (t : Bool) : List (Act Bool AccelCall) :=
  .enter t false :: List.replicate 4 (.access t)

def finishActs (t : Bool) : List (Act Bool AccelCall) :=
  List.replicate 5 (.access t) ++ [.leave t, .ret t]

def keypairsInTurn : Option SampleConfig :=
  (Config.idle sampleTransport).after (AccelCall.thread sampleCore) Apart
    ([.call false (sampleKeypair 1), .call true (sampleKeypair 2)] ++ loadActs false ++
      finishActs false ++ loadActs true ++ finishActs true)

def keypairsAtOnce : Option SampleConfig :=
  (Config.idle sampleTransport).after (AccelCall.thread sampleCore) anyStep
    ([.call false (sampleKeypair 1), .call true (sampleKeypair 2)] ++ loadActs false ++
      loadActs true ++ finishActs false)

theorem keypairs_in_turn_alone :
    ∃ c : SampleConfig, c.returned.length = 2 ∧ ∀ x ∈ c.returned,
      (x.op.thread sampleCore).outcome sampleTransport = (x.result, x.events) := by
  have hRun : (keypairsInTurn.any fun c => c.returned.length = 2) = true := by decide
  obtain ⟨c, hc, hTwo⟩ := (Option.any_eq_true _ _).mp hRun
  exact ⟨c, of_decide_eq_true hTwo, fun x hx =>
    accel_outcome_alone sampleCore (reachable_of_after (reachable_idle _) hc) x hx _⟩

/-- The first thread has loaded its seed when the second one loads its own, and the first one takes
the key pair of the second seed. -/
theorem keypair_of_other_seed :
    ¬∀ (core : AccelCore) (c : SampleConfig),
      Reachable (system Bool (AccelCall.thread core)) anyStep c →
      ∀ x ∈ c.returned, ∀ alone,
        (x.op.thread core).outcome alone = (x.result, x.events) := by
  intro hAll
  have hRun : (keypairsAtOnce.any fun c => c.returned.any fun x =>
      (x.result.out.map List.head?) = [some 2, some 2] ∧
      (((x.op.thread sampleCore).outcome sampleTransport).1.out.map List.head?) =
        [some 1, some 1]) = true := by decide +kernel
  obtain ⟨c, hc, hAny⟩ := (Option.any_eq_true _ _).mp hRun
  obtain ⟨x, hx, hHeads⟩ := List.any_eq_true.mp hAny
  obtain ⟨hGot, hDue⟩ := of_decide_eq_true hHeads
  have hOutcome := hAll sampleCore c (reachable_of_after (reachable_idle _) hc) x hx sampleTransport
  rw [hOutcome, hGot] at hDue
  exact absurd hDue (by decide)

end PqcHsm
