import PqcHsm.Daemon.FailClosed
import PqcHsm.Library.Growth

/-!
# What the daemon does after a fault

The accesses behind the first one that failed are counted. A loop that looks at the fault flag makes at
most one more of them; the loop that waits for the ML-KEM core does not look at it.
-/

namespace PqcHsm

open ByteCodec Stateful

/-! ### The accesses behind a fault -/

/-- The first access that failed. -/
def firstFault (ts : List HwAccess) : Option HwAccess := ts.find? fun a => ¬a.Ok

/-- The accesses behind the first one that failed. -/
def afterFault : List HwAccess → List HwAccess
  | [] => []
  | a :: ts => if a.Ok then afterFault ts else ts

/-- How often the registers may still be accessed. -/
def reach (q : PqcsReq) : Nat :=
  40 + if q.op = OP_RANDOM then q.a0.toNat else if q.op = OP_SYM_CRYPT then q.payload.val.length else 0

/-- If an access fails, the request is answered with an error after few more accesses. -/
def EndsAtOnce (q : PqcsReq) (e : FpgadEnv) (d : Fpgad) : Prop :=
  let r := (serveReq q).run e d.fresh
  (∃ a ∈ r.2.bus.trace, ¬a.Ok) →
    r.1.status ≠ SDR_OK ∧ (afterFault r.2.bus.trace).length ≤ reach q

/-- The request passes the checks of its arguments and runs a command on the ML-KEM core. -/
def RunsMlkem (q : PqcsReq) (d : Fpgad) : Prop :=
  (q.op = OP_MLKEM_KEYGEN ∧ q.a0 ≤ 2 ∧ (d.freeHandle .mlkem).isSome) ∨
  (q.op = OP_MLKEM_ENCAPS ∧ q.a0 ≤ 2 ∧ q.payload.val.length = (mlkemLen q.a0).ek) ∨
  (q.op = OP_MLKEM_DECAPS ∧ ∃ k, d.usedEntry .mlkem q.a0 = some k ∧
    q.payload.val.length = (mlkemLen k.pset).ct)

/-- What a command of the ML-KEM core accesses from its mode to the end of its loop. -/
def MlkemWindow : HwAccess → Prop
  | .read addr _ => addr = PL_BASE + MK_INPTR ∨ addr = PL_BASE + MK_STATUS
  | .write addr v _ => addr = PL_BASE + MK_MODE ∨ addr = PL_BASE + MK_INDATA ∨
      addr = PL_BASE + MK_INDATA4 ∨ addr = PL_BASE + MK_CTRL ∧ (v = MKC_INRST ∨ v = MKC_START)

/-- The loop makes at most one access with the fault flag up. -/
def OneMore {α : Type} (loop : BusM α) : Prop :=
  ∀ e b, b.Honest → (afterFault (loop.run e b).2.trace).length ≤ (afterFault b.trace).length + 1

/-! ### Counting -/

section Counting

variable {W : HwAccess → Prop} {ts : List HwAccess} {a : HwAccess}

theorem afterFault_append_of_ok (h : ∀ x ∈ ts, x.Ok) (rest : List HwAccess) :
    afterFault (ts ++ rest) = afterFault rest := by
  induction ts with
  | nil => rfl
  | cons x ts ih =>
    obtain ⟨hx, hts⟩ := List.forall_mem_cons.mp h
    rw [List.cons_append, afterFault, if_pos hx]
    exact ih hts

theorem firstFault_append_of_ok (h : ∀ x ∈ ts, x.Ok) (rest : List HwAccess) :
    firstFault (ts ++ rest) = firstFault rest := by
  have hNone : ts.find? (fun x => decide ¬x.Ok) = none := by
    rw [List.find?_eq_none]
    intro x hx
    simpa using h x hx
  rw [firstFault, List.find?_append, hNone]
  rfl

theorem firstFault_append_of_some (h : firstFault ts = some a) (rest : List HwAccess) :
    firstFault (ts ++ rest) = some a := by
  rw [firstFault, List.find?_append]
  rw [firstFault] at h
  rw [h]
  rfl

theorem firstFault_none_iff : firstFault ts = none ↔ ∀ x ∈ ts, x.Ok := by
  rw [firstFault, List.find?_eq_none]
  simp

theorem exists_fault (h : 0 < (afterFault ts).length) : ∃ a ∈ ts, ¬a.Ok := by
  by_contra hNone
  push Not at hNone
  have hEmpty := afterFault_append_of_ok hNone []
  rw [List.append_nil] at hEmpty
  rw [hEmpty] at h
  exact absurd h (by decide)

theorem length_afterFault_le : (afterFault ts).length ≤ ts.length := by
  induction ts with
  | nil => exact Nat.le_refl 0
  | cons x ts ih =>
    rw [afterFault, List.length_cons]
    split
    · exact ih.trans (Nat.le_succ _)
    · exact Nat.le_succ _

theorem length_afterFault_append (rest : List HwAccess) :
    (afterFault (ts ++ rest)).length ≤ (afterFault ts).length + rest.length := by
  induction ts with
  | nil => exact length_afterFault_le.trans (Nat.le_add_left _ _)
  | cons x ts ih =>
    rw [List.cons_append, afterFault, afterFault]
    split
    · exact ih
    · rw [List.length_append]

open Classical in
/-- The accesses behind the first one that failed, unless that one is excused. -/
noncomputable def lag (W : HwAccess → Prop) (ts : List HwAccess) : Nat :=
  if ∃ a, firstFault ts = some a ∧ W a then 0 else (afterFault ts).length

theorem lag_le : lag W ts ≤ (afterFault ts).length := by
  rw [lag]
  split
  · exact Nat.zero_le _
  · exact Nat.le_refl _

theorem lag_of_not (h : ∀ x, firstFault ts = some x → ¬W x) : lag W ts = (afterFault ts).length := by
  rw [lag, if_neg]
  rintro ⟨x, hx, hW⟩
  exact h x hx hW

theorem lag_excused (h : firstFault ts = some a) (hW : W a) (rest : List HwAccess) :
    lag W (ts ++ rest) = 0 := by
  rw [lag, if_pos ⟨a, firstFault_append_of_some h rest, hW⟩]

theorem lag_append (rest : List HwAccess) : lag W (ts ++ rest) ≤ lag W ts + rest.length := by
  by_cases h : ∃ x, firstFault ts = some x ∧ W x
  · obtain ⟨x, hx, hW⟩ := h
    rw [lag_excused hx hW]
    exact Nat.zero_le _
  · have hEq : lag W ts = (afterFault ts).length := by
      rw [lag, if_neg h]
    rw [hEq]
    exact lag_le.trans (length_afterFault_append rest)

theorem lag_of_ok (h : ∀ x ∈ ts, x.Ok) : lag W ts = 0 := by
  have hEnd := afterFault_append_of_ok h []
  rw [List.append_nil] at hEnd
  have hLe := @lag_le W ts
  rw [hEnd] at hLe
  exact Nat.le_zero.mp hLe

/-- The access itself is not behind the first one that failed. -/
theorem lag_next_of_ok (h : ∀ x ∈ ts, x.Ok) : lag W (ts ++ [a]) = 0 := by
  have hLe := @lag_le W (ts ++ [a])
  rw [afterFault_append_of_ok h, afterFault] at hLe
  have hEnd : (if a.Ok then afterFault [] else []).length = 0 := by
    split <;> rfl
  exact Nat.le_zero.mp (hLe.trans hEnd.le)

end Counting

/-! ### One access -/

section Access

variable {W : HwAccess → Prop}

/-- The program raises the number of accesses behind a fault by no more than `k`. -/
abbrev Lags (W : HwAccess → Prop) (k : Nat) {α : Type} (p : BusM α) : Prop :=
  Grows Bus.Honest (fun b => lag W b.trace) k p

theorem trace_rd (off : Nat) (e : BusEnv) (b : Bus) :
    ∃ v, ((rd off).run e b).2.trace = b.trace ++ [.read (PL_BASE + off) v] := by
  dsimp only [rd]
  split
  · exact ⟨_, rfl⟩
  · exact ⟨none, rfl⟩

theorem trace_wr (off : Nat) (v : UInt32) (e : BusEnv) (b : Bus) :
    ∃ ok, ((wr off v).run e b).2.trace = b.trace ++ [.write (PL_BASE + off) v ok] := by
  dsimp only [wr]
  split
  · exact ⟨true, rfl⟩
  · exact ⟨false, rfl⟩

theorem lags_rd (off : Nat) : Lags W 1 (rd off) := by
  intro e b h
  obtain ⟨v, hTrace⟩ := trace_rd off e b
  refine ⟨keeps_honest_rd off e b h, ?_⟩
  dsimp only
  rw [hTrace]
  exact lag_append _

theorem lags_wr (off : Nat) (v : UInt32) : Lags W 1 (wr off v) := by
  intro e b h
  obtain ⟨ok, hTrace⟩ := trace_wr off v e b
  refine ⟨keeps_honest_wr off v e b h, ?_⟩
  dsimp only
  rw [hTrace]
  exact lag_append _

theorem run_guarded {α : Type} (p q : BusM α) (e : BusEnv) (b : Bus) :
    (do if ← hwFault then p else q : BusM α).run e b = if b.fault then p.run e b else q.run e b :=
  Stateful.run_ite e b p q

/-- A part that looks at the flag before its access adds nothing. -/
theorem lags_guarded_rd {α : Type} {a : α} {off : Nat} {f : UInt32 → BusM α}
    (hf : ∀ v, Lags W 0 (f v)) : Lags W 0 (do
      if ← hwFault then pure a
      else do
        let v ← rd off
        f v) := by
  intro e b h
  rw [run_guarded]
  cases hFault : b.fault with
  | true => exact ⟨h, Nat.le_refl _⟩
  | false =>
    obtain ⟨v, hTrace⟩ := trace_rd off e b
    have hNone : lag W ((rd off).run e b).2.trace = 0 := by
      rw [hTrace]
      exact lag_next_of_ok (h hFault)
    obtain ⟨hHonest, hRest⟩ := hf _ e _ (keeps_honest_rd off e b h)
    dsimp only at hRest
    rw [hNone] at hRest
    exact ⟨hHonest, hRest.trans (Nat.zero_le _)⟩

theorem lags_guarded_wr {α : Type} {a : α} {off : Nat} {v : UInt32} {p : BusM α}
    (hp : Lags W 0 p) : Lags W 0 (do
      if ← hwFault then pure a
      else do
        wr off v
        p) := by
  intro e b h
  rw [run_guarded]
  cases hFault : b.fault with
  | true => exact ⟨h, Nat.le_refl _⟩
  | false =>
    obtain ⟨ok, hTrace⟩ := trace_wr off v e b
    have hNone : lag W ((wr off v).run e b).2.trace = 0 := by
      rw [hTrace]
      exact lag_next_of_ok (h hFault)
    obtain ⟨hHonest, hRest⟩ := hp e _ (keeps_honest_wr off v e b h)
    dsimp only at hRest
    rw [hNone] at hRest
    exact ⟨hHonest, hRest.trans (Nat.zero_le _)⟩

/-- A part that looks at the flag behind its access adds no more than the access. -/
theorem lags_then_guarded {α β : Type} {p : BusM β} {a : β → α} {q : β → BusM α} (hp : Lags W 1 p)
    (hq : ∀ v, Lags W 1 (q v)) : Lags W 1 (do
      let v ← p
      if ← hwFault then pure (a v)
      else q v) := by
  intro e b h
  obtain ⟨hHonest, hFirst⟩ := hp e b h
  rw [Stateful.run_bind, run_guarded]
  cases hFault : (p.run e b).2.fault with
  | true => exact ⟨hHonest, hFirst⟩
  | false =>
    have hNone : lag W (p.run e b).2.trace = 0 := lag_of_ok (hHonest hFault)
    obtain ⟨hHonest', hRest⟩ := hq (p.run e b).1 e _ hHonest
    dsimp only at hRest
    rw [hNone] at hRest
    exact ⟨hHonest', hRest.trans (Nat.add_le_add_right (Nat.zero_le _) 1)⟩

theorem lags_hwFault : Lags W 0 hwFault := fun _ _ h => ⟨h, Nat.le_refl _⟩

end Access

/-! ### The loops -/

section Loops

variable {W : HwAccess → Prop}

theorem lags_spinUntil (reg : Nat) (bit : UInt32) (limit : Nat) :
    Lags W 0 (spinUntil reg bit limit) := by
  induction limit with
  | zero => exact grows_pure ()
  | succ limit ih =>
    apply lags_guarded_rd
    intro v
    exact grows_ite (grows_pure ()) ih

theorem lags_waitClear (reg : Nat) (bit : UInt32) (limit : Nat) :
    Lags W 1 (waitClear reg bit limit) := by
  induction limit with
  | zero => exact grows_pure false
  | succ limit ih =>
    apply lags_then_guarded (lags_rd reg)
    intro v
    exact grows_ite (grows_pure true) ih

theorem lags_mldsaPoll (polls : Nat) (st : UInt32) : Lags W 0 (mldsaPoll polls st) := by
  induction polls generalizing st with
  | zero => exact grows_pure _
  | succ polls ih =>
    apply lags_guarded_rd
    intro st
    exact grows_ite (grows_pure _) (grows_ite (grows_pure _) (ih st))

theorem lags_feedBytes (reg1 : Nat) (input : Bytes) : Lags W 0 (feedBytes reg1 input) := by
  induction input with
  | nil => exact grows_pure ()
  | cons c rest ih => exact lags_guarded_wr ih

theorem lags_feedPacked (reg4 reg1 : Nat) (input : Bytes) : Lags W 0 (feedPacked reg4 reg1 input) := by
  induction input using feedPacked.induct with
  | case1 a b c d rest ih => exact lags_guarded_wr ih
  | case2 rest hShort =>
    rw [feedPacked.eq_2 _ _ _ hShort]
    exact lags_feedBytes _ _

theorem lags_drainBytes (reg1 n : Nat) : Lags W 0 (drainBytes reg1 n) := by
  induction n with
  | zero => exact grows_pure _
  | succ n ih =>
    apply lags_guarded_rd
    intro v
    exact grows_map ih _

theorem lags_drainRead (reg4 reg1 n : Nat) : Lags W 0 (drainRead reg4 reg1 n) := by
  induction n using drainRead.induct with
  | case1 n ih =>
    apply lags_guarded_rd
    intro v
    exact grows_map ih _
  | case2 n hShort =>
    rw [drainRead.eq_2 _ _ _ hShort]
    exact lags_drainBytes _ _

theorem lags_drainPacked (reg4 reg1 n : Nat) : Lags W 0 (drainPacked reg4 reg1 n) :=
  grows_bind (k := 0) (lags_drainRead _ _ _) fun _ =>
    grows_bind (k := 0) grows_read fun _ => grows_pure _

theorem lags_hashBytes (input : Bytes) : Lags W 1 (hashBytes input) := by
  induction input with
  | nil => exact grows_pure _
  | cons c rest ih =>
    apply lags_then_guarded (lags_wr SY_HASHIN c.toUInt32)
    intro _
    exact ih

end Loops

/-! ### The commands -/

section Commands

variable {W : HwAccess → Prop}

theorem lags_trngWords (words : Nat) : Lags W (2 * words) (trngWords words) := by
  induction words with
  | zero => exact grows_pure _
  | succ words ih =>
    apply grows_bind (lags_spinUntil _ _ _)
    intro _
    apply grows_bind (lags_rd _)
    intro st
    apply grows_ite (grows_pure _)
    apply grows_bind (lags_rd _)
    intro w
    exact grows_map ih _

theorem lags_trngBytes (n : Nat) : Lags W (2 * ((n + 3) / 4) + 2) (trngBytes n) := by
  apply grows_bind (lags_wr _ _)
  intro _
  apply grows_bind (lags_spinUntil _ _ _)
  intro _
  apply grows_bind (lags_rd _)
  intro st
  apply grows_ite (grows_pure _)
  exact grows_map (lags_trngWords _) _

theorem lags_seedClr (tgt : SeedTgt) : Lags W 3 (seedClr tgt) := by
  cases tgt with
  | mlkem =>
    apply grows_bind (lags_waitClear _ _ _)
    intro still
    apply grows_ite (grows_pure _)
    apply grows_bind (lags_waitClear _ _ _)
    intro idle
    apply grows_ite (grows_pure _)
    apply grows_bind (lags_wr _ _)
    intro _
    exact grows_map lags_hwFault _
  | mldsa =>
    apply grows_bind (lags_waitClear _ _ _)
    intro still
    apply grows_ite (grows_pure _)
    apply grows_bind (lags_waitClear _ _ _)
    intro idle
    apply grows_ite (grows_pure _)
    apply grows_bind (lags_wr _ _)
    intro _
    exact grows_map lags_hwFault _

theorem lags_mldsaResult (st : UInt32) (cap : Nat) : Lags W 1 (mldsaResult st cap) := by
  apply grows_bind lags_hwFault
  intro fault
  apply grows_ite (grows_pure _)
  apply grows_bind (lags_rd _)
  intro n
  apply grows_ite (grows_pure _)
  apply grows_bind (lags_drainPacked _ _ _)
  intro out
  apply grows_bind lags_hwFault
  intro fault
  exact grows_ite (grows_pure _) (grows_pure _)

theorem lags_mldsaRun (op pset modeExtra : UInt32) (input : Bytes) (msgLen ctxLen : UInt32)
    (cap : Nat) : Lags W 10 (mldsaRun op pset modeExtra input msgLen ctxLen cap) := by
  apply grows_bind (lags_wr _ _)
  intro _
  apply grows_bind (lags_waitClear _ _ _)
  intro idle
  apply grows_ite (grows_pure _)
  apply grows_bind (lags_wr _ _)
  intro _
  apply grows_bind (lags_wr _ _)
  intro _
  apply grows_bind (lags_wr _ _)
  intro _
  apply grows_bind (lags_wr _ _)
  intro _
  apply grows_bind (lags_wr _ _)
  intro _
  apply grows_bind (lags_feedPacked _ _ _)
  intro _
  apply grows_bind lags_hwFault
  intro fault
  apply grows_ite (grows_pure _)
  apply grows_bind (lags_rd _)
  intro inPtr
  apply grows_ite
  · apply grows_map (k := 2)
    exact (lags_rd _).mono (by decide)
  · apply grows_bind (lags_wr _ _)
    intro _
    apply grows_bind (k := 0) grows_read
    intro e
    apply grows_bind (lags_mldsaPoll _ _)
    intro st
    cases st with
    | error rc => exact grows_pure _
    | ok st => exact lags_mldsaResult _ _

theorem lags_writeWords (reg : Nat) (ws : List UInt32) :
    Lags W ws.length (writeWords reg ws) := by
  induction ws generalizing reg with
  | nil => exact grows_pure ()
  | cons w ws ih =>
    apply grows_bind (lags_wr _ _)
    intro _
    exact ih _

theorem lags_readWords (reg n : Nat) : Lags W n (readWords reg n) := by
  induction n generalizing reg with
  | zero => exact grows_pure _
  | succ n ih =>
    apply grows_bind (lags_rd _)
    intro w
    exact grows_map (ih _) _

theorem length_beWords (b : Bytes) : 4 * (beWords b).length ≤ b.length := by
  induction b using beWords.induct with
  | case1 a b c d rest ih =>
    rw [beWords, List.length_cons]
    simp only [List.length_cons]
    omega
  | case2 b hShort =>
    rw [beWords.eq_2 _ hShort]
    exact Nat.zero_le _

/-- A block has no more than 16 bytes. -/
theorem lags_symBlock (alg slot : UInt32) (dec : Bool) {input : Bytes} (h : input.length ≤ 16) :
    Lags W 15 (symBlock alg slot dec input) := by
  have hWords : (beWords input).length ≤ 4 := by
    have := length_beWords input
    omega
  apply grows_bind (lags_wr _ _)
  intro _
  apply grows_bind (lags_wr _ _)
  intro _
  apply grows_bind (lags_rd _)
  intro st
  apply grows_ite (grows_pure _)
  apply grows_bind (lags_wr _ _)
  intro _
  apply grows_bind (lags_spinUntil _ _ _)
  intro _
  apply grows_bind (lags_rd _)
  intro st
  apply grows_ite (grows_pure _)
  apply grows_bind ((lags_writeWords _ _).mono hWords)
  intro _
  apply grows_bind (lags_wr _ _)
  intro _
  apply grows_bind (lags_spinUntil _ _ _)
  intro _
  apply grows_bind (lags_rd _)
  intro st
  apply grows_ite (grows_pure _)
  exact grows_map (lags_readWords _ 4) _

theorem length_readWords (reg n : Nat) (e : BusEnv) (b : Bus) :
    ((readWords reg n).run e b).1.length = 4 * n := by
  induction n generalizing reg b with
  | zero => rfl
  | succ n ih =>
    change (beBytes _ ++ ((readWords (reg + 4) n).run e _).1).length = _
    rw [List.length_append, ih, beBytes, List.length_reverse, length_putU32]
    omega

/-- What a command returns, if it returns anything. -/
def Returns {α : Type} (V : α → Prop) : Except Int α → Prop
  | .ok a => V a
  | .error _ => True

theorem spec_symBlock (alg slot : UInt32) (dec : Bool) (input : Bytes) :
    Spec (fun _ => True) (symBlock alg slot dec input) fun r _ => Returns (·.length = 16) r := by
  have hWords : Spec (fun _ => True) (readWords SY_DOUT0 4) fun out _ => out.length = 16 :=
    fun e b _ => length_readWords SY_DOUT0 4 e b
  have hNone (c : Int) : Spec (fun _ => True) (pure (.error c) : BusM (Except Int Bytes))
      fun r _ => Returns (fun out : Bytes => out.length = 16) r := fun _ _ _ => trivial
  refine spec_bind (spec_any _) fun _ => spec_bind (spec_any _) fun _ => ?_
  refine spec_bind (spec_any _) fun st => spec_ite (fun _ => hNone _) fun _ => ?_
  refine spec_bind (spec_any _) fun _ => spec_bind (spec_any _) fun _ => ?_
  refine spec_bind (spec_any _) fun st => spec_ite (fun _ => hNone _) fun _ => ?_
  refine spec_bind (spec_any _) fun _ => spec_bind (spec_any _) fun _ => ?_
  refine spec_bind (spec_any _) fun _ => ?_
  refine spec_bind (spec_any _) fun st => spec_ite (fun _ => hNone _) fun _ => ?_
  refine spec_bind hWords fun out => ?_
  exact spec_pure fun _ h => h

theorem length_xorBlock_le (a b : Bytes) : (xorBlock a b).length ≤ a.length := by
  rw [length_xorBlock]
  exact Nat.min_le_left _ _

section Modes

variable {alg slot : UInt32} {dec : Bool} {fb block : Bytes}

/-- The feedback of the next block is no longer than a block. -/
theorem spec_symStep {mode : SymMode} (hFb : fb.length ≤ 16) (hBlock : block.length ≤ 16) :
    Spec (fun _ => True) (symStep alg slot dec mode fb block)
      fun r _ => Returns (fun x => x.2.length ≤ 16) r := by
  have hThen {input : Bytes} {d : Bool} {g : Bytes → Bytes × Bytes}
      (hg : ∀ out, out.length = 16 → (g out).2.length ≤ 16) :
      Spec (fun _ => True) (do
        let r ← symBlock alg slot d input
        pure (r.map g)) fun r _ => Returns (fun x => x.2.length ≤ 16) r := by
    refine spec_bind (spec_symBlock alg slot d input) fun r => spec_pure ?_
    intro _ h
    cases r with
    | error c => trivial
    | ok out => exact hg out h
  cases mode with
  | ecb => exact hThen fun _ _ => hFb
  | cbc =>
    apply spec_ite
    · intro _
      exact hThen fun _ _ => hBlock
    · intro _
      exact hThen fun _ h => h.le
  | ctr =>
    apply hThen
    intro _ _
    exact (length_ctrInc fb).trans_le hFb
  | ofb => exact hThen fun _ h => h.le
  | cfb =>
    apply hThen
    intro out _
    dsimp only
    split
    · split
      · exact hBlock
      · exact (length_xorBlock_le _ _).trans hBlock
    · exact hFb

theorem lags_symStep {mode : SymMode} (hFb : fb.length ≤ 16) (hBlock : block.length ≤ 16) :
    Lags W 15 (symStep alg slot dec mode fb block) := by
  cases mode with
  | ecb => exact grows_map (lags_symBlock alg slot dec hBlock) _
  | cbc =>
    apply grows_ite
    · exact grows_map (lags_symBlock alg slot true hBlock) _
    · exact grows_map (lags_symBlock alg slot false ((length_xorBlock_le _ _).trans hBlock)) _
  | ctr => exact grows_map (lags_symBlock alg slot false hFb) _
  | cfb => exact grows_map (lags_symBlock alg slot false hFb) _
  | ofb => exact grows_map (lags_symBlock alg slot false hFb) _

theorem lags_symCrypt {mode : SymMode} {blocks : Nat} {data : Bytes} (hFb : fb.length ≤ 16) :
    Lags W (15 * blocks) (symCrypt alg slot dec mode blocks fb data) := by
  induction blocks generalizing fb data with
  | zero => exact grows_pure _
  | succ blocks ih =>
    have hBlock : (data.take 16).length ≤ 16 := List.length_take_le 16 data
    apply grows_bind_of (lags_symStep hFb hBlock)
      (fun e s => @spec_symStep alg slot dec fb _ mode hFb hBlock e s trivial)
    intro r hNext
    cases r with
    | error c => exact grows_pure _
    | ok x => exact grows_map (ih hNext) _

end Modes

theorem lags_symSm3 (input : Bytes) : Lags W 13 (symSm3 input) := by
  apply grows_bind (lags_wr _ _)
  intro _
  apply grows_bind (lags_wr _ _)
  intro _
  apply grows_bind (lags_hashBytes _)
  intro done
  apply grows_ite (grows_pure _)
  apply grows_bind (lags_wr _ _)
  intro _
  apply grows_bind (lags_spinUntil _ _ _)
  intro _
  apply grows_bind (lags_rd _)
  intro st
  apply grows_ite (grows_pure _)
  exact grows_map (lags_readWords _ 8) _

end Commands

/-! ### The ML-KEM core -/

section Mlkem

variable {W : HwAccess → Prop}

/-- The flag is down, or the first access that failed is excused. -/
def Clear (W : HwAccess → Prop) (b : Bus) : Prop :=
  b.Honest ∧ (b.fault = false ∨ ∃ a, firstFault b.trace = some a ∧ W a)

theorem Clear.lag {b : Bus} (h : Clear W b) : lag W b.trace = 0 := by
  obtain ⟨hHonest, hDown | ⟨a, hFirst, hW⟩⟩ := h
  · exact lag_of_ok (hHonest hDown)
  · have hExcused := lag_excused hFirst hW []
    rwa [List.append_nil] at hExcused

theorem keeps_clear_rd {off : Nat} (hW : ∀ v, W (.read (PL_BASE + off) v)) :
    Keeps (Clear W) (rd off) := by
  rintro e b ⟨hHonest, hExcuse⟩
  refine ⟨keeps_honest_rd off e b hHonest, ?_⟩
  rcases hExcuse with hDown | ⟨a, hFirst, ha⟩
  · dsimp only [rd]
    split
    · exact .inl hDown
    · refine .inr ⟨_, ?_, hW none⟩
      rw [firstFault_append_of_ok (hHonest hDown)]
      rfl
  · obtain ⟨v, hTrace⟩ := trace_rd off e b
    refine .inr ⟨a, ?_, ha⟩
    rw [hTrace]
    exact firstFault_append_of_some hFirst _

theorem keeps_clear_wr {off : Nat} {v : UInt32} (hW : ∀ ok, W (.write (PL_BASE + off) v ok)) :
    Keeps (Clear W) (wr off v) := by
  rintro e b ⟨hHonest, hExcuse⟩
  refine ⟨keeps_honest_wr off v e b hHonest, ?_⟩
  rcases hExcuse with hDown | ⟨a, hFirst, ha⟩
  · dsimp only [wr]
    split
    · exact .inl hDown
    · refine .inr ⟨_, ?_, hW false⟩
      rw [firstFault_append_of_ok (hHonest hDown)]
      rfl
  · obtain ⟨ok, hTrace⟩ := trace_wr off v e b
    refine .inr ⟨a, ?_, ha⟩
    rw [hTrace]
    exact firstFault_append_of_some hFirst _

theorem keeps_clear_feedBytes (input : Bytes) :
    Keeps (Clear MlkemWindow) (feedBytes MK_INDATA input) := by
  induction input with
  | nil => exact keeps_pure ()
  | cons c rest ih =>
    refine keeps_bind (fun _ _ h => h) fun fault => keeps_ite (keeps_pure ()) ?_
    exact keeps_bind (keeps_clear_wr fun _ => .inr (.inl rfl)) fun _ => ih

theorem keeps_clear_feedPacked (input : Bytes) :
    Keeps (Clear MlkemWindow) (feedPacked MK_INDATA4 MK_INDATA input) := by
  induction input using feedPacked.induct with
  | case1 a b c d rest ih =>
    refine keeps_bind (fun _ _ h => h) fun fault => keeps_ite (keeps_pure ()) ?_
    exact keeps_bind (keeps_clear_wr fun _ => .inr (.inr (.inl rfl))) fun _ => ih
  | case2 rest hShort =>
    rw [feedPacked.eq_2 _ _ _ hShort]
    exact keeps_clear_feedBytes _

theorem keeps_clear_mlkemPoll (spins : Nat) : Keeps (Clear MlkemWindow) (mlkemPoll spins) := by
  induction spins with
  | zero => exact keeps_pure _
  | succ spins ih =>
    refine keeps_bind (keeps_clear_rd fun _ => .inr rfl) fun st => ?_
    exact keeps_ite (keeps_pure _) (keeps_ite (keeps_pure _) ih)

theorem lags_mlkemResult (cap : Nat) : Lags W 2 (mlkemResult cap) := by
  apply grows_bind (lags_rd _)
  intro st
  apply grows_ite (grows_pure _)
  apply grows_bind (lags_rd _)
  intro n
  apply grows_ite (grows_pure _)
  exact grows_map ((lags_drainPacked _ _ _).mono (Nat.zero_le 0)) _

/-- The command behind its wait. -/
def mlkemStart (mode pset modeExtra : UInt32) (input : Bytes) (cap : Nat) :
    BusM (Except Int Bytes) := do
  wr MK_MODE (mode ||| pset <<< 2 ||| modeExtra)
  wr MK_CTRL MKC_INRST
  feedPacked MK_INDATA4 MK_INDATA input
  if (← rd MK_INPTR).toNat ≠ input.length then do
    let _ ← rd MK_INPTR
    pure (.error (-1))
  else do
    wr MK_CTRL MKC_START
    match ← mlkemPoll 3000000 with
    | .error e => pure (.error e)
    | .ok () => mlkemResult cap

theorem mlkemRun_eq (mode pset modeExtra : UInt32) (input : Bytes) (cap : Nat) :
    mlkemRun mode pset modeExtra input cap = (do
      if !(← waitExpIdle MK_KEYSTAT MKS_EXPWIPE) then pure (.error (-1))
      else mlkemStart mode pset modeExtra input cap) := rfl

theorem spec_mlkemStart (mode pset modeExtra : UInt32) (input : Bytes) (cap : Nat) :
    Spec (Clear MlkemWindow) (mlkemStart mode pset modeExtra input cap)
      fun _ b => b.Honest ∧ lag MlkemWindow b.trace ≤ 2 := by
  have hPtr : Keeps (Clear MlkemWindow) (rd MK_INPTR) := keeps_clear_rd fun _ => .inl rfl
  have hDone (c : Int) : Spec (Clear MlkemWindow) (pure (.error c) : BusM (Except Int Bytes))
      fun _ b => b.Honest ∧ lag MlkemWindow b.trace ≤ 2 :=
    spec_pure fun b h => ⟨h.1, h.lag.le.trans (Nat.zero_le 2)⟩
  refine spec_bind (keeps_clear_wr fun _ => .inl rfl) fun _ => ?_
  refine spec_bind (keeps_clear_wr fun _ => .inr (.inr (.inr ⟨rfl, .inl rfl⟩))) fun _ => ?_
  refine spec_bind (keeps_clear_feedPacked input) fun _ => spec_bind hPtr fun inPtr => ?_
  apply spec_ite
  · intro _
    exact spec_bind hPtr fun _ => hDone _
  · intro _
    refine spec_bind (keeps_clear_wr fun _ => .inr (.inr (.inr ⟨rfl, .inr rfl⟩))) fun _ => ?_
    refine spec_bind (keeps_clear_mlkemPoll _) fun st => ?_
    cases st with
    | error c => exact hDone c
    | ok _ =>
      intro e b h
      obtain ⟨hHonest, hLag⟩ := @lags_mlkemResult MlkemWindow cap e b h.1
      dsimp only at hLag
      rw [h.lag] at hLag
      exact ⟨hHonest, hLag⟩

theorem lags_mlkemRun (mode pset modeExtra : UInt32) (input : Bytes) (cap : Nat) :
    Lags MlkemWindow 3 (mlkemRun mode pset modeExtra input cap) := by
  intro e b h
  obtain ⟨hHonest, hWait⟩ := @lags_waitClear MlkemWindow MK_KEYSTAT MKS_EXPWIPE 200000 e b h
  have hDown := spec_waitClear MK_KEYSTAT MKS_EXPWIPE 200000 e b trivial
  dsimp only at hWait
  rw [mlkemRun_eq, Stateful.run_bind, waitExpIdle]
  cases hIdle : ((waitClear MK_KEYSTAT MKS_EXPWIPE 200000).run e b).1 with
  | false => exact ⟨hHonest, hWait.trans (Nat.add_le_add_left (by decide) _)⟩
  | true =>
    obtain ⟨hHonest', hLag⟩ := spec_mlkemStart mode pset modeExtra input cap e _
      ⟨hHonest, .inl (hDown hIdle)⟩
    exact ⟨hHonest', hLag.trans (Nat.le_add_left 2 (lag MlkemWindow b.trace + 1))⟩

end Mlkem

/-! ### The operations -/

section Operations

variable {W : HwAccess → Prop}

/-- `Lags` of the daemon. -/
abbrev OpLags (W : HwAccess → Prop) (k : Nat) {α : Type} (p : FpgadM α) : Prop :=
  Grows Fpgad.Honest (fun d => lag W d.bus.trace) k p

theorem opLags_onBus {α : Type} {k : Nat} {p : BusM α} (hp : Lags W k p) : OpLags W k (onBus p) :=
  fun e d h => hp e.bus d.bus h

theorem opLags_tee (cmd : TeeCmd) : OpLags W 0 (teeInvoke cmd) := fun _ _ h => ⟨h, Nat.le_refl _⟩

theorem opLags_setKey (tgt : SeedTgt) (h : Nat) (k : Fpgad → KeyEntry) :
    OpLags W 0 (Stateful.modify fun d => d.setKey tgt h (k d)) := fun _ _ h => ⟨h, Nat.le_refl _⟩

theorem opLags_seedNewClean (tgt : SeedTgt) : OpLags W 6 (seedNewClean tgt) := by
  apply grows_bind (opLags_onBus (lags_seedClr tgt))
  intro cleared
  apply grows_ite (grows_pure _)
  apply grows_bind (opLags_tee _)
  intro blob
  cases blob with
  | some blob => exact grows_pure _
  | none => exact grows_map (opLags_onBus (lags_seedClr tgt)) _

theorem opLags_seedReplayClean (tgt : SeedTgt) (blob : Bytes) :
    OpLags W 6 (seedReplayClean tgt blob) := by
  apply grows_bind (opLags_onBus (lags_seedClr tgt))
  intro cleared
  apply grows_ite (grows_pure _)
  apply grows_bind (opLags_tee _)
  intro done
  cases done with
  | some _ => exact grows_pure _
  | none => exact grows_map (opLags_onBus (lags_seedClr tgt)) _

theorem opLags_opPing : OpLags W 3 opPing := by
  apply grows_bind (opLags_onBus (lags_rd _))
  intro mlkem
  apply grows_bind (opLags_onBus (lags_rd _))
  intro sym
  exact grows_map (opLags_onBus (lags_rd _)) _

theorem opLags_opRandom (n : UInt32) : OpLags W (2 * ((n.toNat + 3) / 4) + 2) (opRandom n) := by
  apply grows_ite (grows_pure _)
  apply grows_bind_last (opLags_onBus (lags_trngBytes n.toNat))
  intro r
  cases r with
  | error c => exact grows_pure _
  | ok out => exact grows_pure _

theorem opLags_opKeygen (tgt : SeedTgt) (pset : UInt32) {run : BusM (Except Int Bytes)} {k : Nat}
    (hRun : Lags W k run) (pkLen : Nat) : OpLags W (k + 6) (opKeygen tgt pset run pkLen) := by
  apply grows_ite (grows_pure _)
  apply grows_bind (k := 0) grows_get
  intro d
  cases d.freeHandle tgt with
  | none => exact grows_pure _
  | some h =>
    apply grows_bind (opLags_seedNewClean tgt)
    intro blob
    cases blob with
    | none => exact grows_pure _
    | some blob =>
      apply grows_bind (opLags_setKey _ _ _)
      intro _
      apply grows_bind_last (opLags_onBus hRun)
      intro r
      cases r with
      | error c => exact grows_pure _
      | ok pk =>
        apply grows_ite (grows_pure _)
        exact grows_map (opLags_setKey _ _ _) _

theorem opLags_opMlkemEncaps (pset : UInt32) (pay : Bytes)
    (hRun : ∀ input, Lags W 3 (mlkemRun 1 pset 0 input 1700)) :
    OpLags W 21 (opMlkemEncaps pset pay) := by
  apply grows_ite (grows_pure _)
  apply grows_ite (grows_pure _)
  apply grows_bind (opLags_onBus (lags_trngBytes 32))
  intro m
  cases m with
  | error c => exact grows_pure _
  | ok m =>
    apply grows_bind_last (opLags_onBus (hRun (m ++ pay)))
    intro r
    cases r with
    | error c => exact grows_pure _
    | ok out => exact grows_ite (grows_pure _) (grows_pure _)

theorem opLags_opMlkemDecaps (h : UInt32) (pay : Bytes)
    (hRun : ∀ pset, Lags W 3 (mlkemRun 2 pset (MKM_CHAIN ||| MKM_SEED_STAGED) pay PQCS_MAXPAY.toNat)) :
    OpLags W 9 (opMlkemDecaps h pay) := by
  apply grows_bind (k := 0) grows_get
  intro d
  cases d.usedEntry .mlkem h with
  | none => exact grows_pure _
  | some k =>
    apply grows_ite (grows_pure _)
    apply grows_bind (opLags_seedReplayClean _ _)
    intro staged
    apply grows_ite (grows_pure _)
    apply grows_bind_last (opLags_onBus (hRun k.pset))
    intro r
    cases r with
    | error c => exact grows_pure _
    | ok out => exact grows_pure _

theorem opLags_opMldsaSign (h a1 : UInt32) (pay : Bytes) : OpLags W 34 (opMldsaSign h a1 pay) := by
  apply grows_bind (k := 0) grows_get
  intro d
  cases d.usedEntry .mldsa h with
  | none => exact grows_pure _
  | some k =>
    apply grows_ite (grows_pure _)
    apply grows_ite (grows_pure _)
    apply grows_bind (k := 0) grows_read
    intro e
    apply grows_ite (grows_pure _)
    apply grows_bind (opLags_onBus (lags_trngBytes 32))
    intro rnd
    cases rnd with
    | error c => exact grows_pure _
    | ok rnd =>
      apply grows_bind (opLags_seedReplayClean _ _)
      intro staged
      apply grows_ite (grows_pure _)
      apply grows_bind_last (opLags_onBus (lags_mldsaRun _ _ _ _ _ _ _))
      intro r
      cases r with
      | error c => exact grows_pure _
      | ok sig => exact grows_ite (grows_pure _) (grows_pure _)

theorem opLags_opMldsaVerify (pset a1 : UInt32) (pay : Bytes) :
    OpLags W 10 (opMldsaVerify pset a1 pay) := by
  apply grows_ite (grows_pure _)
  apply grows_ite (grows_pure _)
  apply grows_ite (grows_pure _)
  apply grows_bind_last (opLags_onBus (lags_mldsaRun _ _ _ _ _ _ _))
  intro r
  cases r with
  | error c => exact grows_pure _
  | ok out => exact grows_pure _

theorem opLags_opSymkeyGen (slot keyLen : UInt32) : OpLags W 0 (opSymkeyGen slot keyLen) := by
  apply grows_ite (grows_pure _)
  apply grows_bind_last (opLags_tee _)
  intro blob
  cases blob with
  | none => exact grows_pure _
  | some blob => exact grows_pure _

theorem opLags_opSymkeyLoad (slot : UInt32) (pay : Bytes) : OpLags W 0 (opSymkeyLoad slot pay) := by
  apply grows_ite (grows_pure _)
  apply grows_bind_last (opLags_tee _)
  intro done
  cases done with
  | none => exact grows_pure _
  | some _ => exact grows_pure _

theorem opLags_opSymkeyKat (vec : UInt32) : OpLags W 0 (opSymkeyKat vec) := by
  apply grows_bind_last (opLags_tee _)
  intro done
  cases done with
  | none => exact grows_pure _
  | some _ => exact grows_pure _

theorem opLags_opPqcBlobExport (kind h : UInt32) : OpLags W 0 (opPqcBlobExport kind h) := by
  apply grows_bind_last grows_get
  intro d
  cases (kindTgt kind).bind fun tgt => d.usedEntry tgt h with
  | none => exact grows_pure _
  | some k => exact grows_pure _

theorem opLags_opPqcBlobImport (kind pset : UInt32) (pay : Bytes) :
    OpLags W 0 (opPqcBlobImport kind pset pay) := by
  rw [opPqcBlobImport]
  cases kindTgt kind with
  | none => exact grows_pure _
  | some tgt =>
    apply grows_ite (grows_pure _)
    apply grows_bind_last grows_get
    intro d
    cases d.freeHandle tgt with
    | none => exact grows_pure _
    | some h => exact grows_map (opLags_setKey _ _ _) _

theorem opLags_opSymBlock (a0 a1 : UInt32) (pay : Bytes) : OpLags W 15 (opSymBlock a0 a1 pay) := by
  apply grows_if (fun _ => grows_pure _)
  intro hLen
  apply grows_ite (grows_pure _)
  apply grows_bind_last (opLags_onBus (lags_symBlock _ _ _ (not_not.mp hLen).le))
  intro r
  cases r with
  | error c => exact grows_pure _
  | ok out => exact grows_pure _

theorem opLags_opSm3 (pay : Bytes) : OpLags W 13 (opSm3 pay) := by
  apply grows_ite (grows_pure _)
  apply grows_bind_last (opLags_onBus (lags_symSm3 _))
  intro r
  cases r with
  | error c => exact grows_pure _
  | ok out => exact grows_pure _

theorem opLags_opSymCrypt (a0 a1 : UInt32) (pay : Bytes) :
    OpLags W (15 * ((pay.length - 16 + 15) / 16)) (opSymCrypt a0 a1 pay) := by
  rw [opSymCrypt]
  split
  · exact grows_pure _
  · apply grows_ite (grows_pure _)
    apply grows_ite (grows_pure _)
    apply grows_ite (grows_pure _)
    apply grows_ite (grows_pure _)
    apply grows_ite (grows_pure _)
    apply grows_bind_last (opLags_onBus (lags_symCrypt (List.length_take_le 16 pay)))
    intro r
    cases r with
    | error c => exact grows_pure _
    | ok out => exact grows_pure _

def IsMlkem (q : PqcsReq) : Prop :=
  q.op = OP_MLKEM_KEYGEN ∨ q.op = OP_MLKEM_ENCAPS ∨ q.op = OP_MLKEM_DECAPS

theorem reach_random {q : PqcsReq} (h : q.op = OP_RANDOM) :
    2 * ((q.a0.toNat + 3) / 4) + 2 ≤ reach q := by
  rw [reach, if_pos h]
  omega

theorem reach_symCrypt {q : PqcsReq} (h : q.op = OP_SYM_CRYPT) :
    15 * ((q.payload.val.length - 16 + 15) / 16) ≤ reach q := by
  rw [reach, h, if_neg (by decide), if_pos rfl]
  omega

theorem opLags_handleOp {q : PqcsReq} (hDna : q.op ≠ OP_DEVICE_DNA)
    (hRun : IsMlkem q → ∀ mode pset extra input cap, Lags W 3 (mlkemRun mode pset extra input cap)) :
    OpLags W (reach q) (handleOp q) := by
  have hMost {k : Nat} {p : FpgadM OpReply} (hp : OpLags W k p) (hk : k ≤ 40) :
      OpLags W (reach q) p := hp.mono (hk.trans (Nat.le_add_right 40 _))
  have hBare (status : UInt32) : OpLags W (reach q) (pure (OpReply.bare status)) :=
    grows_pure _
  rw [handleOp]
  refine grows_ite (hMost opLags_opPing (by decide)) ?_
  rw [if_neg hDna]
  refine grows_if (fun h => (opLags_opRandom _).mono (reach_random h)) fun _ => ?_
  refine grows_if (fun h => hMost (opLags_opKeygen _ _ (hRun (.inl h) _ _ _ _ _) _) (by decide))
    fun _ => ?_
  refine grows_if (fun h => hMost (opLags_opMlkemEncaps _ _ fun _ => hRun (.inr (.inl h)) _ _ _ _ _)
    (by decide)) fun _ => ?_
  refine grows_if (fun h => hMost (opLags_opMlkemDecaps _ _ fun _ => hRun (.inr (.inr h)) _ _ _ _ _)
    (by decide)) fun _ => ?_
  refine grows_ite (hMost (opLags_opKeygen _ _ (grows_map (lags_mldsaRun _ _ _ _ _ _ _) _) _)
    (by decide)) ?_
  refine grows_ite (hMost (opLags_opMldsaSign _ _ _) (by decide)) ?_
  refine grows_ite (hMost (opLags_opMldsaVerify _ _ _) (by decide)) (grows_ite (hBare _) ?_)
  refine grows_ite (hMost (opLags_opSymkeyGen _ _) (by decide)) ?_
  refine grows_ite (hMost (opLags_opSymkeyLoad _ _) (by decide)) ?_
  refine grows_ite (hMost (opLags_opPqcBlobExport _ _) (by decide)) ?_
  refine grows_ite (hMost (opLags_opPqcBlobImport _ _ _) (by decide)) ?_
  refine grows_ite (hMost (opLags_opSymkeyKat _) (by decide)) ?_
  refine grows_ite (hMost (opLags_opSymBlock _ _ _) (by decide)) ?_
  refine grows_ite (hMost (opLags_opSm3 _) (by decide)) ?_
  exact grows_if (fun h => (opLags_opSymCrypt _ _ _).mono (reach_symCrypt h)) fun _ => hBare _

end Operations

/-! ### One request -/

section Request

variable {W : HwAccess → Prop} {q : PqcsReq}

/-- The identity is read up to the first access that fails. -/
theorem spec_dnaWords_lag (addr words : Nat) :
    Spec (fun b => ∀ a ∈ b.trace, a.Ok) (dnaWords addr words) fun _ b => lag W b.trace = 0 := by
  induction words generalizing addr with
  | zero => exact spec_pure fun b h => lag_of_ok h
  | succ words ih =>
    have hRead : Spec (fun b => ∀ a ∈ b.trace, a.Ok) (hwRdAbs addr) fun r b =>
        lag W b.trace = 0 ∧ (r.isSome → ∀ a ∈ b.trace, a.Ok) := by
      intro e b h
      refine ⟨lag_next_of_ok h, ?_⟩
      intro hSome a hMem
      rcases List.mem_append.mp hMem with hOld | hNew
      · exact h a hOld
      · cases List.mem_singleton.mp hNew
        exact hSome
    refine spec_bind hRead fun r => ?_
    cases r with
    | none => exact spec_pure fun _ h => h.1
    | some w =>
      refine spec_bind ((ih (addr + 4)).mono (fun _ h => h.2 rfl) fun _ _ h => h) fun rest => ?_
      exact spec_pure fun _ h => h

theorem lags_guardWiping : Lags W 2 guardWiping := by
  apply grows_bind (lags_waitClear _ _ _)
  intro still
  exact grows_ite (grows_pure _) (lags_waitClear _ _ _)

/-- What the operation adds is all that a request adds. -/
theorem spec_serveReq_lag {K : SeedTgt → Nat → KeyEntry}
    (hOp : Spec (fun d => (∀ a ∈ d.bus.trace, a.Ok) ∧ d.keys = K) (handleOp q)
      fun _ d => lag W d.bus.trace ≤ reach q) :
    Spec (fun d => d.bus.trace = [] ∧ d.keys = K) (serveReq q)
      fun _ d => lag W d.bus.trace ≤ reach q := by
  have hFirst : Spec (fun d => d.bus.trace = [] ∧ d.keys = K) (onBus clearFault)
      fun _ d => d.bus.Honest ∧ lag W d.bus.trace = 0 ∧ d.keys = K := by
    rintro e d ⟨hNone, hKeys⟩
    have hAll : ∀ a ∈ d.bus.trace, a.Ok := by
      rw [hNone]
      exact nofun
    exact ⟨fun _ => hAll, lag_of_ok hAll, hKeys⟩
  have hGuard : Spec (fun d : Fpgad => d.bus.Honest ∧ lag W d.bus.trace = 0 ∧ d.keys = K)
      (onBus guardWiping) fun r d =>
        lag W d.bus.trace ≤ 2 ∧ (r = true → ∀ a ∈ d.bus.trace, a.Ok) ∧ d.keys = K := by
    rintro e d ⟨hHonest, hLag, hKeys⟩
    have hGrows := (@lags_guardWiping W e.bus d.bus hHonest).2
    dsimp only at hGrows
    rw [hLag] at hGrows
    exact ⟨hGrows, spec_guardWiping e.bus d.bus hHonest, hKeys⟩
  have hTwo : 2 ≤ reach q := (by decide : 2 ≤ 40).trans (Nat.le_add_right 40 _)
  refine spec_bind hFirst fun _ => spec_bind hGuard fun passed => ?_
  apply spec_ite
  · exact fun _ => spec_pure fun _ h => h.1.trans hTwo
  · intro hPassed
    have hStart : Spec (fun d : Fpgad => lag W d.bus.trace ≤ 2 ∧
        (passed = true → ∀ a ∈ d.bus.trace, a.Ok) ∧ d.keys = K) (onBus clearFault)
          fun _ d => (∀ a ∈ d.bus.trace, a.Ok) ∧ d.keys = K :=
      fun _ _ h => ⟨h.2.1 (by simpa using hPassed), h.2.2⟩
    refine spec_bind hStart fun _ => spec_bind hOp fun r => ?_
    have hFlag : Spec (fun d : Fpgad => lag W d.bus.trace ≤ reach q) (onBus hwFault)
        fun _ d => lag W d.bus.trace ≤ reach q := fun _ _ h => h
    refine spec_bind hFlag fun fault => ?_
    apply spec_ite
    · exact fun _ => spec_pure fun _ h => h
    · exact fun _ => spec_pure fun _ h => h

/-- An operation that does not get through to the core. -/
theorem handleOp_of_not_runs {d d' : Fpgad} (hKem : IsMlkem q) (h : ¬RunsMlkem q d)
    (hKeys : d'.keys = d.keys) (e : FpgadEnv) :
    ((handleOp q).run e d').2 = d' := by
  have hFree : d'.freeHandle .mlkem = d.freeHandle .mlkem := by
    rw [Fpgad.freeHandle, Fpgad.freeHandle, hKeys]
  have hUsed : d'.usedEntry .mlkem q.a0 = d.usedEntry .mlkem q.a0 := by
    rw [Fpgad.usedEntry, Fpgad.usedEntry, hKeys]
  rcases hKem with hOp | hOp | hOp
  · have hRun : handleOp q = opMlkemKeygen q.a0 := by
      rw [handleOp, hOp]
      rfl
    rw [hRun, opMlkemKeygen, opKeygen]
    split
    · rfl
    · rename_i hParam
      rw [Stateful.run_bind, Stateful.run_get]
      dsimp only
      rw [hFree]
      cases hHandle : d.freeHandle .mlkem with
      | none => rfl
      | some n => exact absurd (.inl ⟨hOp, UInt32.not_lt.mp hParam, by rw [hHandle]; rfl⟩) h
  · have hRun : handleOp q = opMlkemEncaps q.a0 q.payload.val := by
      rw [handleOp, hOp]
      rfl
    rw [hRun, opMlkemEncaps]
    split
    · rfl
    · rename_i hParam
      split
      · rfl
      · rename_i hLen
        rw [not_or, not_not] at hLen
        exact absurd (.inr (.inl ⟨hOp, UInt32.not_lt.mp hParam, hLen.1⟩)) h
  · have hRun : handleOp q = opMlkemDecaps q.a0 q.payload.val := by
      rw [handleOp, hOp]
      rfl
    rw [hRun, opMlkemDecaps, Stateful.run_bind, Stateful.run_get]
    dsimp only
    rw [hUsed]
    cases hEntry : d.usedEntry .mlkem q.a0 with
    | none => rfl
    | some k =>
      dsimp only
      split
      · rfl
      · rename_i hLen
        rw [not_or, not_not] at hLen
        exact absurd (.inr (.inr ⟨hOp, k, hEntry, hLen.1⟩)) h

theorem serveReq_lag {d : Fpgad}
    (hRun : IsMlkem q → RunsMlkem q d →
      ∀ mode pset extra input cap, Lags W 3 (mlkemRun mode pset extra input cap)) (e : FpgadEnv) :
    lag W ((serveReq q).run e d.fresh).2.bus.trace ≤ reach q := by
  refine @spec_serveReq_lag W q d.keys ?_ e d.fresh ⟨rfl, rfl⟩
  rintro e d' ⟨hAll, hKeys⟩
  by_cases hDna : q.op = OP_DEVICE_DNA
  · have hDnaOp : handleOp q = opDeviceDna := by
      rw [handleOp, hDna]
      rfl
    rw [hDnaOp, opDeviceDna, Stateful.run_bind, run_onBus]
    have hLag := @spec_dnaWords_lag W 0xFFCA0050 4 e.bus d'.bus hAll
    cases ((dnaWords 0xFFCA0050 4).run e.bus d'.bus).1 with
    | none => exact hLag.le.trans (Nat.zero_le _)
    | some dna => exact hLag.le.trans (Nat.zero_le _)
  · by_cases hIdle : IsMlkem q ∧ ¬RunsMlkem q d
    · rw [handleOp_of_not_runs hIdle.1 hIdle.2 hKeys, lag_of_ok hAll]
      exact Nat.zero_le _
    · have hLags : OpLags W (reach q) (handleOp q) :=
        opLags_handleOp hDna fun hKem => hRun hKem (not_not.mp fun hNot => hIdle ⟨hKem, hNot⟩)
      have hLag := (hLags e d' fun _ => hAll).2
      dsimp only at hLag
      rwa [lag_of_ok hAll, Nat.zero_add] at hLag

theorem status_of_fault {e : FpgadEnv} {d : Fpgad}
    (h : ∃ a ∈ ((serveReq q).run e d.fresh).2.bus.trace, ¬a.Ok) :
    ((serveReq q).run e d.fresh).1.status ≠ SDR_OK := by
  obtain ⟨a, hMem, hFailed⟩ := h
  rcases spec_serveReq q e d.fresh (fun _ h => nomatch h) with hOk | ⟨hStatus, -⟩
  · exact absurd (hOk a hMem) hFailed
  · exact hStatus

end Request

/-! ### A core that falls silent -/

section Silent

variable {e : BusEnv} {m : Nat}

/-- So many accesses, none of which failed. -/
def Calm (n : Nat) (b : Bus) : Prop :=
  b.trace.length = n ∧ b.fault = false ∧ ∀ a ∈ b.trace, a.Ok

/-- The program makes `k` accesses, and what it returns satisfies `V`, as long as every read gives the
bits that are waited for and no others. -/
def Takes (e : BusEnv) (m k : Nat) {α : Type} (V : α → Prop) (p : BusM α) : Prop :=
  ∀ b n, Calm n b → n + k ≤ m → V (p.run e b).1 ∧ Calm (n + k) (p.run e b).2

theorem takes_pure {α : Type} {V : α → Prop} {a : α} (h : V a) : Takes e m 0 V (pure a) :=
  fun _ _ hb _ => ⟨h, hb⟩

theorem takes_bind {α β : Type} {k l : Nat} {V : α → Prop} {U : β → Prop} {p : BusM α}
    {f : α → BusM β} (hp : Takes e m k V p) (hf : ∀ a, V a → Takes e m l U (f a)) :
    Takes e m (l + k) U (p >>= f) := by
  intro b n hb hm
  obtain ⟨hV, hb'⟩ := hp b n hb (by omega)
  obtain ⟨hU, hb''⟩ := hf _ hV _ _ hb' (by omega)
  rw [Nat.add_comm l k, ← Nat.add_assoc]
  exact ⟨hU, hb''⟩

theorem takes_hwFault : Takes e m 0 (· = false) hwFault := fun _ _ hb _ => ⟨hb.2.1, hb⟩

section Steady

variable (hSteady : ∀ i < m, e.answer i = some 0x22)

include hSteady

theorem takes_rd (off : Nat) : Takes e m 1 (· = 0x22) (rd off) := by
  rintro b n ⟨hLen, hDown, hAll⟩ hm
  have hAnswer : e.answer b.trace.length = some 0x22 := hSteady _ (by omega)
  dsimp only [rd]
  rw [hAnswer]
  refine ⟨rfl, ?_, hDown, ?_⟩
  · rw [List.length_append, hLen]
    rfl
  · intro a hMem
    rcases List.mem_append.mp hMem with hOld | hNew
    · exact hAll a hOld
    · cases List.mem_singleton.mp hNew
      exact rfl

theorem takes_wr (off : Nat) (v : UInt32) : Takes e m 1 (fun _ => True) (wr off v) := by
  rintro b n ⟨hLen, hDown, hAll⟩ hm
  have hAnswer : e.answer b.trace.length = some 0x22 := hSteady _ (by omega)
  dsimp only [wr]
  rw [hAnswer]
  refine ⟨trivial, ?_, hDown, ?_⟩
  · rw [List.length_append, hLen]
    rfl
  · intro a hMem
    rcases List.mem_append.mp hMem with hOld | hNew
    · exact hAll a hOld
    · cases List.mem_singleton.mp hNew
      exact rfl

theorem takes_spinUntil {reg limit : Nat} {bit : UInt32} (hBit : 0x22 &&& bit ≠ 0) :
    Takes e m 1 (fun _ => True) (spinUntil reg bit (limit + 1)) := by
  apply takes_bind takes_hwFault
  rintro _ rfl
  rw [if_neg (by decide)]
  apply takes_bind (takes_rd hSteady reg)
  rintro _ rfl
  rw [if_pos hBit]
  exact takes_pure trivial

theorem takes_waitClear {reg limit : Nat} {bit : UInt32} (hBit : 0x22 &&& bit = 0) :
    Takes e m 1 (· = true) (waitClear reg bit (limit + 1)) := by
  apply takes_bind (takes_rd hSteady reg)
  rintro _ rfl
  apply takes_bind takes_hwFault
  rintro _ rfl
  rw [if_neg (by decide), if_pos hBit]
  exact takes_pure rfl

theorem takes_waitExpIdle : Takes e m 1 (· = true) (waitExpIdle MK_KEYSTAT MKS_EXPWIPE) :=
  takes_waitClear hSteady (by decide)

theorem takes_trngWords (words : Nat) :
    Takes e m (3 * words) (fun r => ∃ got, r = .ok got ∧ got.length = 4 * words) (trngWords words) := by
  induction words with
  | zero => exact takes_pure ⟨[], rfl, rfl⟩
  | succ words ih =>
    apply takes_bind (k := 1) (l := 3 * words + 2) (takes_spinUntil hSteady (by decide))
    intro _ _
    apply takes_bind (takes_rd hSteady _)
    rintro _ rfl
    rw [if_neg (by decide)]
    apply takes_bind (takes_rd hSteady _)
    rintro w -
    rw [← Nat.zero_add (3 * words)]
    apply takes_bind ih
    rintro _ ⟨got, rfl, hLen⟩
    refine takes_pure ⟨_, rfl, ?_⟩
    rw [List.length_append, length_putU32, hLen]
    omega

theorem takes_trngBytes :
    Takes e m 27 (fun r => ∃ got, r = .ok got ∧ got.length = 32) (trngBytes 32) := by
  apply takes_bind (takes_wr hSteady _ _)
  intro _ _
  apply takes_bind (takes_spinUntil hSteady (by decide))
  intro _ _
  apply takes_bind (takes_rd hSteady _)
  rintro _ rfl
  rw [if_neg (by decide)]
  apply takes_bind (l := 0) (takes_trngWords hSteady 8)
  rintro _ ⟨got, rfl, hLen⟩
  refine takes_pure ⟨_, rfl, ?_⟩
  rw [List.length_take, hLen]
  rfl

theorem takes_seedClr : Takes e m 3 (· = true) (seedClr .mlkem) := by
  apply takes_bind (takes_waitClear hSteady (by decide))
  rintro _ rfl
  rw [if_neg (by decide)]
  apply takes_bind (takes_waitClear hSteady (by decide))
  rintro _ rfl
  rw [if_neg (by decide)]
  apply takes_bind (takes_wr hSteady _ _)
  intro _ _
  apply takes_bind takes_hwFault
  rintro _ rfl
  exact takes_pure rfl

theorem takes_guardWiping : Takes e m 2 (· = true) guardWiping := by
  apply takes_bind (takes_waitClear hSteady (by decide))
  rintro _ rfl
  rw [if_neg (by decide)]
  exact takes_waitClear hSteady (by decide)

end Steady

theorem rd_none {off : Nat} {b : Bus} (h : e.answer b.trace.length = none) :
    (rd off).run e b = (0, ⟨b.trace ++ [.read (PL_BASE + off) none], true⟩) := by
  dsimp only [rd]
  rw [h]

theorem wr_none {off : Nat} {v : UInt32} {b : Bus} (h : e.answer b.trace.length = none) :
    (wr off v).run e b = ((), ⟨b.trace ++ [.write (PL_BASE + off) v false], true⟩) := by
  dsimp only [wr]
  rw [h]

theorem rd_some {off : Nat} {b : Bus} {v : UInt32} (h : e.answer b.trace.length = some v) :
    (rd off).run e b = (v, { b with trace := b.trace ++ [.read (PL_BASE + off) (some v)] }) := by
  dsimp only [rd]
  rw [h]

theorem feedPacked_of_fault {reg4 reg1 : Nat} {input : Bytes} {b : Bus} (h : b.fault = true) :
    (feedPacked reg4 reg1 input).run e b = ((), b) := by
  have hBytes (rest : Bytes) : (feedBytes reg1 rest).run e b = ((), b) := by
    cases rest with
    | nil => rfl
    | cons c rest => exact (run_guarded _ _ e b).trans (if_pos h)
  induction input using feedPacked.induct with
  | case1 a b' c d rest _ => exact (run_guarded _ _ e b).trans (if_pos h)
  | case2 rest hShort =>
    rw [feedPacked.eq_2 _ _ _ hShort]
    exact hBytes rest

/-- A core that does not answer is asked until the limit. -/
theorem mlkemPoll_silent {spins : Nat} {b : Bus} (h : ∀ i ≥ b.trace.length, e.answer i = none)
    (hUp : b.fault = true) :
    (mlkemPoll spins).run e b =
      (.ok (), ⟨b.trace ++ List.replicate spins (.read (PL_BASE + MK_STATUS) none), true⟩) := by
  induction spins generalizing b with
  | zero =>
    rw [List.replicate_zero, List.append_nil, ← hUp]
    rfl
  | succ spins ih =>
    have hRead := @rd_none e MK_STATUS b (h _ (Nat.le_refl _))
    rw [mlkemPoll, Stateful.run_bind, hRead]
    dsimp only
    rw [if_neg (by decide), if_neg (by decide), ih _ rfl]
    · rw [List.append_assoc, List.replicate_succ]
      rfl
    · intro i hi
      rw [List.length_append] at hi
      exact h i ((Nat.le_add_right _ _).trans hi)

/-- The register with the number of bytes is the last one that is answered. -/
def LastPtr (e : BusEnv) (m len : Nat) : Prop :=
  (∀ i < m, e.answer i = some 0x22) ∧ e.answer (m + 2) = some (UInt32.ofNat len) ∧
    ∀ i ≥ m, i ≠ m + 2 → e.answer i = none

theorem finish_silent {spins cap : Nat} {b : Bus} (h : ∀ i ≥ b.trace.length, e.answer i = none)
    (hUp : b.fault = true) :
    ∃ ts, spins ≤ ts.length ∧
      (do
        match ← mlkemPoll spins with
        | .error c => pure (.error c)
        | .ok () => mlkemResult cap : BusM (Except Int Bytes)).run e b =
        (.error (-3), ⟨b.trace ++ ts, true⟩) := by
  have hLast : e.answer (b.trace ++
      List.replicate spins (HwAccess.read (PL_BASE + MK_STATUS) none)).length = none := by
    rw [List.length_append]
    exact h _ (Nat.le_add_right _ _)
  refine ⟨List.replicate spins (.read (PL_BASE + MK_STATUS) none) ++
    [.read (PL_BASE + MK_STATUS) none], ?_, ?_⟩
  · rw [List.length_append, List.length_replicate]
    exact Nat.le_add_right _ _
  · rw [Stateful.run_bind, mlkemPoll_silent h hUp]
    dsimp only
    rw [mlkemResult, Stateful.run_bind, rd_none hLast]
    dsimp only
    rw [if_pos (by decide), List.append_assoc]
    rfl

theorem mlkemStart_silent {mode pset modeExtra : UInt32} {input : Bytes} {cap : Nat} {b : Bus}
    (h : LastPtr e m input.length) (hLen : input.length < 2 ^ 32) (hTrace : b.trace.length = m) :
    ∃ a rest, ¬a.Ok ∧ 3000000 ≤ rest.length ∧
      (mlkemStart mode pset modeExtra input cap).run e b =
        (.error (-3), ⟨b.trace ++ a :: rest, true⟩) := by
  obtain ⟨-, hPtr, hSilent⟩ := h
  have hValue : (UInt32.ofNat input.length).toNat = input.length := UInt32.toNat_ofNat_of_lt' hLen
  -- the trace behind the first rejected access
  have hNone (ts : List HwAccess) (hNot : ts.length ≠ 2) : e.answer (b.trace ++ ts).length = none := by
    apply hSilent
    · rw [List.length_append, hTrace]
      exact Nat.le_add_right _ _
    · rw [List.length_append, hTrace]
      omega
  have hLate (a1 a2 a3 a4 : HwAccess) :
      ∀ i ≥ (b.trace ++ [a1, a2, a3, a4]).length, e.answer i = none := by
    intro i hi
    rw [List.length_append, hTrace] at hi
    change i ≥ m + 4 at hi
    exact hSilent i (by omega) (by omega)
  have hRead (a1 a2 : HwAccess) :
      e.answer (b.trace ++ [a1, a2]).length = some (UInt32.ofNat input.length) := by
    rw [List.length_append, hTrace]
    exact hPtr
  have hMode : e.answer b.trace.length = none := hSilent _ hTrace.ge (by omega)
  let a1 := HwAccess.write (PL_BASE + MK_MODE) (mode ||| pset <<< 2 ||| modeExtra) false
  let a2 := HwAccess.write (PL_BASE + MK_CTRL) MKC_INRST false
  let a3 := HwAccess.read (PL_BASE + MK_INPTR) (some (UInt32.ofNat input.length))
  let a4 := HwAccess.write (PL_BASE + MK_CTRL) MKC_START false
  obtain ⟨ts, hMany, hRun⟩ :=
    @finish_silent e 3000000 cap ⟨b.trace ++ [a1, a2, a3, a4], true⟩ (hLate a1 a2 a3 a4) rfl
  refine ⟨a1, [a2, a3, a4] ++ ts, Bool.false_ne_true, ?_, Eq.trans ?_ (hRun.trans ?_)⟩
  · rw [List.length_append]
    exact hMany.trans (Nat.le_add_left _ _)
  · rw [mlkemStart, Stateful.run_bind, wr_none hMode, Stateful.run_bind, wr_none (hNone _ (by simp)),
      Stateful.run_bind, feedPacked_of_fault rfl, Stateful.run_bind, List.append_assoc,
      rd_some (hRead _ _)]
    dsimp only
    rw [if_neg (not_not.mpr hValue), List.append_assoc, Stateful.run_bind,
      wr_none (hNone _ (by simp)), List.append_assoc]
    rfl
  · dsimp only
    rw [List.append_assoc]
    rfl

theorem mlkemRun_silent {mode pset modeExtra : UInt32} {input : Bytes} {cap : Nat} {b : Bus} {n : Nat}
    (h : LastPtr e (n + 1) input.length) (hLen : input.length < 2 ^ 32) (hb : Calm n b) :
    ∃ b', (mlkemRun mode pset modeExtra input cap).run e b = (.error (-3), b') ∧
      3000000 ≤ (afterFault b'.trace).length := by
  obtain ⟨hIdle, hTrace, -, hAll⟩ := takes_waitExpIdle h.1 b n hb (Nat.le_refl _)
  obtain ⟨a, rest, hFailed, hMany, hRun⟩ :=
    @mlkemStart_silent e (n + 1) mode pset modeExtra input cap _ h hLen hTrace
  refine ⟨_, Eq.trans ?_ hRun, ?_⟩
  · rw [mlkemRun_eq, Stateful.run_bind, hIdle, if_neg (by decide)]
  · dsimp only
    rw [afterFault_append_of_ok hAll, afterFault, if_neg hFailed]
    exact hMany

end Silent

/-! ### A request that meets such a core -/

section SilentCore

/-- The trusted application answers, and the core answers `m` times and then once more. -/
def silentEnv (m len : Nat) : FpgadEnv where
  bus := {
    answer := fun i =>
      if i < m then some 0x22 else if i = m + 2 then some (UInt32.ofNat len) else none
    looks := 0
    stale := fun _ => 0 }
  tee _ := some []
  memory := true

theorem lastPtr_silentEnv (m len : Nat) : LastPtr (silentEnv m len).bus m len := by
  refine ⟨?_, ?_, ?_⟩
  · intro i hi
    exact if_pos hi
  · change (if m + 2 < m then _ else if m + 2 = m + 2 then _ else _) = _
    rw [if_neg (by omega), if_pos rfl]
  · intro i hi hNe
    change (if i < m then _ else if i = m + 2 then _ else _) = _
    rw [if_neg (by omega), if_neg hNe]

variable {m len n : Nat} {q : PqcsReq} {d : Fpgad}

theorem serveReq_bus (hm : 2 ≤ m) : ∃ d', d'.keys = d.keys ∧ Calm 2 d'.bus ∧
    ((serveReq q).run (silentEnv m len) d.fresh).2.bus =
      ((handleOp q).run (silentEnv m len) d').2.bus := by
  obtain ⟨hPassed, hTrace, -, hAll⟩ := takes_guardWiping (lastPtr_silentEnv m len).1
    ⟨[], false⟩ 0 ⟨rfl, rfl, nofun⟩ hm
  refine ⟨⟨⟨(guardWiping.run (silentEnv m len).bus ⟨[], false⟩).2.trace, false⟩, [], d.keys⟩, rfl,
    ⟨hTrace, rfl, hAll⟩, ?_⟩
  rw [serveReq, Stateful.run_bind]
  change ((if !(guardWiping.run (silentEnv m len).bus ⟨[], false⟩).1 then _ else _ :
    FpgadM OpReply).run _ _).2.bus = _
  rw [hPassed, if_neg (by decide), Stateful.run_bind, Stateful.run_bind, Stateful.run_bind]
  rw [Stateful.run_ite]
  split
  · rfl
  · rfl

theorem seedNewClean_calm (hb : Calm n d.bus) (hm : n + 3 ≤ m) :
    ∃ d', (seedNewClean .mlkem).run (silentEnv m len) d = (some [], d') ∧ Calm (n + 3) d'.bus := by
  obtain ⟨hCleared, hCalm⟩ := takes_seedClr (lastPtr_silentEnv m len).1 d.bus n hb hm
  refine ⟨⟨((seedClr .mlkem).run (silentEnv m len).bus d.bus).2,
    d.tee ++ [(.seedNew .mlkem, some [])], d.keys⟩, ?_, hCalm⟩
  rw [seedNewClean, Stateful.run_bind, run_onBus, hCleared]
  rfl

theorem seedReplayClean_calm (blob : Bytes) (hb : Calm n d.bus) (hm : n + 3 ≤ m) :
    ∃ d', (seedReplayClean .mlkem blob).run (silentEnv m len) d = (true, d') ∧
      Calm (n + 3) d'.bus := by
  obtain ⟨hCleared, hCalm⟩ := takes_seedClr (lastPtr_silentEnv m len).1 d.bus n hb hm
  refine ⟨⟨((seedClr .mlkem).run (silentEnv m len).bus d.bus).2,
    d.tee ++ [(.seedReplay .mlkem blob, some [])], d.keys⟩, ?_, hCalm⟩
  rw [seedReplayClean, Stateful.run_bind, run_onBus, hCleared]
  rfl

theorem keygen_silent {h : Nat} {pset : UInt32} (hParam : pset ≤ 2)
    (hFree : d.freeHandle .mlkem = some h) (hb : Calm 2 d.bus) :
    3000000 ≤
      (afterFault ((opMlkemKeygen pset).run (silentEnv 6 0) d).2.bus.trace).length := by
  obtain ⟨d', hSeed, hCalm⟩ := @seedNewClean_calm 6 0 2 d hb (by decide)
  obtain ⟨b, hRun, hMany⟩ := @mlkemRun_silent (silentEnv 6 0).bus 0 pset
    (MKM_CHAIN ||| MKM_SEED_STAGED) [] 4900 d'.bus 5 (lastPtr_silentEnv 6 0) (by decide) hCalm
  have hCommand (k : KeyEntry) :
      (mlkemKeygenRun pset).run (silentEnv 6 0).bus (d'.setKey .mlkem h k).bus =
        (.error (-3), b) := hRun
  rw [opMlkemKeygen, opKeygen, if_neg (UInt32.not_lt.mpr hParam), Stateful.run_bind, Stateful.run_get]
  dsimp only
  rw [hFree]
  dsimp only
  rw [Stateful.run_bind, hSeed]
  dsimp only
  rw [Stateful.run_bind, Stateful.run_modify, Stateful.run_bind, run_onBus, hCommand]
  exact hMany

theorem encaps_silent {pset : UInt32} {pay : Bytes} (hParam : pset ≤ 2)
    (hPay : pay.length = (mlkemLen pset).ek) (hb : Calm 2 d.bus) :
    3000000 ≤ (afterFault ((opMlkemEncaps pset pay).run
      (silentEnv 30 (32 + pay.length)) d).2.bus.trace).length := by
  obtain ⟨⟨got, hGot, hLen⟩, hCalm⟩ := takes_trngBytes
    (lastPtr_silentEnv 30 (32 + pay.length)).1 d.bus 2 hb (by decide)
  have hInput : (got ++ pay).length = 32 + pay.length := by
    rw [List.length_append, hLen]
  have hSmall : (mlkemLen pset).ek + 32 ≤ 1700 := by
    simp only [mlkemLen]
    split
    · decide
    · split <;> decide
  obtain ⟨b, hRun, hMany⟩ := @mlkemRun_silent (silentEnv 30 (32 + pay.length)).bus 1 pset 0
    (got ++ pay) 1700 _ 29 (hInput ▸ lastPtr_silentEnv 30 (32 + pay.length)) (by omega) hCalm
  rw [opMlkemEncaps, if_neg (UInt32.not_lt.mpr hParam), if_neg (by omega), Stateful.run_bind,
    run_onBus, hGot]
  dsimp only
  rw [Stateful.run_bind, run_onBus, hRun]
  exact hMany

theorem decaps_silent {h : UInt32} {pay : Bytes} {k : KeyEntry}
    (hUsed : d.usedEntry .mlkem h = some k) (hPay : pay.length = (mlkemLen k.pset).ct)
    (hb : Calm 2 d.bus) :
    3000000 ≤ (afterFault ((opMlkemDecaps h pay).run
      (silentEnv 6 pay.length) d).2.bus.trace).length := by
  obtain ⟨d', hSeed, hCalm⟩ := @seedReplayClean_calm 6 pay.length 2 d k.blob hb (by decide)
  have hSmall : (mlkemLen k.pset).ct ≤ 4800 := by
    simp only [mlkemLen]
    split
    · rename_i hOne
      rw [hOne]
      decide
    · split
      · decide
      · split <;> decide
  obtain ⟨b, hRun, hMany⟩ := @mlkemRun_silent (silentEnv 6 pay.length).bus 2 k.pset
    (MKM_CHAIN ||| MKM_SEED_STAGED) pay PQCS_MAXPAY.toNat d'.bus 5
    (lastPtr_silentEnv 6 pay.length) (by omega) hCalm
  rw [opMlkemDecaps, Stateful.run_bind, Stateful.run_get]
  dsimp only
  rw [hUsed]
  dsimp only
  rw [if_neg (by omega), Stateful.run_bind, hSeed]
  dsimp only
  rw [if_neg (by decide), Stateful.run_bind, run_onBus, hRun]
  exact hMany

/-- A request that gets through to the core may be kept there until the limit of the loop. -/
theorem exists_silent (h : RunsMlkem q d) :
    ∃ e, 3000000 ≤ (afterFault ((serveReq q).run e d.fresh).2.bus.trace).length ∧ reach q = 40 := by
  have hReach (hOp : q.op = OP_MLKEM_KEYGEN ∨ q.op = OP_MLKEM_ENCAPS ∨ q.op = OP_MLKEM_DECAPS) :
      reach q = 40 := by
    rcases hOp with hOp | hOp | hOp <;> rw [reach, hOp] <;> rfl
  rcases h with ⟨hOp, hParam, hFree⟩ | ⟨hOp, hParam, hLen⟩ | ⟨hOp, k, hUsed, hLen⟩
  · obtain ⟨n, hFree⟩ := Option.isSome_iff_exists.mp hFree
    obtain ⟨d', hKeys, hCalm, hBus⟩ := @serveReq_bus 6 0 q d (by decide)
    have hFree' : d'.freeHandle .mlkem = some n := by
      rw [← hFree, Fpgad.freeHandle, Fpgad.freeHandle, hKeys]
    have hRun : handleOp q = opMlkemKeygen q.a0 := by
      rw [handleOp, hOp]
      rfl
    refine ⟨silentEnv 6 0, ?_, hReach (.inl hOp)⟩
    rw [hBus, hRun]
    exact keygen_silent hParam hFree' hCalm
  · obtain ⟨d', -, hCalm, hBus⟩ := @serveReq_bus 30 (32 + q.payload.val.length) q d (by decide)
    have hRun : handleOp q = opMlkemEncaps q.a0 q.payload.val := by
      rw [handleOp, hOp]
      rfl
    refine ⟨silentEnv 30 (32 + q.payload.val.length), ?_, hReach (.inr (.inl hOp))⟩
    rw [hBus, hRun]
    exact encaps_silent hParam hLen hCalm
  · obtain ⟨d', hKeys, hCalm, hBus⟩ := @serveReq_bus 6 q.payload.val.length q d (by decide)
    have hUsed' : d'.usedEntry .mlkem q.a0 = some k := by
      rw [← hUsed, Fpgad.usedEntry, Fpgad.usedEntry, hKeys]
    have hRun : handleOp q = opMlkemDecaps q.a0 q.payload.val := by
      rw [handleOp, hOp]
      rfl
    refine ⟨silentEnv 6 q.payload.val.length, ?_, hReach (.inr (.inr hOp))⟩
    rw [hBus, hRun]
    exact decaps_silent hUsed' hLen hCalm

end SilentCore

/-! ### All loops and all requests -/

theorem lag_never (ts : List HwAccess) : lag (fun _ => False) ts = (afterFault ts).length :=
  lag_of_not fun _ _ h => h

theorem oneMore_of_lags {α : Type} {loop : BusM α} (h : Lags (fun _ => False) 1 loop) :
    OneMore loop := by
  intro e b hHonest
  have hLag := (h e b hHonest).2
  dsimp only at hLag
  rwa [lag_never, lag_never] at hLag

/-- The loop that does not look at the flag asks a silent core again and again. -/
theorem oneMore_mlkemPoll_iff (spins : Nat) : OneMore (mlkemPoll spins) ↔ spins ≤ 1 := by
  constructor
  · intro h
    let a := HwAccess.write (PL_BASE + MK_CTRL) MKC_START false
    have hRun := @mlkemPoll_silent ⟨fun _ => none, 0, fun _ => 0⟩ spins ⟨[a], true⟩
      (fun _ _ => rfl) rfl
    have hLoop := h ⟨fun _ => none, 0, fun _ => 0⟩ ⟨[a], true⟩ nofun
    rw [hRun] at hLoop
    change (List.replicate spins _).length ≤ 0 + 1 at hLoop
    rwa [List.length_replicate] at hLoop
  · intro h
    apply oneMore_of_lags
    match spins, h with
    | 0, _ => exact grows_pure _
    | 1, _ =>
      apply grows_bind_last (lags_rd _)
      intro st
      exact grows_ite (grows_pure _) (grows_ite (grows_pure _) (grows_pure _))

/-- Every other loop stops at a fault, and every request but those that run a command on the ML-KEM core
ends at once wherever an access fails. Such a command does as well unless the access is one of those from
its mode to the end of its loop. -/
theorem ends_at_once_iff (q : PqcsReq) (d : Fpgad) :
    ((∀ reg bit limit, OneMore (spinUntil reg bit limit)) ∧
      (∀ reg bit limit, OneMore (waitClear reg bit limit)) ∧
      (∀ polls st, OneMore (mldsaPoll polls st)) ∧ ∀ spins, OneMore (mlkemPoll spins) ↔ spins ≤ 1) ∧
    ((∀ e, EndsAtOnce q e d) ↔ ¬RunsMlkem q d) ∧
    ∀ e, (∀ a, firstFault ((serveReq q).run e d.fresh).2.bus.trace = some a → ¬MlkemWindow a) →
      EndsAtOnce q e d := by
  refine ⟨⟨?_, ?_, ?_, oneMore_mlkemPoll_iff⟩, ⟨?_, ?_⟩, ?_⟩
  · intro reg bit limit
    exact oneMore_of_lags ((lags_spinUntil reg bit limit).mono (Nat.zero_le 1))
  · intro reg bit limit
    exact oneMore_of_lags (lags_waitClear reg bit limit)
  · intro polls st
    exact oneMore_of_lags ((lags_mldsaPoll polls st).mono (Nat.zero_le 1))
  · intro hEnds hRuns
    obtain ⟨e, hMany, hReach⟩ := exists_silent hRuns
    have hFew := (hEnds e (exists_fault (Nat.lt_of_lt_of_le (by decide) hMany))).2
    rw [hReach] at hFew
    exact absurd (hMany.trans hFew) (by decide)
  · intro hIdle e hFault
    refine ⟨status_of_fault hFault, ?_⟩
    rw [← lag_never]
    exact serveReq_lag (fun _ hRuns => absurd hRuns hIdle) e
  · intro e hFirst hFault
    refine ⟨status_of_fault hFault, ?_⟩
    rw [← lag_of_not hFirst]
    exact serveReq_lag (fun _ _ => lags_mlkemRun) e

/-- A new key pair is asked for. -/
def keygenReq : PqcsReq := { op := OP_MLKEM_KEYGEN, a0 := 0, a1 := 0, payload := Buf32.empty }

def emptyDaemon : Fpgad := ⟨⟨[], false⟩, [], fun _ _ => .free⟩

theorem silent_core_is_polled : ¬∀ q e d, EndsAtOnce q e d := by
  intro h
  have hRuns : RunsMlkem keygenReq emptyDaemon := .inl ⟨rfl, by decide, rfl⟩
  obtain ⟨e, hMany, hReach⟩ := exists_silent hRuns
  have hFault := exists_fault (Nat.lt_of_lt_of_le (by decide) hMany)
  have hFew := (h keygenReq e emptyDaemon hFault).2
  rw [hReach] at hFew
  exact absurd (hMany.trans hFew) (by decide)

end PqcHsm
