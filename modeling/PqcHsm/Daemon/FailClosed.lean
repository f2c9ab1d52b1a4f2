import PqcHsm.Daemon.Ports

/-!
# The daemon fails closed

As long as the fault flag is down, every access has succeeded. So an answer with status OK rests on
accesses that succeeded.
-/

namespace PqcHsm

open ByteCodec Stateful

/-! ### The fault flag -/

/-- While the fault flag is down, every access has succeeded. -/
def Bus.Honest (b : Bus) : Prop := b.fault = false → ∀ a ∈ b.trace, a.Ok

theorem keeps_honest_rd (off : Nat) : Keeps Bus.Honest (rd off) := by
  intro e b h
  dsimp only [rd]
  split
  · intro hFault a hMem
    rcases List.mem_append.mp hMem with hOld | hNew
    · exact h hFault a hOld
    · cases List.mem_singleton.mp hNew
      exact rfl
  · intro hFault
    cases hFault

theorem keeps_honest_wr (off : Nat) (v : UInt32) : Keeps Bus.Honest (wr off v) := by
  intro e b h
  dsimp only [wr]
  split
  · intro hFault a hMem
    rcases List.mem_append.mp hMem with hOld | hNew
    · exact h hFault a hOld
    · cases List.mem_singleton.mp hNew
      exact rfl
  · intro hFault
    cases hFault

theorem ByPorts.honest {α : Type} {p : BusM α} (h : ByPorts p) : Keeps Bus.Honest p :=
  h.keeps keeps_honest_rd keeps_honest_wr

theorem spec_hwRdAbs (addr : Nat) :
    Spec Bus.Honest (hwRdAbs addr) fun r b => r.isSome → b.Honest := by
  intro e b h hSome hFault a hMem
  rcases List.mem_append.mp hMem with hOld | hNew
  · exact h hFault a hOld
  · cases List.mem_singleton.mp hNew
    exact hSome

/-- The identity is read past the flag, and given back only if all of it could be read. -/
theorem spec_dnaWords (addr words : Nat) :
    Spec Bus.Honest (dnaWords addr words) fun r b => r.isSome → b.Honest := by
  induction words generalizing addr with
  | zero => exact spec_pure fun _ h _ => h
  | succ words ih =>
    refine spec_bind (spec_hwRdAbs addr) fun r => ?_
    cases r with
    | none => exact spec_pure fun _ _ hSome => nomatch hSome
    | some w =>
      refine spec_bind ((ih (addr + 4)).mono (fun b h => h rfl) fun _ _ h => h) fun rest => ?_
      exact spec_pure fun b h hSome => h (Option.isSome_map ▸ hSome)

/-- A wait that has succeeded has not seen a fault. -/
theorem spec_waitClear (reg : Nat) (bit : UInt32) (limit : Nat) :
    Spec (fun _ => True) (waitClear reg bit limit) fun r b => r = true → b.fault = false := by
  induction limit with
  | zero => exact spec_pure fun _ _ h => absurd h Bool.false_ne_true
  | succ limit ih =>
    have hRd : Spec (fun _ => True) (rd reg) fun _ _ => True := fun _ _ _ => trivial
    have hFlag : Spec (fun _ => True) hwFault fun r b => r = b.fault := fun _ _ _ => rfl
    refine spec_bind hRd fun v => spec_bind hFlag fun fault => ?_
    apply spec_ite
    · exact fun _ => spec_pure fun _ _ h => absurd h Bool.false_ne_true
    · intro hUp
      apply spec_ite
      · exact fun _ => spec_pure fun b hFault _ => hFault ▸ Bool.eq_false_of_not_eq_true hUp
      · exact fun _ => ih.mono (fun _ _ => trivial) fun _ _ h => h

theorem spec_guardWiping :
    Spec Bus.Honest guardWiping fun r b => r = true → ∀ a ∈ b.trace, a.Ok := by
  have hPorts : ByPorts guardWiping :=
    .bind (byPorts_waitClear _ _ _) fun still =>
      byPorts_ite (.pure _) (byPorts_waitClear _ _ _)
  have hFlag : Spec (fun _ => True) guardWiping fun r b => r = true → b.fault = false := by
    refine spec_bind (spec_waitClear _ _ _) fun still => ?_
    apply spec_ite
    · exact fun _ => spec_pure fun _ _ h => absurd h Bool.false_ne_true
    · exact fun _ => (spec_waitClear _ _ _).mono (fun _ _ => trivial) fun _ _ h => h
  exact fun e b hHonest hPassed => hPorts.honest e b hHonest (hFlag e b trivial hPassed)

/-! ### The handlers -/

/-- The bus of the daemon has told all faults. -/
def Fpgad.Honest (d : Fpgad) : Prop := d.bus.Honest

theorem spec_onBus {α : Type} {P : Bus → Prop} {p : BusM α} {Q : α → Bus → Prop} (h : Spec P p Q) :
    Spec (fun d : Fpgad => P d.bus) (onBus p) fun a d => Q a d.bus :=
  fun e d hP => h e.bus d.bus hP

theorem Handler.honest {w : Bool} {α : Type} {S : α → Prop} {p : FpgadM α} (h : Handler w S p) :
    Spec Fpgad.Honest p fun a d => d.Honest ∧ S a := by
  induction h with
  | pure hS => exact spec_pure fun _ h => ⟨h, hS⟩
  | get => exact fun _ _ h => ⟨h, trivial⟩
  | env => exact fun _ _ h => ⟨h, trivial⟩
  | onBus hp => exact fun e d h => ⟨hp.honest e.bus d.bus h, trivial⟩
  | tee cmd => exact fun _ _ h => ⟨h, trivial⟩
  | setKey tgt h k => exact fun _ _ h => ⟨h, trivial⟩
  | bind _ _ ihp ihf => exact spec_bind ihp fun a => (ihf a).mono (fun _ h => h.1) fun _ _ h => h

theorem spec_opDeviceDna : Spec Fpgad.Honest opDeviceDna fun r d =>
    (r.status = SDR_OK → d.Honest) ∧ r.Closed := by
  refine spec_bind (spec_onBus (spec_dnaWords _ _)) fun dna => ?_
  cases dna with
  | none => exact spec_pure fun _ _ => ⟨fun h => absurd h (by decide), fun _ => rfl⟩
  | some dna => exact spec_pure fun _ h => ⟨fun _ => h rfl, fun hStatus => absurd rfl hStatus⟩

/-- After an operation other than the identity the bus has told all faults, after the identity it
has if the operation says OK. -/
theorem spec_handleOp (q : PqcsReq) : Spec Fpgad.Honest (handleOp q) fun r d =>
    (r.status = SDR_OK → d.Honest) ∧ r.Closed := by
  by_cases hDna : q.op = OP_DEVICE_DNA
  · have hDnaOp : handleOp q = opDeviceDna := by
      rw [handleOp, hDna]
      rfl
    rw [hDnaOp]
    exact spec_opDeviceDna
  · have hHandler : Handler true OpReply.Closed (handleOp q) := handler_handleOp hDna (.inl rfl)
    exact hHandler.honest.mono (fun _ h => h) fun _ _ h => ⟨fun _ => h.1, h.2⟩

/-! ### One request -/

/-- The daemon before a request: nothing has been done for it. -/
def Fpgad.fresh (d : Fpgad) : Fpgad := { d with bus := { d.bus with trace := [] }, tee := [] }

/-- What holds after a request: the accesses succeeded, or the answer has no payload and is not
OK. -/
def FailsClosed (r : OpReply) (d : Fpgad) : Prop :=
  (∀ a ∈ d.bus.trace, a.Ok) ∨ (r.status ≠ SDR_OK ∧ r.out = [])

theorem keeps_clearFault : Spec (fun b => ∀ a ∈ b.trace, a.Ok) clearFault fun _ => Bus.Honest :=
  fun _ _ h _ => h

theorem spec_serveReq (q : PqcsReq) :
    Spec (fun d => ∀ a ∈ d.bus.trace, a.Ok) (serveReq q) FailsClosed := by
  have hHard : SDR_HARDFAIL ≠ SDR_OK := by decide
  refine spec_bind (spec_onBus keeps_clearFault) fun _ => ?_
  refine spec_bind (spec_onBus spec_guardWiping) fun passed => ?_
  apply spec_ite
  · exact fun _ => spec_pure fun _ _ => .inr ⟨hHard, rfl⟩
  · intro hPassed
    have hStart : Spec (fun d : Fpgad => passed = true → ∀ a ∈ d.bus.trace, a.Ok)
        (onBus clearFault) fun _ d => d.Honest :=
      fun _ _ h _ => h (by simpa using hPassed)
    refine spec_bind hStart fun _ => spec_bind (spec_handleOp q) fun r => ?_
    have hFlag : Spec (fun d : Fpgad => (r.status = SDR_OK → d.Honest) ∧ r.Closed)
        (onBus hwFault) fun fault d =>
          ((r.status = SDR_OK → d.Honest) ∧ r.Closed) ∧ fault = d.bus.fault :=
      fun _ _ h => ⟨h, rfl⟩
    refine spec_bind hFlag fun fault => ?_
    apply spec_ite
    · exact fun _ => spec_pure fun _ _ => .inr ⟨hHard, rfl⟩
    · intro hUp
      apply spec_pure
      rintro d ⟨⟨hHonest, hClosed⟩, hFault⟩
      by_cases hOk : r.status = SDR_OK
      · refine .inl (hHonest hOk ?_)
        simpa [hOk, hFault] using hUp
      · exact .inr ⟨hOk, hClosed hOk⟩

/-- An answer OK rests on accesses that all succeeded, and no answer has a payload after an access
that failed. -/
theorem serveReq_fails_closed (q : PqcsReq) (e : FpgadEnv) (d : Fpgad) :
    (((serveReq q).run e d.fresh).1.status = SDR_OK →
      ∀ a ∈ ((serveReq q).run e d.fresh).2.bus.trace, a.Ok) ∧
    ((∃ a ∈ ((serveReq q).run e d.fresh).2.bus.trace, ¬a.Ok) → ((serveReq q).run e d.fresh).1.out = []) := by
  rcases spec_serveReq q e d.fresh (fun _ h => nomatch h) with hOk | ⟨hStatus, hOut⟩
  · exact ⟨fun _ => hOk, fun ⟨a, hMem, hFailed⟩ => absurd (hOk a hMem) hFailed⟩
  · exact ⟨fun h => absurd h hStatus, fun _ => hOut⟩

end PqcHsm
