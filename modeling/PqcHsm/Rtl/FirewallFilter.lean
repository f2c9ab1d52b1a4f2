import Mathlib.Algebra.Group.Nat.Defs
import Mathlib.Data.List.Basic
import PqcHsm.Rtl.Firewall

/-!
# The firewall is a filter

A monitor on both sides of the firewall collects what the master has sent, what the policy says of
each request in the cycle that completes it, what has appeared at the slave and what has been
answered. In every cycle the slave has seen the permitted requests in their order, the master has its
answers in the order of its requests, and counters and record tell what was denied.
-/

namespace PqcHsm

variable {p : FwParams} {aw : Nat}

/-- The policy: no tamper has been seen, the direction is open, the protection bits are those that are
asked for, and the address is in the window. -/
def Allows (p : FwParams) (tampered : Bool) (addr : BitVec p.aw) (prot : BitVec 3) (isWrite : Bool) :
    Prop :=
  tampered = false ∧ (if isWrite then p.allowWrite else p.allowRead) = true ∧
    (p.secureOnly = true → prot.getLsbD 1 = false) ∧ (p.privOnly = true → prot.getLsbD 0 = true) ∧
    (p.addrMask ≠ 0 → addr.setWidth 32 &&& p.addrMask = p.addrBase)

instance (p : FwParams) (tampered : Bool) (addr : BitVec p.aw) (prot : BitVec 3) (isWrite : Bool) :
    Decidable (Allows p tampered addr prot isWrite) := by
  unfold Allows
  infer_instance

theorem permit_eq_true_iff {tampered : Bool} {addr : BitVec p.aw} {prot : BitVec 3} {isWrite : Bool} :
    permit p tampered addr prot isWrite = true ↔ Allows p tampered addr prot isWrite := by
  unfold permit Allows
  cases isWrite <;> cases tampered <;> cases p.allowWrite <;> cases p.allowRead <;>
    cases p.secureOnly <;> cases p.privOnly <;> cases prot.getLsbD 1 <;> cases prot.getLsbD 0 <;>
    simp [imp_iff_not_or]

/-- A request of the master and the verdict on it. -/
structure Judged (α : Type) where
  req : α
  allowed : Bool

namespace Judged

variable {α β : Type}

/-- The requests that were allowed. -/
def passed (js : List (Judged α)) : List α := (js.filter Judged.allowed).map Judged.req

/-- The requests that were denied. -/
def denied (js : List (Judged α)) : List α := (js.filter fun j => !j.allowed).map Judged.req

/-- The answers to requests in their order: of those that were allowed, as far as the slave has
answered, and of those that were denied. -/
def answers (refusal : β) : List (Judged α) → List β → List β
  | [], _ => []
  | ⟨_, false⟩ :: js, bs => refusal :: answers refusal js bs
  | ⟨_, true⟩ :: js, b :: bs => b :: answers refusal js bs
  | ⟨_, true⟩ :: _, [] => []

section

variable {js : List (Judged α)} {r : α} {refusal : β} {bs : List β}

@[simp] theorem passed_append (a : Bool) :
    passed (js ++ [⟨r, a⟩]) = passed js ++ if a then [r] else [] := by
  cases a <;> simp [passed]

@[simp] theorem denied_append (a : Bool) :
    denied (js ++ [⟨r, a⟩]) = denied js ++ if a then [] else [r] := by
  cases a <;> simp [denied]

theorem answers_denied (h : bs.length = (passed js).length) :
    answers refusal (js ++ [⟨r, false⟩]) bs = answers refusal js bs ++ [refusal] := by
  induction js generalizing bs with
  | nil => rfl
  | cons j js ih =>
    obtain ⟨q, a⟩ := j
    cases a with
    | false =>
      rw [List.cons_append, answers, answers, ih h]
      rfl
    | true =>
      cases bs with
      | nil => cases h
      | cons b bs =>
        rw [List.cons_append, answers, answers, ih (Nat.succ.inj h)]
        rfl

/-- While the slave has not answered the newest request, the others are answered. -/
theorem answers_waiting (h : bs.length = (passed js).length) :
    answers refusal (js ++ [⟨r, true⟩]) bs = answers refusal js bs := by
  induction js generalizing bs with
  | nil =>
    cases bs with
    | nil => rfl
    | cons b bs => cases h
  | cons j js ih =>
    obtain ⟨q, a⟩ := j
    cases a with
    | false => rw [List.cons_append, answers, answers, ih h]
    | true =>
      cases bs with
      | nil => cases h
      | cons b bs => rw [List.cons_append, answers, answers, ih (Nat.succ.inj h)]

theorem answers_passed (h : bs.length = (passed js).length) (b : β) :
    answers refusal (js ++ [⟨r, true⟩]) (bs ++ [b]) = answers refusal js bs ++ [b] := by
  induction js generalizing bs with
  | nil =>
    cases bs with
    | nil => rfl
    | cons c bs => cases h
  | cons j js ih =>
    obtain ⟨q, a⟩ := j
    cases a with
    | false =>
      rw [List.cons_append, answers, answers, ih h]
      rfl
    | true =>
      cases bs with
      | nil => cases h
      | cons c bs =>
        rw [List.cons_append, List.cons_append, answers, answers, ih (Nat.succ.inj h)]
        rfl

end

end Judged

/-- The write requests as they passed the interfaces. -/
structure WrSeen (aw : Nat) where
  /-- Addresses and data that the master has handed over. -/
  sAw : List (BitVec aw × BitVec 3)
  sW : List (BitVec 32 × BitVec 4)
  judged : List (Judged ((BitVec aw × BitVec 3) × (BitVec 32 × BitVec 4)))
  /-- Addresses and data that the slave has taken, and the responses taken from it. -/
  mAw : List (BitVec aw × BitVec 3)
  mW : List (BitVec 32 × BitVec 4)
  mB : List (BitVec 2)
  /-- The responses that the master has taken. -/
  sB : List (BitVec 2)

structure RdSeen (aw : Nat) where
  judged : List (Judged (BitVec aw × BitVec 3))
  mAr : List (BitVec aw × BitVec 3)
  mR : List (BitVec 32 × BitVec 2)
  sR : List (BitVec 32 × BitVec 2)

/-- A request that was denied: its address, its protection bits and whether it was a write. -/
abbrev Violation (aw : Nat) := BitVec aw × BitVec 3 × Bool

structure FwSeen (aw : Nat) where
  tampered : Bool
  wr : WrSeen aw
  rd : RdSeen aw
  /-- What was denied, in the order of the cycles, the write of a cycle before its read. -/
  violations : List (Violation aw)

/-- An element that was handed over, or is offered. -/
def ifSome {α : Type} (c : Bool) (a : α) : List α := if c then [a] else []

section Monitor

variable (p : FwParams) (tampered : Bool) (toMaster : AxiSlave) (toSlave : AxiMaster p.aw)
  (x : FwIn p.aw)

/-- The write request that is complete with what was handed over, and not judged yet. -/
def WrSeen.request (m : WrSeen p.aw) :
    List (Judged ((BitVec p.aw × BitVec 3) × (BitVec 32 × BitVec 4))) :=
  let sAw := m.sAw ++ ifSome (x.s.awvalid && toMaster.awready) (x.s.awaddr, x.s.awprot)
  let sW := m.sW ++ ifSome (x.s.wvalid && toMaster.wready) (x.s.wdata, x.s.wstrb)
  match sAw[m.judged.length]?, sW[m.judged.length]? with
  | some a, some d => [⟨(a, d), Allows p tampered a.1 a.2 true⟩]
  | _, _ => []

def WrSeen.see (m : WrSeen p.aw) : WrSeen p.aw where
  sAw := m.sAw ++ ifSome (x.s.awvalid && toMaster.awready) (x.s.awaddr, x.s.awprot)
  sW := m.sW ++ ifSome (x.s.wvalid && toMaster.wready) (x.s.wdata, x.s.wstrb)
  judged := m.judged ++ m.request p tampered toMaster x
  mAw := m.mAw ++ ifSome (toSlave.awvalid && x.m.awready) (toSlave.awaddr, toSlave.awprot)
  mW := m.mW ++ ifSome (toSlave.wvalid && x.m.wready) (toSlave.wdata, toSlave.wstrb)
  mB := m.mB ++ ifSome (x.m.bvalid && toSlave.bready) x.m.bresp
  sB := m.sB ++ ifSome (toMaster.bvalid && x.s.bready) toMaster.bresp

/-- The read request of the cycle. -/
def RdSeen.request : List (Judged (BitVec p.aw × BitVec 3)) :=
  ifSome (x.s.arvalid && toMaster.arready)
    ⟨(x.s.araddr, x.s.arprot), Allows p tampered x.s.araddr x.s.arprot false⟩

def RdSeen.see (m : RdSeen p.aw) : RdSeen p.aw where
  judged := m.judged ++ RdSeen.request p tampered toMaster x
  mAr := m.mAr ++ ifSome (toSlave.arvalid && x.m.arready) (toSlave.araddr, toSlave.arprot)
  mR := m.mR ++ ifSome (x.m.rvalid && toSlave.rready) (x.m.rdata, x.m.rresp)
  sR := m.sR ++ ifSome (toMaster.rvalid && x.s.rready) (toMaster.rdata, toMaster.rresp)

/-- What the monitor adds in a cycle, from what both interfaces of the firewall show. -/
def FwSeen.see (m : FwSeen p.aw) (f : Firewall p.aw) (x : FwIn p.aw) : FwSeen p.aw :=
  let tampered := m.tampered || x.tamper
  { tampered
    wr := m.wr.see p tampered f.toMaster f.toSlave x
    rd := m.rd.see p tampered f.toMaster f.toSlave x
    violations := m.violations ++
      (Judged.denied (m.wr.request p tampered f.toMaster x)).map (fun r => (r.1.1, r.1.2, true)) ++
      (Judged.denied (RdSeen.request p tampered f.toMaster x)).map fun r => (r.1, r.2, false) }

def FwSeen.empty : FwSeen p.aw := ⟨false, ⟨[], [], [], [], [], [], []⟩, ⟨[], [], [], []⟩, []⟩

end Monitor

/-! ### The write channel -/

section Write

variable {f : FwWrite p.aw} {m : WrSeen p.aw}

/-- What is forwarded, awaited or about to be refused. -/
def FwWrite.Phase (f : FwWrite aw) (m : WrSeen aw) : Prop :=
  match f.wst with
  | .idle => f.mAwvalid = false ∧ f.mWvalid = false ∧ f.mBready = false ∧ f.sBvalid = false ∧
      m.mB.length = (Judged.passed m.judged).length ∧ Judged.answers RESP_OKAY m.judged m.mB = m.sB
  | .fwd => f.mAwvalid = !f.awSent ∧ f.mWvalid = !f.wSent ∧ f.mBready = false ∧ f.sBvalid = false ∧
      ∃ js r, m.judged = js ++ [⟨r, true⟩] ∧ m.mB.length = (Judged.passed js).length ∧
        Judged.answers RESP_OKAY js m.mB = m.sB
  | .waitb => f.mAwvalid = false ∧ f.mWvalid = false ∧ f.mBready = true ∧ f.sBvalid = false ∧
      ∃ js r, m.judged = js ++ [⟨r, true⟩] ∧ m.mB.length = (Judged.passed js).length ∧
        Judged.answers RESP_OKAY js m.mB = m.sB
  | .err => f.mAwvalid = false ∧ f.mWvalid = false ∧ f.mBready = false ∧ f.sBvalid = false ∧
      m.mB.length = (Judged.passed m.judged).length ∧
      Judged.answers RESP_OKAY m.judged m.mB = m.sB ++ [RESP_OKAY]
  | .resp => f.mAwvalid = false ∧ f.mWvalid = false ∧ f.mBready = false ∧ f.sBvalid = true ∧
      m.mB.length = (Judged.passed m.judged).length ∧
      Judged.answers RESP_OKAY m.judged m.mB = m.sB ++ [f.sBresp]

/-- The registers of the write channel account for what the monitor has seen. -/
structure FwWrite.Tracks (f : FwWrite p.aw) (m : WrSeen p.aw) : Prop where
  sAw : m.sAw = m.judged.map (fun j => j.req.1) ++ ifSome f.awGot (f.awAddr, f.awProt)
  sW : m.sW = m.judged.map (fun j => j.req.2) ++ ifSome f.wGot (f.wData, f.wStrb)
  free : f.wst ≠ .idle → f.awGot = false ∧ f.wGot = false
  one : (f.awGot && f.wGot) = false
  mAw : (Judged.passed m.judged).map Prod.fst = m.mAw ++ ifSome f.mAwvalid (f.awAddr, f.awProt)
  mW : (Judged.passed m.judged).map Prod.snd = m.mW ++ ifSome f.mWvalid (f.wData, f.wStrb)
  phase : f.Phase m

theorem getElem?_ifSome {α : Type} (l : List α) (c d : Bool) (a b : α) :
    (l ++ ifSome c a ++ ifSome d b)[l.length]? =
      if c then some a else if d then some b else none := by
  rw [List.append_assoc, List.getElem?_append_right (Nat.le_refl _), Nat.sub_self]
  cases c <;> cases d <;> rfl

theorem FwWrite.awHandshake_eq_false {x : FwIn aw} {f : FwWrite aw} (h : f.awGot = true) :
    f.awHandshake x = false := by
  simp [awHandshake, sAwready, h]

theorem FwWrite.wHandshake_eq_false {x : FwIn aw} {f : FwWrite aw} (h : f.wGot = true) :
    f.wHandshake x = false := by
  simp [wHandshake, sWready, h]

/-- The monitor finds a complete request when the write channel does. -/
theorem FwWrite.Tracks.request (h : f.Tracks m) (t : Bool) {toMaster : AxiSlave} {x : FwIn p.aw}
    (hAw : toMaster.awready = f.sAwready) (hW : toMaster.wready = f.sWready) :
    m.request p t toMaster x = ifSome (f.complete x)
      ⟨((f.reqAddr x, f.reqProt x), (f.reqData x, f.reqStrb x)),
        Allows p t (f.reqAddr x) (f.reqProt x) true⟩ := by
  have hAddr : (m.sAw ++ ifSome (x.s.awvalid && toMaster.awready)
      (x.s.awaddr, x.s.awprot))[m.judged.length]? =
      if f.awGot || f.awHandshake x then some (f.reqAddr x, f.reqProt x) else none := by
    have hLen := getElem?_ifSome (m.judged.map fun j => j.req.1) f.awGot (f.awHandshake x)
      (f.awAddr, f.awProt) (x.s.awaddr, x.s.awprot)
    rw [List.length_map] at hLen
    rw [h.sAw, hAw]
    refine hLen.trans ?_
    cases hGot : f.awGot with
    | true => simp [FwWrite.reqAddr, FwWrite.reqProt, FwWrite.awHandshake_eq_false hGot]
    | false => cases hHand : f.awHandshake x <;> simp [FwWrite.reqAddr, FwWrite.reqProt, hHand]
  have hData : (m.sW ++ ifSome (x.s.wvalid && toMaster.wready)
      (x.s.wdata, x.s.wstrb))[m.judged.length]? =
      if f.wGot || f.wHandshake x then some (f.reqData x, f.reqStrb x) else none := by
    have hLen := getElem?_ifSome (m.judged.map fun j => j.req.2) f.wGot (f.wHandshake x)
      (f.wData, f.wStrb) (x.s.wdata, x.s.wstrb)
    rw [List.length_map] at hLen
    rw [h.sW, hW]
    refine hLen.trans ?_
    cases hGot : f.wGot with
    | true => simp [FwWrite.reqData, FwWrite.reqStrb, FwWrite.wHandshake_eq_false hGot]
    | false => cases hHand : f.wHandshake x <;> simp [FwWrite.reqData, FwWrite.reqStrb, hHand]
  unfold WrSeen.request
  dsimp only
  rw [hAddr, hData]
  unfold FwWrite.complete
  cases f.awGot || f.awHandshake x <;> cases f.wGot || f.wHandshake x <;> rfl

theorem FwWrite.complete_eq_false {x : FwIn aw} {f : FwWrite aw} (hSt : f.wst ≠ .idle)
    (hAw : f.awGot = false) : f.complete x = false := by
  simp [complete, awHandshake, sAwready, hSt, hAw]

theorem permit_eq_decide (t : Bool) (addr : BitVec p.aw) (prot : BitVec 3) (isWrite : Bool) :
    permit p t addr prot isWrite = decide (Allows p t addr prot isWrite) := by
  rw [Bool.eq_iff_iff, permit_eq_true_iff, decide_eq_true_iff]

end Write

section WriteStep

variable {F : Firewall p.aw} {m : WrSeen p.aw} {x : FwIn p.aw} {t : Bool}

/-- While a request is under way, the master hands nothing over. -/
theorem WrSeen.see_busy (h : F.wr.Tracks m) (hSt : F.wr.wst ≠ .idle) :
    m.see p t F.toMaster F.toSlave x =
      { m with
        mAw := m.mAw ++ ifSome (F.wr.mAwvalid && x.m.awready) (F.wr.awAddr, F.wr.awProt)
        mW := m.mW ++ ifSome (F.wr.mWvalid && x.m.wready) (F.wr.wData, F.wr.wStrb)
        mB := m.mB ++ ifSome (x.m.bvalid && F.wr.mBready) x.m.bresp
        sB := m.sB ++ ifSome (F.wr.sBvalid && x.s.bready) F.wr.sBresp } := by
  have hAw : (x.s.awvalid && F.toMaster.awready) = false := by
    simp [Firewall.toMaster, FwWrite.sAwready, hSt]
  have hW : (x.s.wvalid && F.toMaster.wready) = false := by
    simp [Firewall.toMaster, FwWrite.sWready, hSt]
  unfold WrSeen.see
  rw [h.request t rfl rfl, FwWrite.complete_eq_false hSt (h.free hSt).1, hAw, hW]
  simp only [ifSome, Bool.false_eq_true, if_false, List.append_nil]
  rfl

theorem tracks_waitb (h : F.wr.Tracks m) (hSt : F.wr.wst = .waitb) (permitted : Bool) :
    (F.wr.next permitted x).Tracks (m.see p t F.toMaster F.toSlave x) := by
  have hPhase := h.phase
  simp only [FwWrite.Phase, hSt] at hPhase
  obtain ⟨hAwv, hWv, hBr, hBv, js, r, hJs, hLen, hAns⟩ := hPhase
  have hNe : F.wr.wst ≠ .idle := by simp [hSt]
  rw [WrSeen.see_busy h hNe]
  have hAw := h.mAw
  have hW := h.mW
  rw [hAwv] at hAw
  rw [hWv] at hW
  simp only [FwWrite.next, hSt]
  cases hB : x.m.bvalid with
  | false =>
    simp only [hAwv, hWv, hBv, ifSome, Bool.false_and, Bool.false_eq_true, if_false, List.append_nil]
    exact h
  | true =>
    simp only [hAwv, hWv, hBv, hBr, ifSome, Bool.false_and, Bool.true_and, Bool.false_eq_true,
      if_false, if_true, List.append_nil]
    constructor
    · exact h.sAw
    · exact h.sW
    · exact fun _ => h.free hNe
    · exact h.one
    · exact hAw
    · exact hW
    · refine ⟨rfl, rfl, rfl, rfl, ?_, ?_⟩
      · rw [hJs]
        simp [hLen]
      · dsimp only
        rw [hJs, Judged.answers_passed hLen, hAns]

theorem tracks_err (h : F.wr.Tracks m) (hSt : F.wr.wst = .err) (permitted : Bool) :
    (F.wr.next permitted x).Tracks (m.see p t F.toMaster F.toSlave x) := by
  have hPhase := h.phase
  simp only [FwWrite.Phase, hSt] at hPhase
  obtain ⟨hAwv, hWv, hBr, hBv, hLen, hAns⟩ := hPhase
  have hNe : F.wr.wst ≠ .idle := by simp [hSt]
  rw [WrSeen.see_busy h hNe]
  simp only [FwWrite.next, hSt, hAwv, hWv, hBv, hBr, ifSome, Bool.false_and, Bool.and_false,
    Bool.false_eq_true, if_false, List.append_nil]
  constructor
  · exact h.sAw
  · exact h.sW
  · exact fun _ => h.free hNe
  · exact h.one
  · simpa [hAwv] using h.mAw
  · simpa [hWv] using h.mW
  · exact ⟨rfl, rfl, rfl, rfl, hLen, hAns⟩

theorem tracks_resp (h : F.wr.Tracks m) (hSt : F.wr.wst = .resp) (permitted : Bool) :
    (F.wr.next permitted x).Tracks (m.see p t F.toMaster F.toSlave x) := by
  have hPhase := h.phase
  simp only [FwWrite.Phase, hSt] at hPhase
  obtain ⟨hAwv, hWv, hBr, hBv, hLen, hAns⟩ := hPhase
  have hNe : F.wr.wst ≠ .idle := by simp [hSt]
  rw [WrSeen.see_busy h hNe]
  simp only [FwWrite.next, hSt]
  cases hReady : x.s.bready with
  | false =>
    simp only [hAwv, hWv, hBr, ifSome, Bool.false_and, Bool.and_false, Bool.false_eq_true, if_false,
      List.append_nil]
    exact h
  | true =>
    simp only [hAwv, hWv, hBr, hBv, ifSome, Bool.false_and, Bool.and_false, Bool.true_and,
      Bool.false_eq_true, if_false, if_true, List.append_nil]
    constructor
    · exact h.sAw
    · exact h.sW
    · exact fun _ => h.free hNe
    · exact h.one
    · simpa [hAwv] using h.mAw
    · simpa [hWv] using h.mW
    · exact ⟨rfl, rfl, rfl, rfl, hLen, hAns⟩

theorem tracks_fwd (h : F.wr.Tracks m) (hSt : F.wr.wst = .fwd) (permitted : Bool) :
    (F.wr.next permitted x).Tracks (m.see p t F.toMaster F.toSlave x) := by
  have hPhase := h.phase
  simp only [FwWrite.Phase, hSt] at hPhase
  obtain ⟨hAwv, hWv, hBr, hBv, hRest⟩ := hPhase
  have hNe : F.wr.wst ≠ .idle := by simp [hSt]
  rw [WrSeen.see_busy h hNe]
  have hAw : (Judged.passed m.judged).map Prod.fst =
      (m.mAw ++ ifSome (F.wr.mAwvalid && x.m.awready) (F.wr.awAddr, F.wr.awProt)) ++
        ifSome (F.wr.mAwvalid && !(F.wr.mAwvalid && x.m.awready)) (F.wr.awAddr, F.wr.awProt) := by
    rw [h.mAw]
    cases F.wr.mAwvalid <;> cases x.m.awready <;> simp [ifSome]
  have hW : (Judged.passed m.judged).map Prod.snd =
      (m.mW ++ ifSome (F.wr.mWvalid && x.m.wready) (F.wr.wData, F.wr.wStrb)) ++
        ifSome (F.wr.mWvalid && !(F.wr.mWvalid && x.m.wready)) (F.wr.wData, F.wr.wStrb) := by
    rw [h.mW]
    cases F.wr.mWvalid <;> cases x.m.wready <;> simp [ifSome]
  simp only [FwWrite.next, hSt, FwWrite.nextFwd, hBr, hBv, Bool.and_false, Bool.false_and]
  simp only [ifSome, Bool.false_eq_true, if_false, List.append_nil] at hAw hW ⊢
  split
  · rename_i hSent
    constructor
    · exact h.sAw
    · exact h.sW
    · exact fun _ => h.free hNe
    · exact h.one
    · exact hAw
    · exact hW
    · simp only [FwWrite.Phase]
      rw [hAwv, hWv] at hSent ⊢
      refine ⟨?_, ?_, trivial, trivial, hRest⟩ <;> revert hSent <;> cases F.wr.awSent <;>
        cases F.wr.wSent <;> cases x.m.awready <;> cases x.m.wready <;> simp
  · constructor
    · exact h.sAw
    · exact h.sW
    · exact fun _ => h.free hNe
    · exact h.one
    · exact hAw
    · exact hW
    · simp only [FwWrite.Phase]
      rw [hAwv, hWv]
      refine ⟨?_, ?_, trivial, trivial, hRest⟩ <;> simp

theorem tracks_idle (h : F.wr.Tracks m) (hSt : F.wr.wst = .idle) :
    (F.wr.next (permit p t (F.wr.reqAddr x) (F.wr.reqProt x) true) x).Tracks
      (m.see p t F.toMaster F.toSlave x) := by
  have hPhase := h.phase
  simp only [FwWrite.Phase, hSt] at hPhase
  obtain ⟨hAwv, hWv, hBr, hBv, hLen, hAns⟩ := hPhase
  have hSee : m.see p t F.toMaster F.toSlave x =
      { m with
        sAw := m.sAw ++ ifSome (F.wr.awHandshake x) (x.s.awaddr, x.s.awprot)
        sW := m.sW ++ ifSome (F.wr.wHandshake x) (x.s.wdata, x.s.wstrb)
        judged := m.judged ++ ifSome (F.wr.complete x)
          ⟨((F.wr.reqAddr x, F.wr.reqProt x), (F.wr.reqData x, F.wr.reqStrb x)),
            Allows p t (F.wr.reqAddr x) (F.wr.reqProt x) true⟩ } := by
    unfold WrSeen.see
    rw [h.request t rfl rfl]
    simp only [Firewall.toMaster, Firewall.toSlave, hAwv, hWv, hBr, hBv, ifSome, Bool.false_and,
      Bool.and_false, Bool.false_eq_true, if_false, List.append_nil]
    rfl
  have hA : m.sAw ++ ifSome (F.wr.awHandshake x) (x.s.awaddr, x.s.awprot) =
      m.judged.map (fun j => j.req.1) ++
        ifSome (F.wr.awGot || F.wr.awHandshake x) (F.wr.reqAddr x, F.wr.reqProt x) := by
    rw [h.sAw]
    cases hGot : F.wr.awGot with
    | true => simp [FwWrite.reqAddr, FwWrite.reqProt, FwWrite.awHandshake_eq_false hGot, ifSome]
    | false =>
      cases hHand : F.wr.awHandshake x <;> simp [FwWrite.reqAddr, FwWrite.reqProt, hHand, ifSome]
  have hD : m.sW ++ ifSome (F.wr.wHandshake x) (x.s.wdata, x.s.wstrb) =
      m.judged.map (fun j => j.req.2) ++
        ifSome (F.wr.wGot || F.wr.wHandshake x) (F.wr.reqData x, F.wr.reqStrb x) := by
    rw [h.sW]
    cases hGot : F.wr.wGot with
    | true => simp [FwWrite.reqData, FwWrite.reqStrb, FwWrite.wHandshake_eq_false hGot, ifSome]
    | false =>
      cases hHand : F.wr.wHandshake x <;> simp [FwWrite.reqData, FwWrite.reqStrb, hHand, ifSome]
  have hMAw := h.mAw
  have hMW := h.mW
  rw [hAwv] at hMAw
  rw [hWv] at hMW
  rw [hSee, hA, hD, permit_eq_decide]
  simp only [FwWrite.next, hSt, FwWrite.nextIdle]
  cases hC : F.wr.complete x with
  | false =>
    simp only [ifSome, Bool.false_eq_true, if_false, List.append_nil] at hMAw hMW ⊢
    constructor
    · rfl
    · rfl
    · exact fun hNe => absurd rfl hNe
    · exact hC
    · simpa only [hAwv, ifSome, Bool.false_eq_true, if_false, List.append_nil] using hMAw
    · simpa only [hWv, ifSome, Bool.false_eq_true, if_false, List.append_nil] using hMW
    · exact ⟨hAwv, hWv, hBr, hBv, hLen, hAns⟩
  | true =>
    obtain ⟨hGotA, hGotW⟩ := Bool.and_eq_true_iff.mp hC
    rw [hGotA, hGotW]
    cases hOk : decide (Allows p t (F.wr.reqAddr x) (F.wr.reqProt x) true) with
    | true =>
      constructor
      · simp [ifSome]
      · simp [ifSome]
      · exact fun _ => ⟨rfl, rfl⟩
      · rfl
      · simpa [ifSome] using hMAw
      · simpa [ifSome] using hMW
      · exact ⟨rfl, rfl, hBr, hBv, m.judged, _, rfl, hLen, hAns⟩
    | false =>
      constructor
      · simp [ifSome]
      · simp [ifSome]
      · exact fun _ => ⟨rfl, rfl⟩
      · rfl
      · simpa [ifSome, hAwv] using hMAw
      · simpa [ifSome, hWv] using hMW
      · refine ⟨hAwv, hWv, hBr, hBv, ?_, ?_⟩
        · simpa [ifSome] using hLen
        · simp [ifSome, Judged.answers_denied hLen, hAns]

/-- Every edge keeps the account of the write channel. -/
theorem FwWrite.Tracks.next (h : F.wr.Tracks m) :
    (F.wr.next (permit p t (F.wr.reqAddr x) (F.wr.reqProt x) true) x).Tracks
      (m.see p t F.toMaster F.toSlave x) := by
  cases hSt : F.wr.wst with
  | idle => exact tracks_idle h hSt
  | fwd => exact tracks_fwd h hSt _
  | waitb => exact tracks_waitb h hSt _
  | err => exact tracks_err h hSt _
  | resp => exact tracks_resp h hSt _

/-- The responses that are due to the master, and those it has or is offered. -/
def WrSeen.due (m : WrSeen aw) : List (BitVec 2) := Judged.answers RESP_OKAY m.judged m.mB

def WrSeen.given (m : WrSeen aw) (toMaster : AxiSlave) : List (BitVec 2) :=
  m.sB ++ ifSome toMaster.bvalid toMaster.bresp

/-- Nothing is answered before it is due. -/
theorem FwWrite.Tracks.given_prefix (h : F.wr.Tracks m) : m.given F.toMaster <+: m.due := by
  have hPhase := h.phase
  unfold FwWrite.Phase at hPhase
  simp only [WrSeen.given, WrSeen.due, Firewall.toMaster]
  cases hSt : F.wr.wst with
  | idle =>
    simp only [hSt] at hPhase
    obtain ⟨-, -, -, hBv, -, hAns⟩ := hPhase
    simp [hBv, ifSome, hAns]
  | fwd =>
    simp only [hSt] at hPhase
    obtain ⟨-, -, -, hBv, js, r, hJs, hLen, hAns⟩ := hPhase
    simp [hBv, ifSome, hJs, Judged.answers_waiting hLen, hAns]
  | waitb =>
    simp only [hSt] at hPhase
    obtain ⟨-, -, -, hBv, js, r, hJs, hLen, hAns⟩ := hPhase
    simp [hBv, ifSome, hJs, Judged.answers_waiting hLen, hAns]
  | err =>
    simp only [hSt] at hPhase
    obtain ⟨-, -, -, hBv, -, hAns⟩ := hPhase
    simp [hBv, ifSome, hAns]
  | resp =>
    simp only [hSt] at hPhase
    obtain ⟨-, -, -, hBv, -, hAns⟩ := hPhase
    simp [hBv, ifSome, hAns]

/-- What is due in a cycle is handed over or offered after its edge. -/
theorem FwWrite.Tracks.due_prefix (h : F.wr.Tracks m) (F' : Firewall p.aw) (permitted : Bool)
    (hF' : F'.wr = F.wr.next permitted x) :
    m.due <+: (m.see p t F.toMaster F.toSlave x).given F'.toMaster := by
  have hPhase := h.phase
  unfold FwWrite.Phase at hPhase
  simp only [WrSeen.given, WrSeen.due, Firewall.toMaster, hF', WrSeen.see, FwWrite.next]
  cases hSt : F.wr.wst with
  | idle =>
    simp only [hSt] at hPhase
    obtain ⟨-, -, -, -, -, hAns⟩ := hPhase
    rw [hAns, List.append_assoc]
    exact List.prefix_append _ _
  | fwd =>
    simp only [hSt] at hPhase
    obtain ⟨-, -, -, -, js, r, hJs, hLen, hAns⟩ := hPhase
    rw [hJs, Judged.answers_waiting hLen, hAns, List.append_assoc]
    exact List.prefix_append _ _
  | waitb =>
    simp only [hSt] at hPhase
    obtain ⟨-, -, -, -, js, r, hJs, hLen, hAns⟩ := hPhase
    rw [hJs, Judged.answers_waiting hLen, hAns, List.append_assoc]
    exact List.prefix_append _ _
  | err =>
    simp only [hSt] at hPhase
    obtain ⟨-, -, -, hBv, -, hAns⟩ := hPhase
    simp [hAns, hBv, ifSome]
  | resp =>
    simp only [hSt] at hPhase
    obtain ⟨-, -, -, hBv, -, hAns⟩ := hPhase
    cases x.s.bready <;> simp [hAns, hBv, ifSome]

end WriteStep

/-! ### The read channel -/

section Read

variable {F : Firewall p.aw} {m : RdSeen p.aw} {x : FwIn p.aw} {t : Bool}

/-- What a denied read is answered with. -/
def refusedRead : BitVec 32 × BitVec 2 := (0, RESP_OKAY)

def FwRead.Phase (f : FwRead aw) (m : RdSeen aw) : Prop :=
  match f.rst with
  | .idle => f.mArvalid = false ∧ f.mRready = false ∧ f.sRvalid = false ∧
      m.mR.length = (Judged.passed m.judged).length ∧
      Judged.answers refusedRead m.judged m.mR = m.sR
  | .fwd => f.mArvalid = true ∧ f.mRready = false ∧ f.sRvalid = false ∧
      ∃ js r, m.judged = js ++ [⟨r, true⟩] ∧ m.mR.length = (Judged.passed js).length ∧
        Judged.answers refusedRead js m.mR = m.sR
  | .waitr => f.mArvalid = false ∧ f.mRready = true ∧ f.sRvalid = false ∧
      ∃ js r, m.judged = js ++ [⟨r, true⟩] ∧ m.mR.length = (Judged.passed js).length ∧
        Judged.answers refusedRead js m.mR = m.sR
  | .err => f.mArvalid = false ∧ f.mRready = false ∧ f.sRvalid = false ∧
      m.mR.length = (Judged.passed m.judged).length ∧
      Judged.answers refusedRead m.judged m.mR = m.sR ++ [refusedRead]
  | .resp => f.mArvalid = false ∧ f.mRready = false ∧ f.sRvalid = true ∧
      m.mR.length = (Judged.passed m.judged).length ∧
      Judged.answers refusedRead m.judged m.mR = m.sR ++ [(f.sRdata, f.sRresp)]

/-- The registers of the read channel account for what the monitor has seen. -/
structure FwRead.Tracks (f : FwRead p.aw) (m : RdSeen p.aw) : Prop where
  mAr : Judged.passed m.judged = m.mAr ++ ifSome f.mArvalid (f.arAddr, f.arProt)
  phase : f.Phase m

theorem RdSeen.see_idle (hSt : F.rd.rst = .idle) (hArv : F.rd.mArvalid = false)
    (hRr : F.rd.mRready = false) (hRv : F.rd.sRvalid = false) :
    m.see p t F.toMaster F.toSlave x =
      { m with
        judged := m.judged ++ ifSome x.s.arvalid
          ⟨(x.s.araddr, x.s.arprot), Allows p t x.s.araddr x.s.arprot false⟩ } := by
  unfold RdSeen.see RdSeen.request
  simp [Firewall.toMaster, Firewall.toSlave, FwRead.sArready, hSt, hArv, hRr, hRv, ifSome]

/-- While a request is under way, the master hands none over. -/
theorem RdSeen.see_busy (hSt : F.rd.rst ≠ .idle) :
    m.see p t F.toMaster F.toSlave x =
      { m with
        mAr := m.mAr ++ ifSome (F.rd.mArvalid && x.m.arready) (F.rd.arAddr, F.rd.arProt)
        mR := m.mR ++ ifSome (x.m.rvalid && F.rd.mRready) (x.m.rdata, x.m.rresp)
        sR := m.sR ++ ifSome (F.rd.sRvalid && x.s.rready) (F.rd.sRdata, F.rd.sRresp) } := by
  unfold RdSeen.see RdSeen.request
  simp [Firewall.toMaster, Firewall.toSlave, FwRead.sArready, hSt, ifSome]

theorem reads_idle (h : F.rd.Tracks m) (hSt : F.rd.rst = .idle) :
    (F.rd.next (permit p t x.s.araddr x.s.arprot false) x).Tracks
      (m.see p t F.toMaster F.toSlave x) := by
  have hPhase := h.phase
  simp only [FwRead.Phase, hSt] at hPhase
  obtain ⟨hArv, hRr, hRv, hLen, hAns⟩ := hPhase
  have hAr := h.mAr
  rw [RdSeen.see_idle hSt hArv hRr hRv, permit_eq_decide]
  rw [hArv] at hAr
  simp only [FwRead.next, hSt, FwRead.arHandshake, FwRead.sArready, decide_true, Bool.and_true]
  cases hReq : x.s.arvalid with
  | false =>
    simp only [ifSome, Bool.false_eq_true, if_false, List.append_nil]
    exact h
  | true =>
    cases hOk : decide (Allows p t x.s.araddr x.s.arprot false) with
    | true =>
      constructor
      · simpa [ifSome] using hAr
      · exact ⟨rfl, hRr, hRv, m.judged, _, rfl, hLen, hAns⟩
    | false =>
      constructor
      · simpa [ifSome, hArv] using hAr
      · refine ⟨hArv, hRr, hRv, ?_, ?_⟩
        · simpa [ifSome] using hLen
        · simp [ifSome, Judged.answers_denied hLen, hAns]

theorem reads_fwd (h : F.rd.Tracks m) (hSt : F.rd.rst = .fwd) (permitted : Bool) :
    (F.rd.next permitted x).Tracks (m.see p t F.toMaster F.toSlave x) := by
  have hPhase := h.phase
  simp only [FwRead.Phase, hSt] at hPhase
  obtain ⟨hArv, hRr, hRv, hRest⟩ := hPhase
  have hAr := h.mAr
  rw [hArv] at hAr
  rw [RdSeen.see_busy (by simp [hSt])]
  simp only [FwRead.next, hSt]
  cases hReady : x.m.arready with
  | false =>
    simp only [hRr, hRv, ifSome, Bool.false_and, Bool.and_false, Bool.false_eq_true, if_false,
      List.append_nil]
    exact h
  | true =>
    simp only [hArv, hRr, hRv, ifSome, Bool.false_and, Bool.and_false, Bool.and_true,
      Bool.false_eq_true, if_false, if_true, List.append_nil]
    constructor
    · simpa [ifSome] using hAr
    · exact ⟨rfl, rfl, rfl, hRest⟩

theorem reads_waitr (h : F.rd.Tracks m) (hSt : F.rd.rst = .waitr) (permitted : Bool) :
    (F.rd.next permitted x).Tracks (m.see p t F.toMaster F.toSlave x) := by
  have hPhase := h.phase
  simp only [FwRead.Phase, hSt] at hPhase
  obtain ⟨hArv, hRr, hRv, js, r, hJs, hLen, hAns⟩ := hPhase
  have hAr := h.mAr
  rw [hArv] at hAr
  rw [RdSeen.see_busy (by simp [hSt])]
  simp only [FwRead.next, hSt]
  cases hValid : x.m.rvalid with
  | false =>
    simp only [hArv, hRv, ifSome, Bool.false_and, Bool.false_eq_true, if_false, List.append_nil]
    exact h
  | true =>
    simp only [hArv, hRr, hRv, ifSome, Bool.false_and, Bool.true_and, Bool.false_eq_true, if_false,
      if_true, List.append_nil]
    constructor
    · simpa [ifSome] using hAr
    · refine ⟨rfl, rfl, rfl, ?_, ?_⟩
      · simp [hJs, hLen]
      · simp [hJs, Judged.answers_passed hLen, hAns]

theorem reads_err (h : F.rd.Tracks m) (hSt : F.rd.rst = .err) (permitted : Bool) :
    (F.rd.next permitted x).Tracks (m.see p t F.toMaster F.toSlave x) := by
  have hPhase := h.phase
  simp only [FwRead.Phase, hSt] at hPhase
  obtain ⟨hArv, hRr, hRv, hLen, hAns⟩ := hPhase
  have hAr := h.mAr
  rw [hArv] at hAr
  rw [RdSeen.see_busy (by simp [hSt])]
  simp only [FwRead.next, hSt, hArv, hRr, hRv, ifSome, Bool.false_and, Bool.and_false,
    Bool.false_eq_true, if_false, List.append_nil]
  constructor
  · simpa [ifSome] using hAr
  · exact ⟨rfl, rfl, rfl, hLen, hAns⟩

theorem reads_resp (h : F.rd.Tracks m) (hSt : F.rd.rst = .resp) (permitted : Bool) :
    (F.rd.next permitted x).Tracks (m.see p t F.toMaster F.toSlave x) := by
  have hPhase := h.phase
  simp only [FwRead.Phase, hSt] at hPhase
  obtain ⟨hArv, hRr, hRv, hLen, hAns⟩ := hPhase
  have hAr := h.mAr
  rw [hArv] at hAr
  rw [RdSeen.see_busy (by simp [hSt])]
  simp only [FwRead.next, hSt]
  cases hReady : x.s.rready with
  | false =>
    simp only [hArv, hRr, ifSome, Bool.false_and, Bool.and_false, Bool.false_eq_true, if_false,
      List.append_nil]
    exact h
  | true =>
    simp only [hArv, hRr, hRv, ifSome, Bool.false_and, Bool.and_false, Bool.true_and,
      Bool.false_eq_true, if_false, if_true, List.append_nil]
    constructor
    · simpa [ifSome] using hAr
    · exact ⟨rfl, rfl, rfl, hLen, hAns⟩

/-- Every edge keeps the account of the read channel. -/
theorem FwRead.Tracks.next (h : F.rd.Tracks m) :
    (F.rd.next (permit p t x.s.araddr x.s.arprot false) x).Tracks
      (m.see p t F.toMaster F.toSlave x) := by
  cases hSt : F.rd.rst with
  | idle => exact reads_idle h hSt
  | fwd => exact reads_fwd h hSt _
  | waitr => exact reads_waitr h hSt _
  | err => exact reads_err h hSt _
  | resp => exact reads_resp h hSt _

def RdSeen.due (m : RdSeen aw) : List (BitVec 32 × BitVec 2) :=
  Judged.answers refusedRead m.judged m.mR

def RdSeen.given (m : RdSeen aw) (toMaster : AxiSlave) : List (BitVec 32 × BitVec 2) :=
  m.sR ++ ifSome toMaster.rvalid (toMaster.rdata, toMaster.rresp)

theorem FwRead.Tracks.given_prefix (h : F.rd.Tracks m) : m.given F.toMaster <+: m.due := by
  have hPhase := h.phase
  unfold FwRead.Phase at hPhase
  simp only [RdSeen.given, RdSeen.due, Firewall.toMaster]
  cases hSt : F.rd.rst with
  | idle =>
    simp only [hSt] at hPhase
    obtain ⟨-, -, hRv, -, hAns⟩ := hPhase
    simp [hRv, ifSome, hAns]
  | fwd =>
    simp only [hSt] at hPhase
    obtain ⟨-, -, hRv, js, r, hJs, hLen, hAns⟩ := hPhase
    simp [hRv, ifSome, hJs, Judged.answers_waiting hLen, hAns]
  | waitr =>
    simp only [hSt] at hPhase
    obtain ⟨-, -, hRv, js, r, hJs, hLen, hAns⟩ := hPhase
    simp [hRv, ifSome, hJs, Judged.answers_waiting hLen, hAns]
  | err =>
    simp only [hSt] at hPhase
    obtain ⟨-, -, hRv, -, hAns⟩ := hPhase
    simp [hRv, ifSome, hAns]
  | resp =>
    simp only [hSt] at hPhase
    obtain ⟨-, -, hRv, -, hAns⟩ := hPhase
    simp [hRv, ifSome, hAns]

theorem FwRead.Tracks.due_prefix (h : F.rd.Tracks m) (F' : Firewall p.aw) (permitted : Bool)
    (hF' : F'.rd = F.rd.next permitted x) :
    m.due <+: (m.see p t F.toMaster F.toSlave x).given F'.toMaster := by
  have hPhase := h.phase
  unfold FwRead.Phase at hPhase
  simp only [RdSeen.given, RdSeen.due, Firewall.toMaster, hF', RdSeen.see, FwRead.next]
  cases hSt : F.rd.rst with
  | idle =>
    simp only [hSt] at hPhase
    obtain ⟨-, -, -, -, hAns⟩ := hPhase
    rw [hAns, List.append_assoc]
    exact List.prefix_append _ _
  | fwd =>
    simp only [hSt] at hPhase
    obtain ⟨-, -, -, js, r, hJs, hLen, hAns⟩ := hPhase
    rw [hJs, Judged.answers_waiting hLen, hAns, List.append_assoc]
    exact List.prefix_append _ _
  | waitr =>
    simp only [hSt] at hPhase
    obtain ⟨-, -, -, js, r, hJs, hLen, hAns⟩ := hPhase
    rw [hJs, Judged.answers_waiting hLen, hAns, List.append_assoc]
    exact List.prefix_append _ _
  | err =>
    simp only [hSt] at hPhase
    obtain ⟨-, -, hRv, -, hAns⟩ := hPhase
    rw [hAns, hRv]
    simp [ifSome, refusedRead]
  | resp =>
    simp only [hSt] at hPhase
    obtain ⟨-, -, hRv, -, hAns⟩ := hPhase
    cases x.s.rready <;> simp [hAns, hRv, ifSome]

end Read

/-! ### What is recorded about violations -/

section Record

variable {F : Firewall p.aw} {m : FwSeen p.aw} {x : FwIn p.aw}

/-- A counter that saturates counts as many as it can. -/
theorem satIncr_counts {w n : Nat} {c : BitVec w} (h : c.toNat = min n (2 ^ w - 1)) :
    (satIncr c).toNat = min (n + 1) (2 ^ w - 1) := by
  have hPos : 0 < 2 ^ w := Nat.two_pow_pos w
  unfold satIncr
  split
  · rename_i hNe
    have hLt : c.toNat ≠ 2 ^ w - 1 := by
      intro hEq
      apply hNe
      apply BitVec.eq_of_toNat_eq
      rw [hEq, BitVec.toNat_allOnes]
    cases w with
    | zero => omega
    | succ w =>
      have hOne : (1 : BitVec (w + 1)).toNat = 1 := by simp
      rw [BitVec.toNat_add_of_lt (by omega)]
      omega
  · rename_i hEq
    rw [ne_eq, not_not] at hEq
    rw [hEq, BitVec.toNat_allOnes]
    rw [hEq, BitVec.toNat_allOnes] at h
    omega

theorem FwWrite.next_violWrCount (f : FwWrite aw) (permitted : Bool) (x : FwIn aw) :
    (f.next permitted x).violWrCount =
      if f.wst = .idle ∧ f.complete x = true ∧ permitted = false then satIncr f.violWrCount
      else f.violWrCount := by
  unfold next
  cases hSt : f.wst with
  | idle => cases hC : f.complete x <;> cases permitted <;> simp [nextIdle, hC]
  | fwd => simp only [nextFwd]; split <;> simp
  | waitb => cases x.m.bvalid <;> simp
  | err => simp
  | resp => cases f.sBvalid <;> cases x.s.bready <;> simp

theorem FwRead.next_violRdCount (f : FwRead aw) (permitted : Bool) (x : FwIn aw) :
    (f.next permitted x).violRdCount =
      if f.rst = .idle ∧ x.s.arvalid = true ∧ permitted = false then satIncr f.violRdCount
      else f.violRdCount := by
  unfold next
  cases hSt : f.rst with
  | idle => cases hA : x.s.arvalid <;> cases permitted <;> simp [arHandshake, sArready, hSt, hA]
  | fwd => cases f.mArvalid <;> cases x.m.arready <;> simp
  | waitr => cases x.m.rvalid <;> simp
  | err => simp
  | resp => cases f.sRvalid <;> cases x.s.rready <;> simp

/-- What the monitor finds denied in a cycle is what the firewall finds denied. -/
theorem wrViolNow_denied (h : F.wr.Tracks m.wr) (hTamper : F.tamperLatched = m.tampered) :
    Judged.denied (m.wr.request p (m.tampered || x.tamper) F.toMaster x) =
      ifSome (F.wrViolNow p x)
        ((F.wr.reqAddr x, F.wr.reqProt x), (F.wr.reqData x, F.wr.reqStrb x)) := by
  rw [h.request _ rfl rfl, Firewall.wrViolNow, Firewall.wrPermit, Firewall.tampered,
    permit_eq_decide, hTamper, Bool.or_comm x.tamper]
  cases hSt : F.wr.wst with
  | idle =>
    cases F.wr.complete x with
    | false => rfl
    | true =>
      cases decide (Allows p (m.tampered || x.tamper) (F.wr.reqAddr x) (F.wr.reqProt x) true)
        <;> simp [ifSome, Judged.denied]
  | _ =>
    rw [FwWrite.complete_eq_false (by simp [hSt]) (h.free (by simp [hSt])).1]
    rfl

theorem rdViolNow_denied (hTamper : F.tamperLatched = m.tampered) :
    Judged.denied (RdSeen.request p (m.tampered || x.tamper) F.toMaster x) =
      ifSome (F.rdViolNow p x) (x.s.araddr, x.s.arprot) := by
  rw [RdSeen.request, Firewall.rdViolNow, Firewall.rdPermit, Firewall.tampered,
    permit_eq_decide, hTamper, Bool.or_comm x.tamper]
  cases hSt : F.rd.rst with
  | idle =>
    cases hA : x.s.arvalid <;>
      cases decide (Allows p (m.tampered || x.tamper) x.s.araddr x.s.arprot false) <;>
        simp [ifSome, Judged.denied, Firewall.toMaster, FwRead.arHandshake, FwRead.sArready, hSt,
          hA]
  | _ => simp [ifSome, Judged.denied, Firewall.toMaster, FwRead.sArready, hSt]

/-- The first violation as the firewall records it. -/
def FwFirst.entry (f : FwFirst aw) : Option (Violation aw) :=
  if f.valid then some (f.addr, f.prot, f.isWrite) else none

end Record

/-- What the firewall shows on its two sides, against a record of what has happened there. -/
structure Firewall.Filters (F : Firewall p.aw) (m : FwSeen p.aw) : Prop where
  /-- What the master has handed over is judged when address and data are there. -/
  wrRequests : m.wr.judged.map Judged.req = m.wr.sAw.zip m.wr.sW
  /-- The slave has taken, or is offered, what was permitted. -/
  wrAddr : (Judged.passed m.wr.judged).map Prod.fst =
    m.wr.mAw ++ ifSome F.toSlave.awvalid (F.toSlave.awaddr, F.toSlave.awprot)
  wrData : (Judged.passed m.wr.judged).map Prod.snd =
    m.wr.mW ++ ifSome F.toSlave.wvalid (F.toSlave.wdata, F.toSlave.wstrb)
  rdAddr : Judged.passed m.rd.judged =
    m.rd.mAr ++ ifSome F.toSlave.arvalid (F.toSlave.araddr, F.toSlave.arprot)
  /-- The master has, or is offered, the beginning of what is due to it. -/
  wrAnswers : m.wr.given F.toMaster <+: m.wr.due
  rdAnswers : m.rd.given F.toMaster <+: m.rd.due
  wrCount : F.wr.violWrCount.toNat = min (Judged.denied m.wr.judged).length (2 ^ 16 - 1)
  rdCount : F.rd.violRdCount.toNat = min (Judged.denied m.rd.judged).length (2 ^ 16 - 1)
  first : F.first.entry = m.violations.head?

/-- The registers account for all that the monitor has seen. -/
structure Firewall.Tracks (F : Firewall p.aw) (m : FwSeen p.aw) : Prop where
  tampered : F.tamperLatched = m.tampered
  wr : F.wr.Tracks m.wr
  rd : F.rd.Tracks m.rd
  wrCount : F.wr.violWrCount.toNat = min (Judged.denied m.wr.judged).length (2 ^ 16 - 1)
  rdCount : F.rd.violRdCount.toNat = min (Judged.denied m.rd.judged).length (2 ^ 16 - 1)
  first : F.first.entry = m.violations.head?

section System

variable {F : Firewall p.aw} {m : FwSeen p.aw} {x : FwIn p.aw}

theorem denied_append {α : Type} (js js' : List (Judged α)) :
    Judged.denied (js ++ js') = Judged.denied js ++ Judged.denied js' := by
  simp [Judged.denied]

theorem Firewall.Tracks.wrCount_next (h : F.Tracks m) :
    (F.next p x).wr.violWrCount.toNat =
      min (Judged.denied (m.see p F x).wr.judged).length (2 ^ 16 - 1) := by
  have hDenied := wrViolNow_denied (x := x) h.wr h.tampered
  have hCount : (F.next p x).wr.violWrCount =
      if F.wrViolNow p x = true then satIncr F.wr.violWrCount else F.wr.violWrCount := by
    simp only [Firewall.next, FwWrite.next_violWrCount, Firewall.wrViolNow, Bool.and_eq_true,
      decide_eq_true_eq, Bool.not_eq_true', and_assoc]
  show _ = min (Judged.denied (m.wr.judged ++ _)).length _
  rw [hCount, denied_append, hDenied, List.length_append]
  cases hViol : F.wrViolNow p x with
  | false => exact h.wrCount
  | true => exact satIncr_counts h.wrCount

theorem Firewall.Tracks.rdCount_next (h : F.Tracks m) :
    (F.next p x).rd.violRdCount.toNat =
      min (Judged.denied (m.see p F x).rd.judged).length (2 ^ 16 - 1) := by
  have hDenied := rdViolNow_denied (x := x) h.tampered
  have hCount : (F.next p x).rd.violRdCount =
      if F.rdViolNow p x = true then satIncr F.rd.violRdCount else F.rd.violRdCount := by
    simp only [Firewall.next, FwRead.next_violRdCount, Firewall.rdViolNow, FwRead.arHandshake,
      FwRead.sArready, Bool.and_eq_true, decide_eq_true_eq, Bool.not_eq_true', and_assoc]
    congr 1
    simp only [eq_iff_iff]
    tauto
  show _ = min (Judged.denied (m.rd.judged ++ _)).length _
  rw [hCount, denied_append, hDenied, List.length_append]
  cases hViol : F.rdViolNow p x with
  | false => exact h.rdCount
  | true => exact satIncr_counts h.rdCount

theorem Firewall.Tracks.first_next (h : F.Tracks m) :
    (F.next p x).first.entry = (m.see p F x).violations.head? := by
  have hFirst := h.first
  simp only [FwSeen.see, wrViolNow_denied h.wr h.tampered, rdViolNow_denied h.tampered,
    Firewall.next, Firewall.nextFirst]
  cases hValid : F.first.valid with
  | true =>
    simp only [FwFirst.entry, hValid, if_true] at hFirst
    simp only [Bool.not_true, Bool.false_and, Bool.false_eq_true, if_false, FwFirst.entry, hValid,
      if_true, List.append_assoc, List.head?_append, ← hFirst]
    rfl
  | false =>
    simp only [FwFirst.entry, hValid, Bool.false_eq_true, if_false] at hFirst
    have hNil : m.violations = [] := List.head?_eq_none_iff.mp hFirst.symm
    cases hWr : F.wrViolNow p x <;> cases hRd : F.rdViolNow p x <;>
      simp [FwFirst.entry, hValid, hNil, ifSome]

/-- One edge keeps the account. -/
theorem Firewall.Tracks.next (h : F.Tracks m) : (F.next p x).Tracks (m.see p F x) := by
  constructor
  · show (F.tamperLatched || x.tamper) = (m.tampered || x.tamper)
    rw [h.tampered]
  · have hNext := h.wr.next (x := x) (t := m.tampered || x.tamper)
    rw [← h.tampered, Bool.or_comm] at hNext
    simp only [Firewall.next, FwSeen.see, Firewall.wrPermit, Firewall.tampered, ← h.tampered]
    rw [Bool.or_comm F.tamperLatched]
    exact hNext
  · have hNext := h.rd.next (x := x) (t := m.tampered || x.tamper)
    rw [← h.tampered, Bool.or_comm] at hNext
    simp only [Firewall.next, FwSeen.see, Firewall.rdPermit, Firewall.tampered, ← h.tampered]
    rw [Bool.or_comm F.tamperLatched]
    exact hNext
  · exact h.wrCount_next
  · exact h.rdCount_next
  · exact h.first_next

theorem Firewall.tracks_reset : (Firewall.reset p.aw).Tracks (FwSeen.empty p) := by
  constructor
  · rfl
  · constructor
    · rfl
    · rfl
    · exact fun _ => ⟨rfl, rfl⟩
    · rfl
    · rfl
    · rfl
    · exact ⟨rfl, rfl, rfl, rfl, rfl, rfl⟩
  · constructor
    · rfl
    · exact ⟨rfl, rfl, rfl, rfl, rfl⟩
  · rfl
  · rfl
  · rfl

theorem Firewall.Tracks.filters (h : F.Tracks m) : F.Filters m := by
  constructor
  · rw [h.wr.sAw, h.wr.sW]
    have hZip : m.wr.judged.map Judged.req =
        (m.wr.judged.map fun j => j.req.1).zip (m.wr.judged.map fun j => j.req.2) := by
      rw [List.zip_map', List.map_congr_left]
      exact fun _ _ => rfl
    have hOne := h.wr.one
    rw [List.zip_append (by simp), hZip]
    cases hAw : F.wr.awGot <;> cases hW : F.wr.wGot
    · simp [ifSome]
    · simp [ifSome]
    · simp [ifSome]
    · rw [hAw, hW] at hOne
      cases hOne
  · exact h.wr.mAw
  · exact h.wr.mW
  · exact h.rd.mAr
  · exact h.wr.given_prefix
  · exact h.rd.given_prefix
  · exact h.wrCount
  · exact h.rdCount
  · exact h.first

end System

/-- In every cycle, whatever has happened on both sides: the slave has seen the permitted requests and
no others, the master has been answered in the order of its requests and no later than one cycle
after the answer was due, and what was denied is counted and its first case recorded. -/
theorem firewall_filters (p : FwParams) (ins : Nat → FwIn p.aw) (k : Nat) :
    let F := (Firewall.circuit p).after ins
    let m := (Firewall.circuit p).record (.empty p) (FwSeen.see p) ins
    (F k).Filters (m k) ∧ (m k).wr.due <+: (m (k + 1)).wr.given (F (k + 1)).toMaster ∧
      (m k).rd.due <+: (m (k + 1)).rd.given (F (k + 1)).toMaster := by
  intro F m
  have hTracks : (F k).Tracks (m k) :=
    Clocked.invariant_record (I := Firewall.Tracks) Firewall.tracks_reset
      (fun _ _ _ h => h.next) k
  refine ⟨hTracks.filters, ?_, ?_⟩
  · exact hTracks.wr.due_prefix (F (k + 1)) _ rfl
  · exact hTracks.rd.due_prefix (F (k + 1)) _ rfl

end PqcHsm
