import Mathlib.Data.List.Induction
import PqcHsm.Rtl.VaultOutputs

/-!
# The slots of the key vault

What a slot of the vault is for: a list of words that is begun, filled, committed, locked and erased.
The actions on a slot are read off the writes on the bus and the two wipe inputs.
-/

namespace PqcHsm

/-- An action on one slot; `wipe` is for zeroize and tamper. -/
inductive LoadOp where
  | begin
  | word (w : BitVec 32)
  | commit
  | lock
  | erase
  | wipe
  deriving DecidableEq

/-- After these a slot is empty. -/
def LoadOp.clears : LoadOp → Bool
  | .begin => true
  | .erase => true
  | .wipe => true
  | _ => false

/-- The words of a slot, complete when it is committed, and committed when it is locked. -/
structure VaultSlot where
  words : List (BitVec 32)
  committed : Bool
  locked : Bool
  length_le : words.length ≤ 8
  full : committed = true → words.length = 8
  sealed : locked = true → committed = true

namespace VaultSlot

def empty : VaultSlot :=
  ⟨[], false, false, Nat.zero_le 8, fun h => absurd h Bool.false_ne_true, fun h => h⟩

variable (a : VaultSlot)

/-- What an action makes of a slot; `none` is a refusal. -/
def step : LoadOp → Option VaultSlot
  | .begin => if a.locked then none else some empty
  | .word w =>
    if h : a.words.length < 8 then
      some ⟨a.words ++ [w], false, false, by rw [List.length_append]; exact h, nofun, nofun⟩
    else none
  | .commit =>
    if h : a.words.length = 8 ∧ a.locked = false then
      some ⟨a.words, true, false, a.length_le, fun _ => h.1, nofun⟩
    else none
  | .lock =>
    if h : a.committed = true then some ⟨a.words, true, true, a.length_le, fun _ => a.full h, fun _ => rfl⟩
    else none
  | .erase => if a.locked then none else some empty
  | .wipe => some empty

/-- The slot after an action, taken or refused. -/
def after (op : LoadOp) : VaultSlot := (a.step op).getD a

end VaultSlot

/-- The slot that a list of actions leaves. -/
def slotOf (ops : List LoadOp) : VaultSlot := ops.foldl VaultSlot.after .empty

/-- The actions of a list that were taken. -/
def takenFrom (a : VaultSlot) : List LoadOp → List LoadOp
  | [] => []
  | op :: ops =>
    match a.step op with
    | some a' => op :: takenFrom a' ops
    | none => takenFrom a ops

def taken (ops : List LoadOp) : List LoadOp := takenFrom .empty ops

/-- A list of actions that leaves the slot empty: nothing at all, or a clearing action at its end. -/
def Clean (ops : List LoadOp) : Prop := ops = [] ∨ ∃ pre op, ops = pre ++ [op] ∧ op.clears = true

section Slots

variable {a a' : VaultSlot} {op : LoadOp} {ops new : List LoadOp}

theorem slotOf_append (ops new : List LoadOp) : slotOf (ops ++ new) = new.foldl VaultSlot.after (slotOf ops) :=
  List.foldl_append

theorem slotOf_concat (ops : List LoadOp) (op : LoadOp) : slotOf (ops ++ [op]) = (slotOf ops).after op :=
  slotOf_append ops [op]

theorem slotOf_wipe (ops : List LoadOp) : slotOf (ops ++ [.wipe]) = .empty := slotOf_concat ops .wipe

theorem takenFrom_append (a : VaultSlot) (ops new : List LoadOp) :
    takenFrom a (ops ++ new) = takenFrom a ops ++ takenFrom (ops.foldl VaultSlot.after a) new := by
  induction ops generalizing a with
  | nil => rfl
  | cons op ops ih =>
    rw [List.cons_append, takenFrom, takenFrom, List.foldl_cons, VaultSlot.after]
    cases a.step op with
    | none => exact ih a
    | some a' => exact congrArg (op :: ·) (ih a')

theorem taken_concat (ops : List LoadOp) (op : LoadOp) :
    taken (ops ++ [op]) = taken ops ++ if ((slotOf ops).step op).isSome then [op] else [] := by
  rw [taken, takenFrom_append]
  refine congrArg (taken ops ++ ·) ?_
  show takenFrom (slotOf ops) [op] = _
  rw [takenFrom]
  cases (slotOf ops).step op <;> rfl

/-- What was taken since the slot was last empty: its words, and after the eighth of them a commit. -/
structure Loaded (ops : List LoadOp) (a : VaultSlot) : Prop where
  split : ∃ pre post, ops = pre ++ a.words.map LoadOp.word ++ post ∧ Clean pre ∧
    (∀ op ∈ post, op = .commit ∨ op = .lock) ∧ (a.committed = true → post ≠ []) ∧
    (post ≠ [] → a.words.length = 8 ∧ post.head? = some .commit)

theorem loaded_empty (h : Clean ops) : Loaded ops .empty :=
  ⟨ops, [], by simp [VaultSlot.empty], h, by simp, nofun, by simp⟩

theorem loaded_clear (h : op.clears = true) : Loaded (ops ++ [op]) .empty :=
  loaded_empty (.inr ⟨ops, op, rfl, h⟩)

theorem Loaded.step (h : Loaded ops a) (hStep : a.step op = some a') : Loaded (ops ++ [op]) a' := by
  obtain ⟨pre, post, hOps, hPre, hPost, hCommit, hFull⟩ := h.split
  cases op with
  | begin =>
    simp only [VaultSlot.step] at hStep
    split at hStep
    · cases hStep
    · cases hStep
      exact loaded_clear rfl
  | erase =>
    simp only [VaultSlot.step] at hStep
    split at hStep
    · cases hStep
    · cases hStep
      exact loaded_clear rfl
  | wipe =>
    simp only [VaultSlot.step] at hStep
    cases hStep
    exact loaded_clear rfl
  | word w =>
    simp only [VaultSlot.step] at hStep
    split at hStep
    · rename_i hLt
      cases hStep
      -- a slot that takes a word has not been committed since it was empty
      have hNil : post = [] := by
        by_contra hNe
        have hLen := (hFull hNe).1
        omega
      refine ⟨pre, [], ?_, hPre, by simp, nofun, by simp⟩
      simp [hOps, hNil]
    · cases hStep
  | commit =>
    simp only [VaultSlot.step] at hStep
    split at hStep
    · rename_i hC
      cases hStep
      refine ⟨pre, post ++ [.commit], ?_, hPre, ?_, ?_, ?_⟩
      · simp [hOps]
      · intro op hOp
        rw [List.mem_append, List.mem_singleton] at hOp
        exact hOp.elim (hPost op) Or.inl
      · simp
      · intro _
        cases post with
        | nil => exact ⟨hC.1, rfl⟩
        | cons op post => exact ⟨hC.1, (hFull (List.cons_ne_nil _ _)).2⟩
    · cases hStep
  | lock =>
    simp only [VaultSlot.step] at hStep
    split at hStep
    · rename_i hC
      cases hStep
      refine ⟨pre, post ++ [.lock], ?_, hPre, ?_, ?_, ?_⟩
      · simp [hOps]
      · intro op hOp
        rw [List.mem_append, List.mem_singleton] at hOp
        exact hOp.elim (hPost op) Or.inr
      · simp
      · intro _
        have hHead := (hFull (hCommit hC)).2
        refine ⟨a.full hC, ?_⟩
        rw [List.head?_append, hHead]
        rfl
    · cases hStep

theorem loaded_slotOf (ops : List LoadOp) : Loaded (taken ops) (slotOf ops) := by
  induction ops using List.reverseRecOn with
  | nil => exact loaded_empty (.inl rfl)
  | append_singleton ops op ih =>
    rw [taken_concat, slotOf_concat, VaultSlot.after]
    cases hStep : (slotOf ops).step op with
    | none => simpa using ih
    | some a' => exact ih.step hStep

/-- A committed slot keeps its words until it is begun, erased or wiped. -/
theorem committed_keeps (h : a.committed = true) (hNew : ∀ op ∈ new, op.clears = false) :
    (new.foldl VaultSlot.after a).committed = true ∧ (new.foldl VaultSlot.after a).words = a.words := by
  induction new generalizing a with
  | nil => exact ⟨h, rfl⟩
  | cons op new ih =>
    have hOne : (a.after op).committed = true ∧ (a.after op).words = a.words := by
      have hLen := a.full h
      have hOp := hNew op List.mem_cons_self
      cases op with
      | begin => cases hOp
      | erase => cases hOp
      | wipe => cases hOp
      | word w => simp [VaultSlot.after, VaultSlot.step, hLen, h]
      | commit => cases hL : a.locked <;> simp [VaultSlot.after, VaultSlot.step, hLen, hL, h]
      | lock => simp [VaultSlot.after, VaultSlot.step, h]
    have hRest := ih hOne.1 fun op hOp => hNew op (List.mem_cons_of_mem _ hOp)
    exact ⟨hRest.1, hRest.2.trans hOne.2⟩

/-- A locked slot keeps everything until it is wiped. -/
theorem locked_keeps (h : a.locked = true) (hNew : LoadOp.wipe ∉ new) :
    (new.foldl VaultSlot.after a).locked = true ∧ (new.foldl VaultSlot.after a).words = a.words := by
  induction new generalizing a with
  | nil => exact ⟨h, rfl⟩
  | cons op new ih =>
    have hOne : (a.after op).locked = true ∧ (a.after op).words = a.words := by
      have hC := a.sealed h
      have hLen := a.full hC
      rw [List.mem_cons, not_or] at hNew
      cases op with
      | begin => simp [VaultSlot.after, VaultSlot.step, h]
      | erase => simp [VaultSlot.after, VaultSlot.step, h]
      | wipe => exact absurd rfl hNew.1
      | word w => simp [VaultSlot.after, VaultSlot.step, hLen, h]
      | commit => simp [VaultSlot.after, VaultSlot.step, h]
      | lock => simp [VaultSlot.after, VaultSlot.step, hC]
    have hRest := ih hOne.1 fun hMem => hNew (List.mem_cons_of_mem _ hMem)
    exact ⟨hRest.1, hRest.2.trans hOne.2⟩

end Slots

/-! ### Writes as actions -/

/-- What a write asks of the vault. -/
inductive VaultAction where
  | zeroize
  | select (s : BitVec 3)
  | load (op : LoadOp)
  deriving DecidableEq

/-- The register table: `CTRL` is open to everyone, the load port to secure transactions only. -/
def VaultWrite.action (w : VaultWrite) : Option VaultAction :=
  let reg := regOf w.1.1
  let data := w.2.1
  if w.2.2.getLsbD 0 = false then none
  else if reg = A_CTRL then if data.getLsbD 0 then some .zeroize else none
  else if w.1.2.getLsbD 1 then none
  else if reg = A_SLOT_SEL then some (.select (data.setWidth 3))
  else if reg = A_KEY_IN then some (.load (.word data))
  else if reg = A_SLOT_CT then
    if data.getLsbD 0 then some (.load .begin)
    else if data.getLsbD 1 then some (.load .commit)
    else if data.getLsbD 2 then some (.load .lock)
    else if data.getLsbD 3 then some (.load .erase)
    else none
  else none

/-- What happens to the vault: writes, and the two wipe inputs. -/
inductive VaultEvent where
  | write (w : VaultWrite)
  | zeroize
  | tamper

def VaultEvent.write? : VaultEvent → Option VaultWrite
  | .write w => some w
  | _ => none

/-- The selected slot, and the actions on each slot so far. After a tamper there are none but wipes. -/
structure VaultTrace where
  sel : BitVec 3
  tampered : Bool
  ops : BitVec 3 → List LoadOp

namespace VaultTrace

def start : VaultTrace := ⟨0, false, fun _ => []⟩

variable (t : VaultTrace)

def wipe : VaultTrace := { t with ops := fun s => t.ops s ++ [.wipe] }

def act : VaultAction → VaultTrace
  | .zeroize => t.wipe
  | .select s => { t with sel := s }
  | .load op => if t.tampered then t else { t with ops := setAt t.ops t.sel (t.ops t.sel ++ [op]) }

def add : VaultEvent → VaultTrace
  | .write w => (w.action.map t.act).getD t
  | .zeroize => t.wipe
  | .tamper => { t.wipe with tampered := true }

end VaultTrace

def traceOf (events : List VaultEvent) : VaultTrace := events.foldl VaultTrace.add .start

/-- The write that the front end does in a cycle. -/
def VaultAxi.performed (V : VaultAxi) : Option VaultWrite :=
  if V.front.wrNow V.fw.toSlave then
    some ((V.front.wrAddr V.fw.toSlave, V.front.wrProt V.fw.toSlave),
      (V.front.wrData V.fw.toSlave, V.front.wrStrb V.fw.toSlave))
  else none

/-- What the vault has been asked for. A write reaches the vault in the cycle after the one in which
the front end does it. -/
structure VaultSeen where
  fw : FwSeen 8
  events : List VaultEvent
  pending : Option VaultWrite

def VaultSeen.trace (m : VaultSeen) : VaultTrace := traceOf m.events

/-- What happens to the vault in a cycle. -/
def VaultSeen.now (m : VaultSeen) (x : VaultIn) : List VaultEvent :=
  (m.pending.map .write).toList ++ ifSome x.extZeroize .zeroize ++ ifSome x.tamper .tamper

/-- The writes that the front end has done. -/
def VaultSeen.writes (m : VaultSeen) : List VaultWrite :=
  m.events.filterMap VaultEvent.write? ++ m.pending.toList

def VaultSeen.see (p : VaultParams) (m : VaultSeen) (V : VaultAxi) (x : VaultIn) : VaultSeen where
  fw := @FwSeen.see p.fw m.fw V.fw (V.fwIn x)
  events := m.events ++ m.now x
  pending := V.performed

def VaultAxi.history (p : VaultParams) (ins : Nat → VaultIn) (k : Nat) : VaultSeen :=
  (VaultAxi.circuit p).record ⟨.empty p.fw, [], none⟩ (VaultSeen.see p) ins k

section Port

variable {r : VaultFront} {m : AxiMaster 8}

/-- The pulses of an action, on the selected slot. -/
def VaultAction.port (sel : BitVec 3) (wdata : BitVec 32) : Option VaultAction → LoadPort
  | some (.load .begin) => ⟨sel, true, false, wdata, false, false, false⟩
  | some (.load (.word w)) => ⟨sel, false, true, w, false, false, false⟩
  | some (.load .commit) => ⟨sel, false, false, wdata, true, false, false⟩
  | some (.load .lock) => ⟨sel, false, false, wdata, false, true, false⟩
  | some (.load .erase) => ⟨sel, false, false, wdata, false, false, true⟩
  | some (.select s) => ⟨s, false, false, wdata, false, false, false⟩
  | _ => ⟨sel, false, false, wdata, false, false, false⟩

theorem VaultFront.write_port
    (hLow : r.loadPort = ⟨r.slotSel, false, false, r.ldWdata, false, false, false⟩)
    (hZero : r.doZeroize = false) {w : VaultWrite}
    (hW : w = ((r.wrAddr m, r.wrProt m), (r.wrData m, r.wrStrb m))) :
    (r.write m).loadPort = VaultAction.port r.slotSel r.ldWdata w.action ∧
      ((r.write m).doZeroize = true ↔ w.action = some .zeroize) := by
  have hQuiet : r.loadPort = VaultAction.port r.slotSel r.ldWdata none := hLow
  cases hStrb : (r.wrStrb m).getLsbD 0 with
  | false =>
    have hAction : w.action = none := by simp only [VaultWrite.action, hW, hStrb, if_true]
    have hWrite : r.write m = r := by
      simp only [write, hStrb, Bool.false_and, Bool.false_eq_true, if_false]
    rw [hAction, hWrite, hZero]
    exact ⟨hQuiet, by simp⟩
  | true =>
    by_cases hCtrl : regOf (r.wrAddr m) = A_CTRL
    · have hAction : w.action = if (r.wrData m).getLsbD 0 then some .zeroize else none := by
        simp only [VaultWrite.action, hW, hStrb, hCtrl, Bool.true_eq_false, if_false, if_true]
      have hWrite : r.write m = { r with doZeroize := (r.wrData m).getLsbD 0,
                                         denySticky := r.denySticky && !(r.wrData m).getLsbD 0 } := by
        have hLoad : r.wrLoadAddr m = false := by
          simp only [wrLoadAddr, hCtrl]
          rfl
        simp only [write, hStrb, hLoad, hCtrl, Bool.and_false, Bool.false_and, Bool.false_eq_true,
          if_false, if_true]
      rw [hAction, hWrite]
      cases (r.wrData m).getLsbD 0
      · exact ⟨hQuiet, by simp⟩
      · exact ⟨hQuiet, by simp⟩
    · cases hProt : (r.wrProt m).getLsbD 1 with
      | true =>
        have hAction : w.action = none := by
          simp only [VaultWrite.action, hW, hStrb, hCtrl, hProt, Bool.true_eq_false, if_false, if_true]
        have hWrite : r.write m = r ∨ r.write m = { r with loadRej := satIncr r.loadRej } := by
          cases hLoad : r.wrLoadAddr m with
          | true =>
            right
            simp only [write, hStrb, hLoad, wrLoadOk, hProt, Bool.not_true, Bool.not_false, Bool.and_self,
              if_true]
          | false =>
            left
            simp only [wrLoadAddr, Bool.or_eq_false_iff, decide_eq_false_iff_not] at hLoad
            simp only [write, wrLoadAddr, hStrb, hCtrl, hLoad, decide_false, Bool.or_self, Bool.and_false,
              Bool.false_and, Bool.false_eq_true, if_false, if_true]
        rw [hAction]
        obtain hWrite | hWrite := hWrite
        · rw [hWrite, hZero]
          exact ⟨hQuiet, by simp⟩
        · rw [hWrite]
          exact ⟨hQuiet, by simp [hZero]⟩
      | false =>
        have hOk : r.wrLoadOk m = true := by rw [wrLoadOk, hProt, Bool.not_false]
        by_cases hSel : regOf (r.wrAddr m) = A_SLOT_SEL
        · have hAction : w.action = some (.select ((r.wrData m).setWidth 3)) := by
            simp only [VaultWrite.action, hW, hStrb, hProt, hSel, Bool.true_eq_false,
              Bool.false_eq_true, if_false, if_true, show A_SLOT_SEL ≠ A_CTRL by decide]
          have hWrite : r.write m = { r with slotSel := (r.wrData m).setWidth 3 } := by
            simp only [write, hOk, Bool.not_true, Bool.and_false, hStrb, hSel, Bool.false_eq_true, if_false,
              if_true, show A_SLOT_SEL ≠ A_CTRL by decide]
          rw [hAction, hWrite]
          exact ⟨congrArg (fun ld => { ld with slot := (r.wrData m).setWidth 3 }) hLow, by simp [hZero]⟩
        · by_cases hKey : regOf (r.wrAddr m) = A_KEY_IN
          · have hAction : w.action = some (.load (.word (r.wrData m))) := by
              simp only [VaultWrite.action, hW, hStrb, hProt, hKey, Bool.true_eq_false,
                Bool.false_eq_true, if_false, if_true, show A_KEY_IN ≠ A_CTRL by decide,
                show A_KEY_IN ≠ A_SLOT_SEL by decide]
            have hWrite : r.write m = { r with ldWe := true, ldWdata := r.wrData m } := by
              simp only [write, hOk, Bool.not_true, Bool.and_false, hStrb, hKey, Bool.false_eq_true,
                if_false, if_true, show A_KEY_IN ≠ A_CTRL by decide,
                show A_KEY_IN ≠ A_SLOT_SEL by decide]
            rw [hAction, hWrite]
            exact ⟨congrArg (fun ld => { ld with we := true, wdata := r.wrData m }) hLow,
              by simp [hZero]⟩
          · by_cases hCt : regOf (r.wrAddr m) = A_SLOT_CT
            · have hAction : w.action =
                  if (r.wrData m).getLsbD 0 then some (.load .begin)
                  else if (r.wrData m).getLsbD 1 then some (.load .commit)
                  else if (r.wrData m).getLsbD 2 then some (.load .lock)
                  else if (r.wrData m).getLsbD 3 then some (.load .erase) else none := by
                simp only [VaultWrite.action, hW, hStrb, hProt, hCt, Bool.true_eq_false,
                  Bool.false_eq_true, if_false, if_true, show A_SLOT_CT ≠ A_CTRL by decide,
                  show A_SLOT_CT ≠ A_SLOT_SEL by decide, show A_SLOT_CT ≠ A_KEY_IN by decide]
              have hWrite : r.write m =
                  { r with
                    ldBegin := (r.wrData m).getLsbD 0
                    ldCommit := (r.wrData m).getLsbD 1 && !(r.wrData m).getLsbD 0
                    ldLock := (r.wrData m).getLsbD 2 && !(r.wrData m).getLsbD 0 &&
                      !(r.wrData m).getLsbD 1
                    ldErase := (r.wrData m).getLsbD 3 && !(r.wrData m).getLsbD 0 &&
                      !(r.wrData m).getLsbD 1 && !(r.wrData m).getLsbD 2 } := by
                simp only [write, hOk, Bool.not_true, Bool.and_false, hStrb, hCt, Bool.false_eq_true,
                  if_false, if_true, show A_SLOT_CT ≠ A_CTRL by decide,
                  show A_SLOT_CT ≠ A_SLOT_SEL by decide, show A_SLOT_CT ≠ A_KEY_IN by decide]
              have hWe : r.ldWe = false := congrArg LoadPort.we hLow
              rw [hAction, hWrite, loadPort, hWe]
              cases (r.wrData m).getLsbD 0 <;> cases (r.wrData m).getLsbD 1 <;>
                cases (r.wrData m).getLsbD 2 <;> cases (r.wrData m).getLsbD 3 <;>
                exact ⟨rfl, by simp [hZero]⟩
            · have hAction : w.action = none := by
                simp only [VaultWrite.action, hW, hStrb, hCtrl, hProt, hSel, hKey, hCt,
                  Bool.true_eq_false, Bool.false_eq_true, if_false]
              have hWrite : r.write m = r := by
                simp only [write, hOk, Bool.not_true, Bool.and_false, hStrb, hCtrl, hSel, hKey, hCt,
                  Bool.false_eq_true, if_false, if_true]
              rw [hAction, hWrite, hZero]
              exact ⟨hQuiet, by simp⟩

end Port

end PqcHsm
