import PqcHsm.Slot.Types

/-!
# The life-cycle state machine of a slot

The transition table as a function of the current state and the event; a missing
entry is an illegal transition. `fsmApply` is the only way an operation moves a slot.
-/

namespace PqcHsm

def slotFsmNext : SlotState → SlotEvent → Option SlotState
  | .uninit, .initToken => some .empty
  | .uninit, .zeroize => some .uninit
  | .empty, .generate => some .loaded
  | .empty, .load => some .loaded
  | .empty, .zeroize => some .uninit
  | .empty, .pinLockout => some .locked
  | .loaded, .useBegin => some .inUse
  | .loaded, .destroy => some .empty
  | .loaded, .zeroize => some .uninit
  | .loaded, .pinLockout => some .locked
  | .inUse, .useEnd => some .loaded
  | .inUse, .zeroize => some .uninit
  | .inUse, .pinLockout => some .locked
  | .locked, .zeroize => some .uninit
  | .locked, .soUnlock => some .loaded
  | _, _ => none

def slotFsmUnlockTarget : SlotState → SlotState
  | .empty => .empty
  | .loaded => .loaded
  | .inUse => .loaded
  | _ => .empty

theorem slotFsmNext_zeroize (s : SlotState) : slotFsmNext s .zeroize = some .uninit := by
  cases s <;> rfl

/-- Only `zeroize` and `soUnlock` leave the locked state. -/
theorem slotFsmNext_locked {ev : SlotEvent} {s : SlotState}
    (h : slotFsmNext .locked ev = some s) : ev = .zeroize ∨ ev = .soUnlock := by
  cases ev <;> simp_all [slotFsmNext]

/-- `fsm_apply`: the state after the event, `none` when the transition is illegal. -/
def fsmApply (s : Slot) (ev : SlotEvent) : Option Slot :=
  (slotFsmNext s.metadata.state ev).map fun nxt =>
    match ev with
    | .pinLockout =>
      { s with preLock := s.metadata.state, metadata := { s.metadata with state := nxt } }
    | .soUnlock =>
      { s with metadata := { s.metadata with state := slotFsmUnlockTarget s.preLock } }
    | _ => { s with metadata := { s.metadata with state := nxt } }

theorem fsmApply_eq_none_iff (s : Slot) (ev : SlotEvent) :
    fsmApply s ev = none ↔ slotFsmNext s.metadata.state ev = none := by
  simp [fsmApply]

end PqcHsm
