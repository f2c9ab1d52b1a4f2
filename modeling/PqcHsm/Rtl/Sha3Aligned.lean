import PqcHsm.Rtl.Sha3Core
import Mathlib.Tactic.SplitIfs

/-!
# The sponge and its permutation core in step

The permutation core says that it is done until its next start, and drops writes while it runs. The
sponge writes to it only when it is idle, and takes its lanes for permuted only after the rounds that
it has asked for.
-/

namespace PqcHsm

/-- The states that read or write the lanes, or ask for a permutation. -/
def Sha3St.quiet : Sha3St → Bool
  | .idle | .permWait | .zwait => false
  | _ => true

namespace Sha3Core

structure Aligned (c : Sha3Core) : Prop where
  inRound : c.kec.InRound
  marked : c.kec.busy = true → c.permBusy = true
  landed : c.permBusy = true → c.kec.busy = false → c.kec.done = true
  kicked : c.kecStartR = true → c.state = .permWait
  waits : c.state = .permWait → c.permBusy = !c.kecStartR
  quiet : c.state.quiet = true → c.permBusy = false

theorem aligned_reset : reset.Aligned := by
  constructor
  · constructor <;> exact fun h => absurd h Bool.false_ne_true
  all_goals decide

section Steps

variable {c : Sha3Core} {x : Sha3In}

/-- The permutation core is idle in a quiet state. -/
theorem Aligned.idle (h : c.Aligned) (hQuiet : c.state.quiet = true) : c.kec.busy = false := by
  rw [Bool.eq_false_iff]
  intro hBusy
  exact absurd ((h.quiet hQuiet).symm.trans (h.marked hBusy)) Bool.false_ne_true

theorem Aligned.not_kicked (h : c.Aligned) (hState : c.state ≠ .permWait) : c.kecStartR = false :=
  Bool.eq_false_iff.mpr fun hKick => hState (h.kicked hKick)

/-- Only the port of an idle sponge starts rounds, and the cycle after a kick. -/
theorem Aligned.kecStart_eq_false (h : c.Aligned) (hIdle : c.state ≠ .idle)
    (hWait : c.state ≠ .permWait) : c.kecStart x = false := by
  rw [kecStart, h.not_kicked hWait, decide_eq_false hIdle, Bool.and_false, Bool.or_false]

theorem next_of_restart (hAgain : (x.start || c.zeroizeRise x) = true) :
    (c.next x).state = .zwait ∧ (c.next x).kecStartR = false := by
  unfold next
  rw [if_pos hAgain]
  exact ⟨rfl, rfl⟩

theorem next_of_advance (hAgain : (x.start || c.zeroizeRise x) = false) :
    (c.next x).state = (c.advance x).state ∧ (c.next x).kecStartR = (c.advance x).kecStartR := by
  unfold next
  rw [hAgain, if_neg Bool.false_ne_true]
  exact ⟨rfl, rfl⟩

theorem kecStartR_advance (hState : c.state ≠ .permKick) : (c.advance x).kecStartR = false := by
  cases hSt : c.state <;> simp only [advance, hSt]
  case permKick => exact absurd hSt hState
  all_goals split_ifs <;> rfl

/-- The wait begins with the kick and goes on until the rounds asked for are over. -/
theorem advance_waits (h : (c.advance x).state = .permWait) :
    c.state = .permKick ∨ (c.state = .permWait ∧ (c.permBusy && c.kec.done) = false) := by
  cases hSt : c.state <;> simp only [advance, hSt] at h
  case permKick => exact .inl rfl
  case permWait =>
    cases hOver : c.permBusy && c.kec.done with
    | true =>
      rw [if_pos hOver] at h
      dsimp only at h
      split_ifs at h
    | false => exact .inr ⟨rfl, rfl⟩
  case idle | padSuf | padLast => cases h
  all_goals split_ifs at h

theorem advance_quiet (h : (c.advance x).state.quiet = true) :
    c.state.quiet = true ∨ (c.state = .zwait ∧ c.permBusy = false) ∨
      (c.state = .permWait ∧ c.permBusy = true ∧ c.kec.done = true) := by
  cases hSt : c.state <;> simp only [advance, hSt] at h
  case idle => simp [Sha3St.quiet] at h
  case zwait =>
    cases hMark : c.permBusy with
    | true => simp [hMark, Sha3St.quiet] at h
    | false => exact .inr (.inl ⟨rfl, rfl⟩)
  case permWait =>
    cases hOver : c.permBusy && c.kec.done with
    | true => exact .inr (.inr ⟨rfl, Bool.and_eq_true_iff.mp hOver⟩)
    | false => simp [hOver, Sha3St.quiet] at h
  all_goals exact .inl rfl

theorem Aligned.marked_next (h : c.Aligned) : (c.next x).kec.busy = true → (c.next x).permBusy = true := by
  intro hRuns
  change (c.kec.next (c.kecIn x)).busy = true at hRuns
  change (if c.kecStart x then true else if c.kec.done then false else c.permBusy) = true
  cases hBusy : c.kec.busy with
  | true => rw [h.inRound.notDone hBusy, h.marked hBusy]; exact ite_self true
  | false =>
    cases hStart : c.kecStart x with
    | true => rfl
    | false =>
      rw [KeccakF1600.next_of_idle hBusy hStart] at hRuns
      exact absurd (hBusy.symm.trans hRuns) Bool.false_ne_true

theorem Aligned.landed_next (h : c.Aligned) (hMark : (c.next x).permBusy = true)
    (hIdle : (c.next x).kec.busy = false) : (c.next x).kec.done = true := by
  change (if c.kecStart x then true else if c.kec.done then false else c.permBusy) = true at hMark
  change (c.kec.next (c.kecIn x)).busy = false at hIdle
  change (c.kec.next (c.kecIn x)).done = true
  cases hBusy : c.kec.busy with
  | true => exact KeccakF1600.done_of_ends hBusy hIdle
  | false =>
    cases hStart : c.kecStart x with
    | true =>
      rw [KeccakF1600.next_of_start hBusy hStart] at hIdle
      cases hIdle
    | false =>
      rw [hStart] at hMark
      cases hDone : c.kec.done with
      | true => simp [hDone] at hMark
      | false =>
        have hBusyMark : c.permBusy = true := by simpa [hDone] using hMark
        exact absurd (hDone.symm.trans (h.landed hBusyMark hBusy)) Bool.false_ne_true

/-- The mark stays away from a state that no start leaves. -/
theorem permBusy_next (hStart : c.kecStart x = false) (hMark : c.permBusy = false) :
    (c.next x).permBusy = false := by
  change (if c.kecStart x then true else if c.kec.done then false else c.permBusy) = false
  rw [hStart, hMark]
  simp

theorem Aligned.next (h : c.Aligned) : (c.next x).Aligned := by
  have hKec : (c.next x).kec.InRound := h.inRound.next
  cases hAgain : x.start || c.zeroizeRise x with
  | true =>
    obtain ⟨hState, hKick⟩ := next_of_restart hAgain
    constructor
    · exact hKec
    · exact h.marked_next
    · exact h.landed_next
    · rw [hKick]
      exact fun hOn => absurd hOn Bool.false_ne_true
    · rw [hState]
      exact fun hOn => nomatch hOn
    · rw [hState]
      exact fun hOn => absurd hOn Bool.false_ne_true
  | false =>
    obtain ⟨hState, hKick⟩ := next_of_advance hAgain
    have hQuiet : c.state.quiet = true → (c.next x).permBusy = false := by
      intro hOn
      apply permBusy_next
      · apply h.kecStart_eq_false <;> intro hEq <;> rw [hEq] at hOn <;> cases hOn
      · exact h.quiet hOn
    constructor
    · exact hKec
    · exact h.marked_next
    · exact h.landed_next
    · rw [hKick, hState]
      intro hOn
      by_cases hSt : c.state = .permKick
      · simp [advance, hSt]
      · exact absurd ((kecStartR_advance hSt).symm.trans hOn) Bool.false_ne_true
    · rw [hKick, hState]
      intro hWaits
      rcases advance_waits hWaits with hSt | ⟨hSt, hOn⟩
      · rw [hQuiet (by rw [hSt]; rfl)]
        simp [advance, hSt]
      · have hKick' : (c.advance x).kecStartR = false :=
          kecStartR_advance (by rw [hSt]; exact fun hEq => nomatch hEq)
        change (if c.kecStart x then true else if c.kec.done then false else c.permBusy) =
          !(c.advance x).kecStartR
        have hWaits' := h.waits hSt
        cases hKicked : c.kecStartR <;> simp_all [kecStart]
    · rw [hState]
      intro hOn
      rcases advance_quiet hOn with hOn | ⟨hSt, hMark⟩ | ⟨hSt, hMark, hDone⟩
      · exact hQuiet hOn
      · apply permBusy_next _ hMark
        apply h.kecStart_eq_false <;> rw [hSt] <;> exact fun hEq => nomatch hEq
      · have hKicked : c.kecStartR = false := by
          have hWaits := h.waits hSt
          rw [hMark] at hWaits
          simpa using hWaits.symm
        change (if c.kecStart x then true else if c.kec.done then false else c.permBusy) = false
        simp [kecStart, hKicked, hSt, hDone]

end Steps

end Sha3Core

end PqcHsm
