import PqcHsm.Rtl.TrngTop
import PqcHsm.Rtl.CondStream

/-!
# The pace of the generator

A sample comes in one cycle out of eight at most, so the start-up test outlasts the sweeps of the
FIFOs and the hold of a zeroization.
-/

namespace PqcHsm

/-- What the ports and the conditioner show: the samples that the start-up test lets through, the
bits that the conditioner takes and the words that are read, since the last flush, and the samples and
the cycles since the start-up test began. -/
structure TrngSeen where
  samples : List (BitVec 1)
  absorbed : List (BitVec 1)
  delivered : List (BitVec 32)
  quiet : Nat
  age : Nat

namespace TrngTop

def observe (m : TrngSeen) (t : TrngTop) (x : TrngIn) : TrngSeen where
  samples :=
    if t.fifoFlush x then []
    else if t.srcGate then m.samples ++ [t.src.sample] else m.samples
  absorbed :=
    if t.fifoFlush x then []
    else if t.condTake then m.absorbed ++ [t.sfifo.rdData] else m.absorbed
  delivered :=
    if t.fifoFlush x then []
    else if x.rdEn && t.rdValid then m.delivered ++ [t.rdData] else m.delivered
  quiet := if t.restarts x then 0 else m.quiet + t.src.sampleValid.toNat
  age := if t.restarts x then 0 else m.age + 1

/-- The cycles of a sampling period that are over. -/
def pace (t : TrngTop) : Nat := if t.src.sampleValid then 8 else t.src.dcnt.toNat

structure Timed (t : TrngTop) (m : TrngSeen) : Prop where
  period : t.src.sampleValid = true → t.src.dcnt = 0
  hold : t.zeroHold = 0 ∨ t.zeroHold.toNat + m.age ≤ 7
  sweepS : t.sfifo.SweepsSince m.age
  sweepO : t.fifo.SweepsSince m.age
  slow : 8 * t.startupCount.toNat + t.pace ≤ m.age + 8
  count : t.startupCount.toNat ≤ m.quiet
  early : t.startupDone = true → 8184 ≤ m.age ∧ 1024 ≤ m.quiet

section Timing

variable {t : TrngTop} {x : TrngIn} {m : TrngSeen}

theorem flush_restarts (hFlush : t.fifoFlush x = true) : t.restarts x = true := by
  unfold fifoFlush alarmRise at hFlush
  unfold restarts
  cases hZero : x.zeroize <;> cases hClear : x.clearAlarm <;> simp [hZero, hClear] at hFlush ⊢
  exact hFlush.1

/-- A cycle adds one to the pace; a sample takes eight off it. -/
theorem pace_next (hPeriod : t.src.sampleValid = true → t.src.dcnt = 0) :
    8 * t.src.sampleValid.toNat + (t.next x).pace ≤ t.pace + 1 ∧ (t.next x).pace ≤ 8 ∧
      ((t.next x).src.sampleValid = true → (t.next x).src.dcnt = 0) := by
  have hSrc : (t.next x).src = t.src.next (x.enable && !t.zeroizeActive) x.rawBit := rfl
  unfold pace
  rw [hSrc, TrngSource.next]
  cases x.enable && !t.zeroizeActive with
  | false =>
    rw [Bool.not_false, if_pos rfl]
    dsimp only
    rw [if_neg Bool.false_ne_true]
    cases t.src.sampleValid <;> simp
  | true =>
    rw [Bool.not_true, if_neg Bool.false_ne_true]
    by_cases hLast : t.src.dcnt = 7
    · have hNone : t.src.sampleValid = false :=
        Bool.eq_false_iff.mpr fun hOn => absurd ((hPeriod hOn).symm.trans hLast) (by decide)
      rw [if_pos hLast, hNone, hLast]
      simp
    · have hLt : t.src.dcnt.toNat < 8 := t.src.dcnt.isLt
      have hNe : t.src.dcnt.toNat ≠ 7 := fun hEq => hLast (BitVec.eq_of_toNat_eq hEq)
      have hSucc : (t.src.dcnt + 1).toNat = t.src.dcnt.toNat + 1 := by
        rw [BitVec.toNat_add]
        simp
        omega
      rw [if_neg hLast]
      dsimp only
      rw [if_neg Bool.false_ne_true, hSucc]
      cases hOn : t.src.sampleValid with
      | true =>
        rw [hPeriod hOn]
        simp
      | false => simp; omega

theorem startupCount_next (hAgain : t.restarts x = false) :
    (t.next x).startupCount.toNat ≤ t.startupCount.toNat + t.src.sampleValid.toNat := by
  have hCount : (t.next x).startupCount = t.startupCountNext x := rfl
  rw [hCount, startupCountNext, hAgain, if_neg Bool.false_ne_true]
  split_ifs with hMore
  · have hOn : t.src.sampleValid = true := by
      simp only [Bool.and_eq_true] at hMore
      exact hMore.1.2
    have hLe : (t.startupCount + 1).toNat ≤ t.startupCount.toNat + 1 := by
      rw [BitVec.toNat_add]
      exact Nat.mod_le _ _
    rw [hOn]
    exact hLe
  · exact Nat.le_add_right _ _

theorem startupDone_next (hDone : (t.next x).startupDone = true) :
    t.restarts x = false ∧ (t.startupDone = true ∨
      (t.src.sampleValid = true ∧ t.startupCount.toNat = 1023)) := by
  have hNext : (t.next x).startupDone = t.startupDoneNext x := rfl
  rw [hNext, startupDoneNext] at hDone
  cases hAgain : t.restarts x with
  | true =>
    rw [hAgain, if_pos rfl] at hDone
    cases hDone
  | false =>
    rw [hAgain, if_neg Bool.false_ne_true, Bool.or_eq_true, Bool.and_eq_true] at hDone
    refine ⟨rfl, hDone.imp id ?_⟩
    rintro ⟨hOn, hLast⟩
    exact ⟨hOn, congrArg BitVec.toNat (of_decide_eq_true hLast)⟩

theorem zeroHold_next (h : t.zeroHold = 0 ∨ t.zeroHold.toNat + m.age ≤ 7) :
    (t.next x).zeroHold = 0 ∨ (t.next x).zeroHold.toNat + (observe m t x).age ≤ 7 := by
  have hNext : (t.next x).zeroHold = t.zeroHoldNext x := rfl
  rw [hNext, zeroHoldNext]
  cases hZero : x.zeroize with
  | true =>
    have hAgain : t.restarts x = true := by simp [restarts, hZero]
    simp only [observe, hAgain, if_true]
    exact .inr (Nat.le_refl 7)
  | false =>
    rw [if_neg Bool.false_ne_true]
    by_cases hOff : t.zeroHold = 0
    · rw [if_neg (not_not_intro hOff)]
      exact .inl hOff
    · have hPos : t.zeroHold.toNat ≠ 0 := fun hEq => hOff (BitVec.eq_of_toNat_eq hEq)
      have hLt : t.zeroHold.toNat < 8 := t.zeroHold.isLt
      have hPred : (t.zeroHold - 1).toNat = t.zeroHold.toNat - 1 := by
        rw [BitVec.toNat_sub]
        simp
        omega
      have hSum := h.resolve_left hOff
      have hAge : (observe m t x).age ≤ m.age + 1 := by
        simp only [observe]
        split_ifs <;> omega
      rw [if_pos hOff, hPred]
      omega

theorem age_le : (observe m t x).age ≤ m.age + 1 := by
  simp only [observe]
  split_ifs <;> omega

/-- A flush begins a sweep and the start-up test. -/
theorem sweepsSince_next {aw width : Nat} {f : SyncFifo aw width} {y : FifoIn width}
    (h : f.SweepsSince m.age) (hFlush : y.flush = t.fifoFlush x) :
    (f.next y).SweepsSince (observe m t x).age := by
  cases hOn : t.fifoFlush x with
  | true =>
    have hAge : (observe m t x).age = 0 := by
      simp only [observe, flush_restarts hOn, if_true]
    rw [hAge]
    exact SyncFifo.sweepsSince_flush (hFlush.trans hOn)
  | false => exact (h.next (hFlush.trans hOn)).mono age_le

theorem Timed.next (h : Timed t m) : Timed (t.next x) (observe m t x) := by
  obtain ⟨hPace, hEight, hPeriod⟩ := pace_next (x := x) h.period
  have hSlow := h.slow
  have hCount := h.count
  constructor
  · exact hPeriod
  · exact zeroHold_next h.hold
  · exact sweepsSince_next h.sweepS rfl
  · exact sweepsSince_next h.sweepO rfl
  · cases hAgain : t.restarts x with
    | true =>
      have hZero : (t.next x).startupCount = 0 := by
        change t.startupCountNext x = 0
        rw [startupCountNext, hAgain, if_pos rfl]
      simp only [observe, hAgain, hZero, if_true]
      simpa using hEight
    | false =>
      have hNext := startupCount_next hAgain
      simp only [observe, hAgain, Bool.false_eq_true, if_false]
      omega
  · cases hAgain : t.restarts x with
    | true =>
      have hZero : (t.next x).startupCount = 0 := by
        change t.startupCountNext x = 0
        rw [startupCountNext, hAgain, if_pos rfl]
      rw [hZero]
      exact Nat.zero_le _
    | false =>
      have hNext := startupCount_next hAgain
      simp only [observe, hAgain, Bool.false_eq_true, if_false]
      omega
  · intro hDone
    obtain ⟨hAgain, hWhy⟩ := startupDone_next hDone
    simp only [observe, hAgain, Bool.false_eq_true, if_false]
    rcases hWhy with hWas | ⟨hOn, hLast⟩
    · have hEarly := h.early hWas
      omega
    · have hFull : t.pace = 8 := by rw [pace, if_pos hOn]
      rw [hOn]
      simp
      omega

/-- No sweep and no hold is left once the start-up test is over. -/
theorem Timed.open_of_done (h : Timed t m) (hDone : t.startupDone = true) :
    t.sfifo.wipeRun = false ∧ t.fifo.wipeRun = false ∧ t.zeroizeActive = false := by
  have hAge := (h.early hDone).1
  refine ⟨?_, ?_, ?_⟩
  · rw [Bool.eq_false_iff]
    intro hWipes
    have hSince := h.sweepS hWipes
    omega
  · rw [Bool.eq_false_iff]
    intro hWipes
    have hSince := h.sweepO hWipes
    omega
  · have hOff : t.zeroHold = 0 := h.hold.resolve_right (by omega)
    simp [zeroizeActive, hOff]

end Timing

end TrngTop

end PqcHsm
