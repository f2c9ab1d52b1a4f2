import PqcHsm.Rtl.TrngTiming

/-!
# The stream of the generator

Between two flushes the conditioner takes every sample that the start-up test lets through, in order,
and the words read are among those of its sponge. The sample FIFO never fills: the potential of a
cycle counts eight for a sample that waits, the cycles of the sampling period that are over, and the
cycles for which the conditioner takes none.
-/

namespace PqcHsm

namespace TrngTop

/-- The potential, with `q` in the sample FIFO. -/
def load (t : TrngTop) (q : List (BitVec 1)) : Nat := 8 * q.length + t.pace + t.cond.busyFor

/-- Its bound falls by seven with every bit of a lane. -/
def loadBound (t : TrngTop) : Nat :=
  if t.cond.state = .absorb then max 11 (40 - 7 * t.cond.bitCnt.toNat) else 40

/-- After the start-up test: `n` blocks, and what the two FIFOs hold. -/
structure Streams (t : TrngTop) (m : TrngSeen) (n : Nat) (q : List (BitVec 1))
    (w : List (BitVec 32)) : Prop where
  aligned : t.cond.Aligned
  tracks : t.cond.Tracks m.absorbed n
  queue : t.sfifo.Holds q
  samples : m.samples = m.absorbed ++ q
  words : t.fifo.Holds w
  output : (m.delivered ++ w).Sublist
    ((List.range (t.cond.wordCount n)).map (condWord m.absorbed))
  room : t.load q ≤ t.loadBound
  held : t.condRstN = false → n = 0 ∧ q = [] ∧ m.absorbed = []

/-- Before the end of the start-up test nothing is on its way; the conditioner may still run in the
cycle after a flush, when both FIFOs are shut. -/
structure Rests (t : TrngTop) (m : TrngSeen) : Prop where
  queue : t.sfifo.Holds []
  words : t.fifo.Holds []
  samples : m.samples = []
  absorbed : m.absorbed = []
  delivered : m.delivered = []
  shut : t.condRstN = true → t.sfifo.wipeRun = true ∧ t.fifo.wipeRun = true

structure Phase (t : TrngTop) (m : TrngSeen) : Prop where
  inReset : t.condRstN = false → t.cond = .reset
  rests : t.startupDone = false → Rests t m
  quietD : t.startupDone = true → t.alarmD = false
  runs : t.startupDone = true → ∃ n q w, Streams t m n q w
  drops : t.sampleDrops = 0

section Cycle

variable {t : TrngTop} {x : TrngIn} {m : TrngSeen} {n : Nat} {q : List (BitVec 1)}
  {w : List (BitVec 32)}

theorem pace_le : t.pace ≤ 8 := by
  have hLt : t.src.dcnt.toNat < 8 := t.src.dcnt.isLt
  unfold pace
  split_ifs <;> omega

/-- A cycle after the start-up test that is no flush has no alarm. -/
theorem alarm_of_not_flush (hD : t.alarmD = false) (hFlush : t.fifoFlush x = false) :
    t.alarm = false ∧ t.restarts x = false := by
  simp only [fifoFlush, alarmRise, hD, Bool.not_false, Bool.and_true] at hFlush
  exact ⟨(Bool.or_eq_false_iff.mp hFlush).2, hFlush⟩

/-- The sample FIFO is open to a sample. -/
theorem Streams.wrReady (h : Streams t m n q w) (hOpen : t.sfifo.wipeRun = false) :
    t.sfifo.wrReady = true ∧ q.length ≤ 5 := by
  have hRoom := h.room
  have hBound : t.loadBound ≤ 40 := by
    unfold loadBound
    split_ifs <;> omega
  have hLen : q.length ≤ 5 := by
    unfold load at hRoom
    omega
  refine ⟨?_, hLen⟩
  rw [h.queue.wrReady_eq, hOpen]
  simp
  omega

/-- What a cycle takes from the sample FIFO. -/
theorem condTake_eq (hQueue : t.sfifo.Holds q) (hOpen : t.sfifo.wipeRun = false) :
    t.condTake = (decide (q ≠ []) && t.cond.bitReady && t.condRstN) := by
  rw [condTake, hQueue.rdValid_eq, hOpen, Bool.not_false, Bool.true_and]

theorem taken_eq : t.cond.taken t.condIn = if t.condTake then [t.sfifo.rdData] else [] := by
  unfold TrngCond.taken condIn condTake
  cases t.cond.bitReady <;> simp

/-- The sample FIFO after a cycle. -/
def queueNext (t : TrngTop) (q : List (BitVec 1)) : List (BitVec 1) :=
  (if t.condTake then q.tail else q) ++ if t.src.sampleValid then [t.src.sample] else []

theorem length_queueNext (hTake : t.condTake = true → q ≠ []) :
    (t.queueNext q).length + t.condTake.toNat = q.length + t.src.sampleValid.toNat := by
  have hPos : t.condTake = true → 0 < q.length := fun hOn => List.length_pos_iff.mpr (hTake hOn)
  unfold queueNext
  cases hOn : t.condTake <;> cases t.src.sampleValid <;> simp [hOn] at hPos ⊢ <;> omega

/-- In a cycle after the start-up test, without a flush. -/
structure Runs (t : TrngTop) (x : TrngIn) : Prop where
  done : t.startupDone = true
  noFlush : t.fifoFlush x = false
  noAlarm : t.alarm = false
  sfifoOpen : t.sfifo.wipeRun = false
  fifoOpen : t.fifo.wipeRun = false
  condRstN : t.condRstNNext = true

theorem Runs.srcGate (hRuns : Runs t x) : t.srcGate = t.src.sampleValid := by
  simp [TrngTop.srcGate, hRuns.done, hRuns.noAlarm]

/-- The conditioner runs, or comes out of its reset. -/
theorem Runs.cond_next (hRuns : Runs t x) (hReset : t.condRstN = false → t.cond = .reset) :
    (t.next x).cond = if t.condRstN then t.cond.next t.condIn else t.cond := by
  change t.condNext = _
  rw [condNext, hRuns.condRstN, Bool.and_true]
  cases hOn : t.condRstN with
  | true => rfl
  | false => exact (hReset hOn).symm

theorem Streams.cond_next (h : Streams t m n q w) (hRuns : Runs t x)
    (hReset : t.condRstN = false → t.cond = .reset) :
    (t.next x).cond.Aligned ∧ ∃ n',
      (t.next x).cond.Tracks (m.absorbed ++ if t.condTake then [t.sfifo.rdData] else []) n' ∧
        (t.next x).cond.wordCount n' = t.cond.wordCount n + t.cond.wordValid.toNat := by
  rw [hRuns.cond_next hReset]
  cases hOn : t.condRstN with
  | true =>
    obtain ⟨n', hTracks, hCount⟩ := h.tracks.next (x := t.condIn) h.aligned rfl
    rw [taken_eq] at hTracks
    exact ⟨h.aligned.next, n', hTracks, hCount⟩
  | false =>
    have hTake : t.condTake = false := by simp [condTake, hOn]
    have hValid : t.cond.wordValid = false := by
      rw [hReset hOn]
      rfl
    refine ⟨h.aligned, n, ?_, ?_⟩
    · rw [hTake]
      simpa using h.tracks
    · rw [hValid]
      rfl

/-- The potential stays below its bound. -/
theorem Streams.room_next (h : Streams t m n q w) (hRuns : Runs t x)
    (hReset : t.condRstN = false → t.cond = .reset)
    (hPeriod : t.src.sampleValid = true → t.src.dcnt = 0) :
    (t.next x).load (t.queueNext q) ≤ (t.next x).loadBound := by
  obtain ⟨hPace, -, -⟩ := pace_next (x := x) hPeriod
  have hTakeEq := condTake_eq h.queue hRuns.sfifoOpen
  have hTake : t.condTake = true → q ≠ [] := by
    intro hOn
    rw [hOn] at hTakeEq
    simpa using (Bool.and_eq_true_iff.mp (Bool.and_eq_true_iff.mp hTakeEq.symm).1).1
  have hLen := length_queueNext hTake
  have hRoom := h.room
  have hBusyOut : t.cond.busyFor = 0 → t.cond.state = .absorb → t.condTake = false → q = [] →
      ∀ c', (t.next x).cond = c' → c'.busyFor = 0 → c'.state = .absorb →
        (t.next x).load (t.queueNext q) ≤ (t.next x).loadBound := by
    intro _ _ hNone hNil c' hc hBusy hSt
    have hEight : t.pace ≤ 8 := pace_le
    rw [hNone] at hLen
    rw [hNil] at hLen ⊢
    rw [load, loadBound, hc, hBusy, if_pos hSt]
    simp at hLen
    omega
  have hCond := hRuns.cond_next hReset
  cases hOn : t.condRstN with
  | false =>
    obtain ⟨-, hNil, -⟩ := h.held hOn
    rw [hOn, if_neg Bool.false_ne_true] at hCond
    have hSt : t.cond.state = .absorb := by rw [hReset hOn]; rfl
    have hBusy := TrngCond.busyFor_absorb hSt
    exact hBusyOut hBusy hSt (by simp [condTake, hOn]) hNil _ hCond hBusy hSt
  | true =>
    rw [hOn, if_pos rfl] at hCond
    by_cases hSt : t.cond.state = .absorb
    · have hBusy := TrngCond.busyFor_absorb hSt
      cases hBit : t.condTake with
      | false =>
        have hNil : q = [] := by
          simpa [hBit, hOn, TrngCond.bitReady, hSt] using hTakeEq
        obtain ⟨hSt', -⟩ := TrngCond.absorb_without_bit (x := t.condIn) hSt hBit
        exact hBusyOut hBusy hSt hBit hNil _ hCond (TrngCond.busyFor_absorb hSt') hSt'
      | true =>
        rw [hBit] at hLen
        rw [load, loadBound, hBusy, if_pos hSt] at hRoom
        rw [load, loadBound, hCond]
        rcases TrngCond.busyFor_bit (x := t.condIn) hSt hBit with ⟨hSt', hCnt⟩ | ⟨hLast, hSt', hBusy'⟩
        · rw [TrngCond.busyFor_absorb hSt', if_pos hSt', hCnt]
          simp at hLen
          omega
        · rw [if_neg hSt']
          simp at hLen
          omega
    · have hNone : t.condTake = false := by
        rw [hTakeEq]
        simp [TrngCond.bitReady, hSt]
      obtain ⟨hBusy, hCnt⟩ := h.tracks.busyFor_next (x := t.condIn) h.aligned rfl hSt
      rw [hNone] at hLen
      rw [load, loadBound, if_neg hSt] at hRoom
      rw [load, loadBound, hCond, hCnt]
      simp at hLen
      split_ifs
      · simp
        omega
      · omega

/-- The words of the first blocks stay what they are. -/
theorem words_append {bits : List (BitVec 1)} (bs : List (BitVec 1)) {k : Nat} (hk : k ≤ 8 * n)
    (hLen : n * COND_RATE ≤ bits.length) :
    (List.range k).map (condWord (bits ++ bs)) = (List.range k).map (condWord bits) := by
  apply List.map_congr_left
  intro i hi
  have hLt : i < k := List.mem_range.mp hi
  have hBlock : (i / 8 + 1) * COND_RATE ≤ bits.length :=
    Nat.le_trans (Nat.mul_le_mul_right _ (by omega)) hLen
  rw [condWord, condWord, TrngCond.condBlocks_append hBlock]

/-- The words after a cycle: one may be read, and one may come in. -/
def wordsNext (t : TrngTop) (x : TrngIn) (w : List (BitVec 32)) : List (BitVec 32) :=
  t.fifo.moved (t.fifoIn x) w

theorem Streams.words_eq (h : Streams t m n q w) (hRuns : Runs t x) :
    (observe m t x).delivered ++ t.wordsNext x w =
      m.delivered ++ w ++ if t.cond.wordValid && t.fifo.wrReady then [t.cond.wordOut] else [] := by
  have hIn : t.wordsNext x w =
      (if x.rdEn && t.rdValid then w.tail else w) ++
        if t.cond.wordValid && t.fifo.wrReady then [t.cond.wordOut] else [] := by
    have hRd : (x.rdEn && t.rdValid && t.fifo.rdValid) = (x.rdEn && t.rdValid) := by
      rw [rdValid, Bool.and_assoc, Bool.and_self]
    have hWr : (t.cond.wordValid && t.fifo.wrReady && t.fifo.wrReady) =
        (t.cond.wordValid && t.fifo.wrReady) := by
      rw [Bool.and_assoc, Bool.and_self]
    unfold wordsNext SyncFifo.moved fifoIn
    dsimp only
    rw [hRd, hWr]
  rw [hIn]
  simp only [observe, hRuns.noFlush, Bool.false_eq_true, if_false]
  cases hRead : x.rdEn && t.rdValid with
  | true =>
    have hHead := h.words.rdData_eq (Bool.and_eq_true_iff.mp hRead).2
    rw [if_pos rfl, if_pos rfl, rdData, ← List.append_assoc, List.append_assoc m.delivered,
      List.singleton_append, ← hHead]
  | false => simp

/-- The words delivered and to come are among those put out. -/
theorem Streams.output_next (h : Streams t m n q w) (hRuns : Runs t x) {n' : Nat}
    (hCount : (t.next x).cond.wordCount n' = t.cond.wordCount n + t.cond.wordValid.toNat) :
    ((observe m t x).delivered ++ t.wordsNext x w).Sublist
      ((List.range ((t.next x).cond.wordCount n')).map (condWord (observe m t x).absorbed)) := by
  obtain ⟨hLe, hLen⟩ := h.tracks.wordCount_le h.aligned
  have hAbsorbed : (observe m t x).absorbed =
      m.absorbed ++ if t.condTake then [t.sfifo.rdData] else [] := by
    simp only [observe, hRuns.noFlush, Bool.false_eq_true, if_false]
    cases t.condTake <;> simp
  rw [h.words_eq hRuns, hCount, hAbsorbed]
  cases hValid : t.cond.wordValid with
  | false =>
    simp only [Bool.false_and, Bool.false_eq_true, if_false, List.append_nil, Bool.toNat_false,
      Nat.add_zero]
    rw [words_append _ hLe hLen]
    exact h.output
  | true =>
    obtain ⟨hWord, hLt, -⟩ := h.tracks.wordOut_eq h.aligned hValid
    rw [Bool.toNat_true, words_append _ (Nat.succ_le_of_lt hLt) hLen, List.range_succ, List.map_append]
    apply List.Sublist.append h.output
    rw [List.map_singleton, ← hWord]
    cases t.fifo.wrReady <;> simp

theorem Streams.next (h : Streams t m n q w) (hRuns : Runs t x)
    (hReset : t.condRstN = false → t.cond = .reset)
    (hPeriod : t.src.sampleValid = true → t.src.dcnt = 0) :
    ∃ n', Streams (t.next x) (observe m t x) n' (t.queueNext q) (t.wordsNext x w) := by
  obtain ⟨hAligned, n', hTracks, hCount⟩ := h.cond_next hRuns hReset
  have hAbsorbed : (observe m t x).absorbed =
      m.absorbed ++ if t.condTake then [t.sfifo.rdData] else [] := by
    simp only [observe, hRuns.noFlush, Bool.false_eq_true, if_false]
    cases t.condTake <;> simp
  have hReady := (h.wrReady hRuns.sfifoOpen).1
  have hMoved : t.sfifo.moved (t.sfifoIn x) q = t.queueNext q := by
    have hTake : (t.condTake && t.sfifo.rdValid) = t.condTake := by
      unfold condTake
      cases t.sfifo.rdValid <;> simp
    simp only [SyncFifo.moved, sfifoIn, queueNext, hRuns.srcGate, hReady, hTake, Bool.and_true]
  refine ⟨n', hAligned, hAbsorbed ▸ hTracks, ?_, ?_, ?_, h.output_next hRuns hCount,
    h.room_next hRuns hReset hPeriod, ?_⟩
  · rw [← hMoved]
    exact h.queue.next hRuns.noFlush
  · rw [hAbsorbed]
    simp only [observe, hRuns.noFlush, hRuns.srcGate, Bool.false_eq_true, if_false, queueNext]
    cases hTake : t.condTake with
    | true =>
      have hValid : t.sfifo.rdValid = true := by
        simp only [condTake, Bool.and_eq_true] at hTake
        exact hTake.1.1
      have hHead := h.queue.rdData_eq hValid
      rw [h.samples]
      cases t.src.sampleValid
      · rw [if_neg Bool.false_ne_true, if_pos rfl, if_pos rfl, if_neg Bool.false_ne_true,
          List.append_nil, List.append_assoc, List.singleton_append, ← hHead]
      · rw [if_pos rfl, if_pos rfl, if_pos rfl, if_pos rfl, List.append_assoc m.absorbed [_],
          List.singleton_append, ← List.cons_append, ← hHead, List.append_assoc]
    | false =>
      rw [h.samples]
      cases t.src.sampleValid <;> simp
  · exact h.words.next hRuns.noFlush
  · intro hOff
    exact absurd (hRuns.condRstN.symm.trans hOff) (by decide)

theorem Rests.next (h : Rests t m) (hReset : t.condRstN = false → t.cond = .reset)
    (hDone : t.startupDone = false) (hFlush : t.fifoFlush x = false) :
    Rests (t.next x) (observe m t x) := by
  have hGate : t.srcGate = false := by simp [srcGate, hDone]
  have hNoQueue : t.sfifo.rdValid = false := by
    rw [h.queue.rdValid_eq]
    simp
  have hNoWord : t.fifo.rdValid = false := by
    rw [h.words.rdValid_eq]
    simp
  have hPush : (t.cond.wordValid && t.fifo.wrReady) = false := by
    cases hOn : t.condRstN with
    | true =>
      have hShut : t.fifo.wrReady = false := by simp [SyncFifo.wrReady, (h.shut hOn).2]
      rw [hShut, Bool.and_false]
    | false =>
      rw [hReset hOn]
      rfl
  constructor
  · have hMoved : t.sfifo.moved (t.sfifoIn x) [] = [] := by
      simp [SyncFifo.moved, sfifoIn, hGate]
    exact hMoved ▸ h.queue.next hFlush
  · have hMoved : t.fifo.moved (t.fifoIn x) [] = [] := by
      simp [SyncFifo.moved, fifoIn, hPush]
    exact hMoved ▸ h.words.next hFlush
  · simp [observe, hFlush, hGate, h.samples]
  · simp [observe, hFlush, condTake, hNoQueue, h.absorbed]
  · simp [observe, hFlush, rdValid, hNoWord, h.delivered]
  · intro hOn
    change t.condRstNNext = true at hOn
    simp [condRstNNext, hDone] at hOn

/-- A flush leaves both FIFOs empty and shut. -/
theorem rests_of_flush (hFlush : t.fifoFlush x = true) : Rests (t.next x) (observe m t x) := by
  constructor
  · exact SyncFifo.holds_flush hFlush
  · exact SyncFifo.holds_flush hFlush
  · simp [observe, hFlush]
  · simp [observe, hFlush]
  · simp [observe, hFlush]
  · intro _
    exact ⟨SyncFifo.wipeRun_flush hFlush, SyncFifo.wipeRun_flush hFlush⟩

/-- The stream begins with the end of the start-up test. -/
theorem Rests.streams (h : Rests (t.next x) m) (hReset : (t.next x).cond = .reset) :
    Streams (t.next x) m 0 [] [] := by
  have hPace : (t.next x).pace ≤ 8 := pace_le
  constructor
  · rw [hReset]
    exact TrngCond.aligned_reset
  · rw [hReset, h.absorbed]
    exact TrngCond.tracks_reset
  · exact h.queue
  · rw [h.samples, h.absorbed]
    rfl
  · exact h.words
  · rw [h.delivered]
    exact List.nil_sublist _
  · rw [load, loadBound, hReset, TrngCond.busyFor_absorb rfl,
      if_pos (show TrngCond.reset.state = .absorb from rfl), List.length_nil]
    omega
  · exact fun _ => ⟨rfl, rfl, h.absorbed⟩

theorem runs_of_done (hTimed : Timed t m) (hD : t.startupDone = true → t.alarmD = false)
    (hDone : t.startupDone = true) (hFlush : t.fifoFlush x = false) : Runs t x := by
  obtain ⟨hAlarm, -⟩ := alarm_of_not_flush (hD hDone) hFlush
  obtain ⟨hS, hO, hZero⟩ := hTimed.open_of_done hDone
  exact ⟨hDone, hFlush, hAlarm, hS, hO, by simp [condRstNNext, hDone, hAlarm, hZero]⟩

theorem Phase.next (h : Phase t m) (hTimed : Timed t m) : Phase (t.next x) (observe m t x) := by
  have hResetNext : t.condRstNNext = false → (t.next x).cond = .reset := by
    intro hOff
    change t.condNext = .reset
    simp [condNext, hOff]
  constructor
  · exact hResetNext
  · intro hDone'
    cases hFlush : t.fifoFlush x with
    | true => exact rests_of_flush hFlush
    | false =>
      cases hDone : t.startupDone with
      | true =>
        obtain ⟨-, hAgain⟩ := alarm_of_not_flush (h.quietD hDone) hFlush
        change t.startupDoneNext x = false at hDone'
        simp [startupDoneNext, hAgain, hDone] at hDone'
      | false => exact (h.rests hDone).next h.inReset hDone hFlush
  · intro hDone'
    have hAgain := (startupDone_next hDone').1
    exact (Bool.or_eq_false_iff.mp hAgain).2
  · intro hDone'
    obtain ⟨hAgain, -⟩ := startupDone_next hDone'
    have hFlush : t.fifoFlush x = false :=
      Bool.eq_false_iff.mpr fun hOn => absurd (hAgain.symm.trans (flush_restarts hOn)) Bool.false_ne_true
    cases hDone : t.startupDone with
    | true =>
      obtain ⟨n, q, w, hStreams⟩ := h.runs hDone
      have hRuns := runs_of_done hTimed h.quietD hDone hFlush
      obtain ⟨n', hNext⟩ := hStreams.next hRuns h.inReset hTimed.period
      exact ⟨n', _, _, hNext⟩
    | false =>
      have hRests := (h.rests hDone).next h.inReset hDone hFlush
      exact ⟨0, [], [], hRests.streams (hResetNext (by simp [condRstNNext, hDone]))⟩
  · change t.sampleDropsNext x = 0
    have hOpen : t.srcGate = true → t.sfifo.wrReady = true := by
      intro hGate
      have hDone : t.startupDone = true := by
        simp only [srcGate, Bool.and_eq_true] at hGate
        exact hGate.1.2
      obtain ⟨n, q, w, hStreams⟩ := h.runs hDone
      exact (hStreams.wrReady (hTimed.open_of_done hDone).1).1
    have hNone : (t.srcGate && !t.sfifo.wrReady) = false := by
      cases hGate : t.srcGate with
      | false => rfl
      | true => rw [hOpen hGate]; rfl
    rw [sampleDropsNext, hNone, h.drops]
    simp

end Cycle

end TrngTop

/-! ### Runs -/

section Runs

variable (ins : Nat → TrngIn) (k : Nat)

/-- The generator in cycle `k`, and what has been seen before it. -/
def trngAt : TrngTop := trngCircuit.after ins k

def trngSeenAt : TrngSeen := trngCircuit.record ⟨[], [], [], 0, 0⟩ TrngTop.observe ins k

/-- The words that the sponge gives for the whole blocks among these bits. -/
def condWordsOf (bits : List (BitVec 1)) : List (BitVec 32) :=
  (List.range (8 * (bits.length / COND_RATE))).map (condWord bits)

theorem trng_invariant : (trngAt ins k).Timed (trngSeenAt ins k) ∧
    (trngAt ins k).Phase (trngSeenAt ins k) := by
  apply Clocked.invariant_record (C := trngCircuit) (I := fun t m => t.Timed m ∧ t.Phase m)
  · constructor
    · constructor
      · exact fun h => nomatch h
      · exact .inl rfl
      · exact fun h => nomatch h
      · exact fun h => nomatch h
      · exact Nat.zero_le _
      · exact Nat.le_refl 0
      · exact fun h => nomatch h
    · constructor
      · exact fun _ => rfl
      · exact fun _ => ⟨SyncFifo.holds_reset, SyncFifo.holds_reset, rfl, rfl, rfl, fun h => nomatch h⟩
      · exact fun h => nomatch h
      · exact fun h => nomatch h
      · rfl
  · rintro t m x ⟨hTimed, hPhase⟩
    exact ⟨hTimed.next, hPhase.next hTimed⟩

end Runs

end PqcHsm
