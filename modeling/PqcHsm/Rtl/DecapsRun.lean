import PqcHsm.Rtl.DecapsProgress
import Mathlib.Data.Nat.Init

/-!
# The runs of decapsulation

What is delivered in every run, that a run ends, and that its states do not depend on the data.
-/

namespace PqcHsm

open MlKem

section Runs

variable (E : Cores) (left : DecapsData) (ins : Nat → DecapsIn)

/-- The bus starts the core only when it is idle. -/
def StartsIdle : Prop := ∀ k, (ins k).start = true → ((decaps E left).after ins k).ctl.st = .idle

/-- Whatever the run that starts in cycle `n` waits for comes. -/
def Answered (n : Nat) : Prop :=
  ∀ k > n, ∀ i, ((decaps E left).after ins k).ctl.waitsFor = some i →
    ∃ j ≥ k, (ins j).gives i = true

/-- The whole key and the whole ciphertext have come in. -/
def DecapsLog.Whole (m : DecapsLog) : Prop :=
  m.dk.length = dklen (kNow m.ps) ∧ m.c.length = clen (kNow m.ps) (d11Now m.ps)

def DecapsLog.key (m : DecapsLog) : List (BitVec 8) := decapsKey E m.ps m.dk m.c

end Runs

section

variable {E : Cores} {left left' : DecapsData} {ins ins' : Nat → DecapsIn}

/-! ### What is delivered -/

theorem decaps_inv (hIdle : StartsIdle E left ins) (k : Nat) :
    InvAt E ((decaps E left).after ins k).ctl ((decaps E left).after ins k).data
      (decapsLog E left ins k) ((decaps E left).after ins k).ctl.st := by
  induction k with
  | zero => exact ⟨rfl, rfl⟩
  | succ k ih => exact inv_step (hIdle k) ih

theorem log_ps (k : Nat) :
    ((decaps E left).after ins k).ctl.ps = (decapsLog E left ins k).ps := by
  apply Clocked.invariant_record (I := fun (s : Decaps) (m : DecapsLog) => s.ctl.ps = m.ps)
  · rfl
  · intro s m x hSame
    change (s.ctl.next x.toDecapsTiming).ps = (m.see s x).ps
    cases hStart : x.start with
    | true =>
      rw [DecapsCtl.next, DecapsLog.see, hStart, if_pos rfl, if_pos rfl]
      rfl
    | false =>
      rw [(next_keeps hStart).2.1, DecapsLog.see, hStart, if_neg Bool.false_ne_true]
      exact hSame

theorem Chosen.log_whole {c : DecapsCtl} {d : DecapsData} {m : DecapsLog} (hChosen : Chosen c d m)
    (hPs : c.ps = m.ps) : m.Whole := by
  obtain ⟨⟨hK, hD11⟩, -, hDk, hC⟩ := hChosen
  rw [hK] at hDk hC
  rw [hD11] at hC
  rw [hPs] at hDk hC
  exact ⟨hDk, hC⟩

/-- While the key is delivered, its bytes come in their order. -/
theorem out_so_far (hIdle : StartsIdle E left ins) {k : Nat}
    (hSt : ((decaps E left).after ins k).ctl.st = .out) :
    (decapsLog E left ins k).Whole ∧ (decapsLog E left ins k).out =
      ((decapsLog E left ins k).key E).take ((decaps E left).after ins k).ctl.ocnt := by
  have hInv := decaps_inv hIdle k
  rw [hSt] at hInv
  obtain ⟨hChosen, -, -, hOut⟩ := hInv
  rw [keyOf, log_ps] at hOut
  exact ⟨hChosen.log_whole (log_ps k), hOut⟩

theorem done_key (hIdle : StartsIdle E left ins) {k : Nat}
    (hSt : ((decaps E left).after ins k).ctl.st = .done) :
    (decapsLog E left ins k).Whole ∧
      (decapsLog E left ins k).out = (decapsLog E left ins k).key E := by
  have hInv := decaps_inv hIdle k
  rw [hSt] at hInv
  obtain ⟨hChosen, hOut⟩ := hInv
  rw [keyOf, log_ps] at hOut
  exact ⟨hChosen.log_whole (log_ps k), hOut⟩

/-! ### A run ends -/

theorem step_busy (c : DecapsCtl) (t : DecapsTiming) (hIdle : c.st ≠ .idle) (hDone : c.st ≠ .done) :
    (c.step t).st ≠ .idle := by
  have hDk : c.st = .dkIn → c.stepDk.st ≠ .idle := by
    intro hSt
    rw [DecapsCtl.stepDk]
    split
    · simp
    · rw [stepPlace_st, hSt]
      simp
  have hRe : c.st = .reRun → (c.stepRe t).st ≠ .idle := by
    intro hSt
    obtain ⟨hEkSt, -, -⟩ := stepEk_keeps c t
    rw [hSt] at hEkSt
    rw [DecapsCtl.stepRe]
    repeat' split
    all_goals simp [hEkSt]
  rw [DecapsCtl.step]
  cases hSt : c.st with
  | idle => exact absurd hSt hIdle
  | done => exact absurd hSt hDone
  | reRun => exact hRe hSt
  | dkIn =>
    dsimp only
    split
    · exact hDk hSt
    · simp [hSt]
  | _ =>
    dsimp only
    repeat' split
    all_goals simp [hSt]

theorem first_busy {n : Nat} (hStart : (ins n).start = true) :
    ((decaps E left).after ins (n + 1)).ctl.st = .hekStart := by
  change (((decaps E left).after ins n).ctl.next (ins n).toDecapsTiming).st = _
  rw [DecapsCtl.next, hStart, if_pos rfl]
  rfl

/-- Between the start and the end. -/
def DecapsBusy (E : Cores) (left : DecapsData) (ins : Nat → DecapsIn) (k : Nat) : Prop :=
  ((decaps E left).after ins k).ctl.st ≠ .idle ∧ ((decaps E left).after ins k).ctl.st ≠ .done

theorem run_ends (hIdle : StartsIdle E left ins) {n : Nat} (hStart : (ins n).start = true)
    (hAnswered : Answered E left ins n) :
    ∃ k > n, ((decaps E left).after ins k).ctl.st = .done ∧
      ∀ j > n, j < k → DecapsBusy E left ins j := by
  by_contra hNever
  have hRuns (k : Nat) : ∀ j > n, j < k → DecapsBusy E left ins j := by
    induction k with
    | zero => exact fun j _ hj => absurd hj (Nat.not_lt_zero j)
    | succ k ih =>
      intro j hn hj
      obtain hEarlier | rfl := Nat.lt_succ_iff_lt_or_eq.mp hj
      · exact ih j hn hEarlier
      · have hNotDone : ((decaps E left).after ins j).ctl.st ≠ .done :=
          fun hDone => hNever ⟨j, hn, hDone, ih⟩
        refine ⟨?_, hNotDone⟩
        obtain rfl | hLater := Nat.eq_or_lt_of_le (Nat.succ_le_of_lt hn)
        · rw [first_busy hStart]
          exact nofun
        · cases j with
          | zero => exact absurd hn (Nat.not_lt_zero n)
          | succ i =>
            obtain ⟨hBusy, hGoing⟩ := ih i (Nat.lt_of_succ_lt_succ hLater) (Nat.lt_succ_self i)
            have hNoStart : (ins i).start = false := by
              rw [← Bool.not_eq_true]
              exact fun hAgain => hBusy (hIdle i hAgain)
            change (((decaps E left).after ins i).ctl.next (ins i).toDecapsTiming).st ≠ .idle
            rw [DecapsCtl.next, hNoStart, if_neg Bool.false_ne_true]
            exact step_busy _ _ hBusy hGoing
  let f (k : Nat) := ((decaps E left).after ins (n + 1 + k)).ctl.rank
  let need (k : Nat) := ((decaps E left).after ins (n + 1 + k)).ctl.waitsFor
  let signal (i : DecapsWait) (k : Nat) := (ins (n + 1 + k)).gives i = true
  apply @Clocked.not_waiting_forever DecapsWait f need signal
  · intro i k hNeed
    obtain ⟨j, hj, hGives⟩ := hAnswered _ (by omega) i hNeed
    refine ⟨j - (n + 1), by omega, ?_⟩
    simp only [signal]
    rwa [Nat.add_sub_cancel' (by omega)]
  · intro k
    obtain ⟨hBusy, hGoing⟩ := hRuns (n + 1 + k + 1) (n + 1 + k) (by omega) (by omega)
    have hNoStart : (ins (n + 1 + k)).start = false := by
      rw [← Bool.not_eq_true]
      exact fun hAgain => hBusy (hIdle _ hAgain)
    have hNext : ((decaps E left).after ins (n + 1 + (k + 1))).ctl =
        { ((decaps E left).after ins (n + 1 + k)).ctl.step (ins (n + 1 + k)).toDecapsTiming with
          nbits := ((decaps E left).after ins (n + 1 + k)).ctl.nbitsNext } := by
      change ((decaps E left).after ins (n + 1 + k)).ctl.next (ins (n + 1 + k)).toDecapsTiming = _
      rw [DecapsCtl.next, hNoStart, if_neg Bool.false_ne_true]
    obtain hFall | ⟨i, hNeed, hNot, hStay⟩ := step_falls (x := ins (n + 1 + k))
      (decaps_inv hIdle (n + 1 + k)) hBusy hGoing
    · left
      simp only [f]
      rw [hNext]
      exact hFall
    · right
      refine ⟨i, hNeed, ?_, ?_, ?_⟩
      · simp only [signal, hNot, Bool.false_eq_true, not_false_eq_true]
      · simp only [f]
        rw [hNext, hStay]
        rfl
      · simp only [need]
        rw [hNext, hStay]
        exact hNeed

/-- The parameter set is that of the start. -/
theorem runs_ps (hIdle : StartsIdle E left ins) {n k : Nat} (hStart : (ins n).start = true)
    (hn : n < k) (hRuns : ∀ j > n, j < k → DecapsBusy E left ins j) :
    (decapsLog E left ins k).ps = (ins n).paramSet := by
  rw [← log_ps]
  induction k, hn using Nat.le_induction with
  | base =>
    change (((decaps E left).after ins n).ctl.next (ins n).toDecapsTiming).ps = _
    rw [DecapsCtl.next, hStart, if_pos rfl]
    rfl
  | succ k hk ih =>
    have hNoStart : (ins k).start = false := by
      rw [← Bool.not_eq_true]
      exact fun hAgain => (hRuns k hk (Nat.lt_succ_self k)).1 (hIdle k hAgain)
    change (((decaps E left).after ins k).ctl.next (ins k).toDecapsTiming).ps = _
    rw [(next_keeps hNoStart).2.1]
    exact ih (fun j hj hjk => hRuns j hj (Nat.lt_succ_of_lt hjk))

/-! ### The states -/

/-- A start leaves nothing of the run before it. -/
theorem next_start {c : DecapsCtl} {t : DecapsTiming} (hStart : t.start = true) (hSt : c.st = .idle)
    (hBits : c.nbits = 0) :
    c.next t =
      { DecapsCtl.reset with
        st := .hekStart
        ps := t.paramSet
        k := kNow t.paramSet
        d11 := d11Now t.paramSet } := by
  simp only [DecapsCtl.next, DecapsCtl.nbitsNext, DecapsCtl.restart, hStart, hSt, hBits, if_true]
  rfl

/-- From a start on, the states and counters follow the handshakes only. -/
theorem ctl_eq (hIdle : StartsIdle E left ins) (hIdle' : StartsIdle E left' ins') {n n' : Nat}
    (hStart : (ins n).start = true)
    (hTiming : ∀ j, (ins (n + j)).toDecapsTiming = (ins' (n' + j)).toDecapsTiming) (j : Nat) :
    ((decaps E left).after ins (n + 1 + j)).ctl =
      ((decaps E left').after ins' (n' + 1 + j)).ctl := by
  induction j with
  | zero =>
    have hSame : (ins n).toDecapsTiming = (ins' n').toDecapsTiming := hTiming 0
    have hStart' : (ins' n').start = true := (congrArg DecapsTiming.start hSame).symm.trans hStart
    have hInv := decaps_inv hIdle n
    have hInv' := decaps_inv hIdle' n'
    rw [hIdle n hStart] at hInv
    rw [hIdle' n' hStart'] at hInv'
    change ((decaps E left).after ins n).ctl.next (ins n).toDecapsTiming =
      ((decaps E left').after ins' n').ctl.next (ins' n').toDecapsTiming
    rw [next_start hStart (hIdle n hStart) hInv.1, next_start hStart' (hIdle' n' hStart') hInv'.1,
      hSame]
  | succ j ih =>
    have hSame := hTiming (1 + j)
    rw [← Nat.add_assoc, ← Nat.add_assoc] at hSame
    change ((decaps E left).after ins (n + 1 + j)).ctl.next (ins (n + 1 + j)).toDecapsTiming =
      ((decaps E left').after ins' (n' + 1 + j)).ctl.next (ins' (n' + 1 + j)).toDecapsTiming
    rw [ih, hSame]

/-! ### Decapsulation -/

/-- Decapsulation delivers the key of the inner core or that of the rejection, in every run, and
its states are the same in both cases. -/
theorem decaps_rejects_implicitly (E : Cores) (left : DecapsData) (ins : Nat → DecapsIn)
    (hIdle : StartsIdle E left ins) :
    (∀ k, let s := (decaps E left).after ins k
      let m := decapsLog E left ins k
      (s.ctl.st = .out → m.Whole ∧ m.out = (m.key E).take s.ctl.ocnt) ∧
        (s.ctl.st = .done → m.Whole ∧ m.out = m.key E)) ∧
    (∀ n, (ins n).start = true → Answered E left ins n →
      ∃ k > n, ((decaps E left).after ins k).ctl.st = .done ∧
        (decapsLog E left ins k).ps = (ins n).paramSet ∧
        ∀ j > n, j < k → DecapsBusy E left ins j) ∧
    ∀ left' ins', StartsIdle E left' ins' → ∀ n n', (ins n).start = true →
      (∀ j, (ins (n + j)).toDecapsTiming = (ins' (n' + j)).toDecapsTiming) →
      ∀ j, ((decaps E left).after ins (n + 1 + j)).ctl.st =
        ((decaps E left').after ins' (n' + 1 + j)).ctl.st := by
  refine ⟨?_, ?_, ?_⟩
  · intro k
    exact ⟨out_so_far hIdle, done_key hIdle⟩
  · intro n hStart hAnswered
    obtain ⟨k, hk, hDone, hBusy⟩ := run_ends hIdle hStart hAnswered
    exact ⟨k, hk, hDone, runs_ps hIdle hStart hk hBusy, hBusy⟩
  · intro left' ins' hIdle' n n' hStart hTiming j
    exact congrArg DecapsCtl.st (ctl_eq hIdle hIdle' hStart hTiming j)

end

/-- Cores that give the same byte for ever. -/
def constantCores : Cores := ⟨fun _ _ _ => 9, fun _ f => f, fun _ _ _ _ => 7⟩

def blankDecaps : DecapsData where
  grpBuf := 0
  hR := 0
  zR := 0
  hekR := 0
  kbarR := 0
  kprimeR := 0
  mR := fun _ => false
  dkHashOk := false
  bank := fun _ _ => 0
  baDout := 0
  bbDout := 0
  ekbuf := fun _ => 0
  ekbDout := 0
  cbuf := fun _ => 0
  cbbDout := 0
  nttMem := fun _ => 0
  nttRdData := 0
  buAcc := 0
  a0 := 0
  a1 := 0
  b0 := 0
  b1 := 0
  acc0 := 0
  acc1 := 0
  tAb := 0
  bm0 := 0
  bm1 := 0
  vR := 0
  suR := 0
  wR := 0
  cmpDiff := false
  ekbR := 0
  sha := ⟨0, [], 0⟩
  enc := ⟨0, fun _ => false, [], 0⟩

/-- A start and then no gap and no stall. -/
def promptInputs (k : Nat) : DecapsIn where
  paramSet := 0
  start := k = 0
  dkValid := true
  cValid := true
  outReady := true
  shaInReady := true
  shaOutValid := true
  nttDone := true
  encEkReady := true
  encOutValid := true
  dkData := 0
  cData := 0

theorem decaps_rejects_implicitly_ready :
    ∃ k > 0, ((decaps constantCores blankDecaps).after promptInputs k).ctl.st = .done ∧
      (decapsLog constantCores blankDecaps promptInputs k).out =
        (decapsLog constantCores blankDecaps promptInputs k).key constantCores := by
  have hIdle : StartsIdle constantCores blankDecaps promptInputs := by
    intro k hStart
    have hFirst : k = 0 := of_decide_eq_true hStart
    rw [hFirst]
    rfl
  have hAnswered : Answered constantCores blankDecaps promptInputs 0 := by
    intro k _ i _
    refine ⟨k, Nat.le_refl k, ?_⟩
    cases i <;> rfl
  obtain ⟨hKey, hEnds, -⟩ :=
    decaps_rejects_implicitly constantCores blankDecaps promptInputs hIdle
  obtain ⟨k, hk, hDone, -⟩ := hEnds 0 rfl hAnswered
  exact ⟨k, hk, hDone, ((hKey k).2 hDone).2⟩

end PqcHsm
