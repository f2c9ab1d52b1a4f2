import PqcHsm.Library.Clocked
import PqcHsm.Rtl.TrngTop
import Mathlib.Data.Nat.Choose.Basic
import Mathlib.Algebra.Order.Field.Rat

/-!
# The health tests

`trng_health` for every width of a sample and every choice of the cutoffs and the window. A run is a
stretch of equal samples; the windows cut the samples into pieces of one length, and each one is
compared with its own first sample.
-/

namespace PqcHsm

structure HealthParams where
  rctCutoff : Nat
  aptWindow : Nat
  aptCutoff : Nat

structure HealthIn (w : Nat) where
  clear : Bool
  sampleValid : Bool
  sample : BitVec w

structure HealthState (w : Nat) where
  rctAlarm : Bool
  aptAlarm : Bool
  rctRun : BitVec 16
  aptCount : BitVec 16
  aptIndex : BitVec 16
  prev : BitVec w
  refVal : BitVec w
  started : Bool

namespace HealthState

variable {w : Nat} (p : HealthParams) (h : HealthState w)

def reset : HealthState w := ⟨false, false, 0, 0, 0, 0, 0, false⟩

/-- The repetition count test. -/
def rct (sample : BitVec w) : HealthState w :=
  if !(h.started && sample = h.prev) then { h with prev := sample, rctRun := 1 }
  else
    { h with
      rctRun := h.rctRun + 1
      rctAlarm := h.rctAlarm || BitVec.ofNat 16 p.rctCutoff ≤ h.rctRun + 1 }

/-- The adaptive proportion test. -/
def apt (sample : BitVec w) : HealthState w :=
  if !h.started || h.aptIndex = BitVec.ofNat 16 p.aptWindow then
    { h with refVal := sample, aptCount := 1, aptIndex := 1 }
  else if sample = h.refVal then
    { h with
      aptIndex := h.aptIndex + 1
      aptCount := h.aptCount + 1
      aptAlarm := h.aptAlarm || BitVec.ofNat 16 p.aptCutoff < h.aptCount + 1 }
  else { h with aptIndex := h.aptIndex + 1 }

def next (x : HealthIn w) : HealthState w :=
  let cleared := if x.clear then { h with rctAlarm := false, aptAlarm := false } else h
  if x.sampleValid then { (cleared.apt p x.sample).rct p x.sample with started := true }
  else cleared

end HealthState

/-- `trng_health` -/
def healthTests (w : Nat) (p : HealthParams) : Clocked (HealthIn w) (HealthState w) :=
  ⟨.reset, fun h x => h.next p x⟩

/-! ### The tests of the generator are these -/

namespace TrngHealth

def toState (h : TrngHealth) : HealthState 1 :=
  ⟨h.rctAlarm, h.aptAlarm, h.rctRun, h.aptCount, h.aptIndex, h.prev, h.refVal, h.started⟩

theorem toState_next (h : TrngHealth) (clear sampleValid : Bool) (sample : BitVec 1) :
    (h.next clear sampleValid sample).toState =
      h.toState.next ⟨47, 1024, 672⟩ ⟨clear, sampleValid, sample⟩ := by
  have hRct (h : TrngHealth) : (h.rct sample).toState = h.toState.rct ⟨47, 1024, 672⟩ sample := by
    rw [rct, HealthState.rct, apply_ite toState]
    rfl
  have hApt (h : TrngHealth) : (h.apt sample).toState = h.toState.apt ⟨47, 1024, 672⟩ sample := by
    rw [apt, HealthState.apt, apply_ite toState, apply_ite toState]
    rfl
  have hClear : (if clear then { h with rctAlarm := false, aptAlarm := false } else h).toState =
      if clear then { h.toState with rctAlarm := false, aptAlarm := false } else h.toState := by
    rw [apply_ite toState]
    rfl
  rw [next, HealthState.next, apply_ite toState]
  dsimp only
  rw [← hClear, ← hApt, ← hRct]
  rfl

end TrngHealth

/-! ### What the samples say -/

section Samples

variable {w : Nat}

/-- The stretch of equal samples at the front; the last sample comes first. -/
def runLength : List (BitVec w) → Nat
  | [] => 0
  | x :: xs => (xs.takeWhile (· = x)).length + 1

/-- The samples of the window that the last sample is in. -/
def window (size : Nat) (xs : List (BitVec w)) : List (BitVec w) :=
  xs.take ((xs.length - 1) % size + 1)

/-- The first sample of the window. -/
def reference (size : Nat) (xs : List (BitVec w)) : BitVec w := (window size xs).getLastD 0

/-- How many samples of the window are equal to its first one. -/
def matching (size : Nat) (xs : List (BitVec w)) : Nat :=
  (window size xs).count (reference size xs)

theorem runLength_cons (x y : BitVec w) (ys : List (BitVec w)) :
    runLength (x :: y :: ys) = if x = y then runLength (y :: ys) + 1 else 1 := by
  by_cases h : x = y
  · subst h
    rw [if_pos rfl, runLength, List.takeWhile_cons_of_pos (by simp)]
    rfl
  · rw [if_neg h, runLength, List.takeWhile_cons_of_neg (by simpa using Ne.symm h)]
    rfl

theorem length_window {size : Nat} {xs : List (BitVec w)} (h : xs ≠ []) :
    (window size xs).length = (xs.length - 1) % size + 1 := by
  have hPos := List.length_pos_iff.mpr h
  have hMod := Nat.mod_le (xs.length - 1) size
  rw [window, List.length_take]
  omega

/-- A sample is the first one of a window, or it joins the window of the one before. -/
theorem window_cons {size : Nat} (hSize : 0 < size) (x : BitVec w) (xs : List (BitVec w)) :
    window size (x :: xs) =
      if xs = [] ∨ (window size xs).length = size then [x] else x :: window size xs := by
  cases xs with
  | nil =>
    rw [if_pos (.inl rfl), window]
    rfl
  | cons y ys =>
    have hLen := @length_window _ size (y :: ys) (List.cons_ne_nil y ys)
    have hMod := Nat.mod_lt ys.length hSize
    have hCount : (y :: ys).length - 1 = ys.length := rfl
    have hCount' : (x :: y :: ys).length - 1 = ys.length + 1 := rfl
    rw [hCount] at hLen
    by_cases hFull : ys.length % size + 1 = size
    · rw [if_pos (.inr (hLen.trans hFull)), window, hCount', (Sponge.position_of_full hFull).1]
      rfl
    · have hNext := (Sponge.position_of_lt (by omega : ys.length % size + 1 < size)).1
      have hOpen : ¬(y :: ys = [] ∨ (window size (y :: ys)).length = size) := by
        rintro (hNil | hEq)
        · exact List.cons_ne_nil y ys hNil
        · exact hFull (hLen.symm.trans hEq)
      rw [if_neg hOpen, window, hCount', hNext, List.take_succ_cons, window, hCount]

theorem reference_cons {size : Nat} (hSize : 0 < size) (x : BitVec w) (xs : List (BitVec w)) :
    reference size (x :: xs) =
      if xs = [] ∨ (window size xs).length = size then x else reference size xs := by
  rw [reference, window_cons hSize]
  by_cases hNew : xs = [] ∨ (window size xs).length = size
  · rw [if_pos hNew, if_pos hNew]
    rfl
  · rw [if_neg hNew, if_neg hNew]
    have hNe : window size xs ≠ [] := by
      apply List.ne_nil_of_length_pos
      rw [length_window (not_or.mp hNew).1]
      exact Nat.succ_pos _
    obtain ⟨y, ys, hEq⟩ := List.exists_cons_of_ne_nil hNe
    rw [reference, hEq]
    rfl

theorem matching_cons {size : Nat} (hSize : 0 < size) (x : BitVec w) (xs : List (BitVec w)) :
    matching size (x :: xs) =
      if xs = [] ∨ (window size xs).length = size then 1
      else if x = reference size xs then matching size xs + 1 else matching size xs := by
  rw [matching, reference_cons hSize, window_cons hSize]
  by_cases hNew : xs = [] ∨ (window size xs).length = size
  · rw [if_pos hNew, if_pos hNew, if_pos hNew, List.count_singleton_self]
  · rw [if_neg hNew, if_neg hNew, if_neg hNew, List.count_cons, matching]
    by_cases hRef : x = reference size xs
    · rw [if_pos hRef, if_pos (beq_iff_eq.mpr hRef)]
    · rw [if_neg hRef, if_neg (fun h => hRef (beq_iff_eq.mp h)), Nat.add_zero]

theorem matching_le {size : Nat} (hSize : 0 < size) (xs : List (BitVec w)) :
    matching size xs ≤ size := by
  have hLe : (window size xs).length ≤ size := by
    rw [window, List.length_take]
    have hMod := Nat.mod_lt (xs.length - 1) hSize
    omega
  exact List.count_le_length.trans hLe

end Samples

/-! ### What the alarms are to say -/

section Runs

variable {w : Nat} (p : HealthParams) (ins : Nat → HealthIn w)

/-- The samples before cycle `k`, the last one first. -/
def samplesBefore : Nat → List (BitVec w)
  | 0 => []
  | k + 1 =>
    if (ins k).sampleValid then (ins k).sample :: samplesBefore k else samplesBefore k

/-- It happened in a cycle before `k` and no later cycle cleared the alarms. -/
def Latched (E : Nat → Prop) (k : Nat) : Prop :=
  ∃ i < k, E i ∧ ∀ j, i < j → j < k → (ins j).clear = false

/-- The sample of the cycle completes a run of the cutoff or more. -/
def RunReached (i : Nat) : Prop :=
  (ins i).sampleValid = true ∧ p.rctCutoff ≤ runLength (samplesBefore ins (i + 1))

/-- The sample of the cycle is equal to the first of its window, and now the cutoff or more are. -/
def CountReached (i : Nat) : Prop :=
  (ins i).sampleValid = true ∧ (ins i).sample = reference p.aptWindow (samplesBefore ins (i + 1)) ∧
    p.aptCutoff ≤ matching p.aptWindow (samplesBefore ins (i + 1))

/-- Cutoffs and a window that the registers hold, and a run that is more than one sample. -/
def HealthParams.Fits : Prop :=
  (2 ≤ p.rctCutoff ∧ p.rctCutoff < 65536) ∧ (1 ≤ p.aptWindow ∧ p.aptWindow < 65536) ∧
    1 ≤ p.aptCutoff ∧ p.aptCutoff < 65536

/-- Where the alarm is not up already, a run that reaches the cutoff has not gone around the
register, and the count of a window is not the cutoff itself. -/
def Meets (i : Nat) : Prop :=
  (RunReached p ins i → p.rctCutoff ≤ runLength (samplesBefore ins (i + 1)) % 65536 ∨
    Latched ins (RunReached p ins) i ∧ (ins i).clear = false) ∧
  (CountReached p ins i → matching p.aptWindow (samplesBefore ins (i + 1)) ≠ p.aptCutoff ∨
    Latched ins (CountReached p ins) i ∧ (ins i).clear = false)

variable {p ins}

theorem latched_succ {E : Nat → Prop} {k : Nat} :
    Latched ins E (k + 1) ↔ E k ∨ Latched ins E k ∧ (ins k).clear = false := by
  constructor
  · rintro ⟨i, hi, hE, hClear⟩
    obtain rfl | hLess := Nat.eq_or_lt_of_le (Nat.le_of_lt_succ hi)
    · exact .inl hE
    · refine .inr ⟨⟨i, hLess, hE, ?_⟩, hClear k hLess (Nat.lt_succ_self k)⟩
      intro j hj hk
      exact hClear j hj (hk.trans (Nat.lt_succ_self k))
  · rintro (hE | ⟨⟨i, hi, hE, hClear⟩, hNow⟩)
    · refine ⟨k, Nat.lt_succ_self k, hE, ?_⟩
      intro j hj hk
      omega
    · refine ⟨i, hi.trans (Nat.lt_succ_self k), hE, ?_⟩
      intro j hj hk
      obtain rfl | hLess := Nat.eq_or_lt_of_le (Nat.le_of_lt_succ hk)
      · exact hNow
      · exact hClear j hj hLess

end Runs

/-! ### What an edge does -/

section Edge

variable {w : Nat} {p : HealthParams} {h : HealthState w} {x : HealthIn w}

namespace HealthState

def same (h : HealthState w) (sample : BitVec w) : Bool := h.started && sample = h.prev

def fresh (p : HealthParams) (h : HealthState w) : Bool :=
  !h.started || h.aptIndex = BitVec.ofNat 16 p.aptWindow

theorem rct_eq (sample : BitVec w) :
    h.rct p sample = { h with
      rctAlarm := h.rctAlarm || (h.same sample && BitVec.ofNat 16 p.rctCutoff ≤ h.rctRun + 1)
      rctRun := if h.same sample then h.rctRun + 1 else 1
      prev := sample } := by
  have hSame : (h.started && sample = h.prev) = h.same sample := rfl
  rw [rct, hSame]
  cases hEq : h.same sample with
  | false => simp
  | true =>
    have hKeeps : sample = h.prev := by simpa using (Bool.and_eq_true_iff.mp hEq).2
    simp [hKeeps]

theorem apt_eq (sample : BitVec w) :
    h.apt p sample = { h with
      aptAlarm := h.aptAlarm ||
        (!h.fresh p && sample = h.refVal && BitVec.ofNat 16 p.aptCutoff < h.aptCount + 1)
      aptCount := if h.fresh p then 1 else if sample = h.refVal then h.aptCount + 1 else h.aptCount
      aptIndex := if h.fresh p then 1 else h.aptIndex + 1
      refVal := if h.fresh p then sample else h.refVal } := by
  have hFresh : (!h.started || h.aptIndex = BitVec.ofNat 16 p.aptWindow) = h.fresh p := rfl
  rw [apt, hFresh]
  cases h.fresh p with
  | true => simp
  | false => by_cases hRef : sample = h.refVal <;> simp [hRef]

end HealthState

theorem next_sample (hx : x.sampleValid = true) :
    h.next p x =
      { rctAlarm := (!x.clear && h.rctAlarm) ||
          (h.same x.sample && BitVec.ofNat 16 p.rctCutoff ≤ h.rctRun + 1)
        aptAlarm := (!x.clear && h.aptAlarm) ||
          (!h.fresh p && x.sample = h.refVal && BitVec.ofNat 16 p.aptCutoff < h.aptCount + 1)
        rctRun := if h.same x.sample then h.rctRun + 1 else 1
        aptCount :=
          if h.fresh p then 1 else if x.sample = h.refVal then h.aptCount + 1 else h.aptCount
        aptIndex := if h.fresh p then 1 else h.aptIndex + 1
        prev := x.sample
        refVal := if h.fresh p then x.sample else h.refVal
        started := true } := by
  rw [HealthState.next, if_pos hx]
  cases x.clear with
  | false =>
    rw [if_neg Bool.false_ne_true, HealthState.rct_eq, HealthState.apt_eq]
    rfl
  | true =>
    rw [if_pos rfl, HealthState.rct_eq, HealthState.apt_eq]
    rfl

theorem next_idle (hx : x.sampleValid = false) :
    h.next p x = { h with
      rctAlarm := !x.clear && h.rctAlarm
      aptAlarm := !x.clear && h.aptAlarm } := by
  rw [HealthState.next, if_neg (by rw [hx]; exact Bool.false_ne_true)]
  cases x.clear <;> rfl

/-- What the registers of the two tests say of the samples so far. -/
structure HealthState.Follows (p : HealthParams) (h : HealthState w) (xs : List (BitVec w)) :
    Prop where
  started : h.started = true ↔ xs ≠ []
  prev : ∀ y ys, xs = y :: ys → h.prev = y
  run : h.rctRun.toNat = runLength xs % 65536
  index : h.aptIndex.toNat = (window p.aptWindow xs).length
  count : h.aptCount.toNat = matching p.aptWindow xs
  first : xs ≠ [] → h.refVal = reference p.aptWindow xs

namespace HealthState.Follows

variable {xs : List (BitVec w)}

theorem runLength_next (hFollows : h.Follows p xs) (y : BitVec w) :
    runLength (y :: xs) = if h.same y then runLength xs + 1 else 1 := by
  cases xs with
  | nil =>
    have hStarted : h.started = false := by
      by_contra hStarted
      exact hFollows.started.mp (by simpa using hStarted) rfl
    rw [HealthState.same, hStarted]
    rfl
  | cons z zs =>
    have hStarted := hFollows.started.mpr (List.cons_ne_nil z zs)
    rw [runLength_cons, HealthState.same, hStarted, hFollows.prev z zs rfl]
    simp

theorem fresh_iff (hFits : p.Fits) (hFollows : h.Follows p xs) :
    h.fresh p = true ↔ xs = [] ∨ (window p.aptWindow xs).length = p.aptWindow := by
  obtain ⟨-, hWindow, -⟩ := hFits
  have hIndex : h.aptIndex = BitVec.ofNat 16 p.aptWindow ↔
      (window p.aptWindow xs).length = p.aptWindow := by
    rw [← BitVec.toNat_inj, BitVec.toNat_ofNat, Nat.mod_eq_of_lt hWindow.2, hFollows.index]
  have hStarted : h.started = false ↔ xs = [] := by
    rw [← not_iff_not, Bool.not_eq_false]
    exact hFollows.started
  rw [HealthState.fresh, Bool.or_eq_true, Bool.not_eq_true', decide_eq_true_iff, hIndex, hStarted]

theorem idle (hFollows : h.Follows p xs) (hx : x.sampleValid = false) :
    (h.next p x).Follows p xs := by
  rw [next_idle hx]
  constructor
  · exact hFollows.started
  · exact hFollows.prev
  · exact hFollows.run
  · exact hFollows.index
  · exact hFollows.count
  · exact hFollows.first

theorem toNat_succ {v : BitVec 16} (hFits : v.toNat + 1 < 65536) : (v + 1).toNat = v.toNat + 1 := by
  rw [BitVec.toNat_add]
  exact Nat.mod_eq_of_lt hFits

theorem sample (hFits : p.Fits) (hFollows : h.Follows p xs) (hx : x.sampleValid = true) :
    (h.next p x).Follows p (x.sample :: xs) := by
  have hFresh := fresh_iff hFits hFollows
  obtain ⟨-, hWindow, -⟩ := hFits
  have hSize : 0 < p.aptWindow := hWindow.1
  rw [next_sample hx]
  constructor
  · simp
  · rintro y ys hEq
    exact (List.cons.inj hEq).1
  · rw [runLength_next hFollows]
    dsimp only
    cases h.same x.sample with
    | false => rfl
    | true =>
      rw [if_pos rfl, if_pos rfl, BitVec.toNat_add, hFollows.run]
      exact Nat.mod_add_mod _ _ _
  · rw [window_cons hSize]
    dsimp only
    by_cases hNew : h.fresh p = true
    · rw [if_pos hNew, if_pos (hFresh.mp hNew)]
      rfl
    · have hOld := mt hFresh.mpr hNew
      have hNe := (not_or.mp hOld).1
      have hNotFull := (not_or.mp hOld).2
      have hLess := Nat.mod_lt (xs.length - 1) hSize
      have hLen := @length_window _ p.aptWindow _ hNe
      rw [if_neg hNew, if_neg hOld, List.length_cons, ← hFollows.index]
      apply toNat_succ
      rw [hFollows.index]
      omega
  · rw [matching_cons hSize]
    dsimp only
    by_cases hNew : h.fresh p = true
    · rw [if_pos hNew, if_pos (hFresh.mp hNew)]
      rfl
    · have hOld := mt hFresh.mpr hNew
      rw [if_neg hNew, if_neg hOld, hFollows.first (not_or.mp hOld).1]
      by_cases hSame : x.sample = reference p.aptWindow xs
      · have hNext := matching_cons hSize x.sample xs
        have hLe := matching_le hSize (x.sample :: xs)
        rw [if_neg hOld, if_pos hSame] at hNext
        rw [if_pos hSame, if_pos hSame, ← hFollows.count]
        apply toNat_succ
        rw [hFollows.count]
        omega
      · rw [if_neg hSame, if_neg hSame, hFollows.count]
  · intro _
    rw [reference_cons hSize]
    dsimp only
    by_cases hNew : h.fresh p = true
    · rw [if_pos hNew, if_pos (hFresh.mp hNew)]
    · have hOld := mt hFresh.mpr hNew
      rw [if_neg hNew, if_neg hOld, hFollows.first (not_or.mp hOld).1]

end HealthState.Follows

end Edge

/-! ### The runs -/

section Alarms

variable {w : Nat} {p : HealthParams} {ins : Nat → HealthIn w} {k : Nat}

/-- The alarms are up where they are to be up. -/
def Agrees (p : HealthParams) (ins : Nat → HealthIn w) (k : Nat) : Prop :=
  (((healthTests w p).after ins k).rctAlarm = true ↔ Latched ins (RunReached p ins) k) ∧
    (((healthTests w p).after ins k).aptAlarm = true ↔ Latched ins (CountReached p ins) k)

theorem samplesBefore_sample (hx : (ins k).sampleValid = true) :
    samplesBefore ins (k + 1) = (ins k).sample :: samplesBefore ins k := if_pos hx

theorem samplesBefore_idle (hx : (ins k).sampleValid = false) :
    samplesBefore ins (k + 1) = samplesBefore ins k := if_neg (by simp [hx])

theorem follows_after (hFits : p.Fits) (k : Nat) :
    ((healthTests w p).after ins k).Follows p (samplesBefore ins k) := by
  induction k with
  | zero =>
    constructor
    · simp [Clocked.after, healthTests, HealthState.reset, samplesBefore]
    · rintro y ys hEq
      exact absurd hEq (List.cons_ne_nil y ys).symm
    · rfl
    · rfl
    · rfl
    · intro hNe
      exact absurd rfl hNe
  | succ k ih =>
    cases hx : (ins k).sampleValid with
    | false =>
      rw [samplesBefore_idle hx]
      exact ih.idle hx
    | true =>
      rw [samplesBefore_sample hx]
      exact ih.sample hFits hx

/-- The repetition test raises its alarm at what its counter makes of the run. -/
theorem rctAlarm_succ (hFits : p.Fits) :
    ((healthTests w p).after ins (k + 1)).rctAlarm = true ↔
      ((ins k).sampleValid = true ∧
        p.rctCutoff ≤ runLength (samplesBefore ins (k + 1)) % 65536) ∨
      ((healthTests w p).after ins k).rctAlarm = true ∧ (ins k).clear = false := by
  have hFollows := @follows_after w p ins hFits k
  have hStep : (healthTests w p).after ins (k + 1) =
    ((healthTests w p).after ins k).next p (ins k) := rfl
  obtain ⟨⟨hTwo, hRegister⟩, -, -⟩ := hFits
  rw [hStep]
  generalize (healthTests w p).after ins k = h at hFollows
  cases hx : (ins k).sampleValid with
  | false =>
    rw [next_idle hx]
    simp [and_comm]
  | true =>
    have hCount : (h.rctRun + 1).toNat = (runLength (samplesBefore ins k) + 1) % 65536 := by
      rw [BitVec.toNat_add, hFollows.run]
      exact Nat.mod_add_mod _ _ _
    have hCutoff : (BitVec.ofNat 16 p.rctCutoff).toNat = p.rctCutoff := by
      rw [BitVec.toNat_ofNat]
      exact Nat.mod_eq_of_lt hRegister
    rw [next_sample hx, samplesBefore_sample hx, hFollows.runLength_next]
    simp only [Bool.or_eq_true, Bool.and_eq_true, Bool.not_eq_true', decide_eq_true_iff,
      BitVec.le_def, hCount, hCutoff, true_and]
    cases h.same (ins k).sample with
    | true =>
      rw [if_pos rfl]
      simp [and_comm, or_comm]
    | false =>
      rw [if_neg Bool.false_ne_true]
      have hOne : ¬p.rctCutoff ≤ 1 % 65536 := by omega
      simp [hOne, and_comm]

/-- The proportion test raises its alarm at the counts above the cutoff. -/
theorem aptAlarm_succ (hFits : p.Fits) :
    ((healthTests w p).after ins (k + 1)).aptAlarm = true ↔
      (CountReached p ins k ∧ matching p.aptWindow (samplesBefore ins (k + 1)) ≠ p.aptCutoff) ∨
      ((healthTests w p).after ins k).aptAlarm = true ∧ (ins k).clear = false := by
  have hFollows := @follows_after w p ins hFits k
  have hStep : (healthTests w p).after ins (k + 1) =
    ((healthTests w p).after ins k).next p (ins k) := rfl
  have hFresh := hFollows.fresh_iff hFits
  obtain ⟨-, hWindow, hOne, hRegister⟩ := hFits
  have hSize : 0 < p.aptWindow := hWindow.1
  rw [hStep]
  generalize (healthTests w p).after ins k = h at hFollows hFresh
  cases hx : (ins k).sampleValid with
  | false =>
    rw [next_idle hx]
    simp [CountReached, hx, and_comm]
  | true =>
    have hCutoff : (BitVec.ofNat 16 p.aptCutoff).toNat = p.aptCutoff := by
      rw [BitVec.toNat_ofNat]
      exact Nat.mod_eq_of_lt hRegister
    rw [next_sample hx, CountReached, samplesBefore_sample hx]
    by_cases hNew : h.fresh p = true
    · have hFirst := matching_cons hSize (ins k).sample (samplesBefore ins k)
      rw [if_pos (hFresh.mp hNew)] at hFirst
      rw [hFirst]
      have hNone : ¬(p.aptCutoff ≤ 1 ∧ 1 ≠ p.aptCutoff) := by omega
      simp only [hNew, Bool.or_eq_true, Bool.and_eq_true, Bool.not_eq_true', Bool.not_true,
        Bool.false_eq_true, false_and, or_false]
      constructor
      · rintro ⟨hClear, hAlarm⟩
        exact .inr ⟨hAlarm, hClear⟩
      · rintro (⟨⟨-, -, hLe⟩, hNe⟩ | ⟨hAlarm, hClear⟩)
        · exact absurd ⟨hLe, hNe⟩ hNone
        · exact ⟨hClear, hAlarm⟩
    · have hOld := mt hFresh.mpr hNew
      have hRef := reference_cons hSize (ins k).sample (samplesBefore ins k)
      have hNext := matching_cons hSize (ins k).sample (samplesBefore ins k)
      have hLe := matching_le hSize ((ins k).sample :: samplesBefore ins k)
      rw [if_neg hOld] at hRef hNext
      rw [← hFollows.first (not_or.mp hOld).1] at hRef hNext
      have hOldFresh : h.fresh p = false := by simpa using hNew
      rw [hRef]
      simp only [hOldFresh, Bool.or_eq_true, Bool.and_eq_true, Bool.not_eq_true', Bool.not_false,
        decide_eq_true_iff, true_and]
      by_cases hSame : (ins k).sample = h.refVal
      · rw [if_pos hSame, ← hFollows.count] at hNext
        have hCount : (h.aptCount + 1).toNat = h.aptCount.toNat + 1 := by
          apply HealthState.Follows.toNat_succ
          omega
        rw [BitVec.lt_def, hCutoff, hCount, ← hNext]
        constructor
        · rintro (⟨hClear, hAlarm⟩ | ⟨-, hLess⟩)
          · exact .inr ⟨hAlarm, hClear⟩
          · exact .inl ⟨⟨hx, hSame, hLess.le⟩, hLess.ne'⟩
        · rintro (⟨⟨-, -, hReached⟩, hNe⟩ | ⟨hAlarm, hClear⟩)
          · exact .inr ⟨hSame, lt_of_le_of_ne hReached hNe.symm⟩
          · exact .inl ⟨hClear, hAlarm⟩
      · constructor
        · rintro (⟨hClear, hAlarm⟩ | ⟨hEq, -⟩)
          · exact .inr ⟨hAlarm, hClear⟩
          · exact absurd hEq hSame
        · rintro (⟨⟨-, hEq, -⟩, -⟩ | ⟨hAlarm, hClear⟩)
          · exact absurd hEq hSame
          · exact .inl ⟨hClear, hAlarm⟩

theorem agrees_succ (hFits : p.Fits) (hAgrees : Agrees p ins k) :
    Agrees p ins (k + 1) ↔ Meets p ins k := by
  have hRct := @rctAlarm_succ w p ins k hFits
  have hApt := @aptAlarm_succ w p ins k hFits
  rw [hAgrees.1] at hRct
  rw [hAgrees.2] at hApt
  have hMissed {E R L : Prop} (hOnly : R → E) : (R ∨ L ↔ E ∨ L) ↔ (E → R ∨ L) := by
    constructor
    · intro hIff hE
      exact hIff.mpr (.inl hE)
    · intro hRaised
      constructor
      · exact Or.imp_left hOnly
      · rintro (hE | hL)
        · exact hRaised hE
        · exact .inr hL
  have hRun : (ins k).sampleValid = true ∧
      p.rctCutoff ≤ runLength (samplesBefore ins (k + 1)) % 65536 → RunReached p ins k := by
    rintro ⟨hx, hLe⟩
    exact ⟨hx, hLe.trans (Nat.mod_le _ _)⟩
  rw [Agrees, Meets, latched_succ, latched_succ, hRct, hApt, hMissed hRun, hMissed And.left]
  constructor
  · rintro ⟨hRuns, hCounts⟩
    constructor
    · intro hReached
      exact (hRuns hReached).imp_left And.right
    · intro hReached
      exact (hCounts hReached).imp_left And.right
  · rintro ⟨hRuns, hCounts⟩
    constructor
    · intro hReached
      exact (hRuns hReached).imp_left (And.intro hReached.1)
    · intro hReached
      exact (hCounts hReached).imp_left (And.intro hReached)

/-- The windows cut the samples into pieces; up to the first cycle that does not meet the condition,
and no further, the alarms are up where they are to be up. -/
theorem alarms_at_cutoffs (w : Nat) (p : HealthParams) (hFits : p.Fits) (ins : Nat → HealthIn w)
    (n : Nat) :
    ((healthTests w p).after ins n).aptIndex.toNat =
        (window p.aptWindow (samplesBefore ins n)).length ∧
      ((∀ k ≤ n, Agrees p ins k) ↔ ∀ k < n, Meets p ins k) := by
  constructor
  · exact (follows_after hFits n).index
  · constructor
    · intro hAll k hk
      exact (agrees_succ hFits (hAll k hk.le)).mp (hAll (k + 1) hk)
    · intro hMeets k hk
      induction k with
      | zero =>
        constructor
        · simp [Clocked.after, healthTests, HealthState.reset, Latched]
        · simp [Clocked.after, healthTests, HealthState.reset, Latched]
      | succ k ih => exact (agrees_succ hFits (ih (by omega))).mpr (hMeets k (by omega))

/-- A source that is stuck raises the first alarm at the second sample. -/
theorem alarms_at_cutoffs_stuck :
    ((healthTests 1 ⟨2, 4, 3⟩).after (fun _ => ⟨false, true, 0⟩) 3).aptIndex.toNat =
        (window 4 (samplesBefore (fun _ => ⟨false, true, (0 : BitVec 1)⟩) 3)).length ∧
      ((∀ k ≤ 3, Agrees ⟨2, 4, 3⟩ (fun _ => ⟨false, true, (0 : BitVec 1)⟩) k) ↔
        ∀ k < 3, Meets ⟨2, 4, 3⟩ (fun _ => ⟨false, true, (0 : BitVec 1)⟩) k) :=
  alarms_at_cutoffs 1 ⟨2, 4, 3⟩
    ⟨⟨by decide, by decide⟩, ⟨by decide, by decide⟩, by decide, by decide⟩ _ 3

/-- How likely it is that the cutoff or more of the samples of a window are one value. -/
def atLeast (likely : ℚ) (size cutoff : Nat) : ℚ :=
  ((List.range' cutoff (size + 1 - cutoff)).map fun k =>
    (size.choose k : ℚ) * likely ^ k * (1 - likely) ^ (size - k)).sum

/-- For a fair coin, windows of four and a false alarm in every second of them, three is the least
cutoff; three samples that are equal raise no alarm. -/
theorem cutoff_raises_nothing :
    (atLeast (1 / 2) 4 3 ≤ 1 / 2 ∧ 1 / 2 < atLeast (1 / 2) 4 2) ∧
      CountReached ⟨2, 4, 3⟩ (fun k => ⟨false, true, if k = 2 then (1 : BitVec 1) else 0⟩) 3 ∧
      ¬Agrees ⟨2, 4, 3⟩ (fun k => ⟨false, true, if k = 2 then (1 : BitVec 1) else 0⟩) 4 := by
  have hReached :
      CountReached ⟨2, 4, 3⟩ (fun k => ⟨false, true, if k = 2 then (1 : BitVec 1) else 0⟩) 3 :=
    ⟨rfl, by decide, by decide⟩
  constructor
  · constructor
    · decide +kernel
    · decide +kernel
  · constructor
    · exact hReached
    · intro hAgrees
      have hAlarm := hAgrees.2.mpr ⟨3, by decide, hReached, fun _ _ _ => rfl⟩
      exact absurd hAlarm (by decide)

end Alarms

end PqcHsm
