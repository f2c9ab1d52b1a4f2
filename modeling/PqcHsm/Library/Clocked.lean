/-!
# Synchronous circuits

Registers that take new values at every clock edge, from their old values and the inputs of the
cycle. A monitor reads both in every cycle and keeps a record of its own.
-/

/-- The registers after a reset, and what an edge makes of them. -/
structure Clocked (ι σ : Type) where
  reset : σ
  next : σ → ι → σ

namespace Clocked

variable {ι σ μ : Type} (C : Clocked ι σ)

/-- The registers in cycle `k`, before its edge. -/
def after (ins : Nat → ι) : Nat → σ
  | 0 => C.reset
  | k + 1 => C.next (after ins k) (ins k)

/-- What a monitor of the registers and the inputs has recorded before cycle `k`. -/
def record (start : μ) (see : μ → σ → ι → μ) (ins : Nat → ι) : Nat → μ
  | 0 => start
  | k + 1 => see (record start see ins k) (C.after ins k) (ins k)

section Runs

variable {C} {ins : Nat → ι}

/-- What holds after the reset and is kept by every edge holds in every cycle. -/
theorem invariant {I : σ → Prop} (hReset : I C.reset) (hNext : ∀ s x, I s → I (C.next s x)) (k : Nat) :
    I (C.after ins k) := by
  induction k with
  | zero => exact hReset
  | succ k ih => exact hNext _ _ ih

/-- The same for the registers and the record of a monitor. -/
theorem invariant_record {start : μ} {see : μ → σ → ι → μ} {I : σ → μ → Prop}
    (hReset : I C.reset start) (hNext : ∀ s m x, I s m → I (C.next s x) (see m s x)) (k : Nat) :
    I (C.after ins k) (C.record start see ins k) := by
  induction k with
  | zero => exact hReset
  | succ k ih => exact hNext _ _ (ins k) ih

end Runs

/-- A measure that never grows and falls again and again as long as it is not zero. -/
theorem eventually_zero {f : Nat → Nat} (hLe : ∀ k, f (k + 1) ≤ f k)
    (hFalls : ∀ k, f k ≠ 0 → ∃ j ≥ k, f (j + 1) < f j) : ∃ n, ∀ k ≥ n, f k = 0 := by
  have hMono (k j : Nat) : f (k + j) ≤ f k := by
    induction j with
    | zero => exact Nat.le_refl _
    | succ j ih => exact Nat.le_trans (hLe (k + j)) ih
  have hReach (v : Nat) : ∀ k, f k ≤ v → ∃ n, f n = 0 := by
    induction v with
    | zero =>
      intro k hk
      exact ⟨k, Nat.le_zero.mp hk⟩
    | succ v ih =>
      intro k hk
      by_cases hZero : f k = 0
      · exact ⟨k, hZero⟩
      · obtain ⟨j, hj, hFall⟩ := hFalls k hZero
        have hBelow := hMono k (j - k)
        rw [Nat.add_sub_cancel' hj] at hBelow
        exact ih (j + 1) (by omega)
  obtain ⟨n, hn⟩ := hReach (f 0) 0 (Nat.le_refl _)
  refine ⟨n, ?_⟩
  intro k hk
  have hBelow := hMono n (k - n)
  rw [Nat.add_sub_cancel' hk, hn] at hBelow
  exact Nat.le_zero.mp hBelow

/-- A measure cannot fall for ever, if each cycle that it does not fall in waits for a signal that
comes. -/
theorem not_waiting_forever {κ : Type} {f : Nat → Nat} {need : Nat → Option κ}
    {signal : κ → Nat → Prop} (hFair : ∀ i k, need k = some i → ∃ j ≥ k, signal i j)
    (hStep : ∀ k, f (k + 1) < f k ∨
      ∃ i, need k = some i ∧ ¬signal i k ∧ f (k + 1) = f k ∧ need (k + 1) = some i) : False := by
  have hFalls (k : Nat) : ∃ j, f j < f k := by
    obtain hFall | ⟨i, hNeed, -, -, -⟩ := hStep k
    · exact ⟨k + 1, hFall⟩
    · obtain ⟨j, hj, hSignal⟩ := hFair i k hNeed
      -- Up to the signal, the measure has fallen or the wait goes on.
      have hWait (d : Nat) : (∃ j, f j < f k) ∨ (f (k + d) = f k ∧ need (k + d) = some i) := by
        induction d with
        | zero => exact .inr ⟨rfl, hNeed⟩
        | succ d ih =>
          obtain hDone | ⟨hSame, hStill⟩ := ih
          · exact .inl hDone
          · obtain hFall | ⟨i', hNeed', -, hSame', hNext⟩ := hStep (k + d)
            · exact .inl ⟨k + d + 1, by omega⟩
            · rw [hStill] at hNeed'
              rw [← Option.some.inj hNeed'] at hNext
              exact .inr ⟨hSame'.trans hSame, hNext⟩
      obtain hDone | ⟨hSame, hStill⟩ := hWait (j - k)
      · exact hDone
      · rw [Nat.add_sub_cancel' hj] at hSame hStill
        obtain hFall | ⟨i', hNeed', hNot, -, -⟩ := hStep j
        · exact ⟨j + 1, by omega⟩
        · rw [hStill] at hNeed'
          rw [← Option.some.inj hNeed'] at hNot
          exact absurd hSignal hNot
  have hNone (v : Nat) : ∀ k, f k ≠ v := by
    induction v using Nat.strongRecOn with
    | ind v ih =>
      intro k hk
      obtain ⟨j, hj⟩ := hFalls k
      exact ih (f j) (by omega) j rfl
  exact hNone (f 0) 0 rfl

end Clocked
