import PqcHsm.Library.Clocked

/-!
# Servers of one request at a time

A server owes nothing, or the answer to the request that it took last. What it owes is counted in
cycles: none at all for an answer that is up and waits to be taken. While every cycle keeps to that,
each request has at most one answer, and the answer is up after as many cycles as were owed.
-/

/-- How a cycle changes what is owed, from `o` to `o'`. -/
def Owes (bound : Nat) (takes gives : Bool) : Option Nat → Option Nat → Prop
  | none, o' => gives = false ∧ if takes then ∃ n, n ≤ bound ∧ o' = some n else o' = none
  | some 0, o' => takes = false ∧ o' = if gives then none else some 0
  | some (n + 1), o' => takes = false ∧ gives = false ∧ ∃ m, m ≤ n ∧ o' = some m

namespace Owes

variable {bound n : Nat} {takes gives : Bool} {o o' : Option Nat}

theorem mono {bound' : Nat} (h : Owes bound takes gives o o') (hLe : bound ≤ bound') :
    Owes bound' takes gives o o' := by
  match o with
  | some 0 => exact h
  | some (n + 1) => exact h
  | none =>
    obtain ⟨hGives, hTakes⟩ := h
    refine ⟨hGives, ?_⟩
    split
    · rw [if_pos ‹_›] at hTakes
      obtain ⟨n, hn, ho⟩ := hTakes
      exact ⟨n, Nat.le_trans hn hLe, ho⟩
    · rwa [if_neg ‹_›] at hTakes

/-- Requests taken, less answers given, is what is owed. -/
theorem balance (h : Owes bound takes gives o o') :
    o.toList.length + takes.toNat = o'.toList.length + gives.toNat := by
  match o with
  | none =>
    obtain ⟨hGives, hTakes⟩ := h
    cases takes with
    | false => simp_all
    | true =>
      obtain ⟨n, -, ho⟩ := hTakes
      simp [hGives, ho]
  | some 0 =>
    obtain ⟨hTakes, ho⟩ := h
    cases gives <;> simp_all
  | some (n + 1) =>
    obtain ⟨hTakes, hGives, m, -, ho⟩ := h
    simp [hTakes, hGives, ho]

theorem some_le (h : Owes bound takes gives o o') (hLe : ∀ n ∈ o, n ≤ bound) : ∀ n ∈ o', n ≤ bound := by
  intro n hn
  match o with
  | none =>
    obtain ⟨-, hTakes⟩ := h
    cases takes with
    | false => simp_all
    | true =>
      obtain ⟨m, hm, ho⟩ := hTakes
      simp_all
  | some 0 =>
    obtain ⟨-, ho⟩ := h
    cases gives <;> simp_all
  | some (k + 1) =>
    obtain ⟨-, -, m, hm, ho⟩ := h
    have := hLe (k + 1) rfl
    simp_all
    omega

end Owes

namespace Clocked

variable {ι σ : Type} (C : Clocked ι σ)

/-- In how many of the first `k` cycles an event was seen. -/
def times (event : σ → ι → Bool) (ins : Nat → ι) : Nat → Nat
  | 0 => 0
  | k + 1 => times event ins k + (event (C.after ins k) (ins k)).toNat

variable {C} {ins : Nat → ι} {bound : Nat} (takes gives : σ → ι → Bool) (owed : σ → Option Nat)

/-- Each answer is to a request of its own, and at most one request is without its answer. -/
theorem times_owed (hReset : owed C.reset = none)
    (hOwes : ∀ k, Owes bound (takes (C.after ins k) (ins k)) (gives (C.after ins k) (ins k))
      (owed (C.after ins k)) (owed (C.after ins (k + 1)))) (k : Nat) :
    C.times takes ins k = C.times gives ins k + (owed (C.after ins k)).toList.length := by
  induction k with
  | zero => simp [times, after, hReset]
  | succ k ih =>
    have hStep := (hOwes k).balance
    simp only [times]
    omega

/-- What is owed in a cycle is up after that many cycles. -/
theorem owed_comes (hReset : owed C.reset = none)
    (hOwes : ∀ k, Owes bound (takes (C.after ins k) (ins k)) (gives (C.after ins k) (ins k))
      (owed (C.after ins k)) (owed (C.after ins (k + 1)))) {k : Nat}
    (hDue : (owed (C.after ins k)).isSome) :
    ∃ j, j ≤ k + bound ∧ k ≤ j ∧ owed (C.after ins j) = some 0 := by
  have hWithin (n : Nat) : ∀ k, owed (C.after ins k) = some n →
      ∃ j, j ≤ k + n ∧ k ≤ j ∧ owed (C.after ins j) = some 0 := by
    induction n using Nat.strongRecOn with
    | ind n ih =>
      intro k hk
      match n with
      | 0 => exact ⟨k, Nat.le_refl _, Nat.le_refl _, hk⟩
      | n + 1 =>
        have hStep := hOwes k
        rw [hk] at hStep
        obtain ⟨-, -, m, hm, hNext⟩ := hStep
        obtain ⟨j, hj, hLe, hUp⟩ := ih m (by omega) (k + 1) hNext
        exact ⟨j, by omega, by omega, hUp⟩
  have hBound (k : Nat) : ∀ n ∈ owed (C.after ins k), n ≤ bound := by
    induction k with
    | zero => simp [after, hReset]
    | succ k ih => exact (hOwes k).some_le ih
  obtain ⟨n, hn⟩ := Option.isSome_iff_exists.mp hDue
  obtain ⟨j, hj, hLe, hUp⟩ := hWithin n k hn
  exact ⟨j, Nat.le_trans hj (by have := hBound k n hn; omega), hLe, hUp⟩

end Clocked
