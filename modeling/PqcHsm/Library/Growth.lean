import PqcHsm.Library.Stateful

/-!
# How much a program raises a measure

Where an invariant holds, a program raises a measure of the state by no more than a bound. The bounds of
the parts of a program add up.
-/

namespace Stateful

variable {ε σ α β : Type}

/-- The program keeps `I` and raises `m` by no more than `k`. -/
def Grows (I : σ → Prop) (m : σ → Nat) (k : Nat) (p : Stateful ε σ α) : Prop :=
  ∀ e s, I s → I (p.run e s).2 ∧ m (p.run e s).2 ≤ m s + k

section Grows

variable {I : σ → Prop} {m : σ → Nat} {k l n : Nat} {p q : Stateful ε σ α} {f : α → Stateful ε σ β}

theorem grows_pure (a : α) : Grows I m k (pure a : Stateful ε σ α) :=
  fun _ s hI => ⟨hI, Nat.le_add_right (m s) k⟩

theorem grows_read : Grows I m k (read : Stateful ε σ ε) :=
  fun _ s hI => ⟨hI, Nat.le_add_right (m s) k⟩

theorem grows_get : Grows I m k (get : Stateful ε σ σ) :=
  fun _ s hI => ⟨hI, Nat.le_add_right (m s) k⟩

theorem Grows.mono (hp : Grows I m k p) (h : k ≤ n) : Grows I m n p := by
  intro e s hI
  obtain ⟨hI', hM⟩ := hp e s hI
  exact ⟨hI', Nat.le_trans hM (Nat.add_le_add_left h _)⟩

/-- The second part has what the first part leaves of the bound. -/
theorem grows_bind (hp : Grows I m k p) (hf : ∀ a, Grows I m l (f a)) :
    Grows I m (l + k) (p >>= f) := by
  intro e s hI
  obtain ⟨hI', hM⟩ := hp e s hI
  obtain ⟨hI'', hM'⟩ := hf _ e _ hI'
  refine ⟨hI'', ?_⟩
  rw [run_bind]
  omega

/-- The second part raises nothing. -/
theorem grows_bind_last (hp : Grows I m k p) (hf : ∀ a, Grows I m 0 (f a)) : Grows I m k (p >>= f) :=
  (grows_bind hp hf).mono (Nat.le_of_eq (Nat.zero_add k))

/-- The second part need only be bounded for what the first one returns. -/
theorem grows_bind_of {V : α → Prop} (hp : Grows I m k p) (hV : ∀ e s, V (p.run e s).1)
    (hf : ∀ a, V a → Grows I m l (f a)) : Grows I m (l + k) (p >>= f) := by
  intro e s hI
  obtain ⟨hI', hM⟩ := hp e s hI
  obtain ⟨hI'', hM'⟩ := hf _ (hV e s) e _ hI'
  refine ⟨hI'', ?_⟩
  rw [run_bind]
  omega

/-- What is returned does not matter. -/
theorem grows_map (hp : Grows I m k p) (g : α → β) : Grows I m k (do
    let a ← p
    pure (g a)) :=
  fun e s hI => hp e s hI

theorem grows_ite {c : Prop} [Decidable c] (hp : Grows I m k p) (hq : Grows I m k q) :
    Grows I m k (if c then p else q) := by
  split
  · exact hp
  · exact hq

theorem grows_if {c : Prop} [Decidable c] (hp : c → Grows I m k p) (hq : ¬c → Grows I m k q) :
    Grows I m k (if c then p else q) := by
  split
  · exact hp ‹_›
  · exact hq ‹_›

end Grows

end Stateful
