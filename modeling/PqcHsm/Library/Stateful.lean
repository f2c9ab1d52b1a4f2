import Mathlib.Logic.Function.Basic

/-!
# Programs on a state in an environment

A program reads an environment that stays as it is and a state that it changes. A specification
says what holds after the program where something holds before it, in whatever environment.
-/

structure Stateful (ε σ α : Type) where
  run : ε → σ → α × σ

namespace Stateful

variable {ε σ α β : Type}

instance : Monad (Stateful ε σ) where
  pure a := ⟨fun _ s => (a, s)⟩
  bind p f := ⟨fun e s => (f (p.run e s).1).run e (p.run e s).2⟩

def get : Stateful ε σ σ := ⟨fun _ s => (s, s)⟩

def modify (f : σ → σ) : Stateful ε σ Unit := ⟨fun _ s => ((), f s)⟩

def read : Stateful ε σ ε := ⟨fun e s => (e, s)⟩

section Run

variable (e : ε) (s : σ)

@[simp] theorem run_pure (a : α) : (pure a : Stateful ε σ α).run e s = (a, s) := (rfl)

@[simp] theorem run_bind (p : Stateful ε σ α) (f : α → Stateful ε σ β) :
    (p >>= f).run e s = (f (p.run e s).1).run e (p.run e s).2 := (rfl)

@[simp] theorem run_get : (get : Stateful ε σ σ).run e s = (s, s) := (rfl)

@[simp] theorem run_modify (f : σ → σ) : (modify f : Stateful ε σ Unit).run e s = ((), f s) := (rfl)

@[simp] theorem run_read : (read : Stateful ε σ ε).run e s = (e, s) := (rfl)

@[simp] theorem run_ite {c : Prop} [Decidable c] (p q : Stateful ε σ α) :
    (if c then p else q).run e s = if c then p.run e s else q.run e s := by
  split <;> rfl

end Run

/-- From a state of `P` the program returns in `Q`. -/
def Spec (P : σ → Prop) (p : Stateful ε σ α) (Q : α → σ → Prop) : Prop :=
  ∀ e s, P s → Q (p.run e s).1 (p.run e s).2

section Spec

variable {P P' : σ → Prop} {p q : Stateful ε σ α} {f : α → Stateful ε σ β}
  {Q Q' : α → σ → Prop} {R : β → σ → Prop}

theorem spec_pure {a : α} (h : ∀ s, P s → Q a s) : Spec P (pure a : Stateful ε σ α) Q :=
  fun _ s hP => h s hP

theorem spec_any (p : Stateful ε σ α) : Spec P p fun _ _ => True := fun _ _ _ => trivial

theorem spec_bind (hp : Spec P p Q) (hf : ∀ a, Spec (Q a) (f a) R) : Spec P (p >>= f) R :=
  fun e s hP => hf _ e _ (hp e s hP)

theorem spec_ite {c : Prop} [Decidable c] (hp : c → Spec P p Q) (hq : ¬c → Spec P q Q) :
    Spec P (if c then p else q) Q := by
  split
  · exact hp ‹_›
  · exact hq ‹_›

theorem Spec.mono (hp : Spec P p Q) (hPre : ∀ s, P' s → P s) (hPost : ∀ a s, Q a s → Q' a s) :
    Spec P' p Q' :=
  fun e s hP => hPost _ _ (hp e s (hPre s hP))

end Spec

/-- The program keeps `I`. -/
def Keeps (I : σ → Prop) (p : Stateful ε σ α) : Prop := Spec I p fun _ => I

section Keeps

variable {I : σ → Prop} {p q : Stateful ε σ α} {f : α → Stateful ε σ β}

theorem keeps_pure (a : α) : Keeps I (pure a : Stateful ε σ α) := fun _ _ h => h

theorem keeps_get : Keeps I (get : Stateful ε σ σ) := fun _ _ h => h

theorem keeps_read : Keeps I (read : Stateful ε σ ε) := fun _ _ h => h

theorem keeps_bind (hp : Keeps I p) (hf : ∀ a, Keeps I (f a)) : Keeps I (p >>= f) :=
  spec_bind hp hf

theorem keeps_ite {c : Prop} [Decidable c] (hp : Keeps I p) (hq : Keeps I q) :
    Keeps I (if c then p else q) := by
  split
  · exact hp
  · exact hq

end Keeps

/-- From a state of `P` a program that can fail returns in `Q`. It fails only where it is not steady. -/
def Ends {κ : Type} (steady : Prop) (P : σ → Prop) (p : Stateful ε σ (Except κ α))
    (Q : α → σ → Prop) : Prop :=
  Spec P p fun r s =>
    match r with
    | .ok a => Q a s
    | .error _ => ¬steady

section Ends

variable {κ : Type} {steady : Prop} {P P' : σ → Prop} {Q Q' : α → σ → Prop} {R : β → σ → Prop}
  {p : ExceptT κ (Stateful ε σ) α} {f : α → ExceptT κ (Stateful ε σ) β}

theorem ends_pure {a : α} (h : ∀ s, P s → Q a s) :
    Ends steady P (pure a : ExceptT κ (Stateful ε σ) α).run Q :=
  fun _ s hP => h s hP

theorem ends_throw {c : κ} (h : ∀ s, P s → ¬steady) :
    Ends steady P (throw c : ExceptT κ (Stateful ε σ) α).run Q :=
  fun _ s hP => h s hP

theorem ends_lift {p : Stateful ε σ α} (h : Spec P p Q) :
    Ends steady P (ExceptT.lift p : ExceptT κ (Stateful ε σ) α).run Q :=
  fun e s hP => h e s hP

theorem ends_bind (hp : Ends steady P p.run Q) (hf : ∀ a, Ends steady (Q a) (f a).run R) :
    Ends steady P (p >>= f).run R := by
  intro e s hP
  have h := hp e s hP
  rw [ExceptT.run_bind, run_bind]
  cases hRun : (p.run.run e s).1 with
  | error =>
    rw [hRun] at h
    exact h
  | ok a =>
    rw [hRun] at h
    exact hf a e _ h

theorem Ends.mono {p : Stateful ε σ (Except κ α)} (h : Ends steady P p Q)
    (hPre : ∀ s, P' s → P s) (hPost : ∀ a s, Q a s → Q' a s) : Ends steady P' p Q' := by
  intro e s hP
  have h := h e s (hPre s hP)
  cases hRun : (p.run e s).1 with
  | error => rwa [hRun] at h
  | ok a =>
    rw [hRun] at h
    exact hPost a _ h

/-- What does not depend on the state is a fact about the program. -/
theorem ends_of_true {p : Stateful ε σ (Except κ α)} {φ : Prop}
    (h : φ → Ends steady (fun _ => True) p Q) : Ends steady (fun _ => φ) p Q :=
  fun e s hφ => h hφ e s trivial

theorem Ends.of_steady {p : Stateful ε σ (Except κ α)} {steady' : Prop} (h : Ends steady P p Q)
    (hSteady : steady' → steady) : Ends steady' P p Q := by
  intro e s hP
  have h := h e s hP
  cases hRun : (p.run e s).1 with
  | error =>
    rw [hRun] at h
    exact fun hs => h (hSteady hs)
  | ok a => rwa [hRun] at h

/-- The result of a program that succeeds, and the success of a steady one. -/
theorem Ends.ok {p : Stateful ε σ (Except κ α)} (h : Ends steady P p Q) {e : ε} {s : σ} (hP : P s)
    {a : α} (hRun : (p.run e s).1 = .ok a) : Q a (p.run e s).2 := by
  have h := h e s hP
  rwa [hRun] at h

theorem Ends.exists_ok {p : Stateful ε σ (Except κ α)} (h : Ends steady P p Q) {e : ε} {s : σ}
    (hP : P s) (hSteady : steady) : ∃ a, (p.run e s).1 = .ok a ∧ Q a (p.run e s).2 := by
  have h := h e s hP
  cases hRun : (p.run e s).1 with
  | error =>
    rw [hRun] at h
    exact absurd hSteady h
  | ok a =>
    rw [hRun] at h
    exact ⟨a, rfl, h⟩

end Ends

end Stateful
