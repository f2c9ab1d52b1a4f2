import Mathlib.Logic.Function.Basic

/-!
# Programs as sequences of critical sections

A program either returns or enters one critical section. A section is atomic:
it reads the shared state and an environment value (the outcome of the calls
that may fail, the clock, random bytes), leaves a new shared state and emits
events, and the rest of the program depends on what it read. What several programs
do together is the subject of `Pool`.
-/

namespace Sections

inductive Prog (ε σ η α : Type) : Type where
  | ret (a : α)
  | sect (act : ε → σ → σ × List η) (next : ε → σ → Prog ε σ η α)

variable {ε σ η α β γ : Type}

namespace Prog

def bind : Prog ε σ η α → (α → Prog ε σ η β) → Prog ε σ η β
  | ret a, f => f a
  | sect act next, f => sect act fun e s => (next e s).bind f

instance : Monad (Prog ε σ η) where
  pure := ret
  bind := bind

@[simp] theorem pure_eq_ret (a : α) : (pure a : Prog ε σ η α) = ret a := rfl

@[simp] theorem bind_eq_bind (p : Prog ε σ η α) (f : α → Prog ε σ η β) :
    (p >>= f) = p.bind f := rfl

@[simp] theorem ret_bind (a : α) (f : α → Prog ε σ η β) : (ret a).bind f = f a := rfl

@[simp] theorem sect_bind (act : ε → σ → σ × List η) (next : ε → σ → Prog ε σ η α)
    (f : α → Prog ε σ η β) :
    (sect act next).bind f = sect act fun e s => (next e s).bind f := rfl

theorem bind_ret (p : Prog ε σ η α) : p.bind ret = p := by
  induction p with
  | ret a => rfl
  | sect act next ih =>
    rw [sect_bind]
    congr 1
    funext e s
    exact ih e s

theorem bind_assoc (p : Prog ε σ η α) (f : α → Prog ε σ η β) (g : β → Prog ε σ η γ) :
    (p.bind f).bind g = p.bind fun a => (f a).bind g := by
  induction p with
  | ret a => rfl
  | sect act next ih =>
    rw [sect_bind, sect_bind, sect_bind]
    congr 1
    funext e s
    exact ih e s

/-- One critical section with a result. -/
def atomic (body : ε → σ → α × σ × List η) : Prog ε σ η α :=
  sect (fun e s => (body e s).2) fun e s => ret (body e s).1

/-- An environment value read outside every lock. -/
def ask (read : ε → α) : Prog ε σ η α :=
  atomic fun e s => (read e, s, [])

/-- The program alone: each section takes the next environment of the stream. The result,
the state it leaves and the rest of the stream. -/
def run : Prog ε σ η α → (Nat → ε) → σ → α × σ × (Nat → ε)
  | ret a, env, s => (a, s, env)
  | sect act next, env, s => (next (env 0) s).run (fun k => env (k + 1)) (act (env 0) s).1

@[simp] theorem run_ret (a : α) (env : Nat → ε) (s : σ) :
    (ret a : Prog ε σ η α).run env s = (a, s, env) := rfl

@[simp] theorem run_atomic (body : ε → σ → α × σ × List η) (env : Nat → ε) (s : σ) :
    (atomic body).run env s =
      ((body (env 0) s).1, (body (env 0) s).2.1, fun k => env (k + 1)) := rfl

@[simp] theorem run_ask (read : ε → α) (env : Nat → ε) (s : σ) :
    (ask read : Prog ε σ η α).run env s = (read (env 0), s, fun k => env (k + 1)) := rfl

@[simp] theorem run_bind (p : Prog ε σ η α) (f : α → Prog ε σ η β) (env : Nat → ε) (s : σ) :
    (p.bind f).run env s =
      (f (p.run env s).1).run (p.run env s).2.2 (p.run env s).2.1 := by
  induction p generalizing env s with
  | ret a => rfl
  | sect act next ih => exact ih (env 0) s (fun k => env (k + 1)) (act (env 0) s).1

/-- The events of a program that runs alone. -/
def events : Prog ε σ η α → (Nat → ε) → σ → List η
  | ret _, _, _ => []
  | sect act next, env, s =>
    (act (env 0) s).2 ++ (next (env 0) s).events (fun k => env (k + 1)) (act (env 0) s).1

@[simp] theorem events_ret (a : α) (env : Nat → ε) (s : σ) :
    (ret a : Prog ε σ η α).events env s = [] := rfl

@[simp] theorem events_atomic (body : ε → σ → α × σ × List η) (env : Nat → ε) (s : σ) :
    (atomic body).events env s = (body (env 0) s).2.2 := List.append_nil _

theorem events_bind (p : Prog ε σ η α) (f : α → Prog ε σ η β) (env : Nat → ε) (s : σ) :
    (p.bind f).events env s = p.events env s ++
      (f (p.run env s).1).events (p.run env s).2.2 (p.run env s).2.1 := by
  induction p generalizing env s with
  | ret a => rfl
  | sect act next ih =>
    have hRest := ih (env 0) s (fun k => env (k + 1)) (act (env 0) s).1
    simp only [sect_bind, events, hRest, List.append_assoc]
    rfl

/-- A program takes its environments from the front of the stream. -/
theorem run_rest (p : Prog ε σ η α) (env : Nat → ε) (s : σ) :
    ∃ j, (p.run env s).2.2 = fun k => env (k + j) := by
  induction p generalizing env s with
  | ret a => exact ⟨0, rfl⟩
  | sect act next ih =>
    obtain ⟨j, hj⟩ := ih (env 0) s (fun k => env (k + 1)) (act (env 0) s).1
    exact ⟨j + 1, hj⟩

/-- The state a crash finds after the first `k` sections. -/
def after : Nat → Prog ε σ η α → (Nat → ε) → σ → σ
  | k + 1, sect act next, env, s =>
    (next (env 0) s).after k (fun k => env (k + 1)) (act (env 0) s).1
  | _, _, _, s => s

@[simp] theorem after_zero (p : Prog ε σ η α) (env : Nat → ε) (s : σ) : p.after 0 env s = s := by
  cases p <;> rfl

@[simp] theorem after_ret (k : Nat) (a : α) (env : Nat → ε) (s : σ) :
    (ret a : Prog ε σ η α).after k env s = s := by
  cases k <;> rfl

theorem after_atomic_bind (body : ε → σ → α × σ × List η) (f : α → Prog ε σ η β) (k : Nat)
    (env : Nat → ε) (s : σ) : ((atomic body).bind f).after (k + 1) env s =
      (f (body (env 0) s).1).after k (fun k => env (k + 1)) (body (env 0) s).2.1 := rfl

/-- The states of a program that has run are followed by those of its continuation. -/
theorem exists_after_bind {p : Prog ε σ η α} {f : α → Prog ε σ η β} {env : Nat → ε} {s : σ}
    (k : Nat) : ∃ m, (p.bind f).after m env s =
      (f (p.run env s).1).after k (p.run env s).2.2 (p.run env s).2.1 := by
  induction p generalizing env s with
  | ret a => exact ⟨k, rfl⟩
  | sect act next ih =>
    obtain ⟨m, hm⟩ := @ih (env 0) s (fun k => env (k + 1)) (act (env 0) s).1
    exact ⟨m + 1, hm⟩

theorem run_const_env (p : Prog ε σ η α) (e : ε) (s : σ) :
    (p.run (fun _ => e) s).2.2 = fun _ => e := by
  induction p generalizing s with
  | ret a => rfl
  | sect act next ih => exact ih e s _

/-- In the environment `e` the program passes through the state `s'`. -/
def Visits (e : ε) (p : Prog ε σ η α) (s s' : σ) : Prop := ∃ k, p.after k (fun _ => e) s = s'

theorem visits_here (e : ε) (p : Prog ε σ η α) (s : σ) : p.Visits e s s := ⟨0, after_zero p _ s⟩

theorem visits_bind {e : ε} {p : Prog ε σ η α} {f : α → Prog ε σ η β} {s s₁ s' : σ} {a : α}
    (hResult : (p.run (fun _ => e) s).1 = a) (hState : (p.run (fun _ => e) s).2.1 = s₁)
    (h : (f a).Visits e s₁ s') : (p.bind f).Visits e s s' := by
  subst hResult hState
  obtain ⟨k, hk⟩ := h
  obtain ⟨m, hm⟩ := @exists_after_bind _ _ _ _ _ p f (fun _ => e) s k
  rw [run_const_env] at hm
  exact ⟨m, hm.trans hk⟩

/-- From `s`, in whatever environments, the program passes through states of `I` only and
returns in `Q`. -/
def Along (I : σ → Prop) : Prog ε σ η α → (α → σ → Prop) → σ → Prop
  | ret a, Q, s => I s ∧ Q a s
  | sect act next, Q, s => I s ∧ ∀ e, (next e s).Along I Q (act e s).1

section Along

variable {I : σ → Prop} {s : σ}

theorem along_ret {Q : α → σ → Prop} {a : α} (hI : I s) (hQ : Q a s) :
    (ret a : Prog ε σ η α).Along I Q s := ⟨hI, hQ⟩

theorem along_atomic {Q : α → σ → Prop} {body : ε → σ → α × σ × List η} (hI : I s)
    (hBody : ∀ e, I (body e s).2.1 ∧ Q (body e s).1 (body e s).2.1) :
    (atomic body).Along I Q s := ⟨hI, hBody⟩

theorem along_ask {Q : α → σ → Prop} {read : ε → α} (hI : I s) (hQ : ∀ e, Q (read e) s) :
    (ask read : Prog ε σ η α).Along I Q s := ⟨hI, fun e => ⟨hI, hQ e⟩⟩

theorem Along.mono {Q Q' : α → σ → Prop} {p : Prog ε σ η α} (hp : p.Along I Q s)
    (hQ : ∀ a s, Q a s → Q' a s) : p.Along I Q' s := by
  induction p generalizing s with
  | ret a => exact ⟨hp.1, hQ a s hp.2⟩
  | sect act next ih => exact ⟨hp.1, fun e => ih e s (hp.2 e)⟩

theorem Along.weaken {J : σ → Prop} {Q : α → σ → Prop} {p : Prog ε σ η α} (hp : p.Along I Q s)
    (hI : ∀ s, I s → J s) : p.Along J Q s := by
  induction p generalizing s with
  | ret a => exact ⟨hI s hp.1, hp.2⟩
  | sect act next ih => exact ⟨hI s hp.1, fun e => ih e s (hp.2 e)⟩

theorem along_bind {Q : β → σ → Prop} {p : Prog ε σ η α} {f : α → Prog ε σ η β}
    (hp : p.Along I (fun a s => (f a).Along I Q s) s) : (p.bind f).Along I Q s := by
  induction p generalizing s with
  | ret a => exact hp.2
  | sect act next ih => exact ⟨hp.1, fun e => ih e s (hp.2 e)⟩

/-- The invariant also holds at the return. -/
theorem Along.inv {Q : α → σ → Prop} {p : Prog ε σ η α} (hp : p.Along I Q s) :
    p.Along I (fun a s => I s ∧ Q a s) s := by
  induction p generalizing s with
  | ret a => exact ⟨hp.1, hp⟩
  | sect act next ih => exact ⟨hp.1, fun e => ih e s (hp.2 e)⟩

theorem Along.run {Q : α → σ → Prop} {p : Prog ε σ η α} (hp : p.Along I Q s) (env : Nat → ε) :
    Q (p.run env s).1 (p.run env s).2.1 := by
  induction p generalizing s env with
  | ret a => exact hp.2
  | sect act next ih => exact ih (env 0) s (hp.2 (env 0)) _

theorem Along.after {Q : α → σ → Prop} {p : Prog ε σ η α} (hp : p.Along I Q s) (env : Nat → ε)
    (k : Nat) : I (p.after k env s) := by
  induction p generalizing s env k with
  | ret a => cases k <;> exact hp.1
  | sect act next ih =>
    cases k with
    | zero => exact hp.1
    | succ k => exact ih (env 0) s (hp.2 (env 0)) _ k

end Along

/-- From `s`, in environments that all meet `E`, the program returns in `Q`. -/
def Ensures (E : ε → Prop) : Prog ε σ η α → (α → σ → Prop) → σ → Prop
  | ret a, Q, s => Q a s
  | sect act next, Q, s => ∀ e, E e → (next e s).Ensures E Q (act e s).1

section Ensures

variable {E : ε → Prop} {s : σ}

theorem ensures_ret {Q : α → σ → Prop} {a : α} (h : Q a s) :
    (ret a : Prog ε σ η α).Ensures E Q s := h

theorem ensures_atomic {Q : α → σ → Prop} {body : ε → σ → α × σ × List η}
    (h : ∀ e, E e → Q (body e s).1 (body e s).2.1) : (atomic body).Ensures E Q s := h

theorem ensures_ask {Q : α → σ → Prop} {read : ε → α} (h : ∀ e, E e → Q (read e) s) :
    (ask read : Prog ε σ η α).Ensures E Q s := h

theorem Ensures.mono {Q Q' : α → σ → Prop} {p : Prog ε σ η α} (hp : p.Ensures E Q s)
    (hQ : ∀ a s, Q a s → Q' a s) : p.Ensures E Q' s := by
  induction p generalizing s with
  | ret a => exact hQ a s hp
  | sect act next ih => exact fun e he => ih e s (hp e he)

theorem ensures_bind {Q : β → σ → Prop} {p : Prog ε σ η α} {f : α → Prog ε σ η β}
    (hp : p.Ensures E (fun a s => (f a).Ensures E Q s) s) : (p.bind f).Ensures E Q s := by
  induction p generalizing s with
  | ret a => exact hp
  | sect act next ih => exact fun e he => ih e s (hp e he)

theorem Ensures.run {Q : α → σ → Prop} {p : Prog ε σ η α} (hp : p.Ensures E Q s) {env : Nat → ε}
    (hEnv : ∀ k, E (env k)) : Q (p.run env s).1 (p.run env s).2.1 := by
  induction p generalizing s env with
  | ret a => exact hp
  | sect act next ih => exact ih (env 0) s (hp (env 0) (hEnv 0)) fun k => hEnv (k + 1)

theorem Along.ensures {I : σ → Prop} {Q : α → σ → Prop} {p : Prog ε σ η α} (hp : p.Along I Q s) :
    p.Ensures E Q s := by
  induction p generalizing s with
  | ret a => exact hp.2
  | sect act next ih => exact fun e _ => ih e s (hp.2 e)

end Ensures

/-- From `s` and `s'`, in the same environments, the program takes the same course and returns
the same result, in states related by `R`. -/
def Together (R : α → σ → σ → Prop) : Prog ε σ η α → σ → σ → Prop
  | ret a, s, s' => R a s s'
  | sect act next, s, s' => ∀ e, next e s = next e s' ∧
      (next e s).Together R (act e s).1 (act e s').1

section Together

variable {R : α → σ → σ → Prop} {s s' : σ}

theorem together_atomic {body : ε → σ → α × σ × List η}
    (h : ∀ e, (body e s).1 = (body e s').1 ∧ R (body e s).1 (body e s).2.1 (body e s').2.1) :
    (atomic body).Together R s s' :=
  fun e => ⟨congrArg ret (h e).1, (h e).2⟩

theorem together_refl (p : Prog ε σ η α) (s : σ) : p.Together (fun _ => Eq) s s := by
  induction p generalizing s with
  | ret a => exact rfl
  | sect act next ih => exact fun e => ⟨rfl, ih e s _⟩

theorem Together.mono {R' : α → σ → σ → Prop} {p : Prog ε σ η α} (hp : p.Together R s s')
    (hR : ∀ a s s', R a s s' → R' a s s') : p.Together R' s s' := by
  induction p generalizing s s' with
  | ret a => exact hR a s s' hp
  | sect act next ih => exact fun e => ⟨(hp e).1, ih e s (hp e).2⟩

theorem together_bind {T : β → σ → σ → Prop} {p : Prog ε σ η α} {f : α → Prog ε σ η β}
    (hp : p.Together (fun a s s' => (f a).Together T s s') s s') :
    (p.bind f).Together T s s' := by
  induction p generalizing s s' with
  | ret a => exact hp
  | sect act next ih =>
    intro e
    obtain ⟨hNext, hRest⟩ := hp e
    exact ⟨congrArg (fun p => bind p f) hNext, ih e s hRest⟩

theorem Together.run {p : Prog ε σ η α} (hp : p.Together R s s') (env : Nat → ε) :
    (p.run env s).1 = (p.run env s').1 ∧
      R (p.run env s).1 (p.run env s).2.1 (p.run env s').2.1 := by
  induction p generalizing s s' env with
  | ret a => exact ⟨rfl, hp⟩
  | sect act next ih =>
    obtain ⟨hNext, hRest⟩ := hp (env 0)
    obtain ⟨hResult, hStates⟩ := ih (env 0) s hRest fun k => env (k + 1)
    change ((next (env 0) s).run _ _).1 = ((next (env 0) s').run _ _).1 ∧ R _ _ _
    rw [← hNext]
    refine ⟨hResult, ?_⟩
    change R _ _ ((next (env 0) s').run _ _).2.1
    rw [← hNext]
    exact hStates

end Together

/-- Every section of the program, from every state, is a step of the relation. -/
def Within (R : ε → σ → σ × List η → Prop) : Prog ε σ η α → Prop
  | ret _ => True
  | sect act next => ∀ e s, R e s (act e s) ∧ (next e s).Within R

variable {R R' : ε → σ → σ × List η → Prop}

@[simp] theorem within_ret (a : α) : (ret a : Prog ε σ η α).Within R := trivial

theorem within_bind {p : Prog ε σ η α} {f : α → Prog ε σ η β}
    (hp : p.Within R) (hf : ∀ a, (f a).Within R) : (p.bind f).Within R := by
  induction p with
  | ret a => exact hf a
  | sect act next ih => exact fun e s => ⟨(hp e s).1, ih e s (hp e s).2⟩

theorem within_atomic {body : ε → σ → α × σ × List η}
    (h : ∀ e s, R e s (body e s).2) : (atomic body).Within R :=
  fun e s => ⟨h e s, trivial⟩

/-- What no step of the relation changes, the program leaves as it was. -/
theorem Within.run_keeps {τ : Type} {f : σ → τ} (hR : ∀ e s r, R e s r → f r.1 = f s)
    {p : Prog ε σ η α} (hp : p.Within R) (env : Nat → ε) (s : σ) : f (p.run env s).2.1 = f s := by
  induction p generalizing env s with
  | ret a => rfl
  | sect act next ih =>
    obtain ⟨hStep, hRest⟩ := hp (env 0) s
    exact (ih (env 0) s hRest (fun k => env (k + 1)) _).trans (hR _ _ _ hStep)

theorem Within.mono {p : Prog ε σ η α} (hp : p.Within R) (hR : ∀ e s r, R e s r → R' e s r) :
    p.Within R' := by
  induction p with
  | ret a => exact trivial
  | sect act next ih => exact fun e s => ⟨hR e s _ (hp e s).1, ih e s (hp e s).2⟩

end Prog

end Sections
