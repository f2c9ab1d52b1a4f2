import Mathlib.Data.Fintype.Basic
import Mathlib.Logic.Function.Basic
import PqcHsm.Library.Transition

/-!
# Threads on a shared state

A thread accesses the shared state inside brackets. A bracket with the lock excludes the other
brackets with the lock; a bracket without it only marks where its accesses begin and end. If no
bracket without the lock overlaps another bracket, every operation returns what it returns alone.
-/

namespace Exclusion

open Transition

inductive Thread (σ η α : Type) : Type where
  | ret (a : α)
  | act (step : σ → σ × List η) (next : σ → Thread σ η α)
  | enter (locked : Bool) (next : Thread σ η α)
  | leave (next : Thread σ η α)

variable {ι κ σ η α β : Type}

namespace Thread

def bind : Thread σ η α → (α → Thread σ η β) → Thread σ η β
  | ret a, f => f a
  | act step next, f => act step fun s => (next s).bind f
  | enter locked next, f => enter locked (next.bind f)
  | leave next, f => leave (next.bind f)

instance : Monad (Thread σ η) where
  pure := ret
  bind := bind

@[simp] theorem pure_eq_ret (a : α) : (pure a : Thread σ η α) = ret a := rfl

@[simp] theorem bind_eq_bind (p : Thread σ η α) (f : α → Thread σ η β) :
    (p >>= f) = p.bind f := rfl

/-- One access with a result. -/
def access (body : σ → α × σ × List η) : Thread σ η α :=
  act (fun s => (body s).2) fun s => ret (body s).1

def bracket (locked : Bool) (body : Thread σ η α) : Thread σ η α :=
  enter locked (body.bind fun a => leave (ret a))

/-- The thread alone: its result, its events and the state it leaves. -/
def run : Thread σ η α → σ → α × List η × σ
  | ret a, s => (a, [], s)
  | act step next, s =>
    let r := (next s).run (step s).1
    (r.1, (step s).2 ++ r.2.1, r.2.2)
  | enter _ next, s => next.run s
  | leave next, s => next.run s

@[simp] theorem run_ret (a : α) (s : σ) : (ret a : Thread σ η α).run s = (a, [], s) := rfl

@[simp] theorem run_access (body : σ → α × σ × List η) (s : σ) :
    (access body).run s = ((body s).1, (body s).2.2, (body s).2.1) := by
  simp [access, run]

@[simp] theorem run_bind (p : Thread σ η α) (f : α → Thread σ η β) (s : σ) :
    (p.bind f).run s =
      (((f (p.run s).1).run (p.run s).2.2).1,
        (p.run s).2.1 ++ ((f (p.run s).1).run (p.run s).2.2).2.1,
        ((f (p.run s).1).run (p.run s).2.2).2.2) := by
  induction p generalizing s with
  | ret a => rfl
  | act step next ih => simp [bind, run, ih]
  | enter locked next ih => exact ih s
  | leave next ih => exact ih s

/-- What can be told of the thread from outside: result and events. -/
def outcome (p : Thread σ η α) (s : σ) : α × List η := ((p.run s).1, (p.run s).2.1)

/-- The outcome does not depend on the state the thread finds. -/
def Fresh (p : Thread σ η α) : Prop := ∀ s s', p.outcome s = p.outcome s'

/-- From states related by `R` the thread has the same outcome and leaves related states. -/
def Agrees (R : σ → σ → Prop) (p : Thread σ η α) (R' : α → σ → σ → Prop) : Prop :=
  ∀ s s', R s s' → p.outcome s = p.outcome s' ∧ R' (p.run s).1 (p.run s).2.2 (p.run s').2.2

/-- The thread consists of accesses only. -/
def Plain : Thread σ η α → Prop
  | ret _ => True
  | act _ next => ∀ s, (next s).Plain
  | enter .. => False
  | leave _ => False

/-- Accesses happen inside brackets only, and what happens inside one does not depend on the state
it finds. -/
def Bracketed : Bool → Thread σ η α → Prop
  | false, ret _ => True
  | false, enter _ next => next.Fresh ∧ next.Bracketed true
  | true, act _ next => ∀ s, (next s).Bracketed true
  | true, leave next => next.Bracketed false
  | _, _ => False

theorem Bracketed.fresh {p : Thread σ η α} (h : p.Bracketed false) : p.Fresh := by
  cases p with
  | ret a => exact fun _ _ => rfl
  | act step next => exact h.elim
  | enter locked next => exact h.1
  | leave next => exact h.elim

theorem plain_access (body : σ → α × σ × List η) : (access body).Plain := fun _ => trivial

theorem plain_bind {p : Thread σ η α} {f : α → Thread σ η β} (hp : p.Plain)
    (hf : ∀ a, (f a).Plain) : (p.bind f).Plain := by
  induction p with
  | ret a => exact hf a
  | act step next ih => exact fun s => ih s (hp s)
  | enter locked next ih => exact hp.elim
  | leave next ih => exact hp.elim

theorem fresh_bind {p : Thread σ η α} {f : α → Thread σ η β} (hp : p.Fresh)
    (hf : ∀ a, (f a).Fresh) : (p.bind f).Fresh := by
  intro s s'
  obtain ⟨hResult, hEvents⟩ := Prod.mk.inj (hp s s')
  obtain ⟨hResult', hEvents'⟩ := Prod.mk.inj (hf (p.run s').1 (p.run s).2.2 (p.run s').2.2)
  simp [outcome, hResult, hEvents, hResult', hEvents']

section Agrees

variable {R : σ → σ → Prop} {p : Thread σ η α} {f : α → Thread σ η β}
  {R' : α → σ → σ → Prop} {R'' : β → σ → σ → Prop}

theorem agrees_ret {a : α} (h : ∀ s s', R s s' → R' a s s') : (ret a : Thread σ η α).Agrees R R' :=
  fun s s' hR => ⟨rfl, h s s' hR⟩

theorem agrees_bind (hp : p.Agrees R R') (hf : ∀ a, (f a).Agrees (R' a) R'') :
    (p.bind f).Agrees R R'' := by
  intro s s' hR
  obtain ⟨hOutcome, hAfter⟩ := hp s s' hR
  obtain ⟨hResult, hEvents⟩ := Prod.mk.inj hOutcome
  obtain ⟨hOutcome', hAfter'⟩ := hf (p.run s).1 _ _ hAfter
  obtain ⟨hResult', hEvents'⟩ := Prod.mk.inj hOutcome'
  constructor
  · simp only [outcome, run_bind]
    rw [hEvents, hResult', hEvents', hResult]
  · rw [run_bind, run_bind, ← hResult]
    exact hAfter'

theorem Agrees.fresh (h : p.Agrees (fun _ _ => True) R') : p.Fresh :=
  fun s s' => (h s s' trivial).1

end Agrees

theorem bracketed_bind {p : Thread σ η α} {f : α → Thread σ η β} {inside : Bool}
    (hp : p.Bracketed inside) (hf : ∀ a, (f a).Bracketed false) :
    (p.bind f).Bracketed inside := by
  induction p generalizing inside with
  | ret a =>
    cases inside with
    | false => exact hf a
    | true => exact hp.elim
  | act step next ih =>
    cases inside with
    | false => exact hp.elim
    | true => exact fun s => ih s (hp s)
  | enter locked next ih =>
    cases inside with
    | false => exact ⟨fresh_bind hp.1 fun a => (hf a).fresh, ih hp.2⟩
    | true => exact hp.elim
  | leave next ih =>
    cases inside with
    | false => exact hp.elim
    | true => exact ih hp

theorem bracketed_true_of_plain {p : Thread σ η α} {f : α → Thread σ η β} (hp : p.Plain)
    (hf : ∀ a, (f a).Bracketed true) : (p.bind f).Bracketed true := by
  induction p with
  | ret a => exact hf a
  | act step next ih => exact fun s => ih s (hp s)
  | enter locked next ih => exact hp.elim
  | leave next ih => exact hp.elim

theorem bracketed_bracket {locked : Bool} {body : Thread σ η α} (hPlain : body.Plain)
    (hFresh : body.Fresh) : (bracket locked body).Bracketed false :=
  ⟨fresh_bind hFresh fun _ _ _ => rfl, bracketed_true_of_plain hPlain fun _ => trivial⟩

end Thread

/-! ### Interleaved threads -/

/-- An operation that runs: what is left of it, the events so far and the bracket it is in. -/
structure Running (κ σ η α : Type) where
  op : κ
  rest : Thread σ η α
  events : List η
  inside : Option Bool

/-- An operation that has returned. -/
structure Returned (ι κ η α : Type) where
  thread : ι
  op : κ
  result : α
  events : List η

structure Config (ι κ σ η α : Type) where
  shared : σ
  owner : Option ι
  thread : ι → Option (Running κ σ η α)
  returned : List (Returned ι κ η α)

inductive Act (ι κ : Type) where
  | call (t : ι) (k : κ)
  | access (t : ι)
  | enter (t : ι) (locked : Bool)
  | leave (t : ι)
  | ret (t : ι)

variable [DecidableEq ι]

inductive Step (prog : κ → Thread σ η α) : Config ι κ σ η α → Act ι κ → Config ι κ σ η α → Prop where
  | call {c : Config ι κ σ η α} {t : ι} {k : κ} : c.thread t = none →
      Step prog c (.call t k)
        { c with thread := Function.update c.thread t (some ⟨k, prog k, [], none⟩) }
  | access {c : Config ι κ σ η α} {t : ι} {r : Running κ σ η α} {step : σ → σ × List η}
      {next : σ → Thread σ η α} : c.thread t = some r → r.rest = .act step next →
      Step prog c (.access t)
        { c with
          shared := (step c.shared).1
          thread := Function.update c.thread t (some
            { r with rest := next c.shared, events := r.events ++ (step c.shared).2 }) }
  | enter {c : Config ι κ σ η α} {t : ι} {r : Running κ σ η α} {locked : Bool}
      {next : Thread σ η α} : c.thread t = some r → r.rest = .enter locked next →
      (locked = true → c.owner = none) →
      Step prog c (.enter t locked)
        { c with
          owner := if locked then some t else c.owner
          thread := Function.update c.thread t (some { r with rest := next, inside := some locked }) }
  | leave {c : Config ι κ σ η α} {t : ι} {r : Running κ σ η α} {next : Thread σ η α} :
      c.thread t = some r → r.rest = .leave next →
      Step prog c (.leave t)
        { c with
          owner := if r.inside = some true then none else c.owner
          thread := Function.update c.thread t (some { r with rest := next, inside := none }) }
  | ret {c : Config ι κ σ η α} {t : ι} {r : Running κ σ η α} {a : α} :
      c.thread t = some r → r.rest = .ret a →
      Step prog c (.ret t)
        { c with
          thread := Function.update c.thread t none
          returned := ⟨t, r.op, a, r.events⟩ :: c.returned }

def Config.idle (s : σ) : Config ι κ σ η α := ⟨s, none, fun _ => none, []⟩

def system (ι : Type) [DecidableEq ι] (prog : κ → Thread σ η α) :
    System (Config ι κ σ η α) (Act ι κ) where
  init c := c.owner = none ∧ (∀ t, c.thread t = none) ∧ c.returned = []
  step := Step prog

/-- A bracket without the lock is entered only while no other bracket is open, and while it is open
no other is entered. -/
def Apart (c : Config ι κ σ η α) (a : Act ι κ) (_ : Config ι κ σ η α) : Prop :=
  match a with
  | .enter _ locked => ∀ u, ∀ r ∈ c.thread u, ∀ b ∈ r.inside, b = true ∧ locked = true
  | _ => True

instance [Fintype ι] (c : Config ι κ σ η α) (a : Act ι κ) (c' : Config ι κ σ η α) :
    Decidable (Apart c a c') := by
  unfold Apart
  split <;> infer_instance

/-- What is left of a running operation leads to the outcome of the operation alone. -/
def Running.OnTrack (prog : κ → Thread σ η α) (s : σ) (r : Running κ σ η α) : Prop :=
  r.rest.Bracketed r.inside.isSome ∧
    ∀ s₀, (prog r.op).outcome s₀ = ((r.rest.outcome s).1, r.events ++ (r.rest.outcome s).2)

structure Config.Excludes (prog : κ → Thread σ η α) (c : Config ι κ σ η α) : Prop where
  onTrack : ∀ t r, c.thread t = some r → r.OnTrack prog c.shared
  single : ∀ t u r r', c.thread t = some r → c.thread u = some r' → r.inside.isSome →
    r'.inside.isSome → t = u
  owner : ∀ t r, c.thread t = some r → r.inside = some true → c.owner = some t
  returned : ∀ x ∈ c.returned, ∀ s₀, (prog x.op).outcome s₀ = (x.result, x.events)

section Preserved

variable {prog : κ → Thread σ η α} {c c' : Config ι κ σ η α} {r : Running κ σ η α} {t : ι}

theorem isSome_of_act {step : σ → σ × List η} {next : σ → Thread σ η α} {s : σ}
    (h : r.OnTrack prog s) (hRest : r.rest = .act step next) : r.inside.isSome = true := by
  have hBracketed := h.1
  rw [hRest] at hBracketed
  cases hInside : r.inside.isSome with
  | true => rfl
  | false =>
    rw [hInside] at hBracketed
    exact hBracketed.elim

theorem isSome_of_leave {next : Thread σ η α} {s : σ} (h : r.OnTrack prog s)
    (hRest : r.rest = .leave next) : r.inside.isSome = true := by
  have hBracketed := h.1
  rw [hRest] at hBracketed
  cases hInside : r.inside.isSome with
  | true => rfl
  | false =>
    rw [hInside] at hBracketed
    exact hBracketed.elim

theorem isSome_of_enter {locked : Bool} {next : Thread σ η α} {s : σ} (h : r.OnTrack prog s)
    (hRest : r.rest = .enter locked next) : r.inside.isSome = false := by
  have hBracketed := h.1
  rw [hRest] at hBracketed
  cases hInside : r.inside.isSome with
  | false => rfl
  | true =>
    rw [hInside] at hBracketed
    exact hBracketed.elim

/-- Outside every bracket the shared state does not matter. -/
theorem Running.OnTrack.move {s : σ} (h : r.OnTrack prog s) (hOut : r.inside.isSome = false)
    (s' : σ) : r.OnTrack prog s' := by
  obtain ⟨hBracketed, hOutcome⟩ := h
  refine ⟨hBracketed, fun s₀ => ?_⟩
  rw [hOut] at hBracketed
  rw [hBracketed.fresh s' s]
  exact hOutcome s₀

/-- The threads after one of them has changed. -/
theorem of_update {P : ι → Running κ σ η α → Prop} {new : Option (Running κ σ η α)}
    (hNew : ∀ r, new = some r → P t r) (hOld : ∀ u r, u ≠ t → c.thread u = some r → P u r) :
    ∀ u r, Function.update c.thread t new u = some r → P u r := by
  intro u r hu
  by_cases hEq : u = t
  · subst u
    rw [Function.update_self] at hu
    exact hNew r hu
  · rw [Function.update_of_ne hEq] at hu
    exact hOld u r hEq hu

theorem single_update {new : Option (Running κ σ η α)} (h : c.Excludes prog)
    (hNew : ∀ r, new = some r → r.inside.isSome →
      ∀ u r', u ≠ t → c.thread u = some r' → r'.inside.isSome = false) :
    ∀ u v r r', Function.update c.thread t new u = some r →
      Function.update c.thread t new v = some r' → r.inside.isSome → r'.inside.isSome → u = v := by
  intro u v r r' hu hv hIn hIn'
  by_cases hut : u = t
  · by_cases hvt : v = t
    · exact hut.trans hvt.symm
    · rw [hut, Function.update_self] at hu
      rw [Function.update_of_ne hvt] at hv
      rw [hNew r hu hIn v r' hvt hv] at hIn'
      cases hIn'
  · rw [Function.update_of_ne hut] at hu
    by_cases hvt : v = t
    · rw [hvt, Function.update_self] at hv
      rw [hNew r' hv hIn' u r hut hu] at hIn
      cases hIn
    · rw [Function.update_of_ne hvt] at hv
      exact h.single u v r r' hu hv hIn hIn'

omit [DecidableEq ι] in
/-- No other thread is inside while this one is. -/
theorem Config.Excludes.others_outside (h : c.Excludes prog) (hThread : c.thread t = some r)
    (hIn : r.inside.isSome) (u : ι) (r' : Running κ σ η α) (hu : u ≠ t)
    (hThread' : c.thread u = some r') : r'.inside.isSome = false := by
  cases hIn' : r'.inside.isSome with
  | false => rfl
  | true => exact absurd (h.single u t r' r hThread' hThread hIn' hIn) hu

theorem excludes_step {a : Act ι κ} (hProg : ∀ k, (prog k).Bracketed false)
    (h : c.Excludes prog) (hStep : Step prog c a c') (hApart : Apart c a c') :
    c'.Excludes prog := by
  cases hStep with
  | @call t k hThread =>
    constructor
    · apply of_update
      · rintro r ⟨⟩
        exact ⟨hProg k, fun s₀ => (hProg k).fresh s₀ c.shared⟩
      · exact fun u r _ => h.onTrack u r
    · apply single_update h
      rintro r ⟨⟩ hIn
      cases hIn
    · apply of_update
      · rintro r ⟨⟩ hIn
        cases hIn
      · exact fun u r _ => h.owner u r
    · exact h.returned
  | @access t r step next hThread hRest =>
    have hTrack := h.onTrack t r hThread
    have hIn := isSome_of_act hTrack hRest
    constructor
    · apply of_update
      · rintro r' ⟨⟩
        obtain ⟨hBracketed, hOutcome⟩ := hTrack
        rw [hRest, hIn] at hBracketed
        refine ⟨?_, fun s₀ => ?_⟩
        · dsimp only
          rw [hIn]
          exact hBracketed c.shared
        · rw [hOutcome s₀, hRest]
          simp [Thread.outcome, Thread.run]
      · intro u r' hu hThread'
        exact (h.onTrack u r' hThread').move (h.others_outside hThread hIn u r' hu hThread') _
    · apply single_update h
      rintro r' ⟨⟩ -
      exact h.others_outside hThread hIn
    · apply of_update
      · rintro r' ⟨⟩
        exact h.owner t r hThread
      · exact fun u r _ => h.owner u r
    · exact h.returned
  | @enter t r locked next hThread hRest hFree =>
    have hTrack := h.onTrack t r hThread
    have hNone : ∀ u r', c.thread u = some r' → r'.inside.isSome = false := by
      intro u r' hThread'
      cases hInside : r'.inside with
      | none => rfl
      | some b =>
        obtain ⟨rfl, rfl⟩ := hApart u r' hThread' b hInside
        have hOwner := h.owner u r' hThread' hInside
        rw [hFree rfl] at hOwner
        cases hOwner
    constructor
    · apply of_update
      · rintro r' ⟨⟩
        obtain ⟨hBracketed, hOutcome⟩ := hTrack
        rw [hRest, hNone t r hThread] at hBracketed
        refine ⟨hBracketed.2, fun s₀ => ?_⟩
        rw [hOutcome s₀, hRest]
        rfl
      · exact fun u r _ => h.onTrack u r
    · apply single_update h
      exact fun _ _ _ u r' _ hThread' => hNone u r' hThread'
    · apply of_update
      · rintro r' ⟨⟩ hIn
        cases hIn
        rfl
      · intro u r' hu hThread' hIn
        have hOut := hNone u r' hThread'
        rw [hIn] at hOut
        cases hOut
    · exact h.returned
  | @leave t r next hThread hRest =>
    have hTrack := h.onTrack t r hThread
    have hIn := isSome_of_leave hTrack hRest
    constructor
    · apply of_update
      · rintro r' ⟨⟩
        obtain ⟨hBracketed, hOutcome⟩ := hTrack
        rw [hRest, hIn] at hBracketed
        refine ⟨hBracketed, fun s₀ => ?_⟩
        rw [hOutcome s₀, hRest]
        rfl
      · exact fun u r _ => h.onTrack u r
    · apply single_update h
      rintro r' ⟨⟩ hIn'
      cases hIn'
    · apply of_update
      · rintro r' ⟨⟩ hIn'
        cases hIn'
      · intro u r' hu hThread' hInside
        have hOut := h.others_outside hThread hIn u r' hu hThread'
        rw [hInside] at hOut
        cases hOut
    · exact h.returned
  | @ret t r a hThread hRest =>
    have hTrack := h.onTrack t r hThread
    constructor
    · apply of_update
      · rintro r' ⟨⟩
      · exact fun u r _ => h.onTrack u r
    · apply single_update h
      rintro r' ⟨⟩
    · apply of_update
      · rintro r' ⟨⟩
      · exact fun u r _ => h.owner u r
    · intro x hx s₀
      rcases List.mem_cons.mp hx with rfl | hOld
      · rw [hTrack.2 s₀, hRest]
        simp [Thread.outcome]
      · exact h.returned x hOld s₀

end Preserved

theorem excludes_of_reachable {prog : κ → Thread σ η α} (hProg : ∀ k, (prog k).Bracketed false)
    {c : Config ι κ σ η α} (hRun : Reachable (system ι prog) Apart c) : c.Excludes prog := by
  induction hRun with
  | init hInit =>
    obtain ⟨-, hIdle, hNone⟩ := hInit
    constructor
    · intro t r hThread
      cases (hIdle t).symm.trans hThread
    · intro t u r r' hThread
      cases (hIdle t).symm.trans hThread
    · intro t r hThread
      cases (hIdle t).symm.trans hThread
    · intro x hx
      rw [hNone] at hx
      cases hx
  | step _ hStep hApart ih => exact excludes_step hProg ih hStep hApart

/-- Without overlapping brackets, what an operation returned and did is what it does alone. -/
theorem outcome_of_returned {prog : κ → Thread σ η α} (hProg : ∀ k, (prog k).Bracketed false)
    {c : Config ι κ σ η α} (hRun : Reachable (system ι prog) Apart c)
    (x : Returned ι κ η α) (hx : x ∈ c.returned) (s : σ) :
    (prog x.op).outcome s = (x.result, x.events) :=
  (excludes_of_reachable hProg hRun).returned x hx s

/-! ### Runs on concrete inputs -/

def Config.next (prog : κ → Thread σ η α) (c : Config ι κ σ η α) :
    Act ι κ → Option (Config ι κ σ η α)
  | .call t k => match c.thread t with
    | none => some
        { c with thread := Function.update c.thread t (some ⟨k, prog k, [], none⟩) }
    | some _ => none
  | .access t => (c.thread t).bind fun r => match r.rest with
    | .act step next => some
        { c with
          shared := (step c.shared).1
          thread := Function.update c.thread t (some
            { r with rest := next c.shared, events := r.events ++ (step c.shared).2 }) }
    | _ => none
  | .enter t lock => (c.thread t).bind fun r => match r.rest with
    | .enter locked next =>
      if lock = locked ∧ (locked = true → c.owner = none) then some
        { c with
          owner := if locked then some t else c.owner
          thread := Function.update c.thread t (some { r with rest := next, inside := some locked }) }
      else none
    | _ => none
  | .leave t => (c.thread t).bind fun r => match r.rest with
    | .leave next => some
        { c with
          owner := if r.inside = some true then none else c.owner
          thread := Function.update c.thread t (some { r with rest := next, inside := none }) }
    | _ => none
  | .ret t => (c.thread t).bind fun r => match r.rest with
    | .ret a => some
        { c with
          thread := Function.update c.thread t none
          returned := ⟨t, r.op, a, r.events⟩ :: c.returned }
    | _ => none

/-- The configuration after some actions, if each of them is possible and meets `ok`. -/
def Config.after (prog : κ → Thread σ η α)
    (ok : Config ι κ σ η α → Act ι κ → Config ι κ σ η α → Prop) [∀ c a c', Decidable (ok c a c')] :
    Config ι κ σ η α → List (Act ι κ) → Option (Config ι κ σ η α)
  | c, [] => some c
  | c, a :: acts => (c.next prog a).bind fun c' =>
    if ok c a c' then Config.after prog ok c' acts else none

section

variable {prog : κ → Thread σ η α} {c c' : Config ι κ σ η α}

theorem step_of_next {a : Act ι κ} (h : c.next prog a = some c') : Step prog c a c' := by
  cases a with
  | call t k =>
    simp only [Config.next] at h
    cases hThread : c.thread t with
    | none =>
      rw [hThread] at h
      cases h
      exact .call hThread
    | some r =>
      rw [hThread] at h
      cases h
  | access t =>
    obtain ⟨r, hThread, h⟩ := Option.bind_eq_some_iff.mp h
    split at h
    · cases h
      exact .access hThread ‹_›
    · cases h
  | enter t lock =>
    obtain ⟨r, hThread, h⟩ := Option.bind_eq_some_iff.mp h
    split at h
    · split at h
      · rename_i hRest hOpen
        obtain ⟨rfl, hFree⟩ := hOpen
        cases h
        exact .enter hThread hRest hFree
      · cases h
    · cases h
  | leave t =>
    obtain ⟨r, hThread, h⟩ := Option.bind_eq_some_iff.mp h
    split at h
    · cases h
      exact .leave hThread ‹_›
    · cases h
  | ret t =>
    obtain ⟨r, hThread, h⟩ := Option.bind_eq_some_iff.mp h
    split at h
    · cases h
      exact .ret hThread ‹_›
    · cases h

theorem reachable_idle {ok : Config ι κ σ η α → Act ι κ → Config ι κ σ η α → Prop} (s : σ) :
    Reachable (system ι prog) ok (Config.idle s) :=
  .init ⟨rfl, fun _ => rfl, rfl⟩

theorem reachable_of_after {ok : Config ι κ σ η α → Act ι κ → Config ι κ σ η α → Prop}
    [∀ c a c', Decidable (ok c a c')] {acts : List (Act ι κ)}
    (hRun : Reachable (system ι prog) ok c) (h : c.after prog ok acts = some c') :
    Reachable (system ι prog) ok c' := by
  induction acts generalizing c with
  | nil =>
    cases h
    exact hRun
  | cons a acts ih =>
    obtain ⟨c₁, hNext, h⟩ := Option.bind_eq_some_iff.mp h
    split at h
    · exact ih (.step hRun (step_of_next hNext) ‹_›) h
    · cases h

end

end Exclusion
