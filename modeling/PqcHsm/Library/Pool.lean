import PqcHsm.Library.Transition
import PqcHsm.Library.Program

/-!
# Interleaved programs

Any number of threads call operations whose programs are sequences of critical
sections; sections of different threads interleave freely. The configuration
keeps the trace of calls, emitted events and returns, so that history variables
are functions of the trace. `Outline` is the proof rule for several threads: a global
invariant, how the history grows, and for each operation an outline of its own sections.
-/

namespace Sections

/-- What the trace records, newest first. -/
inductive Entry (ι κ η α : Type) : Type where
  | call (t : ι) (k : κ)
  | emit (t : ι) (x : η)
  | ret (t : ι) (k : κ) (a : α)
  | crash
  deriving DecidableEq

/-- The shared state with the trace that led to it. -/
structure Hist (ι κ σ η α : Type) : Type where
  shared : σ
  trace : List (Entry ι κ η α)

structure Config (ι κ ε σ η α : Type) : Type where
  hist : Hist ι κ σ η α
  thread : ι → Option (κ × Prog ε σ η α)

inductive Act (ι κ ε : Type) : Type where
  | call (t : ι) (k : κ)
  | sect (t : ι) (e : ε)
  | ret (t : ι)
  | crash

/-- The operations a thread may call, the shared state at power-up, and what a crash leaves
of the shared state. -/
structure Pool (ι κ ε σ η α : Type) : Type where
  prog : κ → Prog ε σ η α
  start : σ → Prop
  reset : σ → σ → Prop

variable {ι κ ε σ η α β : Type}

namespace Hist

/-- The events of the history, newest first. -/
def events (h : Hist ι κ σ η α) : List η :=
  h.trace.filterMap fun
    | .emit _ x => some x
    | _ => none

def emits (h : Hist ι κ σ η α) (t : ι) (r : σ × List η) : Hist ι κ σ η α where
  shared := r.1
  trace := (r.2.map (Entry.emit t)).reverse ++ h.trace

def calls (h : Hist ι κ σ η α) (t : ι) (k : κ) : Hist ι κ σ η α :=
  { h with trace := .call t k :: h.trace }

def returns (h : Hist ι κ σ η α) (t : ι) (k : κ) (a : α) : Hist ι κ σ η α :=
  { h with trace := .ret t k a :: h.trace }

def crashes (h : Hist ι κ σ η α) (s : σ) : Hist ι κ σ η α where
  shared := s
  trace := .crash :: h.trace

@[simp] theorem emits_shared (h : Hist ι κ σ η α) (t : ι) (r : σ × List η) :
    (h.emits t r).shared = r.1 := rfl

@[simp] theorem emits_trace (h : Hist ι κ σ η α) (t : ι) (r : σ × List η) :
    (h.emits t r).trace = (r.2.map (Entry.emit t)).reverse ++ h.trace := rfl

@[simp] theorem calls_shared (h : Hist ι κ σ η α) (t : ι) (k : κ) :
    (h.calls t k).shared = h.shared := rfl

@[simp] theorem calls_trace (h : Hist ι κ σ η α) (t : ι) (k : κ) :
    (h.calls t k).trace = .call t k :: h.trace := rfl

@[simp] theorem returns_shared (h : Hist ι κ σ η α) (t : ι) (k : κ) (a : α) :
    (h.returns t k a).shared = h.shared := rfl

@[simp] theorem returns_trace (h : Hist ι κ σ η α) (t : ι) (k : κ) (a : α) :
    (h.returns t k a).trace = .ret t k a :: h.trace := rfl

@[simp] theorem events_emits (h : Hist ι κ σ η α) (t : ι) (r : σ × List η) :
    (h.emits t r).events = r.2.reverse ++ h.events := by
  simp only [events, emits_trace, List.filterMap_append, List.filterMap_reverse,
    List.filterMap_map, Function.comp_def, List.filterMap_some]

@[simp] theorem events_calls (h : Hist ι κ σ η α) (t : ι) (k : κ) :
    (h.calls t k).events = h.events := rfl

@[simp] theorem events_returns (h : Hist ι κ σ η α) (t : ι) (k : κ) (a : α) :
    (h.returns t k a).events = h.events := rfl

@[simp] theorem events_crashes (h : Hist ι κ σ η α) (s : σ) :
    (h.crashes s).events = h.events := rfl

@[simp] theorem crashes_shared (h : Hist ι κ σ η α) (s : σ) : (h.crashes s).shared = s := rfl

@[simp] theorem crashes_trace (h : Hist ι κ σ η α) (s : σ) :
    (h.crashes s).trace = .crash :: h.trace := rfl

end Hist

/-- Entries that do not change a function of the trace. -/
theorem unchanged_append {f : List (Entry ι κ η α) → β} {new tr : List (Entry ι κ η α)}
    (hf : ∀ x ∈ new, ∀ tr, f (x :: tr) = f tr) : f (new ++ tr) = f tr := by
  induction new with
  | nil => rfl
  | cons x new ih =>
    rw [List.cons_append, hf x List.mem_cons_self]
    exact ih fun y hy => hf y (List.mem_cons_of_mem _ hy)

theorem Hist.unchanged_emits {f : List (Entry ι κ η α) → β} {t : ι} {r : σ × List η}
    (hf : ∀ x ∈ r.2, ∀ tr, f (.emit t x :: tr) = f tr) (h : Hist ι κ σ η α) :
    f (h.emits t r).trace = f h.trace := by
  refine unchanged_append fun x hx tr => ?_
  simp only [List.mem_reverse, List.mem_map] at hx
  obtain ⟨y, hy, rfl⟩ := hx
  exact hf y hy tr

/-- A section adds no call and no return. -/
theorem Hist.suffix_emits {h : Hist ι κ σ η α} {t : ι} {r : σ × List η} {x : Entry ι κ η α}
    {older : List (Entry ι κ η α)} (hx : ∀ y, x ≠ .emit t y) :
    x :: older <:+ (h.emits t r).trace ↔ x :: older <:+ h.trace := by
  have hIff : (x :: older <:+ (h.emits t r).trace) = (x :: older <:+ h.trace) := by
    refine unchanged_emits (f := fun tr => x :: older <:+ tr) ?_ h
    intro y _ tr
    rw [List.suffix_cons_iff, List.cons.injEq]
    exact propext (or_iff_right fun hEq => hx y hEq.1)
  rw [hIff]

theorem Hist.call_suffix_emits {h : Hist ι κ σ η α} {t u : ι} {k : κ} {r : σ × List η}
    {older : List (Entry ι κ η α)} :
    .call u k :: older <:+ (h.emits t r).trace ↔ .call u k :: older <:+ h.trace :=
  suffix_emits nofun

theorem Hist.ret_suffix_emits {h : Hist ι κ σ η α} {t u : ι} {k : κ} {a : α} {r : σ × List η}
    {older : List (Entry ι κ η α)} :
    .ret u k a :: older <:+ (h.emits t r).trace ↔ .ret u k a :: older <:+ h.trace :=
  suffix_emits nofun

namespace Pool

variable [DecidableEq ι]

/-- A step carries the events it emits. -/
inductive Step (P : Pool ι κ ε σ η α) :
    Config ι κ ε σ η α → Act ι κ ε × List η → Config ι κ ε σ η α → Prop where
  | call {c : Config ι κ ε σ η α} {t : ι} {k : κ} : c.thread t = none →
      P.Step c (.call t k, [])
        ⟨c.hist.calls t k, Function.update c.thread t (some (k, P.prog k))⟩
  | sect {c : Config ι κ ε σ η α} {t : ι} {k : κ} {act : ε → σ → σ × List η}
      {next : ε → σ → Prog ε σ η α} {e : ε} : c.thread t = some (k, .sect act next) →
      P.Step c (.sect t e, (act e c.hist.shared).2)
        ⟨c.hist.emits t (act e c.hist.shared),
          Function.update c.thread t (some (k, next e c.hist.shared))⟩
  | ret {c : Config ι κ ε σ η α} {t : ι} {k : κ} {a : α} : c.thread t = some (k, .ret a) →
      P.Step c (.ret t, []) ⟨c.hist.returns t k a, Function.update c.thread t none⟩
  | crash {c : Config ι κ ε σ η α} {s : σ} : P.reset c.hist.shared s →
      P.Step c (.crash, []) ⟨c.hist.crashes s, fun _ => none⟩

def system (P : Pool ι κ ε σ η α) :
    Transition.System (Config ι κ ε σ η α) (Act ι κ ε × List η) where
  init c := P.start c.hist.shared ∧ c.hist.trace = [] ∧ ∀ t, c.thread t = none
  step := P.Step

/-- A condition on the steps of a pool is read on the history before the step, on the label
and on the events the step emits. -/
abbrev Cond (ι κ ε σ η α : Type) := Hist ι κ σ η α → Act ι κ ε → List η → Prop

def Reaches (P : Pool ι κ ε σ η α) (ok : Cond ι κ ε σ η α) : Config ι κ ε σ η α → Prop :=
  Transition.Reachable P.system fun c l _ => ok c.hist l.1 l.2

def always : Cond ι κ ε σ η α := fun _ _ _ => True

/-- One step of a schedule, for runs on concrete inputs; a crash leaves `none` here. -/
def schedule (P : Pool ι κ ε σ η α) (c : Config ι κ ε σ η α) :
    Act ι κ ε → Option (List η × Config ι κ ε σ η α)
  | .call t k => match c.thread t with
    | none => some ([], ⟨c.hist.calls t k, Function.update c.thread t (some (k, P.prog k))⟩)
    | some _ => none
  | .sect t e => match c.thread t with
    | some (k, .sect act next) => some ((act e c.hist.shared).2,
        ⟨c.hist.emits t (act e c.hist.shared),
          Function.update c.thread t (some (k, next e c.hist.shared))⟩)
    | _ => none
  | .ret t => match c.thread t with
    | some (k, .ret a) => some ([], ⟨c.hist.returns t k a, Function.update c.thread t none⟩)
    | _ => none
  | .crash => none

/-- A schedule whose steps pass a check. -/
def scheduleAll (P : Pool ι κ ε σ η α) (check : Hist ι κ σ η α → Act ι κ ε → List η → Bool)
    (c : Config ι κ ε σ η α) : List (Act ι κ ε) → Option (Config ι κ ε σ η α)
  | [] => some c
  | a :: as => (P.schedule c a).bind fun r =>
    if check c.hist a r.1 then P.scheduleAll check r.2 as else none

/-- A call of `k`, `m` sections with the environment `e`, and the return. -/
def calling (t : ι) (k : κ) (m : Nat) (e : ε) : List (Act ι κ ε) :=
  .call t k :: (List.replicate m (.sect t e) ++ [.ret t])

theorem schedule_step {P : Pool ι κ ε σ η α} {c : Config ι κ ε σ η α} {a : Act ι κ ε}
    {r : List η × Config ι κ ε σ η α} (h : P.schedule c a = some r) : P.Step c (a, r.1) r.2 := by
  cases a with
  | call t k =>
    simp only [schedule] at h
    split at h
    · cases h
      exact .call ‹_›
    · cases h
  | sect t e =>
    simp only [schedule] at h
    split at h
    · cases h
      exact .sect ‹_›
    · cases h
  | ret t =>
    simp only [schedule] at h
    split at h
    · cases h
      exact .ret ‹_›
    · cases h
  | crash => cases h

theorem reaches_scheduleAll {P : Pool ι κ ε σ η α} {ok : Cond ι κ ε σ η α}
    {check : Hist ι κ σ η α → Act ι κ ε → List η → Bool}
    (hCheck : ∀ h a evs, check h a evs = true → ok h a evs) {c c' : Config ι κ ε σ η α}
    (hc : P.Reaches ok c) {as : List (Act ι κ ε)}
    (h : P.scheduleAll check c as = some c') : P.Reaches ok c' := by
  induction as generalizing c with
  | nil =>
    cases h
    exact hc
  | cons a as ih =>
    obtain ⟨r, hStep, hRest⟩ := Option.bind_eq_some_iff.mp h
    split at hRest
    · rename_i hOk
      exact ih (.step hc (schedule_step hStep) (hCheck _ _ _ hOk)) hRest
    · cases hRest

/-- A run on concrete inputs exhibits what its last configuration decides. -/
theorem exists_scheduleAll {P : Pool ι κ ε σ η α} {ok : Cond ι κ ε σ η α}
    (check : Hist ι κ σ η α → Act ι κ ε → List η → Bool)
    (hCheck : ∀ h a evs, check h a evs = true → ok h a evs) {c : Config ι κ ε σ η α}
    (hc : P.system.init c) (as : List (Act ι κ ε)) (found : Config ι κ ε σ η α → Prop)
    [DecidablePred found] (h : (P.scheduleAll check c as).any (fun c => decide (found c)) = true) :
    ∃ c', P.Reaches ok c' ∧ found c' := by
  obtain ⟨c', hRun, hFound⟩ := (Option.any_eq_true _ _).mp h
  exact ⟨c', reaches_scheduleAll hCheck (.init hc) hRun, of_decide_eq_true hFound⟩

/-- The check that lets every step pass. -/
def unchecked (_ : Hist ι κ σ η α) (_ : Act ι κ ε) (_ : List η) : Bool := true

omit [DecidableEq ι] in
theorem always_of_unchecked (h : Hist ι κ σ η α) (a : Act ι κ ε) (evs : List η)
    (_ : unchecked h a evs = true) : always h a evs := trivial

end Pool

/-- Every section of the program, from every history satisfying `A`, leaves `A` satisfied. -/
def Stays (ok : Pool.Cond ι κ ε σ η α) (t : ι) (A : Hist ι κ σ η α → Prop) :
    Prog ε σ η β → Prop
  | .ret _ => True
  | .sect act next => ∀ h e, A h → ok h (.sect t e) (act e h.shared).2 →
      A (h.emits t (act e h.shared)) ∧ Stays ok t A (next e h.shared)

section Stays

variable {ok : Pool.Cond ι κ ε σ η α} {t : ι} {A : Hist ι κ σ η α → Prop}

@[simp] theorem stays_ret (b : β) : Stays ok t A (.ret b : Prog ε σ η β) := trivial

theorem stays_bind {γ : Type} {p : Prog ε σ η β} {f : β → Prog ε σ η γ}
    (hp : Stays ok t A p) (hf : ∀ b, Stays ok t A (f b)) : Stays ok t A (p.bind f) := by
  induction p with
  | ret b => exact hf b
  | sect act next ih =>
    intro h e hA he
    obtain ⟨hPost, hNext⟩ := hp h e hA he
    exact ⟨hPost, ih e _ hNext⟩

theorem stays_atomic {body : ε → σ → β × σ × List η}
    (hBody : ∀ h e, A h → ok h (.sect t e) (body e h.shared).2.2 →
      A (h.emits t (body e h.shared).2)) : Stays ok t A (Prog.atomic body) :=
  fun h e hA he => ⟨hBody h e hA he, trivial⟩

/-- A property kept by every step of a relation is kept by the programs within it. -/
theorem stays_of_within {R : ε → σ → σ × List η → Prop} {p : Prog ε σ η β} (hp : p.Within R)
    (hR : ∀ h e r, R e h.shared r → A h → ok h (.sect t e) r.2 → A (h.emits t r)) :
    Stays ok t A p := by
  induction p with
  | ret b => exact trivial
  | sect act next ih =>
    intro h e hA he
    obtain ⟨hStep, hNext⟩ := hp e h.shared
    exact ⟨hR h e _ hStep hA he, ih e _ hNext⟩

end Stays

/-- A property that every section keeps holds in every run, whatever the interleaving. -/
theorem Pool.invariant [DecidableEq ι] {P : Pool ι κ ε σ η α} {ok : Pool.Cond ι κ ε σ η α}
    {A : Hist ι κ σ η α → Prop} (hStart : ∀ s, P.start s → A ⟨s, []⟩)
    (hReset : ∀ h s, A h → P.reset h.shared s → A (h.crashes s))
    (hCall : ∀ t k h, A h → A (h.calls t k)) (hRet : ∀ t k a h, A h → A (h.returns t k a))
    (hProg : ∀ t k, Stays ok t A (P.prog k)) {c : Config ι κ ε σ η α} (h : P.Reaches ok c) :
    A c.hist := by
  have hAll : A c.hist ∧ ∀ t k p, c.thread t = some (k, p) → Stays ok t A p := by
    refine Transition.Reachable.invariant (I := fun c => A c.hist ∧
      ∀ t k p, c.thread t = some (k, p) → Stays ok t A p) ?_ ?_ h
    · rintro ⟨⟨s, trace⟩, thread⟩ ⟨hs, hTrace, hThread⟩
      obtain rfl : trace = [] := hTrace
      exact ⟨hStart s hs, fun t k p hp => absurd (hp.symm.trans (hThread t)) (by simp)⟩
    · rintro c l c' ⟨hA, hStays⟩ hStep hok
      have hOther : ∀ {t : ι} {o : Option (κ × Prog ε σ η α)},
          (∀ k p, o = some (k, p) → Stays ok t A p) → ∀ u k p,
          Function.update c.thread t o u = some (k, p) → Stays ok u A p := by
        intro t o ho u k p hp
        by_cases hu : u = t
        · subst u
          rw [Function.update_self] at hp
          exact ho k p hp
        · rw [Function.update_of_ne hu] at hp
          exact hStays u k p hp
      cases hStep with
      | @call t k hThread =>
        refine ⟨hCall t k _ hA, hOther ?_⟩
        rintro k' p hp
        cases hp
        exact hProg t k
      | @sect t k act next e hThread =>
        obtain ⟨hPost, hNext⟩ := hStays t k _ hThread c.hist e hA hok
        refine ⟨hPost, hOther ?_⟩
        rintro k' p hp
        cases hp
        exact hNext
      | @ret t k a hThread =>
        refine ⟨hRet t k a _ hA, hOther ?_⟩
        rintro k' p hp
        cases hp
      | @crash s hs => exact ⟨hReset _ s hA hs, fun t k p hp => nomatch hp⟩
  exact hAll.1

section Sequential

/-! ### One thread -/

/-- No demand on the histories passed through. -/
def anywhere : Hist ι κ σ η α → Prop := fun _ => True

variable (ok : Pool.Cond Unit κ ε σ η α) (I : Hist Unit κ σ η α → Prop)

/-- Run alone from `h`, with any environments that meet the condition, the program passes
through histories of `I` only and returns in `Q`. -/
def Triple : Prog ε σ η β → (β → Hist Unit κ σ η α → Prop) → Hist Unit κ σ η α → Prop
  | .ret b, Q, h => I h ∧ Q b h
  | .sect act next, Q, h => I h ∧ ∀ e, ok h (.sect () e) (act e h.shared).2 →
      Triple (next e h.shared) Q (h.emits () (act e h.shared))

variable {ok I}

theorem Triple.here {p : Prog ε σ η β} {Q : β → Hist Unit κ σ η α → Prop}
    {h : Hist Unit κ σ η α} (hp : Triple ok I p Q h) : I h := by
  cases p <;> exact hp.1

theorem triple_ret {b : β} {Q : β → Hist Unit κ σ η α → Prop} {h : Hist Unit κ σ η α}
    (hInv : I h) (hQ : Q b h) : Triple ok I (.ret b : Prog ε σ η β) Q h := ⟨hInv, hQ⟩

theorem triple_atomic {body : ε → σ → β × σ × List η} {Q : β → Hist Unit κ σ η α → Prop}
    {h : Hist Unit κ σ η α} (hInv : I h)
    (hBody : ∀ e, ok h (.sect () e) (body e h.shared).2.2 →
      I (h.emits () (body e h.shared).2) ∧
      Q (body e h.shared).1 (h.emits () (body e h.shared).2)) :
    Triple ok I (Prog.atomic body) Q h := ⟨hInv, hBody⟩

theorem Triple.mono {p : Prog ε σ η β} {Q Q' : β → Hist Unit κ σ η α → Prop}
    (hQ : ∀ b h, Q b h → Q' b h) {h : Hist Unit κ σ η α} (hp : Triple ok I p Q h) :
    Triple ok I p Q' h := by
  induction p generalizing h with
  | ret b => exact ⟨hp.1, hQ b h hp.2⟩
  | sect act next ih => exact ⟨hp.1, fun e he => ih e _ (hp.2 e he)⟩

theorem triple_bind {γ : Type} {p : Prog ε σ η β} {f : β → Prog ε σ η γ}
    {Q : γ → Hist Unit κ σ η α → Prop} {h : Hist Unit κ σ η α}
    (hp : Triple ok I p (fun b h' => Triple ok I (f b) Q h') h) :
    Triple ok I (p.bind f) Q h := by
  induction p generalizing h with
  | ret b => exact hp.2
  | sect act next ih => exact ⟨hp.1, fun e he => ih e _ (hp.2 e he)⟩

theorem triple_of_stays {p : Prog ε σ η β} {A : Hist Unit κ σ η α → Prop}
    (hInv : ∀ h, A h → I h) (hp : Stays ok () A p) {h : Hist Unit κ σ η α} (hA : A h) :
    Triple ok I p (fun _ h' => A h') h := by
  induction p generalizing h with
  | ret b => exact ⟨hInv h hA, hA⟩
  | sect act next ih =>
    refine ⟨hInv h hA, fun e he => ?_⟩
    obtain ⟨hPost, hNext⟩ := hp h e hA he
    exact ih e _ hNext hPost

/-- What a single thread is doing: nothing, in `A`, or the rest of an operation that will
return to `A`. -/
def Pending (ok : Pool.Cond Unit κ ε σ η α) (I A : Hist Unit κ σ η α → Prop)
    (h : Hist Unit κ σ η α) : Option (κ × Prog ε σ η α) → Prop
  | none => A h
  | some (k, p) => Triple ok I p (fun a h' => ok h' (.ret ()) [] → A (h'.returns () k a)) h

/-- A property that holds at power-up, after every operation run from it and after every crash
holds between the operations of every run. -/
theorem Pool.sequential {P : Pool Unit κ ε σ η α} {A : Hist Unit κ σ η α → Prop}
    (hStart : ∀ s, P.start s → A ⟨s, []⟩)
    (hCrash : ∀ h s, A h ∨ I h → P.reset h.shared s → ok h .crash [] → A (h.crashes s))
    (hCall : ∀ k h, A h → ok h (.call () k) [] → Triple ok I (P.prog k)
      (fun a h' => ok h' (.ret ()) [] → A (h'.returns () k a)) (h.calls () k))
    {c : Config Unit κ ε σ η α} (h : P.Reaches ok c) :
    Pending ok I A c.hist (c.thread ()) := by
  refine Transition.Reachable.invariant
    (I := fun c => Pending ok I A c.hist (c.thread ())) ?_ ?_ h
  · rintro ⟨⟨s, trace⟩, thread⟩ ⟨hs, hTrace, hThread⟩
    obtain rfl : trace = [] := hTrace
    exact (hThread ()).symm ▸ hStart s hs
  · rintro c l c' hP hStep hok
    cases hStep with
    | @call t k hThread =>
      have hIdle : A c.hist := by
        rwa [show c.thread () = none from hThread] at hP
      change Pending ok I A _ (Function.update c.thread () _ ())
      rw [Function.update_self]
      exact hCall k _ hIdle hok
    | @sect t k act next e hThread =>
      have hRest : Pending ok I A c.hist (some (k, .sect act next)) := hThread ▸ hP
      change Pending ok I A _ (Function.update c.thread () _ ())
      rw [Function.update_self]
      exact hRest.2 e hok
    | @ret t k a hThread =>
      have hRest : Pending ok I A c.hist (some (k, .ret a)) := hThread ▸ hP
      change Pending ok I A _ (Function.update c.thread () _ ())
      rw [Function.update_self]
      exact hRest.2 hok
    | @crash s hs =>
      refine hCrash _ _ ?_ hs hok
      cases hThread : c.thread () with
      | none =>
        rw [hThread] at hP
        exact .inl hP
      | some kp =>
        rw [hThread] at hP
        exact .inr hP.here

/-- Between operations the property itself holds. -/
theorem Pending.idle {I A : Hist Unit κ σ η α → Prop} {c : Config Unit κ ε σ η α}
    (h : Pending ok I A c.hist (c.thread ())) (hIdle : c.thread () = none) : A c.hist := by
  rwa [hIdle] at h

end Sequential

section Outlines

/-- The entry is by thread `t`. -/
def Entry.By (t : ι) : Entry ι κ η α → Prop
  | .call u _ => u = t
  | .emit u _ => u = t
  | .ret u _ _ => u = t
  | .crash => False

/-- Other threads have extended the trace. -/
def Foreign (t : ι) (h h' : Hist ι κ σ η α) : Prop :=
  ∃ new, h'.trace = new ++ h.trace ∧ ∀ x ∈ new, ¬ x.By t

theorem Foreign.refl (t : ι) (h : Hist ι κ σ η α) : Foreign t h h := ⟨[], rfl, by simp⟩

theorem Foreign.trans {t : ι} {h h' h'' : Hist ι κ σ η α} (h₁ : Foreign t h h')
    (h₂ : Foreign t h' h'') : Foreign t h h'' := by
  obtain ⟨new₁, hEq₁, hBy₁⟩ := h₁
  obtain ⟨new₂, hEq₂, hBy₂⟩ := h₂
  refine ⟨new₂ ++ new₁, by rw [hEq₂, hEq₁, List.append_assoc], fun x hx => ?_⟩
  rcases List.mem_append.mp hx with hx | hx
  · exact hBy₂ x hx
  · exact hBy₁ x hx

theorem foreign_emits {t u : ι} (hu : u ≠ t) (h : Hist ι κ σ η α) (r : σ × List η) :
    Foreign t h (h.emits u r) := by
  refine ⟨(r.2.map (Entry.emit u)).reverse, rfl, fun x hx => ?_⟩
  simp only [List.mem_reverse, List.mem_map] at hx
  obtain ⟨y, -, rfl⟩ := hx
  exact hu

theorem foreign_calls {t u : ι} (hu : u ≠ t) (h : Hist ι κ σ η α) (k : κ) :
    Foreign t h (h.calls u k) := by
  refine ⟨[.call u k], rfl, fun x hx => ?_⟩
  obtain rfl := List.mem_singleton.mp hx
  exact hu

theorem foreign_returns {t u : ι} (hu : u ≠ t) (h : Hist ι κ σ η α) (k : κ) (a : α) :
    Foreign t h (h.returns u k a) := by
  refine ⟨[.ret u k a], rfl, fun x hx => ?_⟩
  obtain rfl := List.mem_singleton.mp hx
  exact hu

/-- A function of the trace that only the entries of one thread change. -/
theorem Foreign.local {t : ι} {h h' : Hist ι κ σ η α} (hF : Foreign t h h')
    {f : List (Entry ι κ η α) → β} (hf : ∀ x tr, ¬ x.By t → f (x :: tr) = f tr) :
    f h'.trace = f h.trace := by
  obtain ⟨new, hEq, hBy⟩ := hF
  rw [hEq]
  exact unchanged_append fun x hx tr => hf x tr (hBy x hx)

variable (ok : Pool.Cond ι κ ε σ η α) (inv : Hist ι κ σ η α → Prop)
  (grows : Hist ι κ σ η α → Hist ι κ σ η α → Prop)

/-- From history `h`, whatever other threads do before each of its sections, the program keeps
the invariant and the growth of the history, and returns in `Q`. -/
def Safe (t : ι) : Prog ε σ η β → (β → Hist ι κ σ η α → Prop) → Hist ι κ σ η α → Prop
  | .ret a, Q, h => ∀ h', Foreign t h h' → grows h h' → inv h' → Q a h'
  | .sect act next, Q, h => ∀ h', Foreign t h h' → grows h h' → inv h' → ∀ e,
      ok h' (.sect t e) (act e h'.shared).2 →
      inv (h'.emits t (act e h'.shared)) ∧ grows h' (h'.emits t (act e h'.shared)) ∧
      Safe t (next e h'.shared) Q (h'.emits t (act e h'.shared))

variable {ok inv grows}

theorem Safe.mono {t : ι} {p : Prog ε σ η β} {Q Q' : β → Hist ι κ σ η α → Prop}
    (hQ : ∀ a h, inv h → Q a h → Q' a h) {h : Hist ι κ σ η α}
    (hp : Safe ok inv grows t p Q h) : Safe ok inv grows t p Q' h := by
  induction p generalizing h with
  | ret a => exact fun h' hF hG hi => hQ a h' hi (hp h' hF hG hi)
  | sect act next ih =>
    intro h' hF hG hi e he
    obtain ⟨hInv, hGrow, hNext⟩ := hp h' hF hG hi e he
    exact ⟨hInv, hGrow, ih e _ hNext⟩

theorem Safe.bind (hRefl : ∀ h, grows h h) {t : ι} {p : Prog ε σ η β} {γ : Type}
    {f : β → Prog ε σ η γ} {Q : γ → Hist ι κ σ η α → Prop} {h : Hist ι κ σ η α} (hi : inv h)
    (hp : Safe ok inv grows t p (fun a h' => Safe ok inv grows t (f a) Q h') h) :
    Safe ok inv grows t (p.bind f) Q h := by
  induction p generalizing h with
  | ret a => exact hp h (Foreign.refl t h) (hRefl h) hi
  | sect act next ih =>
    intro h' hF hG hi' e he
    obtain ⟨hInv, hGrow, hNext⟩ := hp h' hF hG hi' e he
    exact ⟨hInv, hGrow, ih e _ hInv hNext⟩

theorem Safe.of_foreign (hTrans : ∀ h h' h'', grows h h' → grows h' h'' → grows h h'')
    {t : ι} {p : Prog ε σ η β} {Q : β → Hist ι κ σ η α → Prop} {h h' : Hist ι κ σ η α}
    (hp : Safe ok inv grows t p Q h) (hF : Foreign t h h') (hG : grows h h') :
    Safe ok inv grows t p Q h' := by
  cases p with
  | ret a => exact fun h'' hF' hG' hi => hp h'' (hF.trans hF') (hTrans _ _ _ hG hG') hi
  | sect act next => exact fun h'' hF' hG' hi => hp h'' (hF.trans hF') (hTrans _ _ _ hG hG') hi

/-- An assertion of a thread that the other threads leave standing. -/
def Stable (inv : Hist ι κ σ η α → Prop) (grows : Hist ι κ σ η α → Hist ι κ σ η α → Prop) (t : ι)
    (A : Hist ι κ σ η α → Prop) : Prop :=
  ∀ h h', A h → Foreign t h h' → grows h h' → inv h' → A h'

theorem safe_ret {t : ι} {b : β} {Q : β → Hist ι κ σ η α → Prop} {h : Hist ι κ σ η α}
    (hQ : Stable inv grows t (Q b)) (h₀ : Q b h) : Safe ok inv grows t (.ret b) Q h :=
  fun _ hF hG hi => hQ _ _ h₀ hF hG hi

/-- One section, entered from an assertion that the other threads leave standing. -/
theorem safe_atomic {t : ι} {body : ε → σ → β × σ × List η} {A : Hist ι κ σ η α → Prop}
    {Q : β → Hist ι κ σ η α → Prop} {h : Hist ι κ σ η α} (hA : Stable inv grows t A) (h₀ : A h)
    (hQ : ∀ b, Stable inv grows t (Q b))
    (hBody : ∀ h e, inv h → A h → ok h (.sect t e) (body e h.shared).2.2 →
      inv (h.emits t (body e h.shared).2) ∧ grows h (h.emits t (body e h.shared).2) ∧
      Q (body e h.shared).1 (h.emits t (body e h.shared).2)) :
    Safe ok inv grows t (Prog.atomic body) Q h := by
  intro h' hF hG hi e he
  obtain ⟨hInv, hGrow, hPost⟩ := hBody h' e hi (hA h h' h₀ hF hG hi) he
  exact ⟨hInv, hGrow, safe_ret (hQ _) hPost⟩

/-- An assertion that every step of a relation keeps is kept by the programs within it. -/
theorem safe_of_within {t : ι} {R : ε → σ → σ × List η → Prop} {p : Prog ε σ η β}
    (hp : p.Within R) {A : Hist ι κ σ η α → Prop} (hA : Stable inv grows t A)
    (hStep : ∀ h e r, R e h.shared r → inv h → A h → ok h (.sect t e) r.2 →
      inv (h.emits t r) ∧ grows h (h.emits t r) ∧ A (h.emits t r)) {h : Hist ι κ σ η α}
    (h₀ : A h) : Safe ok inv grows t p (fun _ => A) h := by
  induction p generalizing h with
  | ret b => exact safe_ret hA h₀
  | sect act next ih =>
    intro h' hF hG hi e he
    obtain ⟨hR, hNext⟩ := hp e h'.shared
    obtain ⟨hInv, hGrow, hPost⟩ := hStep h' e _ hR hi (hA h h' h₀ hF hG hi) he
    exact ⟨hInv, hGrow, ih e _ hNext hPost⟩

end Outlines

/-- A proof outline of a pool under a condition on its steps: a global invariant, a growth of
the history, and what each thread asserts between its operations. -/
structure Outline (P : Pool ι κ ε σ η α) (ok : Pool.Cond ι κ ε σ η α) where
  inv : Hist ι κ σ η α → Prop
  grows : Hist ι κ σ η α → Hist ι κ σ η α → Prop
  idle : ι → Hist ι κ σ η α → Prop
  grows_refl : ∀ h, grows h h
  grows_trans : ∀ h h' h'', grows h h' → grows h' h'' → grows h h''
  stable : ∀ t, Stable inv grows t (idle t)
  start : ∀ s, P.start s → inv ⟨s, []⟩ ∧ ∀ t, idle t ⟨s, []⟩
  call : ∀ t k h, inv h → idle t h → ok h (.call t k) [] →
    inv (h.calls t k) ∧ grows h (h.calls t k) ∧
    Safe ok inv grows t (P.prog k) (fun _ => idle t) (h.calls t k)
  ret : ∀ t k a h, inv h → idle t h → ok h (.ret t) [] →
    inv (h.returns t k a) ∧ grows h (h.returns t k a) ∧ idle t (h.returns t k a)
  crash : ∀ s s', ¬ P.reset s s'

namespace Outline

variable {P : Pool ι κ ε σ η α} {ok : Pool.Cond ι κ ε σ η α}

/-- What the outline says of a thread of a configuration. -/
def Holds (O : Outline P ok) (h : Hist ι κ σ η α) (t : ι) :
    Option (κ × Prog ε σ η α) → Prop
  | none => O.idle t h
  | some (_, p) => Safe ok O.inv O.grows t p (fun _ => O.idle t) h

variable [DecidableEq ι]

theorem holds_update {O : Outline P ok} {h h' : Hist ι κ σ η α}
    {thread : ι → Option (κ × Prog ε σ η α)} {t : ι} {p : Option (κ × Prog ε σ η α)}
    (hAll : ∀ u, O.Holds h u (thread u)) (hInv : O.inv h') (hGrow : O.grows h h')
    (hForeign : ∀ u, t ≠ u → Foreign u h h') (hp : O.Holds h' t p) :
    ∀ u, O.Holds h' u (Function.update thread t p u) := by
  intro u
  by_cases hu : u = t
  · subst u
    rwa [Function.update_self]
  · rw [Function.update_of_ne hu]
    have hOld := hAll u
    cases hThread : thread u with
    | none =>
      rw [hThread] at hOld
      exact O.stable u _ _ hOld (hForeign u (Ne.symm hu)) hGrow hInv
    | some kp =>
      rw [hThread] at hOld
      exact Safe.of_foreign O.grows_trans hOld (hForeign u (Ne.symm hu)) hGrow

theorem step {O : Outline P ok} {c c' : Config ι κ ε σ η α} {l : Act ι κ ε × List η}
    (hInv : O.inv c.hist) (hAll : ∀ t, O.Holds c.hist t (c.thread t)) (hStep : P.Step c l c')
    (hok : ok c.hist l.1 l.2) : O.inv c'.hist ∧ ∀ t, O.Holds c'.hist t (c'.thread t) := by
  cases hStep with
  | @call t k hThread =>
    have hIdle : O.Holds c.hist t none := hThread ▸ hAll t
    obtain ⟨hi, hg, hp⟩ := O.call t k c.hist hInv hIdle hok
    exact ⟨hi, holds_update hAll hi hg (fun u hu => foreign_calls hu _ _) hp⟩
  | @sect t k act next e hThread =>
    have hSafe : O.Holds c.hist t (some (k, .sect act next)) := hThread ▸ hAll t
    obtain ⟨hi, hg, hp⟩ := hSafe c.hist (Foreign.refl t _) (O.grows_refl _) hInv e hok
    exact ⟨hi, holds_update hAll hi hg (fun u hu => foreign_emits hu _ _) hp⟩
  | @ret t k a hThread =>
    have hSafe : O.Holds c.hist t (some (k, .ret a)) := hThread ▸ hAll t
    have hIdle := hSafe c.hist (Foreign.refl t _) (O.grows_refl _) hInv
    obtain ⟨hi, hg, hp⟩ := O.ret t k a c.hist hInv hIdle hok
    exact ⟨hi, holds_update hAll hi hg (fun u hu => foreign_returns hu _ _ _) hp⟩
  | @crash s hReset => exact absurd hReset (O.crash _ _)

/-- What an outline proves of every run whose steps meet the condition. -/
theorem reaches {O : Outline P ok} {c : Config ι κ ε σ η α} (h : P.Reaches ok c) :
    O.inv c.hist ∧ ∀ t, O.Holds c.hist t (c.thread t) := by
  refine Transition.Reachable.invariant (I := fun c => O.inv c.hist ∧
    ∀ t, O.Holds c.hist t (c.thread t)) ?_ ?_ h
  · rintro ⟨⟨s, trace⟩, thread⟩ ⟨hStart, hTrace, hThread⟩
    obtain rfl : trace = [] := hTrace
    obtain ⟨hInv, hIdle⟩ := O.start s hStart
    exact ⟨hInv, fun t => (hThread t).symm ▸ hIdle t⟩
  · rintro c l c' ⟨hInv, hAll⟩ hStep hok
    exact O.step hInv hAll hStep hok

end Outline

end Sections
