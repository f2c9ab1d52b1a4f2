import Mathlib.Logic.Relation

/-!
# Labelled transition systems and their conditioned runs

A run carries a side condition on each of its steps, read on the state before
the step, the label and the state after it. An invariant of the conditioned
runs is established once, from the initial states and the conditioned steps.
-/

namespace Transition

universe u v

structure System (σ : Type u) (α : Type v) where
  init : σ → Prop
  step : σ → α → σ → Prop

variable {σ : Type u} {α : Type v} {S : System σ α} {ok ok' : σ → α → σ → Prop}

/-- States reached from an initial state by steps that all satisfy `ok`. -/
inductive Reachable (S : System σ α) (ok : σ → α → σ → Prop) : σ → Prop where
  | init {s : σ} : S.init s → Reachable S ok s
  | step {s s' : σ} {a : α} : Reachable S ok s → S.step s a s' → ok s a s' → Reachable S ok s'

/-- The condition that leaves the runs unrestricted. -/
def anyStep (_ : σ) (_ : α) (_ : σ) : Prop := True

instance (s : σ) (a : α) (s' : σ) : Decidable (anyStep s a s') := .isTrue trivial

theorem Reachable.invariant {I : σ → Prop} (hInit : ∀ s, S.init s → I s)
    (hStep : ∀ s a s', I s → S.step s a s' → ok s a s' → I s')
    {s : σ} (h : Reachable S ok s) : I s := by
  induction h with
  | init hs => exact hInit _ hs
  | step _ hs hok ih => exact hStep _ _ _ ih hs hok

/-- A condition may use what the run has already established. -/
theorem Reachable.invariant_of_reachable {I : σ → Prop} (hInit : ∀ s, S.init s → I s)
    (hStep : ∀ s a s', Reachable S ok s → I s → S.step s a s' → ok s a s' → I s')
    {s : σ} (h : Reachable S ok s) : I s := by
  induction h with
  | init hs => exact hInit _ hs
  | step hr hs hok ih => exact hStep _ _ _ hr ih hs hok

theorem Reachable.mono (hle : ∀ s a s', ok s a s' → ok' s a s') {s : σ}
    (h : Reachable S ok s) : Reachable S ok' s := by
  induction h with
  | init hs => exact .init hs
  | step _ hs hok ih => exact .step ih hs (hle _ _ _ hok)

/-- Some number of steps that all satisfy `ok` lead from one state to another. -/
def Leads (S : System σ α) (ok : σ → α → σ → Prop) : σ → σ → Prop :=
  Relation.ReflTransGen fun s s' => ∃ a, S.step s a s' ∧ ok s a s'

theorem Reachable.leads {s s' : σ} (h : Reachable S ok s) (hSteps : Leads S ok s s') :
    Reachable S ok s' := by
  induction hSteps with
  | refl => exact h
  | tail _ hLast ih =>
    obtain ⟨a, hStep, hOk⟩ := hLast
    exact .step ih hStep hOk

/-- What conditioned steps preserve holds from the first state in which it does. -/
theorem Leads.mono {ok' : σ → α → σ → Prop} (hle : ∀ s a s', ok s a s' → ok' s a s') {s s' : σ}
    (h : Leads S ok s s') : Leads S ok' s s' := by
  induction h with
  | refl => exact .refl
  | tail _ hLast ih =>
    obtain ⟨a, hs, hOk⟩ := hLast
    exact .tail ih ⟨a, hs, hle _ _ _ hOk⟩

theorem Leads.preserves {I : σ → Prop} (hStep : ∀ s a s', I s → S.step s a s' → ok s a s' → I s')
    {s s' : σ} (h : Leads S ok s s') (hI : I s) : I s' := by
  induction h with
  | refl => exact hI
  | tail _ hLast ih =>
    obtain ⟨a, hs, hOk⟩ := hLast
    exact hStep _ _ _ ih hs hOk

/-- The system of a deterministic step function. -/
def System.ofFun (init : σ → Prop) (next : σ → α → σ) : System σ α where
  init := init
  step s a s' := s' = next s a

/-- Replaying a list of labels of a deterministic system. -/
def replay (next : σ → α → σ) (s : σ) (labels : List α) : σ :=
  labels.foldl next s

theorem reachable_replay {init : σ → Prop} {next : σ → α → σ} {s : σ}
    (hs : Reachable (System.ofFun init next) anyStep s) (labels : List α) :
    Reachable (System.ofFun init next) anyStep (replay next s labels) := by
  induction labels generalizing s with
  | nil => exact hs
  | cons a labels ih => exact ih (.step hs rfl trivial)

/-- All steps of a replay satisfy `ok`. -/
def ReplayMeets (next : σ → α → σ) (ok : σ → α → σ → Prop) : σ → List α → Prop
  | _, [] => True
  | s, a :: labels => ok s a (next s a) ∧ ReplayMeets next ok (next s a) labels

instance [∀ s a s', Decidable (ok s a s')] (next : σ → α → σ) (s : σ) (labels : List α) :
    Decidable (ReplayMeets next ok s labels) :=
  match labels with
  | [] => isTrue trivial
  | a :: labels =>
    haveI : Decidable (ReplayMeets next ok (next s a) labels) := instDecidableReplayMeets ..
    inferInstanceAs (Decidable (_ ∧ _))

theorem leads_replay {init : σ → Prop} {next : σ → α → σ} {s : σ} {labels : List α}
    (h : ReplayMeets next ok s labels) :
    Leads (System.ofFun init next) ok s (replay next s labels) := by
  induction labels generalizing s with
  | nil => exact .refl
  | cons a labels ih => exact .head ⟨a, rfl, h.1⟩ (ih h.2)

end Transition
