import Mathlib.Data.List.Basic

/-!
# Reading a stream

An algorithm that takes items from a stream one by one until it has enough, and takes no more.
-/

structure Reader (β σ : Type) where
  start : σ
  feed : σ → β → σ
  full : σ → Bool

namespace Reader

variable {β σ : Type} (R : Reader β σ)

def read (bs : List β) : σ := bs.foldl R.feed R.start

/-- The items are not enough, and never were. -/
def Open (bs : List β) : Prop := ∀ p, p <+: bs → R.full (R.read p) = false

/-- The items are enough, and any fewer are not. -/
def Stops (bs : List β) : Prop :=
  R.full (R.read bs) = true ∧ ∀ p, p <+: bs → p ≠ bs → R.full (R.read p) = false

section Rules

variable {R} {bs : List β} {b : β}

theorem read_concat (bs : List β) (b : β) : R.read (bs ++ [b]) = R.feed (R.read bs) b := by
  rw [read, List.foldl_append]
  rfl

theorem open_nil (h : R.full R.start = false) : R.Open [] := by
  intro p hp
  rw [List.prefix_nil.mp hp]
  exact h

theorem Open.concat (hOpen : R.Open bs) (h : R.full (R.feed (R.read bs) b) = false) :
    R.Open (bs ++ [b]) := by
  intro p hp
  obtain rfl | hBefore := List.prefix_concat_iff.mp hp
  · rwa [read_concat]
  · exact hOpen p hBefore

theorem Open.stops (hOpen : R.Open bs) (h : R.full (R.feed (R.read bs) b) = true) :
    R.Stops (bs ++ [b]) := by
  constructor
  · rwa [read_concat]
  · intro p hp hNe
    obtain rfl | hBefore := List.prefix_concat_iff.mp hp
    · exact absurd rfl hNe
    · exact hOpen p hBefore

theorem range_prefix (stream : Nat → β) {t k : Nat} (hLe : t ≤ k) :
    (List.range t).map stream <+: (List.range k).map stream := by
  obtain ⟨d, rfl⟩ := Nat.exists_eq_add_of_le hLe
  rw [List.range_add, List.map_append]
  exact List.prefix_append _ _

/-- On one stream the reader stops behind every point at which it has not had enough. -/
theorem Open.lt_of_stops {stream : Nat → β} {t k : Nat} (hOpen : R.Open ((List.range t).map stream))
    (hStops : R.Stops ((List.range k).map stream)) : t < k := by
  by_contra hLe
  have hPrefix := range_prefix stream (Nat.le_of_not_lt hLe)
  exact Bool.false_ne_true ((hOpen _ hPrefix).symm.trans hStops.1)

/-- On one stream there is one place to stop. -/
theorem Stops.unique {stream : Nat → β} {t k : Nat} (ht : R.Stops ((List.range t).map stream))
    (hk : R.Stops ((List.range k).map stream)) : t = k := by
  have hOrder {t k : Nat} (ht : R.Stops ((List.range t).map stream))
      (hk : R.Stops ((List.range k).map stream)) : k ≤ t := by
    by_contra hLess
    have hNe : (List.range t).map stream ≠ (List.range k).map stream := by
      intro hEq
      have hLen := congrArg List.length hEq
      rw [List.length_map, List.length_map, List.length_range, List.length_range] at hLen
      omega
    have hPrefix := range_prefix stream (Nat.le_of_lt (Nat.lt_of_not_le hLess))
    exact Bool.false_ne_true ((hk.2 _ hPrefix hNe).symm.trans ht.1)
  exact Nat.le_antisymm (hOrder hk ht) (hOrder ht hk)

end Rules

end Reader
