import Mathlib.Data.List.Basic

/-!
# Texts processed block by block

A step takes a feedback and a block, the last one possibly short, and gives the output for the block and
the next feedback.
-/

namespace BlockModes

variable {α φ : Type}

/-- `n` blocks of length `k`. -/
def chain (k : Nat) (step : φ → List α → List α × φ) : Nat → φ → List α → List α × φ
  | 0, fb, _ => ([], fb)
  | n + 1, fb, d =>
    let r := step fb (d.take k)
    let rest := chain k step n r.2 (d.drop k)
    (r.1 ++ rest.1, rest.2)

section Chain

variable {k n n' : Nat} {step step' : φ → List α → List α × φ} {fb : φ} {d d' : List α}

theorem chain_succ : chain k step (n + 1) fb d =
    ((step fb (d.take k)).1 ++ (chain k step n (step fb (d.take k)).2 (d.drop k)).1,
      (chain k step n (step fb (d.take k)).2 (d.drop k)).2) := rfl

/-- A text in two parts of which the first one has whole blocks. -/
theorem chain_add (h : d.length = k * n) :
    chain k step (n + n') fb (d ++ d') =
      ((chain k step n fb d).1 ++ (chain k step n' (chain k step n fb d).2 d').1,
        (chain k step n' (chain k step n fb d).2 d').2) := by
  induction n generalizing fb d with
  | zero =>
    obtain rfl := List.length_eq_zero_iff.mp h
    rw [Nat.zero_add]
    rfl
  | succ n ih =>
    rw [Nat.mul_succ] at h
    have hTake : (d ++ d').take k = d.take k := List.take_append_of_le_length (by omega)
    have hDrop : (d ++ d').drop k = d.drop k ++ d' := List.drop_append_of_le_length (by omega)
    have hRest : (d.drop k).length = k * n := by
      rw [List.length_drop]
      omega
    rw [Nat.add_right_comm, chain_succ, hTake, hDrop, ih hRest, chain_succ, List.append_assoc]

/-- Every block of the text satisfies `B`. -/
def Blocks (k : Nat) (B : List α → Prop) : Nat → List α → Prop
  | 0, d => d = []
  | n + 1, d => B (d.take k) ∧ Blocks k B n (d.drop k)

variable {B : List α → Prop} {P : φ → Prop}

theorem Blocks.nil (hB : ∀ b, B b → b ≠ []) (h : Blocks k B n []) : n = 0 := by
  cases n with
  | zero => rfl
  | succ n =>
    have hFirst := h.1
    rw [List.take_nil] at hFirst
    exact absurd rfl (hB [] hFirst)

/-- The feedback satisfies `P`, and the text keeps its length. -/
theorem chain_keeps (hStep : ∀ fb b, P fb → B b → P (step fb b).2 ∧ (step fb b).1.length = b.length)
    (hFb : P fb) (h : Blocks k B n d) :
    P (chain k step n fb d).2 ∧ (chain k step n fb d).1.length = d.length := by
  induction n generalizing fb d with
  | zero =>
    obtain rfl : d = [] := h
    exact ⟨hFb, rfl⟩
  | succ n ih =>
    obtain ⟨hFirst, hRest⟩ := h
    obtain ⟨hNext, hLen⟩ := hStep fb _ hFb hFirst
    obtain ⟨hLast, hLens⟩ := ih hNext hRest
    refine ⟨hLast, ?_⟩
    rw [chain_succ, List.length_append, hLen, hLens, ← List.length_append, List.take_append_drop]

/-- Steps that undo each other make texts that do. -/
theorem chain_inverse (hB : ∀ b, B b → b ≠ [])
    (hStep : ∀ fb b, P fb → B b → P (step fb b).2 ∧ (step fb b).1.length = b.length)
    (hInv : ∀ fb b, P fb → B b → step' fb (step fb b).1 = (b, (step fb b).2)) (hFb : P fb)
    (h : Blocks k B n d) : (chain k step' n fb (chain k step n fb d).1).1 = d := by
  induction n generalizing fb d with
  | zero => exact h.symm
  | succ n ih =>
    obtain ⟨hFirst, hRest⟩ := h
    obtain ⟨hNext, hLen⟩ := hStep fb _ hFb hFirst
    have hUndo := ih hNext hRest
    have hOut : ((step fb (d.take k)).1 ++
        (chain k step n (step fb (d.take k)).2 (d.drop k)).1).take k = (step fb (d.take k)).1 ∧
        ((step fb (d.take k)).1 ++
          (chain k step n (step fb (d.take k)).2 (d.drop k)).1).drop k =
            (chain k step n (step fb (d.take k)).2 (d.drop k)).1 := by
      by_cases hShort : d.length < k
      · -- a short block is the last one
        have hNil : d.drop k = [] := List.drop_eq_nil_of_le (Nat.le_of_lt hShort)
        rw [hNil] at hRest ⊢
        obtain rfl := hRest.nil hB
        rw [List.length_take] at hLen
        change (_ ++ []).take k = _ ∧ (_ ++ []).drop k = []
        rw [List.append_nil]
        exact ⟨List.take_of_length_le (by omega), List.drop_eq_nil_of_le (by omega)⟩
      · rw [List.length_take] at hLen
        exact ⟨List.take_left' (by omega), List.drop_left' (by omega)⟩
    rw [chain_succ, chain_succ]
    dsimp only
    rw [hOut.1, hOut.2, hInv fb _ hFb hFirst]
    dsimp only
    rw [hUndo, List.take_append_drop]

end Chain

end BlockModes
