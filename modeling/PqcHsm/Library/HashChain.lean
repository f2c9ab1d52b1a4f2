import Mathlib.Data.List.Induction

/-!
# Hash chains

A chain folds a step over a list of entries. Two chains of one length that end in the same digest
have the same entries, or the step takes two different inputs of theirs to one digest.
-/

namespace HashChain

variable {D W : Type} (step : D → W → D) (d : D)

/-- The digest after all entries. -/
def digest (ws : List W) : D := ws.foldl step d

/-- The input of the `i`-th step. -/
def input (ws : List W) (i : Nat) : Option (D × W) := ws[i]?.map fun w => (digest step d (ws.take i), w)

/-- Step `i` takes different inputs of the two chains to one digest. -/
def CollidesAt (ws ws' : List W) (i : Nat) : Prop :=
  ∃ x x', input step d ws i = some x ∧ input step d ws' i = some x' ∧ x ≠ x' ∧
    step x.1 x.2 = step x'.1 x'.2

variable {step d}

@[simp] theorem digest_nil : digest step d [] = d := rfl

theorem digest_cons (w : W) (ws : List W) : digest step d (w :: ws) = digest step (step d w) ws := rfl

theorem digest_concat (ws : List W) (w : W) :
    digest step d (ws ++ [w]) = step (digest step d ws) w :=
  List.foldl_append

theorem input_concat_last (ws : List W) (w : W) :
    input step d (ws ++ [w]) ws.length = some (digest step d ws, w) := by
  rw [input, List.getElem?_concat_length, List.take_left' rfl]
  rfl

theorem input_concat_of_lt {ws : List W} {i : Nat} (h : i < ws.length) (w : W) :
    input step d (ws ++ [w]) i = input step d ws i := by
  rw [input, input, List.getElem?_append_left h, List.take_append_of_le_length (Nat.le_of_lt h)]

/-- A chain binds its entries. -/
theorem eq_or_collides {ws ws' : List W} (hLen : ws.length = ws'.length)
    (hDigest : digest step d ws = digest step d ws') :
    ws = ws' ∨ ∃ i, i < ws.length ∧ CollidesAt step d ws ws' i := by
  induction ws using List.reverseRecOn generalizing ws' with
  | nil => exact .inl (List.length_eq_zero_iff.mp hLen.symm).symm
  | append_singleton ws w ih =>
    cases ws' using List.reverseRecOn with
    | nil => exact absurd hLen (by simp)
    | append_singleton ws' w' =>
      have hLen' : ws.length = ws'.length := by simpa using hLen
      rw [digest_concat, digest_concat] at hDigest
      by_cases hSame : (digest step d ws, w) = (digest step d ws', w')
      · obtain ⟨hPrev, rfl⟩ := Prod.mk.inj hSame
        obtain rfl | ⟨i, hi, x, x', hx, hx', hCollide⟩ := ih hLen' hPrev
        · exact .inl rfl
        · refine .inr ⟨i, by simp; omega, x, x', ?_, ?_, hCollide⟩
          · rw [input_concat_of_lt hi, hx]
          · rw [input_concat_of_lt (hLen' ▸ hi), hx']
      · refine .inr ⟨ws.length, by simp, _, _, input_concat_last ws w, ?_, hSame, hDigest⟩
        rw [hLen', input_concat_last]

end HashChain
