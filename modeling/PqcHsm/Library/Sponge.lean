import Mathlib.Logic.Function.Iterate

/-!
# Sponges

A state that takes bytes in at the positions below a rate and gives bytes out at them, and a
permutation between the blocks.
-/

/-- Injecting adds: a zero changes nothing, and two bytes at one position are their sum. -/
structure Sponge (σ β : Type) [XorOp β] [Zero β] where
  start : σ
  perm : σ → σ
  inject : σ → Nat → β → σ
  byteAt : σ → Nat → β
  inject_zero : ∀ S p, inject S p 0 = S
  inject_inject : ∀ S p a b, inject (inject S p a) p b = inject S p (a ^^^ b)

namespace Sponge

variable {σ β : Type}

/-- Block `i` of a message; the last one may be short. -/
def block (r i : Nat) (m : List β) : List β := (m.drop (i * r)).take r

section Blocks

variable {r : Nat} {m : List β}

/-- The last position of a block and the others. -/
theorem position_of_full {n : Nat} (h : n % r + 1 = r) :
    (n + 1) % r = 0 ∧ (n + 1) / r = n / r + 1 := by
  have hSucc : n + 1 = (n / r + 1) * r := by
    have hDiv := Nat.div_add_mod' n r
    rw [Nat.add_mul]
    omega
  rw [hSucc]
  exact ⟨Nat.mul_mod_left _ _, Nat.mul_div_cancel _ (by omega)⟩

theorem position_of_lt {n : Nat} (h : n % r + 1 < r) :
    (n + 1) % r = n % r + 1 ∧ (n + 1) / r = n / r := by
  have hSucc : n + 1 = n % r + 1 + n / r * r := by
    have hDiv := Nat.div_add_mod' n r
    omega
  rw [hSucc, Nat.add_mul_mod_self_right, Nat.mod_eq_of_lt h, Nat.add_mul_div_right _ _ (by omega),
    Nat.div_eq_of_lt h, Nat.zero_add]
  simp

theorem block_append {i : Nat} (h : (i + 1) * r ≤ m.length) (t : List β) :
    block r i (m ++ t) = block r i m := by
  have hEnd : i * r + r ≤ m.length := by rwa [Nat.add_mul, Nat.one_mul] at h
  rw [block, block, List.drop_append_of_le_length (by omega), List.take_append_of_le_length]
  rw [List.length_drop]
  omega

/-- The block that is not full yet. -/
theorem block_last (h : 0 < r) : block r (m.length / r) m = m.drop (m.length / r * r) := by
  apply List.take_of_length_le
  have hMod := Nat.mod_lt m.length h
  have hDiv := Nat.div_add_mod' m.length r
  rw [List.length_drop]
  omega

theorem length_block_last (h : 0 < r) : (block r (m.length / r) m).length = m.length % r := by
  have hDiv := Nat.div_add_mod' m.length r
  rw [block_last h, List.length_drop]
  omega

theorem block_concat (h : 0 < r) (t : List β) (hFits : m.length % r + t.length ≤ r) :
    block r (m.length / r) (m ++ t) = block r (m.length / r) m ++ t := by
  have hDiv := Nat.div_add_mod' m.length r
  rw [block_last h, block, List.drop_append_of_le_length (by omega)]
  apply List.take_of_length_le
  rw [List.length_append, List.length_drop]
  omega

end Blocks

variable [XorOp β] [Zero β] (K : Sponge σ β)

def injectAll (S : σ) (p : Nat) : List β → σ
  | [] => S
  | b :: bs => injectAll (K.inject S p b) (p + 1) bs

/-- The state after the first blocks of a message. -/
def absorb (r : Nat) (m : List β) : Nat → σ
  | 0 => K.start
  | n + 1 => K.perm (K.injectAll (absorb r m n) 0 (block r n m))

/-- The state once a message is in that may end within a block. -/
def absorbed (r : Nat) (m : List β) : σ :=
  K.injectAll (K.absorb r m (m.length / r)) 0 (block r (m.length / r) m)

/-- What fills a block: the suffix, zeros up to the last position, and the mark there. -/
def padding (suffix mark : β) : Nat → List β
  | 0 => [suffix ^^^ mark]
  | k + 1 => suffix :: (List.replicate k 0 ++ [mark])

def pad (r : Nat) (suffix mark : β) (m : List β) : List β :=
  m ++ padding suffix mark (r - 1 - m.length % r)

/-- The state the output begins with. -/
def sealed (r : Nat) (suffix mark : β) (m : List β) : σ :=
  K.absorb r (pad r suffix mark m) ((pad r suffix mark m).length / r)

/-- Byte `i` of the output, which has no end. -/
def output (r : Nat) (suffix mark : β) (m : List β) (i : Nat) : β :=
  K.byteAt (K.perm^[i / r] (K.sealed r suffix mark m)) (i % r)

section Laws

variable {K} {S : σ} {r p : Nat} {m : List β}

theorem injectAll_append (bs cs : List β) :
    K.injectAll S p (bs ++ cs) = K.injectAll (K.injectAll S p bs) (p + bs.length) cs := by
  induction bs generalizing S p with
  | nil => rfl
  | cons b bs ih =>
    simp only [List.cons_append, injectAll, List.length_cons]
    rw [ih, Nat.add_right_comm, Nat.add_assoc]

theorem injectAll_zeros (k : Nat) : K.injectAll S p (List.replicate k 0) = S := by
  induction k generalizing p with
  | zero => rfl
  | succ k ih =>
    simp only [List.replicate_succ, injectAll]
    rw [K.inject_zero, ih]

theorem length_padding (suffix mark : β) (k : Nat) : (padding suffix mark k).length = k + 1 := by
  cases k with
  | zero => rfl
  | succ k => simp [padding]

/-- The padding comes down to two bytes, at the first free position and at the last one. -/
theorem injectAll_padding (suffix mark : β) (k : Nat) :
    K.injectAll S p (padding suffix mark k) = K.inject (K.inject S p suffix) (p + k) mark := by
  cases k with
  | zero => exact (K.inject_inject S p suffix mark).symm
  | succ k =>
    simp only [padding, injectAll]
    rw [injectAll_append, injectAll_zeros, List.length_replicate]
    simp only [injectAll]
    rw [Nat.add_assoc, Nat.add_comm 1 k]

theorem absorb_append {n : Nat} (h : n * r ≤ m.length) (t : List β) :
    K.absorb r (m ++ t) n = K.absorb r m n := by
  induction n with
  | zero => rfl
  | succ n ih =>
    simp only [absorb]
    rw [ih (Nat.le_trans (Nat.mul_le_mul_right r n.le_succ) h), block_append h]

theorem absorbed_nil : K.absorbed r [] = K.start := by
  simp [absorbed, absorb, block, injectAll]

theorem injectAll_block (h : 0 < r) (t : List β) (hFits : m.length % r + t.length ≤ r) :
    K.injectAll (K.absorb r (m ++ t) (m.length / r)) 0 (block r (m.length / r) (m ++ t)) =
      K.injectAll (K.absorbed r m) (m.length % r) t := by
  rw [absorb_append (Nat.div_mul_le_self _ _), block_concat h t hFits, injectAll_append,
    length_block_last h, Nat.zero_add, absorbed]

/-- A byte that leaves room in its block. -/
theorem absorbed_concat (b : β) (h : m.length % r + 1 < r) :
    K.absorbed r (m ++ [b]) = K.inject (K.absorbed r m) (m.length % r) b := by
  have hDiv : (m ++ [b]).length / r = m.length / r := by
    rw [List.length_append, List.length_singleton, (position_of_lt h).2]
  rw [absorbed, hDiv, injectAll_block (by omega) [b] (by simp; omega)]
  rfl

/-- A byte that fills its block. -/
theorem absorbed_concat_full (b : β) (h : m.length % r + 1 = r) :
    K.absorbed r (m ++ [b]) = K.perm (K.inject (K.absorbed r m) (m.length % r) b) := by
  have hLen : (m ++ [b]).length = (m.length / r + 1) * r := by
    have hDiv := Nat.div_add_mod' m.length r
    rw [List.length_append, List.length_singleton, Nat.add_mul]
    omega
  have hDiv : (m ++ [b]).length / r = m.length / r + 1 := by
    rw [List.length_append, List.length_singleton, (position_of_full h).2]
  have hRest : block r (m.length / r + 1) (m ++ [b]) = [] := by
    rw [block, ← hLen, List.drop_length, List.take_nil]
  rw [absorbed, hDiv, hRest]
  simp only [absorb, injectAll]
  rw [injectAll_block (by omega) [b] (by simp; omega)]
  rfl

/-- Padding fills the block it is in. -/
theorem length_pad (suffix mark : β) (h : 0 < r) :
    (pad r suffix mark m).length = (m.length / r + 1) * r := by
  have hMod := Nat.mod_lt m.length h
  have hDiv := Nat.div_add_mod' m.length r
  rw [pad, List.length_append, length_padding, Nat.add_mul]
  omega

theorem sealed_eq (suffix mark : β) (h : 0 < r) :
    K.sealed r suffix mark m =
      K.perm (K.inject (K.inject (K.absorbed r m) (m.length % r) suffix) (r - 1) mark) := by
  have hMod := Nat.mod_lt m.length h
  have hLast : m.length % r + (r - 1 - m.length % r) = r - 1 := by omega
  rw [sealed, length_pad suffix mark h, Nat.mul_div_cancel _ h, absorb, pad,
    injectAll_block h _ (by rw [length_padding]; omega), injectAll_padding, hLast]

end Laws

end Sponge
