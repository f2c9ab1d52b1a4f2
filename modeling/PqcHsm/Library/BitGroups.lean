import Mathlib.Algebra.Group.Nat.Defs
import Mathlib.Data.List.Basic

/-!
# Numbers in a stream of bits

Numbers of a fixed width one after another, the low bit of each first, and the groups that a stream of
bits falls into.
-/

namespace BitGroups

/-- The low `n` bits of a number, the lowest first. -/
def bitsOf : Nat → Nat → List Bool
  | 0, _ => []
  | n + 1, x => decide (x % 2 = 1) :: bitsOf n (x / 2)

def ofBits : List Bool → Nat
  | [] => 0
  | b :: bs => b.toNat + 2 * ofBits bs

def stream (n : Nat) (xs : List Nat) : List Bool := xs.flatMap (bitsOf n)

/-- The complete groups of `n` bits, as numbers. -/
def groups (n : Nat) (bits : List Bool) : List Nat :=
  (List.range (bits.length / n)).map fun i => ofBits ((bits.drop (n * i)).take n)

/-! ### The bits of a number -/

@[simp]
theorem length_bitsOf (n x : Nat) : (bitsOf n x).length = n := by
  induction n generalizing x with
  | zero => rfl
  | succ n ih => rw [bitsOf, List.length_cons, ih]

theorem ofBits_bitsOf (n x : Nat) : ofBits (bitsOf n x) = x % 2 ^ n := by
  induction n generalizing x with
  | zero => simp [bitsOf, ofBits, Nat.mod_one]
  | succ n ih =>
    have hBit : (decide (x % 2 = 1)).toNat = x % 2 := by
      obtain h | h := Nat.mod_two_eq_zero_or_one x
      · rw [h]
        rfl
      · rw [h]
        rfl
    rw [bitsOf, ofBits, ih, hBit, Nat.pow_succ', Nat.mod_mul]

theorem bitsOf_ofBits (bs : List Bool) : bitsOf bs.length (ofBits bs) = bs := by
  induction bs with
  | nil => rfl
  | cons b bs ih =>
    have hHead : decide ((b.toNat + 2 * ofBits bs) % 2 = 1) = b := by
      cases b <;> simp
    have hTail : (b.toNat + 2 * ofBits bs) / 2 = ofBits bs := by
      cases b
      · simp
      · simp; omega
    rw [ofBits, List.length_cons, bitsOf, hHead, hTail, ih]

theorem bitsOf_mod (n x : Nat) : bitsOf n (x % 2 ^ n) = bitsOf n x := by
  have h := bitsOf_ofBits (bitsOf n x)
  rwa [length_bitsOf, ofBits_bitsOf] at h

theorem bitsOf_add (n k x : Nat) : bitsOf (n + k) x = bitsOf n x ++ bitsOf k (x / 2 ^ n) := by
  induction n generalizing x with
  | zero => simp [bitsOf]
  | succ n ih =>
    rw [Nat.add_right_comm, bitsOf, ih, bitsOf, Nat.div_div_eq_div_mul, Nat.pow_succ',
      List.cons_append]

/-- A number put above another one. -/
theorem bitsOf_join {n x : Nat} (k y : Nat) (hx : x < 2 ^ n) :
    bitsOf (n + k) (x + y * 2 ^ n) = bitsOf n x ++ bitsOf k y := by
  have hLow : bitsOf n (x + y * 2 ^ n) = bitsOf n x := by
    rw [← bitsOf_mod, Nat.add_mul_mod_self_right, bitsOf_mod]
  have hHigh : (x + y * 2 ^ n) / 2 ^ n = y := by
    rw [Nat.add_mul_div_right _ _ (Nat.two_pow_pos n), Nat.div_eq_of_lt hx, Nat.zero_add]
  rw [bitsOf_add, hLow, hHigh]

/-! ### Streams and groups -/

@[simp]
theorem length_stream (n : Nat) (xs : List Nat) : (stream n xs).length = n * xs.length := by
  induction xs with
  | nil => rfl
  | cons x xs ih =>
    rw [stream, List.flatMap_cons, List.length_append, length_bitsOf, List.length_cons, Nat.mul_succ,
      Nat.add_comm]
    exact congrArg (· + n) ih

theorem stream_append (n : Nat) (xs ys : List Nat) :
    stream n (xs ++ ys) = stream n xs ++ stream n ys := List.flatMap_append

theorem groups_short {n : Nat} {bits : List Bool} (h : bits.length < n) : groups n bits = [] := by
  rw [groups, Nat.div_eq_of_lt h]
  rfl

theorem groups_cons {n : Nat} {g : List Bool} (hn : 0 < n) (hg : g.length = n) (more : List Bool) :
    groups n (g ++ more) = ofBits g :: groups n more := by
  have hCount : (g ++ more).length / n = more.length / n + 1 := by
    rw [List.length_append, hg, Nat.add_comm, Nat.add_div_right _ hn]
  have hFirst : ((g ++ more).drop (n * 0)).take n = g := by
    rw [Nat.mul_zero, List.drop_zero, List.take_left' hg]
  have hRest (i : Nat) : (g ++ more).drop (n * (i + 1)) = more.drop (n * i) := by
    rw [Nat.mul_succ, Nat.add_comm, ← List.drop_drop, List.drop_left' hg]
  rw [groups, hCount, List.range_succ_eq_map, List.map_cons, hFirst, List.map_map, groups]
  congr 1
  apply List.map_congr_left
  intro i _
  exact congrArg (fun bits => ofBits (bits.take n)) (hRest i)

/-- The numbers of a stream come back, and then what follows it. -/
theorem groups_stream {n : Nat} (hn : 0 < n) (xs : List Nat) (more : List Bool) :
    groups n (stream n xs ++ more) = xs.map (· % 2 ^ n) ++ groups n more := by
  induction xs with
  | nil => rfl
  | cons x xs ih =>
    have hSplit : stream n (x :: xs) ++ more = bitsOf n x ++ (stream n xs ++ more) := by
      rw [stream, List.flatMap_cons, List.append_assoc]
      rfl
    rw [hSplit, groups_cons hn (length_bitsOf n x), ih, ofBits_bitsOf]
    rfl

/-- The groups of a part of the stream are the first ones of the stream. -/
theorem groups_left (n : Nat) (bits more : List Bool) :
    groups n bits = (groups n (bits ++ more)).take (bits.length / n) := by
  have hCount : min (bits.length / n) ((bits ++ more).length / n) = bits.length / n := by
    apply Nat.min_eq_left
    apply Nat.div_le_div_right
    rw [List.length_append]
    exact Nat.le_add_right _ _
  rw [groups, groups, ← List.map_take, List.take_range, hCount]
  apply List.map_congr_left
  intro i hi
  have hEnd : n * i + n ≤ bits.length := by
    have hLess := List.mem_range.mp hi
    have hMul := Nat.mul_le_mul_left n (Nat.succ_le_of_lt hLess)
    rw [Nat.mul_succ] at hMul
    exact Nat.le_trans hMul (Nat.mul_div_le _ _)
  have hFits : n ≤ (bits.drop (n * i)).length := by
    rw [List.length_drop]
    omega
  rw [List.drop_append_of_le_length (by omega), List.take_append_of_le_length hFits]

/-- Numbers of one width, cut into groups of another one and read back in their own. -/
theorem groups_of_prefix {n m : Nat} (hn : 0 < n) {xs ys : List Nat} {more : List Bool}
    (hEq : stream n xs = stream m ys ++ more) :
    groups n (stream m ys) = (xs.map (· % 2 ^ n)).take (m * ys.length / n) := by
  have hAll := groups_stream hn xs []
  rw [@groups_short n [] hn, List.append_nil, List.append_nil, hEq] at hAll
  rw [groups_left n (stream m ys) more, hAll, length_stream]

end BitGroups
