import Mathlib.Algebra.Order.Ring.Nat
import Mathlib.Data.List.Basic
import Mathlib.Tactic.Ring

/-!
# Fields of a byte string

A byte string read as a number, the lowest byte first, and cut into fields of the same width. An
accumulator takes the bytes one by one and gives the fields one by one.
-/

def leValue (bytes : List (BitVec 8)) : Nat := bytes.foldr (fun b n => b.toNat + 256 * n) 0

/-- The field at position `i` of those of width `d`. -/
def leField (bytes : List (BitVec 8)) (d i : Nat) : Nat := leValue bytes / 2 ^ (d * i) % 2 ^ d

theorem leValue_append (xs ys : List (BitVec 8)) :
    leValue (xs ++ ys) = leValue xs + 2 ^ (8 * xs.length) * leValue ys := by
  induction xs with
  | nil => simp [leValue]
  | cons x xs ih =>
    have hPower : 2 ^ (8 * (x :: xs).length) = 256 * 2 ^ (8 * xs.length) := by
      rw [List.length_cons, Nat.mul_succ, Nat.pow_add, Nat.mul_comm]
    change x.toNat + 256 * leValue (xs ++ ys) = x.toNat + 256 * leValue xs + _
    rw [ih, hPower]
    ring

theorem leValue_lt (bytes : List (BitVec 8)) : leValue bytes < 2 ^ (8 * bytes.length) := by
  induction bytes with
  | nil => exact Nat.one_pos
  | cons b bytes ih =>
    have hPower : 2 ^ (8 * (b :: bytes).length) = 256 * 2 ^ (8 * bytes.length) := by
      rw [List.length_cons, Nat.mul_succ, Nat.pow_add, Nat.mul_comm]
    have hb := b.isLt
    change b.toNat + 256 * leValue bytes < _
    omega

/-- An accumulator `acc` with `n` bits in it, which has taken `m` bytes of the string and given `e`
fields of width `d`. -/
structure Unpacks (bytes : List (BitVec 8)) (d m e acc n : Nat) : Prop where
  inside : m ≤ bytes.length
  room : d * e + n = 8 * m
  value : acc = leValue (bytes.take m) / 2 ^ (d * e)

namespace Unpacks

variable {bytes : List (BitVec 8)} {d m e acc n : Nat}

theorem start (bytes : List (BitVec 8)) (d : Nat) : Unpacks bytes d 0 0 0 0 := by
  constructor
  · exact Nat.zero_le _
  · rfl
  · simp [leValue]

theorem acc_lt (h : Unpacks bytes d m e acc n) : acc < 2 ^ n := by
  have hLess := leValue_lt (bytes.take m)
  rw [List.length_take, Nat.min_eq_left h.inside, ← h.room, Nat.pow_add] at hLess
  rw [h.value]
  exact Nat.div_lt_of_lt_mul hLess

/-- A byte goes in above the bits that are there. -/
theorem feed (h : Unpacks bytes d m e acc n) (hm : m < bytes.length) :
    Unpacks bytes d (m + 1) e (acc ||| (bytes[m].toNat <<< n)) (n + 8) := by
  have hJoin : acc ||| (bytes[m].toNat <<< n) = acc + bytes[m].toNat * 2 ^ n := by
    rw [Nat.or_comm, ← Nat.shiftLeft_add_eq_or_of_lt h.acc_lt, Nat.shiftLeft_eq, Nat.add_comm]
  have hTake : bytes.take (m + 1) = bytes.take m ++ [bytes[m]] := by
    rw [List.take_add_one, List.getElem?_eq_getElem hm]
    rfl
  have hOne : leValue [bytes[m]] = bytes[m].toNat := by simp [leValue]
  constructor
  · exact hm
  · have hRoom := h.room
    omega
  · rw [hJoin, hTake, leValue_append, List.length_take, Nat.min_eq_left h.inside, hOne, ← h.room,
      Nat.pow_add, h.value, Nat.mul_assoc, Nat.add_mul_div_left _ _ (Nat.two_pow_pos _),
      Nat.mul_comm (2 ^ n)]

/-- The lowest bits are the next field. -/
theorem field (h : Unpacks bytes d m e acc n) (hd : d ≤ n) : acc % 2 ^ d = leField bytes d e := by
  have hSplit : leValue bytes = leValue (bytes.take m) + 2 ^ (8 * m) * leValue (bytes.drop m) := by
    have hAll := leValue_append (bytes.take m) (bytes.drop m)
    rwa [List.take_append_drop, List.length_take, Nat.min_eq_left h.inside] at hAll
  obtain ⟨r, rfl⟩ := Nat.exists_eq_add_of_le hd
  rw [leField, hSplit, ← h.room, Nat.pow_add, Nat.mul_assoc, Nat.add_mul_div_left _ _ (Nat.two_pow_pos _),
    ← h.value, Nat.pow_add, Nat.mul_assoc, Nat.add_mul_mod_self_left]

theorem pop (h : Unpacks bytes d m e acc n) (hd : d ≤ n) :
    Unpacks bytes d m (e + 1) (acc >>> d) (n - d) := by
  constructor
  · exact h.inside
  · have hRoom := h.room
    rw [Nat.mul_succ]
    omega
  · rw [Nat.shiftRight_eq_div_pow, h.value, Nat.div_div_eq_div_mul, ← Nat.pow_add, Nat.mul_succ]

/-- All the bytes are in and all the fields are out. -/
theorem finish (h : Unpacks bytes d m e acc n) (hAll : d * e = 8 * bytes.length) :
    m = bytes.length ∧ n = 0 ∧ acc = 0 := by
  have hRoom := h.room
  have hInside := h.inside
  have hZero : n = 0 := by omega
  have hLess := h.acc_lt
  rw [hZero] at hLess
  exact ⟨by omega, hZero, Nat.lt_one_iff.mp hLess⟩

end Unpacks
