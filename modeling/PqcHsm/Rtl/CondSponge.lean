import PqcHsm.Rtl.TrngCond
import Mathlib.Tactic.SplitIfs

/-!
# The conditioner is a sponge over bits

The bits taken since the reset go into the lanes in order, 1088 to a block, and the words are the
halves of the first four lanes after each block. While a block is permuted and its words go out no bit
is taken; a bound on these cycles comes with the state.
-/

namespace PqcHsm

/-- A bit at a position: 64 positions to a lane. -/
def Lanes.xorBit (A : Lanes) (p : Nat) (b : BitVec 1) : Lanes :=
  A.xorLane (p / 64) (b.setWidth 64 <<< (p % 64))

def bitSponge : Sponge Lanes (BitVec 1) where
  start := Lanes.zero
  perm := Lanes.permute
  inject := Lanes.xorBit
  byteAt := fun A p => ((A.lane (p / 64)).extractLsb' (p % 64) 1)
  inject_zero := by
    intro A p
    have hZero : (0 : BitVec 1).setWidth 64 <<< (p % 64) = 0 := by simp
    rw [Lanes.xorBit, hZero, Lanes.xorLane_zero]
  inject_inject := by
    intro A p a b
    simp only [Lanes.xorBit]
    rw [Lanes.xorLane_xorLane, BitVec.setWidth_xor, BitVec.shiftLeft_xor_distrib]

/-- The bits in a block. -/
def COND_RATE : Nat := 1088

/-- The state after the first `n` blocks. -/
def condBlocks (bits : List (BitVec 1)) (n : Nat) : Lanes := bitSponge.absorb COND_RATE bits n

/-- Word `i` of the output: eight words to a block. -/
def condWord (bits : List (BitVec 1)) (i : Nat) : BitVec 32 :=
  ((condBlocks bits (i / 8 + 1)).lane (i % 8 / 2)).extractLsb' (32 * (i % 2)) 32

/-! ### Bits and lanes -/

/-- Bits side by side in a lane, the first one at an offset. -/
def packFrom (o : Nat) : List (BitVec 1) → BitVec 64
  | [] => 0
  | b :: bs => b.setWidth 64 <<< o ^^^ packFrom (o + 1) bs

section Pack

variable {A : Lanes} {i o : Nat}

theorem injectAll_pack (bs : List (BitVec 1)) (h : o + bs.length ≤ 64) :
    bitSponge.injectAll A (64 * i + o) bs = A.xorLane i (packFrom o bs) := by
  induction bs generalizing A o with
  | nil => exact (Lanes.xorLane_zero A i).symm
  | cons b bs ih =>
    rw [List.length_cons] at h
    have hLane : (64 * i + o) / 64 = i := by omega
    have hBit : (64 * i + o) % 64 = o := by omega
    change bitSponge.injectAll (A.xorBit (64 * i + o) b) (64 * i + o + 1) bs = _
    rw [Nat.add_assoc, ih (by omega), Lanes.xorBit, hLane, hBit, Lanes.xorLane_xorLane]
    rfl

theorem packFrom_concat (bs : List (BitVec 1)) (b : BitVec 1) :
    packFrom o (bs ++ [b]) = packFrom o bs ^^^ b.setWidth 64 <<< (o + bs.length) := by
  induction bs generalizing o with
  | nil => simp [packFrom]
  | cons c bs ih =>
    rw [List.cons_append, packFrom, ih, packFrom, BitVec.xor_assoc, List.length_cons,
      Nat.add_right_comm, Nat.add_assoc]

theorem ushiftRight_bit (b : BitVec 1) (h : o + 1 < 64) :
    (b.setWidth 64 <<< (o + 1)) >>> 1 = b.setWidth 64 <<< o := by
  apply BitVec.eq_of_getLsbD_eq
  intro k hk
  simp only [BitVec.getLsbD_ushiftRight, BitVec.getLsbD_shiftLeft, BitVec.getLsbD_setWidth]
  by_cases hEq : k = o
  · subst hEq
    have hIn : 1 + k < 64 ∧ ¬1 + k < k + 1 ∧ 1 + k - (k + 1) = 0 := by omega
    simp [hIn, hk]
  · by_cases hLt : k < o
    · have hLow : 1 + k < o + 1 := by omega
      simp [hLt, hLow]
    · have hOut : ∀ j, 0 < j → b.getLsbD j = false := fun j hj => BitVec.getLsbD_of_ge b j hj
      rw [show 1 + k - (o + 1) = k - o by omega, hOut (k - o) (by omega)]
      simp

theorem packFrom_ushiftRight (bs : List (BitVec 1)) (h : o + 1 + bs.length ≤ 64) :
    packFrom (o + 1) bs >>> 1 = packFrom o bs := by
  induction bs generalizing o with
  | nil => exact BitVec.zero_ushiftRight
  | cons b bs ih =>
    rw [List.length_cons] at h
    rw [packFrom, BitVec.ushiftRight_xor_distrib, ushiftRight_bit b (by omega), ih (by omega), packFrom]

theorem shiftIn_eq (sr : BitVec 64) (b : BitVec 1) :
    TrngCond.shiftIn sr b = sr >>> 1 ^^^ b.setWidth 64 <<< 63 := by
  apply BitVec.eq_of_getLsbD_eq
  intro k hk
  simp only [TrngCond.shiftIn, BitVec.getLsbD_append, BitVec.getLsbD_extractLsb', BitVec.getLsbD_xor,
    BitVec.getLsbD_ushiftRight, BitVec.getLsbD_shiftLeft, BitVec.getLsbD_setWidth]
  by_cases hLast : k = 63
  · subst hLast
    simp
  · have hLt : k < 63 := by omega
    simp [hLt]

/-- The shift register holds the bits of a lane at its upper end. -/
theorem shiftIn_packFrom (bs : List (BitVec 1)) (b : BitVec 1) (h : bs.length < 64) :
    TrngCond.shiftIn (packFrom (64 - bs.length) bs) b =
      packFrom (64 - (bs ++ [b]).length) (bs ++ [b]) := by
  have hLen : 64 - bs.length = 64 - (bs.length + 1) + 1 := by omega
  have hLast : 64 - (bs.length + 1) + bs.length = 63 := by omega
  rw [shiftIn_eq, List.length_append, List.length_singleton, packFrom_concat, hLast, hLen,
    packFrom_ushiftRight bs (by omega)]

end Pack

end PqcHsm
