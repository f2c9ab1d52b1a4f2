import Mathlib.Data.BitVec
import PqcHsm.Library.Clocked
import PqcHsm.Library.Sponge
import Mathlib.Tactic.SplitIfs

/-!
# The Keccak permutation core

`keccak_f1600`: twenty-five lanes, one round an edge, and a write port that is closed while the rounds
run. Lane `x + 5 * y` has the coordinates `x` and `y`; there is no lane from address 25 on.
-/

namespace PqcHsm

abbrev Lanes := Vector (BitVec 64) 25

def Lanes.zero : Lanes := Vector.replicate 25 0

def Lanes.lane (A : Lanes) (i : Nat) : BitVec 64 := A[i]?.getD 0

/-- The round constants `RC[0..23]`. -/
def rc (r : BitVec 5) : BitVec 64 :=
  [0x0000000000000001#64, 0x0000000000008082#64, 0x800000000000808A#64, 0x8000000080008000#64,
    0x000000000000808B#64, 0x0000000080000001#64, 0x8000000080008081#64, 0x8000000000008009#64,
    0x000000000000008A#64, 0x0000000000000088#64, 0x0000000080008009#64, 0x000000008000000A#64,
    0x000000008000808B#64, 0x800000000000008B#64, 0x8000000000008089#64, 0x8000000000008003#64,
    0x8000000000008002#64, 0x8000000000000080#64, 0x000000000000800A#64, 0x800000008000000A#64,
    0x8000000080008081#64, 0x8000000000008080#64, 0x0000000080000001#64,
    0x8000000080008008#64].getD r.toNat 0

def rotl (x : BitVec 64) (n : Nat) : BitVec 64 := if n = 0 then x else x <<< n ||| x >>> (64 - n)

/-- The rotations of `ρ`. -/
def rhoOff (x y : Nat) : Nat :=
  [0, 36, 3, 41, 18, 1, 44, 10, 45, 2, 62, 6, 43, 15, 61, 28, 55, 25, 21, 56, 27, 20, 39,
    8].getD (x * 5 + y) 14

/-- The coordinates in the order of the loops. -/
def lanePairs : List (Nat × Nat) := (List.range 5).flatMap fun x => (List.range 5).map fun y => (x, y)

namespace Lanes

variable (A : Lanes)

def parity : Vector (BitVec 64) 5 :=
  Vector.ofFn fun x => A.lane x ^^^ A.lane (x + 5) ^^^ A.lane (x + 10) ^^^ A.lane (x + 15) ^^^ A.lane (x + 20)

def theta : Lanes :=
  let C := A.parity
  let D := Vector.ofFn fun x : Fin 5 => C[(x.val + 4) % 5]?.getD 0 ^^^ rotl (C[(x.val + 1) % 5]?.getD 0) 1
  lanePairs.foldl (fun R (x, y) => R.setIfInBounds (x + 5 * y) (A.lane (x + 5 * y) ^^^ D[x]?.getD 0)) zero

/-- `ρ` and `π`. -/
def rhoPi : Lanes :=
  lanePairs.foldl
    (fun B (x, y) =>
      B.setIfInBounds (y + 5 * ((2 * x + 3 * y) % 5)) (rotl (A.lane (x + 5 * y)) (rhoOff x y))) zero

def chi : Lanes :=
  lanePairs.foldl
    (fun R (x, y) =>
      R.setIfInBounds (x + 5 * y)
        (A.lane (x + 5 * y) ^^^ (~~~A.lane ((x + 1) % 5 + 5 * y) &&& A.lane ((x + 2) % 5 + 5 * y)))) zero

/-- `Anext`: one round, with the constant of `r`. -/
@[irreducible]
def round (r : BitVec 5) : Lanes :=
  let R := A.theta.rhoPi.chi
  R.setIfInBounds 0 (R.lane 0 ^^^ rc r)

/-- The rounds from `r` on, `n` of them. -/
def rounds (A : Lanes) (r : BitVec 5) : Nat → Lanes
  | 0 => A
  | n + 1 => rounds (A.round r) (r + 1) n

theorem rounds_succ (r : BitVec 5) (n : Nat) :
    A.rounds r (n + 1) = (A.round r).rounds (r + 1) n := rfl

/-- All the rounds. -/
def permute : Lanes := A.rounds 0 24

end Lanes

example : Lanes.zero.permute.lane 0 = 0xF1258F7940E1DDE7 := by decide +kernel

structure KeccakF1600 where
  A : Lanes
  roundCnt : BitVec 5
  busy : Bool
  done : Bool

structure KeccakIn where
  start : Bool
  wrEn : Bool
  wrAddr : BitVec 5
  wrData : BitVec 64

namespace KeccakF1600

variable (k : KeccakF1600)

def reset : KeccakF1600 := ⟨Lanes.zero, 0, false, false⟩

def next (x : KeccakIn) : KeccakF1600 :=
  if !k.busy then
    let A := if x.wrEn then k.A.setIfInBounds x.wrAddr.toNat x.wrData else k.A
    if x.start then ⟨A, 0, true, false⟩ else { k with A := A }
  else if k.roundCnt = 23 then { k with A := k.A.round k.roundCnt, busy := false, done := true }
  else { k with A := k.A.round k.roundCnt, roundCnt := k.roundCnt + 1 }

/-- What the lanes come to once the rounds that run are over. -/
def result : Lanes := if k.busy then k.A.rounds k.roundCnt (24 - k.roundCnt.toNat) else k.A

/-- A round that runs is one of the 24, and a core that runs is not done. -/
structure InRound : Prop where
  lt : k.busy = true → k.roundCnt.toNat < 24
  notDone : k.busy = true → k.done = false

/-- The cycles until the rounds are over and seen to be. -/
def left : Nat := if k.busy then 25 - k.roundCnt.toNat else 1

section Steps

variable {k} {x : KeccakIn}

theorem next_of_idle (h : k.busy = false) (hStart : x.start = false) :
    k.next x =
      { k with A := if x.wrEn then k.A.setIfInBounds x.wrAddr.toNat x.wrData else k.A } := by
  simp only [next, h, hStart, Bool.not_false, Bool.false_eq_true, if_true, if_false]

theorem next_of_start (h : k.busy = false) (hStart : x.start = true) :
    k.next x =
      ⟨if x.wrEn then k.A.setIfInBounds x.wrAddr.toNat x.wrData else k.A, 0, true, false⟩ := by
  simp only [next, h, hStart, Bool.not_false, if_true]

theorem next_last (h : k.busy = true) (hLast : k.roundCnt = 23) :
    k.next x = { k with A := k.A.round k.roundCnt, busy := false, done := true } := by
  simp only [next, h, Bool.not_true, Bool.false_eq_true, if_false, if_pos hLast]

theorem next_round (h : k.busy = true) (hRound : k.roundCnt ≠ 23) :
    k.next x = { k with A := k.A.round k.roundCnt, roundCnt := k.roundCnt + 1 } := by
  simp only [next, h, Bool.not_true, Bool.false_eq_true, if_false, if_neg hRound]

theorem InRound.toNat_succ (h : k.InRound) (hBusy : k.busy = true) (hRound : k.roundCnt ≠ 23) :
    (k.roundCnt + 1).toNat = k.roundCnt.toNat + 1 ∧ k.roundCnt.toNat + 1 < 24 := by
  have hLt := h.lt hBusy
  have hNe : k.roundCnt.toNat ≠ 23 := fun hEq => hRound (BitVec.eq_of_toNat_eq hEq)
  rw [BitVec.toNat_add]
  simp
  omega

theorem InRound.next (h : k.InRound) : (k.next x).InRound := by
  cases hBusy : k.busy with
  | false =>
    cases hStart : x.start with
    | false =>
      rw [next_of_idle hBusy hStart]
      constructor <;> intro hRuns <;> exact absurd (hBusy.symm.trans hRuns) Bool.false_ne_true
    | true =>
      rw [next_of_start hBusy hStart]
      constructor
      · intro _
        exact Nat.succ_pos 23
      · intro _
        rfl
  | true =>
    by_cases hLast : k.roundCnt = 23
    · rw [next_last hBusy hLast]
      constructor <;> intro hRuns <;> cases hRuns
    · have hSucc := h.toNat_succ hBusy hLast
      rw [next_round hBusy hLast]
      constructor
      · intro _
        exact hSucc.1 ▸ hSucc.2
      · exact h.notDone

/-- The ports do nothing while the rounds run. -/
theorem result_next (h : k.InRound) (hBusy : k.busy = true) : (k.next x).result = k.result := by
  by_cases hLast : k.roundCnt = 23
  · have hLeft : 24 - k.roundCnt.toNat = 1 := by rw [hLast]; rfl
    rw [next_last hBusy hLast, result, result, if_neg Bool.false_ne_true, if_pos hBusy, hLeft]
    rfl
  · obtain ⟨hCnt, hLt⟩ := h.toNat_succ hBusy hLast
    have hLeft : 24 - k.roundCnt.toNat = 24 - (k.roundCnt + 1).toNat + 1 := by omega
    rw [next_round hBusy hLast, result, result, if_pos hBusy, if_pos hBusy, hLeft, Lanes.rounds_succ]

theorem left_pos (h : k.InRound) : 0 < k.left ∧ k.left ≤ 25 := by
  unfold left
  split_ifs with hBusy
  · have hLt := h.lt hBusy
    omega
  · omega

theorem left_next (h : k.InRound) (hBusy : k.busy = true) : (k.next x).left < k.left := by
  have hLt := h.lt hBusy
  by_cases hLast : k.roundCnt = 23
  · rw [next_last hBusy hLast, left, left, if_pos hBusy, if_neg Bool.false_ne_true]
    omega
  · obtain ⟨hSucc, -⟩ := h.toNat_succ hBusy hLast
    rw [next_round hBusy hLast, left, left, if_pos hBusy, if_pos hBusy, hSucc]
    omega

theorem left_start (hBusy : k.busy = false) (hStart : x.start = true) : (k.next x).left = 25 := by
  rw [next_of_start hBusy hStart]
  rfl

/-- Rounds that end in this cycle leave the mark that they are done. -/
theorem done_of_ends (hBusy : k.busy = true) (hEnds : (k.next x).busy = false) :
    (k.next x).done = true := by
  by_cases hLast : k.roundCnt = 23
  · rw [next_last hBusy hLast]
  · rw [next_round hBusy hLast] at hEnds
    exact absurd (hEnds.symm.trans hBusy) Bool.false_ne_true

/-- A start without a write permutes the lanes as they are. -/
theorem result_start (hBusy : k.busy = false) (hStart : x.start = true) (hWr : x.wrEn = false) :
    (k.next x).result = k.A.permute := by
  rw [next_of_start hBusy hStart, hWr]
  rfl

end Steps

end KeccakF1600

/-! ### The lanes as bytes -/

namespace Lanes

variable (A : Lanes)

/-- The read, the exclusive or and the write back of a lane. -/
def xorLane (i : Nat) (v : BitVec 64) : Lanes := A.setIfInBounds i (A.lane i ^^^ v)

/-- A byte at a position. -/
def xorByte (p : Nat) (b : BitVec 8) : Lanes := A.xorLane (p / 8) (b.setWidth 64 <<< (8 * (p % 8)))

def byteAt (p : Nat) : BitVec 8 := (A.lane (p / 8)).extractLsb' (8 * (p % 8)) 8

theorem lane_setIfInBounds {i : Nat} (h : i < 25) (v : BitVec 64) :
    lane (A.setIfInBounds i v) i = v := by
  simp [lane, h]

theorem xorLane_zero (i : Nat) : A.xorLane i 0 = A := by
  apply Vector.ext
  intro j hj
  by_cases hEq : i = j
  · simp [xorLane, lane, hEq, hj]
  · simp [xorLane, hEq]

theorem xorLane_xorLane (i : Nat) (u v : BitVec 64) :
    (A.xorLane i u).xorLane i v = A.xorLane i (u ^^^ v) := by
  by_cases hi : i < 25
  · have hLane : (A.xorLane i u).lane i = A.lane i ^^^ u := lane_setIfInBounds A hi _
    unfold xorLane at hLane ⊢
    rw [hLane, Vector.setIfInBounds_setIfInBounds, BitVec.xor_assoc]
  · have hOut : ∀ (B : Lanes) (v : BitVec 64), B.setIfInBounds i v = B := by
      intro B v
      apply Vector.ext
      intro j hj
      rw [Vector.getElem_setIfInBounds, if_neg (by omega)]
    simp only [xorLane, hOut]

theorem xorByte_zero (p : Nat) : A.xorByte p 0 = A := by
  have hZero : (0 : BitVec 8).setWidth 64 <<< (8 * (p % 8)) = 0 := by simp
  rw [xorByte, hZero, xorLane_zero]

theorem xorByte_xorByte (p : Nat) (a b : BitVec 8) :
    (A.xorByte p a).xorByte p b = A.xorByte p (a ^^^ b) := by
  simp only [xorByte]
  rw [xorLane_xorLane, BitVec.setWidth_xor, BitVec.shiftLeft_xor_distrib]

end Lanes

/-- The sponge on these lanes. -/
def keccakSponge : Sponge Lanes (BitVec 8) where
  start := Lanes.zero
  perm := Lanes.permute
  inject := Lanes.xorByte
  byteAt := Lanes.byteAt
  inject_zero := Lanes.xorByte_zero
  inject_inject := Lanes.xorByte_xorByte

end PqcHsm
