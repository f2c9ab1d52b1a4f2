import Mathlib.Algebra.Field.Basic
import Mathlib.Algebra.Ring.MinimalAxioms
import PqcHsm.Backup.Shamir

/-!
# The field behind the shares

Multiplication is linear over XOR in both factors, so that its laws follow from those of the
eight powers of the indeterminate. With `gfInv` the bytes are a field.
-/

namespace PqcHsm

theorem xor_and (a b c : UInt8) : (a ^^^ b) &&& c = (a &&& c) ^^^ (b &&& c) := by
  apply UInt8.toNat_inj.mp
  simp only [UInt8.toNat_and, UInt8.toNat_xor, Nat.and_xor_distrib_right]

/-- A statement about every byte is one about the numbers below 256. -/
theorem forall_byte {P : UInt8 → Prop} (h : ∀ k < 256, P (UInt8.ofNat k)) (a : UInt8) : P a := by
  rw [← UInt8.ofNat_toNat (x := a)]
  exact h a.toNat a.toNat_lt

/-- The bits of a byte add up to it. -/
theorem byte_bits : ∀ a : UInt8, a = (a &&& 1) ^^^ (a &&& 2) ^^^ (a &&& 4) ^^^ (a &&& 8) ^^^
    (a &&& 16) ^^^ (a &&& 32) ^^^ (a &&& 64) ^^^ (a &&& 128) :=
  forall_byte (by decide +kernel)

theorem byte_bit (i : Nat) (hi : i < 8) :
    ∀ a : UInt8, a &&& (1 <<< UInt8.ofNat i) = 0 ∨ a &&& (1 <<< UInt8.ofNat i) = 1 <<< UInt8.ofNat i :=
  forall_byte fun k hk => by
    revert i k
    decide +kernel

/-- What holds of zero and of the bits, and of a sum with its terms, holds of every byte. -/
theorem byte_induction {P : UInt8 → Prop} (zero : P 0)
    (bit : ∀ i < 8, P (1 <<< UInt8.ofNat i)) (xor : ∀ a b, P a → P b → P (a ^^^ b)) (a : UInt8) :
    P a := by
  have hBit : ∀ i < 8, P (a &&& (1 <<< UInt8.ofNat i)) := by
    intro i hi
    obtain hZero | hOne := byte_bit i hi a
    · rw [hZero]
      exact zero
    · rw [hOne]
      exact bit i hi
  rw [byte_bits a]
  refine xor _ _ (xor _ _ (xor _ _ (xor _ _ (xor _ _ (xor _ _ (xor _ _ ?_ ?_) ?_) ?_) ?_) ?_) ?_) ?_
  · exact hBit 0 (by decide)
  · exact hBit 1 (by decide)
  · exact hBit 2 (by decide)
  · exact hBit 3 (by decide)
  · exact hBit 4 (by decide)
  · exact hBit 5 (by decide)
  · exact hBit 6 (by decide)
  · exact hBit 7 (by decide)

theorem bitMask_xor (a b : UInt8) : bitMask (a ^^^ b) = bitMask a ^^^ bitMask b := by
  have hLow : ∀ x : UInt8, x &&& 1 = 0 ∨ x &&& 1 = 1 := byte_bit 0 (by decide)
  unfold bitMask
  rw [xor_and]
  obtain ha | ha := hLow a <;> obtain hb | hb := hLow b <;> rw [ha, hb] <;> decide

theorem and_bitMask_xor (x a b : UInt8) :
    x &&& bitMask (a ^^^ b) = (x &&& bitMask a) ^^^ (x &&& bitMask b) := by
  rw [bitMask_xor, UInt8.and_comm, xor_and, UInt8.and_comm (bitMask a), UInt8.and_comm (bitMask b)]

theorem xor_swap (a b c d : UInt8) : (a ^^^ b) ^^^ (c ^^^ d) = (a ^^^ c) ^^^ (b ^^^ d) := by
  rw [UInt8.xor_assoc, ← UInt8.xor_assoc b, UInt8.xor_comm b c, UInt8.xor_assoc c, UInt8.xor_assoc]

theorem gfDouble_xor (a b : UInt8) : gfDouble (a ^^^ b) = gfDouble a ^^^ gfDouble b := by
  unfold gfDouble
  rw [UInt8.shiftLeft_xor, UInt8.shiftRight_xor, and_bitMask_xor, xor_swap]

theorem gfMulRounds_xor_left (k : Nat) (r r' x x' y : UInt8) :
    gfMulRounds k (r ^^^ r') (x ^^^ x') y = gfMulRounds k r x y ^^^ gfMulRounds k r' x' y := by
  induction k generalizing r r' x x' y with
  | zero => rfl
  | succ k ih =>
    rw [gfMulRounds, xor_and, xor_swap, gfDouble_xor]
    exact ih ..

theorem gfMulRounds_xor_right (k : Nat) (r r' x y y' : UInt8) :
    gfMulRounds k (r ^^^ r') x (y ^^^ y') = gfMulRounds k r x y ^^^ gfMulRounds k r' x y' := by
  induction k generalizing r r' x y y' with
  | zero => rfl
  | succ k ih =>
    rw [gfMulRounds, and_bitMask_xor, xor_swap, UInt8.shiftRight_xor]
    exact ih ..

theorem gfMul_xor_left (a b c : UInt8) : gfMul (a ^^^ b) c = gfMul a c ^^^ gfMul b c :=
  gfMulRounds_xor_left 8 0 0 a b c

theorem gfMul_xor_right (a b c : UInt8) : gfMul a (b ^^^ c) = gfMul a b ^^^ gfMul a c :=
  gfMulRounds_xor_right 8 0 0 a b c

theorem gfMul_zero (a : UInt8) : gfMul a 0 = 0 := by
  have h := gfMul_xor_right a 0 0
  rwa [UInt8.xor_self, UInt8.xor_self] at h

theorem zero_gfMul (a : UInt8) : gfMul 0 a = 0 := by
  have h := gfMul_xor_left 0 0 a
  rwa [UInt8.xor_self, UInt8.xor_self] at h

theorem gfMul_comm (a b : UInt8) : gfMul a b = gfMul b a := by
  induction a using byte_induction with
  | zero => rw [gfMul_zero, zero_gfMul]
  | xor a a' ha ha' => rw [gfMul_xor_left, gfMul_xor_right, ha, ha']
  | bit i hi =>
    induction b using byte_induction with
    | zero => rw [gfMul_zero, zero_gfMul]
    | xor b b' hb hb' => rw [gfMul_xor_left, gfMul_xor_right, hb, hb']
    | bit j hj =>
      revert i j
      decide

theorem gfMul_assoc (a b c : UInt8) : gfMul (gfMul a b) c = gfMul a (gfMul b c) := by
  induction a using byte_induction with
  | zero => rw [zero_gfMul, zero_gfMul, zero_gfMul]
  | xor a a' ha ha' => rw [gfMul_xor_left, gfMul_xor_left, gfMul_xor_left, ha, ha']
  | bit i hi =>
    induction b using byte_induction with
    | zero => rw [gfMul_zero, zero_gfMul, gfMul_zero]
    | xor b b' hb hb' =>
      rw [gfMul_xor_right, gfMul_xor_left, gfMul_xor_left, gfMul_xor_right, hb, hb']
    | bit j hj =>
      induction c using byte_induction with
      | zero => rw [gfMul_zero, gfMul_zero, gfMul_zero]
      | xor c c' hc hc' => rw [gfMul_xor_right, gfMul_xor_right, gfMul_xor_right, hc, hc']
      | bit k hk =>
        revert i j k
        decide

theorem one_gfMul (a : UInt8) : gfMul 1 a = a := by
  induction a using byte_induction with
  | zero => exact gfMul_zero 1
  | xor a b ha hb => rw [gfMul_xor_right, ha, hb]
  | bit i hi =>
    revert i
    decide

theorem gfMul_gfInv : ∀ a : UInt8, a ≠ 0 → gfMul a (gfInv a) = 1 :=
  forall_byte (by decide +kernel)

/-- A byte as an element of the field with 256 elements. -/
structure Gf256 where
  byte : UInt8
  deriving DecidableEq

namespace Gf256

instance : Add Gf256 := ⟨fun a b => ⟨a.byte ^^^ b.byte⟩⟩
instance : Mul Gf256 := ⟨fun a b => ⟨gfMul a.byte b.byte⟩⟩
instance : Neg Gf256 := ⟨fun a => a⟩
instance : Zero Gf256 := ⟨⟨0⟩⟩
instance : One Gf256 := ⟨⟨1⟩⟩
instance : Inv Gf256 := ⟨fun a => ⟨gfInv a.byte⟩⟩

instance : CommRing Gf256 := CommRing.ofMinimalAxioms
  (fun a b c => congrArg mk (UInt8.xor_assoc a.byte b.byte c.byte))
  (fun _ => congrArg mk UInt8.zero_xor)
  (fun _ => congrArg mk UInt8.xor_self)
  (fun a b c => congrArg mk (gfMul_assoc a.byte b.byte c.byte))
  (fun a b => congrArg mk (gfMul_comm a.byte b.byte))
  (fun a => congrArg mk (one_gfMul a.byte))
  (fun a b c => congrArg mk (gfMul_xor_right a.byte b.byte c.byte))

instance : Field Gf256 where
  exists_pair_ne := ⟨0, 1, by decide⟩
  mul_inv_cancel a ha := congrArg mk (gfMul_gfInv a.byte fun h => ha (congrArg mk h))
  inv_zero := congrArg mk (by decide +kernel : gfInv 0 = 0)
  nnqsmul := _
  nnqsmul_def := fun _ _ => rfl
  qsmul := _
  qsmul_def := fun _ _ => rfl

@[simp] theorem mk_xor (a b : UInt8) : mk (a ^^^ b) = mk a + mk b := rfl

@[simp] theorem mk_gfMul (a b : UInt8) : mk (gfMul a b) = mk a * mk b := rfl

@[simp] theorem mk_gfInv (a : UInt8) : mk (gfInv a) = (mk a)⁻¹ := rfl

@[simp] theorem mk_zero : mk 0 = 0 := rfl

@[simp] theorem mk_one : mk 1 = 1 := rfl

/-- Adding and subtracting are the same. -/
theorem sub_eq_add (a b : Gf256) : a - b = a + b := sub_eq_add_neg a b

end Gf256

end PqcHsm
