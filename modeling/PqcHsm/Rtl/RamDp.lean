import Mathlib.Logic.Function.Basic

/-!
# The memory of the NTT cores

`ram_dp`, with 256 words: two ports, each of which may write a word.
-/

namespace PqcHsm

structure RamPort (α : Type) where
  we : Bool
  addr : BitVec 8
  din : α

variable {α : Type}

def RamPort.write (p : RamPort α) (mem : BitVec 8 → α) : BitVec 8 → α :=
  if p.we then Function.update mem p.addr p.din else mem

theorem ofNat_inj {p p' : Nat} (hp : p < 256) (hp' : p' < 256) :
    BitVec.ofNat 8 p = BitVec.ofNat 8 p' ↔ p = p' := by
  rw [← BitVec.toNat_inj, BitVec.toNat_ofNat, BitVec.toNat_ofNat]
  omega

theorem update_cell (mem : BitVec 8 → α) (v : α) {p p' : Nat} (hp : p < 256) (hp' : p' < 256) :
    Function.update mem (BitVec.ofNat 8 p) v (BitVec.ofNat 8 p') =
      if p' = p then v else mem (BitVec.ofNat 8 p') := by
  rw [Function.update_apply]
  simp only [ofNat_inj hp' hp]

end PqcHsm
