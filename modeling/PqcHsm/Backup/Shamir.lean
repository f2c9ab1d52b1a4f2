import PqcHsm.Slot.Types

/-!
# Splitting the recovery master key

Every byte of the secret is the constant term of a polynomial over GF(256) with
random higher coefficients; share `x` holds the values at `x`, with a checksum. A share does
not record the threshold: combining interpolates through whatever it is given.
-/

namespace PqcHsm

open ByteCodec

def SHAMIR_MAX_SHARES : Nat := 16
def SHAMIR_MAX_SECRET : Nat := 64
def SHAMIR_CHECKSUM_LEN : Nat := 4
def SHAMIR_HDR_LEN : Nat := 2
def SHAMIR_SHARE_OVERHEAD : Nat := 6

section Field

/-- `0xFF` when the lowest bit is set, `0` otherwise. -/
def bitMask (y : UInt8) : UInt8 := 0 - (y &&& 1)

/-- `x` times the indeterminate, modulo `x^8 + x^4 + x^3 + x + 1`. -/
def gfDouble (x : UInt8) : UInt8 := (x <<< 1) ^^^ ((0x1b : UInt8) &&& bitMask (x >>> 7))

/-- The rounds of `gf_mul` that remain. -/
def gfMulRounds : Nat → UInt8 → UInt8 → UInt8 → UInt8
  | 0, r, _, _ => r
  | k + 1, r, x, y => gfMulRounds k (r ^^^ (x &&& bitMask y)) (gfDouble x) (y >>> 1)

def gfMul (a b : UInt8) : UInt8 := gfMulRounds 8 0 a b

def gfSqr (a : UInt8) : UInt8 := gfMul a a

/-- `a ^ 254`, by a fixed chain of multiplications. -/
def gfInv (a : UInt8) : UInt8 :=
  let x3 := gfMul (gfSqr a) a
  let x7 := gfMul (gfSqr x3) a
  let x15 := gfMul (gfSqr x7) a
  let x31 := gfMul (gfSqr x15) a
  let x63 := gfMul (gfSqr x31) a
  let x127 := gfMul (gfSqr x63) a
  gfSqr x127

end Field

section Shares

variable (C : Crypto)

/-- The checksum of a share, over its index, length and data. -/
def shareChecksum (line : Bytes) : Bytes := (C.sha3_256 line).toList.take SHAMIR_CHECKSUM_LEN

def shareLine (x : UInt8) (data : Bytes) : Bytes :=
  let line := x :: UInt8.ofNat data.length :: data
  line ++ shareChecksum C line

/-- Horner's rule from coefficient `d - 1` down. -/
def shamirHorner (coef : Nat → UInt8) (x : UInt8) : Nat → UInt8 → UInt8
  | 0, acc => acc
  | d + 1, acc => shamirHorner coef x d (gfMul acc x ^^^ coef d)

/-- The value at `x` of the polynomial of degree `m - 1`. -/
def shamirValue (coef : Nat → UInt8) (m : Nat) (x : UInt8) : UInt8 :=
  shamirHorner coef x (m - 1) (coef (m - 1))

/-- `shamir_split`: the shares `1` to `n` of a secret, where the coefficients above the constant
terms are drawn with the given random calls. -/
def shamirSplit (random : Nat → Option (Nat → UInt8)) (secret : Bytes) (m n cap : Nat) :
    Option (List Bytes) :=
  if secret.length = 0 ∨ SHAMIR_MAX_SECRET < secret.length then none
  else if m < 2 ∨ n < m ∨ SHAMIR_MAX_SHARES < n then none
  else if cap < secret.length + SHAMIR_SHARE_OVERHEAD then none
  else if (List.range m).all fun d => d = 0 || (random d).isSome then
    let coef (j d : Nat) : UInt8 :=
      if d = 0 then secret.getD j 0 else ((random d).getD fun _ => 0) j
    some ((List.range n).map fun i => shareLine C (UInt8.ofNat (i + 1))
      ((List.range secret.length).map fun j => shamirValue (coef j) m (UInt8.ofNat (i + 1))))
  else none

/-- The checks of one share, where the first share announces the length of the secret. -/
def shareAccepted (cap secretLen : Nat) (line : Bytes) : Bool :=
  let len := line.length - SHAMIR_SHARE_OVERHEAD
  line.length ≤ cap ∧ SHAMIR_SHARE_OVERHEAD < line.length ∧ len ≤ SHAMIR_MAX_SECRET ∧
    (line.getD 1 0).toNat = len ∧ len = secretLen ∧ line.headD 0 ≠ 0 ∧
    (line.headD 0).toNat ≤ SHAMIR_MAX_SHARES ∧
    shareChecksum C (line.take (SHAMIR_HDR_LEN + len)) = line.drop (SHAMIR_HDR_LEN + len)

/-- The value at 0 of the `i`-th Lagrange polynomial over the given indices. -/
def shamirBasis (xs : List UInt8) (i : Nat) : UInt8 :=
  let others := (List.range xs.length).filter (· ≠ i)
  let num := others.foldl (fun num t => gfMul num (xs.getD t 0)) 1
  let den := others.foldl (fun den t => gfMul den (xs.getD i 0 ^^^ xs.getD t 0)) 1
  gfMul num (gfInv den)

/-- `shamir_combine` of shares that lie in rows of `cap` bytes. -/
def shamirCombine (cap : Nat) (shares : List Bytes) (outCap : Nat) : Option Bytes :=
  let secretLen := (shares.headD []).length - SHAMIR_SHARE_OVERHEAD
  let xs := shares.map (·.headD 0)
  if shares.length < 1 ∨ SHAMIR_MAX_SHARES < shares.length then none
  else if cap < SHAMIR_SHARE_OVERHEAD + 1 then none
  else if !shares.all (shareAccepted C cap secretLen) then none
  else if ¬ xs.Nodup then none
  else if outCap < secretLen then none
  else some ((List.range secretLen).map fun j =>
    (List.range shares.length).foldl (fun acc i =>
      acc ^^^ gfMul ((shares.getD i []).getD (SHAMIR_HDR_LEN + j) 0) (shamirBasis xs i)) 0)

end Shares

end PqcHsm
