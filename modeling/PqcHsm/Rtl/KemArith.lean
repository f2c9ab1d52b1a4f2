import PqcHsm.Library.ByteFields

/-!
# The arithmetic of ML-KEM decapsulation

The combinational modules that `mlkem_decaps` instantiates, and the key that it is to deliver. The
sponge, the number theoretic transform and the encapsulation core are functions.
-/

namespace PqcHsm

namespace MlKem

/-! ### Coefficients -/

abbrev Coeff := BitVec 16
abbrev Poly := BitVec 8 → Coeff

/-- `mont_reduce` -/
def montReduce (a : BitVec 32) : Coeff :=
  let m : BitVec 16 := a.setWidth 16 * BitVec.ofInt 16 (-3327)
  (a - m.signExtend 32 * 3329).extractLsb' 16 16

/-- `barrett_reduce` -/
def barrettReduce (a : Coeff) : Coeff :=
  let prod : BitVec 32 := 20159 * a.signExtend 32
  let t : BitVec 16 := ((prod + 33554432).sshiftRight 26).setWidth 16
  a - t * 3329

def smul (x y : Coeff) : BitVec 32 := x.signExtend 32 * y.signExtend 32

/-- `mlkem_basemul_head` -/
def basemulHead (a1 b1 : Coeff) : Coeff := montReduce (smul a1 b1)

/-- `mlkem_basemul_tail` -/
def basemulTail (a0 a1 b0 b1 zeta ta1b1 : Coeff) : Coeff × Coeff :=
  (montReduce (smul ta1b1 zeta) + montReduce (smul a0 b0),
    montReduce (smul a0 b1) + montReduce (smul a1 b0))

def bz : List Int :=
  [-1103, 430, 555, 843, -1251, 871, 1550, 105, 422, 587, 177, -235, -291, -460, 1574, 1653,
    -246, 778, 1159, -147, -777, 1483, -602, 1119, -1590, 644, -872, 349, 418, 329, -156, -75,
    817, 1097, 603, 610, 1322, -1285, -1465, 384, -1215, -136, 1218, -1335, -874, 220, -1187, -1659,
    -1185, -1530, -1278, 794, -1510, -854, -870, 478, -108, -308, 996, 991, 958, -1460, 1522, 1628]

/-- `mlkem_bmzeta` -/
def bmzeta (pair : Nat) : Coeff :=
  let raw := BitVec.ofInt 16 (bz.getD (pair / 2 % 64) 0)
  if pair % 2 = 1 then -raw else raw

/-- `mlkem_compress` to one bit. -/
def compress1 (coeff : Coeff) : Bool :=
  let norm : BitVec 16 := if coeff.msb then coeff + 3329 else coeff
  let num : BitVec 24 := ((norm.setWidth 12).setWidth 24 <<< 1) + 1664
  let prod : BitVec 46 := num.setWidth 46 * 2580335
  prod.getLsbD 33

/-- `mlkem_decompress` -/
def decompress (d val : Nat) : Coeff :=
  let num : BitVec 27 := 3329 * BitVec.ofNat 27 val + (1 <<< (d - 1))
  (num.extractLsb' d 12).setWidth 16

/-- `mlkem_decode12` -/
def decode12 (bytesIn : BitVec 24) : BitVec 12 × BitVec 12 :=
  (bytesIn.extractLsb' 0 12, bytesIn.extractLsb' 12 12)

/-! ### Sizes -/

def kNow (paramSet : BitVec 2) : Nat := if paramSet = 0 then 2 else if paramSet = 1 then 3 else 4
def d11Now (paramSet : BitVec 2) : Bool := paramSet = 2

def du (d11 : Bool) : Nat := if d11 then 11 else 10
def dv (d11 : Bool) : Nat := if d11 then 5 else 4
def sbytes (k : Nat) : Nat := 256 * k + 128 * k
def eklen (k : Nat) : Nat := sbytes k + 32
def ekend (k : Nat) : Nat := sbytes k + eklen k
def hend (k : Nat) : Nat := ekend k + 32
def dklen (k : Nat) : Nat := ekend k + 64
def c1len (k : Nat) (d11 : Bool) : Nat := 256 * k + 64 * k + if d11 then 32 * k else 0
def clen (k : Nat) (d11 : Bool) : Nat := c1len k d11 + 32 * dv d11

/-! ### The cores as functions -/

/-- What the sub-cores compute. -/
structure Cores where
  /-- The bytes that `sha3_core` gives for a suffix and what it absorbed, at a rate of 136. -/
  sponge : BitVec 8 → List (BitVec 8) → Nat → BitVec 8
  /-- `ntt_core`, forward or inverse. -/
  ntt : Bool → Poly → Poly
  /-- The bytes of `mlkem_encaps` for a parameter set, a message and a key: the shared key and then
  the ciphertext. -/
  encaps : BitVec 2 → (BitVec 8 → Bool) → List (BitVec 8) → Nat → BitVec 8

/-- Three bytes, which are two coefficients. -/
def tripleAt (dk : List (BitVec 8)) (j : Nat) : BitVec 24 :=
  dk.getD (j + 2) 0 ++ (dk.getD (j + 1) 0 ++ dk.getD j 0)

/-- A polynomial of the key. -/
def sHat (dk : List (BitVec 8)) (i : Nat) : Poly := fun n =>
  let c := decode12 (tripleAt dk (384 * i + 3 * (n.toNat / 2)))
  ((if n.toNat % 2 = 0 then c.1 else c.2).setWidth 16)

section Decryption

variable (E : Cores) (k : Nat) (d11 : Bool) (dk c : List (BitVec 8))

def uPoly (i : Nat) : Poly := fun n =>
  decompress (du d11) (leField (c.take (c1len k d11)) (du d11) (256 * i + n.toNat))

def vPoly : Poly := fun n =>
  decompress (dv d11) (leField (c.drop (c1len k d11)) (dv d11) n.toNat)

/-- One pair of coefficients of a product, added to the accumulator. -/
def macPair (a b acc : Poly) (pair : Nat) : Coeff × Coeff :=
  let e := BitVec.ofNat 8 (2 * pair)
  let o := BitVec.ofNat 8 (2 * pair + 1)
  let r := basemulTail (a e) (a o) (b e) (b o) (bmzeta pair) (basemulHead (a o) (b o))
  (barrettReduce (acc e + r.1), barrettReduce (acc o + r.2))

def mac (a b acc : Poly) : Poly := fun n =>
  let r := macPair a b acc (n.toNat / 2)
  if n.toNat % 2 = 0 then r.1 else r.2

/-- The scalar product of the key and the transformed ciphertext, as far as polynomial `i`. -/
def accAfter : Nat → Poly
  | 0 => fun _ => 0
  | i + 1 => mac (sHat dk i) (E.ntt false (uPoly k d11 c i)) (accAfter i)

/-- The message that the ciphertext decrypts to. -/
def message : BitVec 8 → Bool := fun n =>
  compress1 (barrettReduce (vPoly k d11 c n - E.ntt true (accAfter E k d11 dk c k) n))

end Decryption

/-- The key that is to be delivered: that of the inner core if its ciphertext is the one received,
and otherwise the hash of the secret `z`, which ends `dk`, and the ciphertext. -/
def decapsKey (E : Cores) (paramSet : BitVec 2) (dk c : List (BitVec 8)) : List (BitVec 8) :=
  let k := kNow paramSet
  let d11 := d11Now paramSet
  let ek := (dk.drop (sbytes k)).take (eklen k)
  let z := dk.drop (dklen k - 32)
  let enc := E.encaps paramSet (message E k d11 dk c) ek
  if (List.range (clen k d11)).map (fun i => enc (32 + i)) = c then (List.range 32).map enc
  else (List.range 32).map (E.sponge 0x1f (z ++ c))

end MlKem

end PqcHsm
