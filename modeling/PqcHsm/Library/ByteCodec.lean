import Mathlib.Data.Vector.Basic

/-!
# Byte strings with little-endian fields

A writer concatenates fields; a reader takes a field off the front of a byte
string and leaves the rest. Reading what was written gives the field back, so a
record of fields is read back by rewriting field by field.
-/

namespace ByteCodec

abbrev Bytes := List UInt8

abbrev ByteVec (n : Nat) := List.Vector UInt8 n

/-- The `n` low bytes of `v`, least significant first. -/
def toLe : Nat → Nat → Bytes
  | 0, _ => []
  | n + 1, v => UInt8.ofNat v :: toLe n (v / 256)

def ofLe : Bytes → Nat
  | [] => 0
  | b :: bs => b.toNat + 256 * ofLe bs

@[simp] theorem length_toLe (n v : Nat) : (toLe n v).length = n := by
  induction n generalizing v with
  | zero => rfl
  | succ n ih => simp [toLe, ih]

theorem ofLe_toLe (n v : Nat) : ofLe (toLe n v) = v % 256 ^ n := by
  induction n generalizing v with
  | zero => simp [toLe, ofLe, Nat.mod_one]
  | succ n ih =>
    have hByte : (UInt8.ofNat v).toNat = v % 256 := UInt8.toNat_ofNat
    rw [toLe, ofLe, ih, hByte, pow_succ, Nat.mul_comm (256 ^ n) 256, Nat.mod_mul]

theorem ofLe_lt (p : Bytes) : ofLe p < 256 ^ p.length := by
  induction p with
  | nil => exact Nat.one_pos
  | cons b p ih =>
    have hByte : b.toNat < 256 := b.toNat_lt
    rw [ofLe, List.length_cons, pow_succ]
    omega

theorem toLe_ofLe (p : Bytes) : toLe p.length (ofLe p) = p := by
  induction p with
  | nil => rfl
  | cons b p ih =>
    have hByte : b.toNat < 256 := b.toNat_lt
    have hRest : (b.toNat + 256 * ofLe p) / 256 = ofLe p := by omega
    have hHead : UInt8.ofNat (b.toNat + 256 * ofLe p) = b := by
      apply UInt8.toNat_inj.mp
      rw [UInt8.toNat_ofNat']
      omega
    rw [List.length_cons, ofLe, toLe, hRest, ih, hHead]

def putU16 (v : UInt16) : Bytes := toLe 2 v.toNat

def putU32 (v : UInt32) : Bytes := toLe 4 v.toNat

def putU64 (v : UInt64) : Bytes := toLe 8 v.toNat

def getU16 (p : Bytes) : UInt16 × Bytes := (UInt16.ofNat (ofLe (p.take 2)), p.drop 2)

def getU32 (p : Bytes) : UInt32 × Bytes := (UInt32.ofNat (ofLe (p.take 4)), p.drop 4)

def getU64 (p : Bytes) : UInt64 × Bytes := (UInt64.ofNat (ofLe (p.take 8)), p.drop 8)

def getU8 (p : Bytes) : UInt8 × Bytes := (p.headD 0, p.drop 1)

@[simp] theorem getU8_cons (b : UInt8) (rest : Bytes) : getU8 (b :: rest) = (b, rest) := rfl

@[simp] theorem length_putU32 (v : UInt32) : (putU32 v).length = 4 := length_toLe 4 _

@[simp] theorem length_putU64 (v : UInt64) : (putU64 v).length = 8 := length_toLe 8 _

@[simp] theorem getU32_putU32 (v : UInt32) (rest : Bytes) :
    getU32 (putU32 v ++ rest) = (v, rest) := by
  have hTake : (putU32 v ++ rest).take 4 = putU32 v := List.take_left' (length_putU32 v)
  have hDrop : (putU32 v ++ rest).drop 4 = rest := List.drop_left' (length_putU32 v)
  have hVal : ofLe (putU32 v) = v.toNat := by
    rw [putU32, ofLe_toLe]
    exact Nat.mod_eq_of_lt v.toNat_lt
  rw [getU32, hTake, hDrop, hVal, UInt32.ofNat_toNat]

@[simp] theorem getU64_putU64 (v : UInt64) (rest : Bytes) :
    getU64 (putU64 v ++ rest) = (v, rest) := by
  have hTake : (putU64 v ++ rest).take 8 = putU64 v := List.take_left' (length_putU64 v)
  have hDrop : (putU64 v ++ rest).drop 8 = rest := List.drop_left' (length_putU64 v)
  have hVal : ofLe (putU64 v) = v.toNat := by
    rw [putU64, ofLe_toLe]
    exact Nat.mod_eq_of_lt v.toNat_lt
  rw [getU64, hTake, hDrop, hVal, UInt64.ofNat_toNat]

theorem putU32_inj {v w : UInt32} (h : putU32 v = putU32 w) : v = w := by
  have hGet := congrArg (fun p => (getU32 (p ++ [])).1) h
  simpa only [getU32_putU32] using hGet

theorem putU64_inj {v w : UInt64} (h : putU64 v = putU64 w) : v = w := by
  have hGet := congrArg (fun p => (getU64 (p ++ [])).1) h
  simpa only [getU64_putU64] using hGet

theorem length_putU16 (v : UInt16) : (putU16 v).length = 2 := length_toLe 2 _

theorem getU16_putU16 (v : UInt16) (rest : Bytes) : getU16 (putU16 v ++ rest) = (v, rest) := by
  have hTake : (putU16 v ++ rest).take 2 = putU16 v := List.take_left' (length_putU16 v)
  have hDrop : (putU16 v ++ rest).drop 2 = rest := List.drop_left' (length_putU16 v)
  have hVal : ofLe (putU16 v) = v.toNat := by
    rw [putU16, ofLe_toLe]
    exact Nat.mod_eq_of_lt v.toNat_lt
  rw [getU16, hTake, hDrop, hVal, UInt16.ofNat_toNat]

theorem putU16_getU16 {p : Bytes} (h : 2 ≤ p.length) : putU16 (getU16 p).1 = p.take 2 := by
  have hLen : (p.take 2).length = 2 := List.length_take_of_le h
  have hLt : ofLe (p.take 2) < 2 ^ 16 := by simpa [hLen] using ofLe_lt (p.take 2)
  rw [putU16, getU16, UInt16.toNat_ofNat_of_lt' hLt]
  nth_rewrite 1 [← hLen]
  exact toLe_ofLe _

theorem putU32_getU32 {p : Bytes} (h : 4 ≤ p.length) : putU32 (getU32 p).1 = p.take 4 := by
  have hLen : (p.take 4).length = 4 := List.length_take_of_le h
  have hLt : ofLe (p.take 4) < 2 ^ 32 := by simpa [hLen] using ofLe_lt (p.take 4)
  rw [putU32, getU32, UInt32.toNat_ofNat_of_lt' hLt]
  nth_rewrite 1 [← hLen]
  exact toLe_ofLe _

theorem putU64_getU64 {p : Bytes} (h : 8 ≤ p.length) : putU64 (getU64 p).1 = p.take 8 := by
  have hLen : (p.take 8).length = 8 := List.length_take_of_le h
  have hLt : ofLe (p.take 8) < 2 ^ 64 := by simpa [hLen] using ofLe_lt (p.take 8)
  rw [putU64, getU64, UInt64.toNat_ofNat_of_lt' hLt]
  nth_rewrite 1 [← hLen]
  exact toLe_ofLe _

theorem putU32_eq (v : UInt32) :
    putU32 v = [v.toUInt8, (v >>> 8).toUInt8, (v >>> 16).toUInt8, (v >>> 24).toUInt8] := by
  have hByte : ∀ k : Nat, k < 32 →
      (v >>> UInt32.ofNat k).toUInt8 = UInt8.ofNat (v.toNat / 2 ^ k) := by
    intro k hk
    apply UInt8.toNat_inj.mp
    simp [Nat.shiftRight_eq_div_pow, Nat.mod_eq_of_lt hk]
  have h0 : v.toUInt8 = UInt8.ofNat v.toNat := by
    apply UInt8.toNat_inj.mp
    simp
  have h1 : (v >>> 8).toUInt8 = _ := hByte 8 (by decide)
  have h2 : (v >>> 16).toUInt8 = _ := hByte 16 (by decide)
  have h3 : (v >>> 24).toUInt8 = _ := hByte 24 (by decide)
  rw [h0, h1, h2, h3]
  simp [putU32, toLe, Nat.div_div_eq_div_mul]

/-- What follows a field of known length. -/
theorem drop_field {p rest : Bytes} {n k : Nat} (hp : p.length = k) (hk : k ≤ n) :
    (p ++ rest).drop n = rest.drop (n - k) := by
  rw [List.drop_append, List.drop_of_length_le (by omega), hp, List.nil_append]

/-- A field in the middle of a string, and what follows it. -/
theorem putU16_drop {p : Bytes} {k : Nat} (h : k + 2 ≤ p.length) :
    putU16 (getU16 (p.drop k)).1 ++ p.drop (k + 2) = p.drop k := by
  rw [putU16_getU16 (by rw [List.length_drop]; omega), ← List.drop_drop, List.take_append_drop]

theorem putU32_drop {p : Bytes} {k : Nat} (h : k + 4 ≤ p.length) :
    putU32 (getU32 (p.drop k)).1 ++ p.drop (k + 4) = p.drop k := by
  rw [putU32_getU32 (by rw [List.length_drop]; omega), ← List.drop_drop, List.take_append_drop]

theorem putU64_drop {p : Bytes} {k : Nat} (h : k + 8 ≤ p.length) :
    putU64 (getU64 (p.drop k)).1 ++ p.drop (k + 8) = p.drop k := by
  rw [putU64_getU64 (by rw [List.length_drop]; omega), ← List.drop_drop, List.take_append_drop]

/-- The first `n` bytes, padded with zeros when the string is shorter. -/
def takeVec (n : Nat) (p : Bytes) : ByteVec n :=
  ⟨p.take n ++ List.replicate (n - p.length) 0, by simp; omega⟩

theorem toList_takeVec {n : Nat} {p : Bytes} (h : n ≤ p.length) :
    (takeVec n p).toList = p.take n := by
  change p.take n ++ List.replicate (n - p.length) 0 = p.take n
  rw [Nat.sub_eq_zero_of_le h, List.replicate_zero, List.append_nil]

theorem takeVec_drop {n k : Nat} {p : Bytes} (h : k + n ≤ p.length) :
    (takeVec n (p.drop k)).toList ++ p.drop (k + n) = p.drop k := by
  rw [toList_takeVec (by rw [List.length_drop]; omega), ← List.drop_drop, List.take_append_drop]

def getVec (n : Nat) (p : Bytes) : ByteVec n × Bytes := (takeVec n p, p.drop n)

@[simp] theorem takeVec_append {n : Nat} (v : ByteVec n) (rest : Bytes) :
    takeVec n (v.toList ++ rest) = v := by
  apply List.Vector.eq
  change (v.toList ++ rest).take n ++ List.replicate (n - (v.toList ++ rest).length) 0 = v.toList
  have hPad : n - (v.toList ++ rest).length = 0 := by simp
  rw [hPad, List.take_left' v.toList_length, List.replicate_zero, List.append_nil]

@[simp] theorem getVec_append {n : Nat} (v : ByteVec n) (rest : Bytes) :
    getVec n (v.toList ++ rest) = (v, rest) := by
  rw [getVec, takeVec_append, List.drop_left' v.toList_length]

/-- `n` zero bytes. -/
def zeros (n : Nat) : ByteVec n := List.Vector.replicate n 0

/-- The first `n` values of a byte stream. -/
def ofStream (n : Nat) (f : Nat → UInt8) : ByteVec n := List.Vector.ofFn fun i => f i

end ByteCodec
