import Mathlib.Data.List.Basic
import PqcHsm.Library.Utf8

/-!
# Base64

Three bytes are four symbols; one or two bytes at the end are filled up with `=`.
-/

namespace Base64

def symbol (n : Nat) : UInt8 :=
  UInt8.ofNat <|
    if n < 26 then 65 + n else if n < 52 then 71 + n else if n < 62 then n - 4
    else if n = 62 then 43 else 47

def symbolValue (b : UInt8) : Option Nat :=
  let n := b.toNat
  if 65 ≤ n ∧ n ≤ 90 then some (n - 65)
  else if 97 ≤ n ∧ n ≤ 122 then some (n - 71)
  else if 48 ≤ n ∧ n ≤ 57 then some (n + 4)
  else if n = 43 then some 62
  else if n = 47 then some 63
  else none

/-- Three bytes as one number. -/
def group (a b c : UInt8) : Nat := (a.toNat * 256 + b.toNat) * 256 + c.toNat

def encode : List UInt8 → List UInt8
  | [] => []
  | [a] => [symbol (group a 0 0 / 262144), symbol (group a 0 0 / 4096 % 64), 61, 61]
  | [a, b] =>
    [symbol (group a b 0 / 262144), symbol (group a b 0 / 4096 % 64),
      symbol (group a b 0 / 64 % 64), 61]
  | a :: b :: c :: r =>
    symbol (group a b c / 262144) :: symbol (group a b c / 4096 % 64) ::
      symbol (group a b c / 64 % 64) :: symbol (group a b c % 64) :: encode r

/-- `=` fills up and counts as zero. -/
def fillValue (b : UInt8) : Option Nat := if b = 61 then some 0 else symbolValue b

/-- The value of four symbols. -/
def quad (a b c d : UInt8) : Option Nat := do
  let a ← symbolValue a
  let b ← symbolValue b
  let c ← fillValue c
  let d ← fillValue d
  pure (((a * 64 + b) * 64 + c) * 64 + d)

def decode : List UInt8 → Option (List UInt8)
  | [] => some []
  | a :: b :: c :: d :: r =>
    match quad a b c d with
    | none => none
    | some n =>
      let x := UInt8.ofNat (n / 65536)
      let y := UInt8.ofNat (n / 256 % 256)
      let z := UInt8.ofNat (n % 256)
      if d ≠ 61 then (decode r).map fun t => x :: y :: z :: t
      else if r ≠ [] then none
      else if c ≠ 61 then some [x, y]
      else some [x]
  | _ => none

/-! ### Encoding and decoding -/

theorem symbol_spec {n : Nat} (h : n < 64) :
    symbolValue (symbol n) = some n ∧ symbol n ≠ 61 ∧ Utf8.IsAscii (symbol n) ∧ 42 < (symbol n).toNat ∧
      symbol n ≠ 92 := by
  have hAll : ∀ n : Fin 64, symbolValue (symbol n) = some n.val ∧ symbol n ≠ 61 ∧
      Utf8.IsAscii (symbol n) ∧ 42 < (symbol n).toNat ∧ symbol n ≠ 92 := by
    decide
  exact hAll ⟨n, h⟩

theorem group_lt (a b c : UInt8) : group a b c < 16777216 := by
  have ha := a.toNat_lt
  have hb := b.toNat_lt
  have hc := c.toNat_lt
  rw [group]
  omega

theorem ofNat_group (a b c : UInt8) :
    UInt8.ofNat (group a b c / 65536) = a ∧ UInt8.ofNat (group a b c / 256 % 256) = b ∧
      UInt8.ofNat (group a b c % 256) = c := by
  have ha := a.toNat_lt
  have hb := b.toNat_lt
  have hc := c.toNat_lt
  have hHigh : group a b c / 65536 = a.toNat := by
    rw [group]
    omega
  have hMid : group a b c / 256 % 256 = b.toNat := by
    rw [group]
    omega
  have hLow : group a b c % 256 = c.toNat := by
    rw [group]
    omega
  rw [hHigh, hMid, hLow]
  exact ⟨UInt8.ofNat_toNat, UInt8.ofNat_toNat, UInt8.ofNat_toNat⟩

theorem fillValue_symbol {n : Nat} (h : n < 64) : fillValue (symbol n) = some n := by
  obtain ⟨hValue, hNe, -⟩ := symbol_spec h
  rw [fillValue, if_neg hNe, hValue]

theorem fillValue_fill : fillValue 61 = some 0 := if_pos rfl

/-- Four symbols of a number below 2^24. -/
theorem quad_symbols {n : Nat} (h : n < 16777216) :
    quad (symbol (n / 262144)) (symbol (n / 4096 % 64)) (symbol (n / 64 % 64)) (symbol (n % 64)) =
      some n := by
  rw [quad, (symbol_spec (n := n / 262144) (by omega)).1,
    (symbol_spec (n := n / 4096 % 64) (by omega)).1, fillValue_symbol (n := n / 64 % 64) (by omega),
    fillValue_symbol (n := n % 64) (by omega)]
  simp only [Option.bind_eq_bind, Option.bind_some, Option.pure_def, Option.some.injEq]
  omega

theorem quad_two {n : Nat} (h : n < 16777216) (hZero : n % 64 = 0) :
    quad (symbol (n / 262144)) (symbol (n / 4096 % 64)) (symbol (n / 64 % 64)) 61 = some n := by
  rw [quad, (symbol_spec (n := n / 262144) (by omega)).1,
    (symbol_spec (n := n / 4096 % 64) (by omega)).1, fillValue_symbol (n := n / 64 % 64) (by omega),
    fillValue_fill]
  simp only [Option.bind_eq_bind, Option.bind_some, Option.pure_def, Option.some.injEq]
  omega

theorem quad_one {n : Nat} (h : n < 16777216) (hZero : n % 4096 = 0) :
    quad (symbol (n / 262144)) (symbol (n / 4096 % 64)) 61 61 = some n := by
  rw [quad, (symbol_spec (n := n / 262144) (by omega)).1,
    (symbol_spec (n := n / 4096 % 64) (by omega)).1, fillValue_fill]
  simp only [Option.bind_eq_bind, Option.bind_some, Option.pure_def, Option.some.injEq]
  omega

theorem decode_encode (d : List UInt8) : decode (encode d) = some d := by
  induction d using encode.induct with
  | case1 => rfl
  | case2 a =>
    have hZero : group a 0 0 % 4096 = 0 := by
      rw [group, UInt8.toNat_zero]
      omega
    rw [encode, decode, quad_one (group_lt a 0 0) hZero]
    simp only [ne_eq, not_true_eq_false, if_false, (ofNat_group a 0 0).1]
  | case3 a b =>
    have hZero : group a b 0 % 64 = 0 := by
      rw [group, UInt8.toNat_zero]
      omega
    have hNe := (symbol_spec (n := group a b 0 / 64 % 64) (Nat.mod_lt _ (by decide))).2.1
    rw [encode, decode, quad_two (group_lt a b 0) hZero]
    simp only [ne_eq, not_true_eq_false, if_false, if_pos hNe, (ofNat_group a b 0).1,
      (ofNat_group a b 0).2.1]
  | case4 a b c r ih =>
    have hNe := (symbol_spec (n := group a b c % 64) (Nat.mod_lt _ (by decide))).2.1
    obtain ⟨hx, hy, hz⟩ := ofNat_group a b c
    rw [encode, decode, quad_symbols (group_lt a b c)]
    simp only [ne_eq, if_pos hNe, ih, Option.map_some, hx, hy, hz]

/-- Every byte of an encoding is a plain ASCII byte: neither a quotation mark nor a backslash nor a control
byte. -/
theorem plain_encode (d : List UInt8) :
    ∀ b ∈ encode d, Utf8.IsAscii b ∧ 42 < b.toNat ∧ b ≠ 92 := by
  have hSymbol : ∀ n, n < 64 → Utf8.IsAscii (symbol n) ∧ 42 < (symbol n).toNat ∧ symbol n ≠ 92 :=
    fun n h => (symbol_spec h).2.2
  have hFill : Utf8.IsAscii 61 ∧ 42 < (61 : UInt8).toNat ∧ (61 : UInt8) ≠ 92 := by decide
  have hTop : ∀ a b c, group a b c / 262144 < 64 := fun a b c => by
    have := group_lt a b c
    omega
  have hMod : ∀ n, n % 64 < 64 := fun n => Nat.mod_lt n (by decide)
  induction d using encode.induct with
  | case1 => exact List.forall_mem_nil _
  | case2 a =>
    simp only [encode, List.forall_mem_cons]
    exact ⟨hSymbol _ (hTop ..), hSymbol _ (hMod _), hFill, hFill, List.forall_mem_nil _⟩
  | case3 a b =>
    simp only [encode, List.forall_mem_cons]
    exact ⟨hSymbol _ (hTop ..), hSymbol _ (hMod _), hSymbol _ (hMod _), hFill, List.forall_mem_nil _⟩
  | case4 a b c r ih =>
    simp only [encode, List.forall_mem_cons]
    exact ⟨hSymbol _ (hTop ..), hSymbol _ (hMod _), hSymbol _ (hMod _), hSymbol _ (hMod _), ih⟩

end Base64
