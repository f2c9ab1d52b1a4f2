import PqcHsm.Library.Rounding

/-!
# The rounding of ML-DSA

`mldsa_decompose`, `mldsa_make_hint` and `mldsa_use_hint` as they compute on their wires. The
quotients come from a multiplication and a shift; for the coefficients below the modulus they are
the steps of the standard.
-/

namespace PqcHsm

namespace MlDsa

def Q : Int := 8380417

/-- `mode`: 1 for the steps of `(q-1)/16`, 0 for those of `(q-1)/44`. -/
def gamma2 (mode : Bool) : Int := if mode then 261888 else 95232

/-- The number of the steps. -/
def steps (mode : Bool) : Int := if mode then 16 else 44

/-! ### The modules -/

def a1t (a : BitVec 32) : BitVec 17 := ((a.extractLsb' 0 24 + 127#24) >>> 7).extractLsb' 0 17

def quot88 (a : BitVec 32) : BitVec 7 :=
  ((a1t a).setWidth 31 * 11275#31 + 8388608#31).extractLsb' 24 7

def a1With88 (a : BitVec 32) : BitVec 6 := if quot88 a > 43#7 then 0 else (quot88 a).setWidth 6

def a1With32 (a : BitVec 32) : BitVec 6 :=
  (((a1t a).setWidth 28 * 1025#28 + 2097152#28).extractLsb' 22 4).setWidth 6

/-- The output `a1` of `mldsa_decompose`. -/
def highPart (mode : Bool) (a : BitVec 32) : BitVec 6 := if mode then a1With32 a else a1With88 a

/-- The output `a0` of `mldsa_decompose`. -/
def lowPart (mode : Bool) (a : BitVec 32) : BitVec 32 :=
  let sub := a - (highPart mode a).setWidth 32 * (if mode then 523776#32 else 190464#32)
  if (4190208#32).slt sub then sub - 8380417#32 else sub

/-- `mldsa_make_hint` -/
def makeHint (mode : Bool) (a0 : BitVec 32) (a1 : BitVec 6) : Bool :=
  let g : BitVec 32 := if mode then 261888 else 95232
  g.slt a0 || a0.slt (-g) || (a0 = -g && a1 ≠ 0)

/-- `mldsa_use_hint` -/
def useHint (mode : Bool) (a : BitVec 32) (hint : Bool) : BitVec 6 :=
  let a1 := highPart mode a
  let up := (0#32).slt (lowPart mode a)
  let inc88 : BitVec 6 := if a1 = 43 then 0 else a1 + 1
  let dec88 : BitVec 6 := if a1 = 0 then 43 else a1 - 1
  let inc32 : BitVec 6 := (a1.setWidth 4 + 1).setWidth 6
  let dec32 : BitVec 6 := (a1.setWidth 4 - 1).setWidth 6
  let inc := if mode then inc32 else inc88
  let dec := if mode then dec32 else dec88
  if !hint then a1 else if up then inc else dec

/-! ### The quotients -/

section Quotient

variable {a : BitVec 32}

theorem toNat_a1t (h : a.toNat < 8380417) : (a1t a).toNat = (a.toNat + 127) / 128 := by
  simp only [a1t, BitVec.extractLsb'_toNat, BitVec.toNat_ushiftRight, BitVec.toNat_add,
    BitVec.toNat_ofNat, Nat.shiftRight_eq_div_pow]
  omega

/-- The multiplication and the shift divide by the number of blocks of 128 in a step. -/
theorem scaled_div {t : Nat} (h : t ≤ 65473) :
    (t * 11275 + 8388608) / 16777216 = (t + 743) / 1488 ∧
      (t * 1025 + 2097152) / 4194304 = (t + 2045) / 4092 := by
  constructor <;> omega

/-- Nothing is lost on the wires of the multiplications. -/
theorem toNat_scaled {t : BitVec 17} (h : t.toNat ≤ 65473) :
    (t.setWidth 31 * 11275#31 + 8388608#31).toNat = t.toNat * 11275 + 8388608 ∧
      (t.setWidth 28 * 1025#28 + 2097152#28).toNat = t.toNat * 1025 + 2097152 := by
  constructor
  · have hWide : (t.setWidth 31).toNat = t.toNat := by
      rw [BitVec.toNat_setWidth]
      exact Nat.mod_eq_of_lt (by omega)
    have hFactor : (11275#31).toNat = 11275 := rfl
    have hRound : (8388608#31).toNat = 8388608 := rfl
    rw [BitVec.toNat_add, BitVec.toNat_mul, hWide, hFactor, hRound]
    omega
  · have hWide : (t.setWidth 28).toNat = t.toNat := by
      rw [BitVec.toNat_setWidth]
      exact Nat.mod_eq_of_lt (by omega)
    have hFactor : (1025#28).toNat = 1025 := rfl
    have hRound : (2097152#28).toNat = 2097152 := rfl
    rw [BitVec.toNat_add, BitVec.toNat_mul, hWide, hFactor, hRound]
    omega

theorem toNat_quot88 (h : a.toNat < 8380417) :
    (quot88 a).toNat = ((a.toNat + 127) / 128 + 743) / 1488 := by
  have hT := toNat_a1t h
  rw [quot88]
  generalize a1t a = t at hT ⊢
  have hLe : t.toNat ≤ 65473 := by omega
  have hPow : (2 : Nat) ^ 24 = 16777216 := rfl
  rw [BitVec.extractLsb'_toNat, (toNat_scaled hLe).1, Nat.shiftRight_eq_div_pow, hPow,
    (scaled_div hLe).1, hT]
  exact Nat.mod_eq_of_lt (by omega)

theorem toNat_a1With88 (h : a.toNat < 8380417) :
    (a1With88 a).toNat = ((a.toNat + 127) / 128 + 743) / 1488 % 44 := by
  have hQuot := toNat_quot88 h
  have hLe : ((a.toNat + 127) / 128 + 743) / 1488 ≤ 44 := by omega
  rw [a1With88]
  generalize quot88 a = k at hQuot ⊢
  rw [← hQuot] at hLe ⊢
  have hBig : k > 43#7 ↔ 43 < k.toNat := Iff.rfl
  split
  · next hOver =>
    rw [hBig] at hOver
    have hEq : k.toNat = 44 := by omega
    rw [hEq]
    rfl
  · next hOver =>
    rw [hBig] at hOver
    rw [BitVec.toNat_setWidth]
    omega

theorem toNat_a1With32 (h : a.toNat < 8380417) :
    (a1With32 a).toNat = ((a.toNat + 127) / 128 + 2045) / 4092 % 16 := by
  have hT := toNat_a1t h
  rw [a1With32]
  generalize a1t a = t at hT ⊢
  have hLe : t.toNat ≤ 65473 := by omega
  have hPow : (2 : Nat) ^ 22 = 4194304 := rfl
  rw [BitVec.toNat_setWidth, BitVec.extractLsb'_toNat, (toNat_scaled hLe).2,
    Nat.shiftRight_eq_div_pow, hPow, (scaled_div hLe).2, hT]
  exact Nat.mod_eq_of_lt (by omega)

end Quotient

/-! ### The decomposition -/

theorem gamma2_pos (mode : Bool) : 0 < gamma2 mode := by cases mode <;> decide

theorem modulus_eq (mode : Bool) : Rounding.modulus (gamma2 mode) (steps mode) = Q := by
  cases mode <;> decide

theorem steps_gt (mode : Bool) : 1 < steps mode := by cases mode <;> decide

/-- A coefficient is near the step that the multiplication finds; the last step is the first one. -/
theorem near_highPart (mode : Bool) {a : BitVec 32} (h : a.toNat < 8380417) :
    ∃ k t : Int, (a.toNat : Int) = 2 * gamma2 mode * k + t ∧ -gamma2 mode < t ∧ t ≤ gamma2 mode ∧
      0 ≤ k ∧ k ≤ steps mode ∧ ((highPart mode a).toNat : Int) = k % steps mode := by
  cases mode with
  | false =>
    have hHigh := toNat_a1With88 h
    generalize hk : ((a.toNat + 127) / 128 + 743) / 1488 = k at hHigh
    have hHigh' : ((highPart false a).toNat : Int) = (k : Int) % 44 := by
      rw [highPart, if_neg Bool.false_ne_true, hHigh]
      rfl
    have hGamma : gamma2 false = 95232 := rfl
    have hSteps : steps false = 44 := rfl
    refine ⟨k, a.toNat - 190464 * k, ?_⟩
    rw [hHigh', hGamma, hSteps]
    generalize a.toNat = n at hk h ⊢
    refine ⟨?_, ?_, ?_, ?_, ?_, rfl⟩ <;> omega
  | true =>
    have hHigh := toNat_a1With32 h
    generalize hk : ((a.toNat + 127) / 128 + 2045) / 4092 = k at hHigh
    have hHigh' : ((highPart true a).toNat : Int) = (k : Int) % 16 := by
      rw [highPart, if_pos rfl, hHigh]
      rfl
    have hGamma : gamma2 true = 261888 := rfl
    have hSteps : steps true = 16 := rfl
    refine ⟨k, a.toNat - 523776 * k, ?_⟩
    rw [hHigh', hGamma, hSteps]
    generalize a.toNat = n at hk h ⊢
    refine ⟨?_, ?_, ?_, ?_, ?_, rfl⟩ <;> omega

theorem toInt_of_lt {x : BitVec 32} (h : x.toNat < 2147483648) : x.toInt = x.toNat :=
  BitVec.toInt_eq_toNat_of_lt (by omega)

theorem bmod_word {x : Int} (hLow : -2147483648 ≤ x) (hHigh : x < 2147483648) :
    x.bmod (2 ^ 32) = x :=
  Int.bmod_eq_of_le (by omega) (by omega)

/-- The difference on 32 wires. -/
theorem toInt_sub_word {x y : BitVec 32} (hLow : -2147483648 ≤ x.toInt - y.toInt)
    (hHigh : x.toInt - y.toInt < 2147483648) : (x - y).toInt = x.toInt - y.toInt := by
  rw [BitVec.toInt_sub]
  exact bmod_word hLow hHigh

theorem toInt_product {c : BitVec 32} {a1 : BitVec 6} {k n : Nat} (ha : a1.toNat = k)
    (hc : c.toNat = n) (h : k * n < 2147483648) : (a1.setWidth 32 * c).toInt = n * k := by
  have hMul : (a1.setWidth 32 * c).toNat = k * n := by
    have hWide := a1.isLt
    rw [BitVec.toNat_mul, BitVec.toNat_setWidth, ha, hc, Nat.mod_eq_of_lt (by omega : k < 2 ^ 32),
      Nat.mod_eq_of_lt (by omega)]
  rw [toInt_of_lt (by rwa [hMul]), hMul, Nat.mul_comm]
  exact Int.natCast_mul n k

theorem toInt_low {mode : Bool} {a : BitVec 32} {k t : Int} (h : a.toNat < 8380417)
    (hEq : (a.toNat : Int) = 2 * gamma2 mode * k + t) (hLow : -gamma2 mode < t)
    (hHigh : t ≤ gamma2 mode) (hk : 0 ≤ k) (hk' : k ≤ steps mode)
    (hPart : ((highPart mode a).toNat : Int) = k % steps mode) :
    (lowPart mode a).toInt = if k = steps mode then t - 1 else t := by
  have hA : a.toInt = a.toNat := toInt_of_lt (by omega)
  have hSteps := steps_gt mode
  have hModulus := modulus_eq mode
  rw [Rounding.modulus, Q] at hModulus
  have hPart' : (highPart mode a).toNat < 44 ∧ (mode = true → (highPart mode a).toNat < 16) := by
    have hMod := Int.emod_lt_of_pos k (by omega : 0 < steps mode)
    cases mode with
    | false =>
      change k % 44 < 44 at hMod
      change _ = k % 44 at hPart
      exact ⟨by omega, fun h => absurd h Bool.false_ne_true⟩
    | true =>
      change k % 16 < 16 at hMod
      change _ = k % 16 at hPart
      exact ⟨by omega, fun _ => by omega⟩
  -- the product on 32 wires
  have hProd : ((highPart mode a).setWidth 32 * (if mode then 523776#32 else 190464#32)).toInt =
      2 * gamma2 mode * (k % steps mode) := by
    rw [← hPart]
    cases mode with
    | false =>
      rw [if_neg Bool.false_ne_true,
        @toInt_product _ _ _ 190464 rfl rfl (by omega)]
      rfl
    | true =>
      have hLess := hPart'.2 rfl
      rw [if_pos rfl, @toInt_product _ _ _ 523776 rfl rfl (by omega)]
      rfl
  rw [lowPart]
  generalize (highPart mode a).setWidth 32 * (if mode then 523776#32 else 190464#32) = p at hProd ⊢
  have hGamma : 0 < gamma2 mode ∧ gamma2 mode < 4190208 := by cases mode <;> decide
  have hSub : (a - p).toInt = if k = steps mode then 2 * gamma2 mode * steps mode + t else t := by
    by_cases hLast : k = steps mode
    · rw [hLast, Int.emod_self, Int.mul_zero] at hProd
      rw [if_pos hLast, ← hLast, ← hEq, toInt_sub_word, hA, hProd, Int.sub_zero] <;> omega
    · rw [Int.emod_eq_of_lt hk (by omega)] at hProd
      rw [if_neg hLast, toInt_sub_word, hA, hProd] <;> omega
  have hHalf : (4190208#32).slt (a - p) = true ↔ 4190208 < (a - p).toInt := by
    rw [BitVec.slt_iff_toInt_lt]
    rfl
  simp only [hHalf]
  by_cases hLast : k = steps mode
  · rw [if_pos hLast] at hSub ⊢
    have hBig : (4190208 : Int) < (a - p).toInt := by omega
    have hQ : (8380417#32).toInt = 8380417 := by decide
    rw [if_pos hBig, toInt_sub_word, hSub, hQ] <;> omega
  · rw [if_neg hLast] at hSub ⊢
    rw [if_neg (by omega)]
    exact hSub

/-- The modules return the decomposition of the standard. -/
theorem decompose_eq (mode : Bool) {a : BitVec 32} (h : a.toNat < 8380417) :
    Rounding.decompose (gamma2 mode) (steps mode) a.toNat =
      (((highPart mode a).toNat : Int), (lowPart mode a).toInt) := by
  obtain ⟨k, t, hEq, hLow, hHigh, hk, hk', hPart⟩ := near_highPart mode h
  have hRest := toInt_low h hEq hLow hHigh hk hk' hPart
  have hSteps := steps_gt mode
  by_cases hLast : k = steps mode
  · rw [hEq, hLast, Rounding.decompose_top hLow hHigh, hPart, hRest, if_pos hLast, hLast,
      Int.emod_self]
  · rw [hEq, Rounding.decompose_of hLast hLow hHigh, hPart, hRest, if_neg hLast,
      Int.emod_eq_of_lt hk (by omega)]

/-! ### The hints -/

theorem makeHint_eq (mode : Bool) (a0 : BitVec 32) (a1 : BitVec 6) :
    makeHint mode a0 a1 = Rounding.makeHint (gamma2 mode) a0.toInt a1.toNat := by
  have hAll (g : BitVec 32) (hg : g.toInt = gamma2 mode) (hg' : (-g).toInt = -gamma2 mode) :
      (g.slt a0 || a0.slt (-g) || (a0 = -g && a1 ≠ 0)) =
        Rounding.makeHint (gamma2 mode) a0.toInt a1.toNat := by
    have hZero : a1 ≠ 0 ↔ (a1.toNat : Int) ≠ 0 := by
      rw [Ne, ← BitVec.toNat_inj]
      exact not_congr Int.natCast_eq_zero.symm
    have hEdge : a0 = -g ↔ a0.toInt = -gamma2 mode := by rw [← BitVec.toInt_inj, hg']
    rw [Rounding.makeHint, Bool.eq_iff_iff]
    simp only [Bool.or_eq_true, Bool.and_eq_true, decide_eq_true_eq, BitVec.slt_iff_toInt_lt, hg,
      hg', hEdge, hZero, or_assoc]
  cases mode with
  | false => exact hAll 95232 (by decide) (by decide)
  | true => exact hAll 261888 (by decide) (by decide)

theorem highPart_lt (mode : Bool) {a : BitVec 32} (h : a.toNat < 8380417) :
    ((highPart mode a).toNat : Int) < steps mode := by
  obtain ⟨k, t, -, -, -, -, -, hPart⟩ := near_highPart mode h
  rw [hPart]
  exact Int.emod_lt_of_pos k (by have := steps_gt mode; omega)

/-- The next and the previous step on six wires, around the circle. -/
theorem around_88 : ∀ a1 : BitVec 6, a1.toNat < 44 →
    (((if a1 = 43 then 0 else a1 + 1 : BitVec 6).toNat : Int) = (a1.toNat + 1) % 44 ∧
      ((if a1 = 0 then 43 else a1 - 1 : BitVec 6).toNat : Int) = (a1.toNat - 1) % 44) := by
  decide +kernel

theorem around_32 : ∀ a1 : BitVec 6, a1.toNat < 16 →
    ((((a1.setWidth 4 + 1).setWidth 6 : BitVec 6).toNat : Int) = (a1.toNat + 1) % 16 ∧
      (((a1.setWidth 4 - 1).setWidth 6 : BitVec 6).toNat : Int) = (a1.toNat - 1) % 16) := by
  decide +kernel

theorem useHint_eq (mode hint : Bool) {a : BitVec 32} (h : a.toNat < 8380417) :
    ((useHint mode a hint).toNat : Int) =
      Rounding.useHint (gamma2 mode) (steps mode) hint a.toNat := by
  have hLt := highPart_lt mode h
  rw [Rounding.useHint, decompose_eq mode h, useHint]
  dsimp only
  generalize highPart mode a = a1 at hLt ⊢
  have hUp : (0#32).slt (lowPart mode a) = true ↔ 0 < (lowPart mode a).toInt := by
    rw [BitVec.slt_iff_toInt_lt]
    rfl
  have hFalse : steps false = 44 := rfl
  have hTrue : steps true = 16 := rfl
  cases hint with
  | false => simp only [Bool.not_false, Bool.false_eq_true, if_false, if_true]
  | true =>
    simp only [hUp, Bool.not_true, Bool.false_eq_true, if_false, if_true]
    cases mode with
    | false =>
      rw [hFalse] at hLt ⊢
      have hAround := around_88 a1 (by omega)
      simp only [Bool.false_eq_true, if_false]
      by_cases hPos : 0 < (lowPart false a).toInt
      · rw [if_pos hPos, if_pos hPos]
        exact hAround.1
      · rw [if_neg hPos, if_neg hPos]
        exact hAround.2
    | true =>
      rw [hTrue] at hLt ⊢
      have hAround := around_32 a1 (by omega)
      simp only [if_true]
      by_cases hPos : 0 < (lowPart true a).toInt
      · rw [if_pos hPos, if_pos hPos]
        exact hAround.1
      · rw [if_neg hPos, if_neg hPos]
        exact hAround.2

/-- A coefficient given as an integer. -/
theorem toNat_ofInt {x : Int} (hLow : 0 ≤ x) (hHigh : x < Q) :
    ((BitVec.ofInt 32 x).toNat : Int) = x := by
  rw [Q] at hHigh
  rw [BitVec.toNat_ofInt, Int.toNat_of_nonneg (Int.emod_nonneg _ (by decide))]
  exact Int.emod_eq_of_lt hLow (by omega)

theorem toInt_ofInt_word {x : Int} (hLow : -2147483648 ≤ x) (hHigh : x < 2147483648) :
    (BitVec.ofInt 32 x).toInt = x := by
  rw [BitVec.toInt_ofInt]
  exact bmod_word hLow hHigh

/-- From a number near its step, or beside it, the hint bit leads the module back to the step. -/
theorem hint_back (mode : Bool) {a1 : BitVec 6} {x t c : Int} (ha : (a1.toNat : Int) < steps mode)
    (hx : x = 2 * gamma2 mode * a1.toNat + t + Q * c) (hLow : -(2 * gamma2 mode) ≤ t)
    (hHigh : t ≤ 2 * gamma2 mode) (hEdge : t = -(2 * gamma2 mode) → (a1.toNat : Int) = 0) :
    useHint mode (BitVec.ofInt 32 (x % Q)) (makeHint mode (BitVec.ofInt 32 t) a1) = a1 := by
  have hGamma : 0 < gamma2 mode ∧ gamma2 mode < 4190208 := by cases mode <;> decide
  have hMod := Int.emod_nonneg x (by decide : Q ≠ 0)
  have hMod' := Int.emod_lt_of_pos x (by decide : 0 < Q)
  have hVal := toNat_ofInt hMod hMod'
  have hSmall : (BitVec.ofInt 32 (x % Q)).toNat < 8380417 := by
    rw [Q] at hMod'
    rw [Q] at hVal ⊢
    omega
  have hBack := @Rounding.useHint_makeHint _ _ (gamma2_pos mode) (steps_gt mode) _ _
    (Int.natCast_nonneg a1.toNat) ha hLow hHigh hEdge
  have hSame : (2 * gamma2 mode * a1.toNat + t) % Q = x % Q := by
    rw [hx, Int.add_mul_emod_self_left]
  have hUse := useHint_eq mode (makeHint mode (BitVec.ofInt 32 t) a1) hSmall
  have hHint : makeHint mode (BitVec.ofInt 32 t) a1 =
      Rounding.makeHint (gamma2 mode) t a1.toNat := by
    rw [makeHint_eq, toInt_ofInt_word (by omega) (by omega)]
  have hArg : Rounding.useHint (gamma2 mode) (steps mode) (makeHint mode (BitVec.ofInt 32 t) a1)
      (BitVec.ofInt 32 (x % Q)).toNat = a1.toNat := by
    rw [hVal, hHint, ← hSame, ← modulus_eq mode]
    exact hBack
  exact BitVec.eq_of_toNat_eq (Int.ofNat_inj.mp (hUse.trans hArg))

/-- The decomposition is that of the standard, the hint of a change leads back to the step of the
number, and so the verifier, who has the number without `s` and with `e`, finds the step that the
signer hashed. -/
theorem hints_recover (mode : Bool) :
    (∀ r : BitVec 32, r.toNat < 8380417 →
      Rounding.decompose (gamma2 mode) (steps mode) r.toNat =
        (((highPart mode r).toNat : Int), (lowPart mode r).toInt)) ∧
    (∀ r : BitVec 32, r.toNat < 8380417 → ∀ e : Int, |e| ≤ gamma2 mode →
      useHint mode (BitVec.ofInt 32 ((r.toNat + e) % Q))
        (makeHint mode (BitVec.ofInt 32 ((lowPart mode r).toInt + e)) (highPart mode r)) =
          highPart mode r) ∧
    (∀ w : BitVec 32, w.toNat < 8380417 → ∀ s e : Int, |(lowPart mode w).toInt - s| < gamma2 mode →
      |e| ≤ gamma2 mode →
      useHint mode (BitVec.ofInt 32 ((w.toNat - s + e) % Q))
        (makeHint mode (BitVec.ofInt 32 ((lowPart mode w).toInt - s + e)) (highPart mode w)) =
          highPart mode w) := by
  have hSpec {r : BitVec 32} (hr : r.toNat < 8380417) :
      ∃ c : Int, (r.toNat : Int) =
        2 * gamma2 mode * (highPart mode r).toNat + (lowPart mode r).toInt + Q * c ∧
          -gamma2 mode ≤ (lowPart mode r).toInt ∧ (lowPart mode r).toInt ≤ gamma2 mode ∧
          ((lowPart mode r).toInt = -gamma2 mode → ((highPart mode r).toNat : Int) = 0) := by
    have hSteps := steps_gt mode
    obtain ⟨-, -, hLow, hHigh, hEdge, c, hEq⟩ :=
      @Rounding.decompose_spec _ (steps mode) (gamma2_pos mode) (by omega) r.toNat
        (Int.natCast_nonneg _) (by rw [modulus_eq, Q]; omega)
    rw [decompose_eq mode hr] at hLow hHigh hEdge hEq
    rw [modulus_eq] at hEq
    exact ⟨c, hEq, hLow, hHigh, hEdge⟩
  refine ⟨fun r hr => decompose_eq mode hr, ?_, ?_⟩
  · intro r hr e he
    obtain ⟨c, hEq, hLow, hHigh, hEdge⟩ := hSpec hr
    obtain ⟨he, he'⟩ := abs_le.mp he
    apply @hint_back mode _ _ _ c (highPart_lt mode hr) <;> omega
  · intro w hw s e hs he
    obtain ⟨c, hEq, hLow, hHigh, hEdge⟩ := hSpec hw
    obtain ⟨he, he'⟩ := abs_le.mp he
    obtain ⟨hs, hs'⟩ := abs_lt.mp hs
    apply @hint_back mode _ _ _ c (highPart_lt mode hw) <;> omega

end MlDsa

end PqcHsm
