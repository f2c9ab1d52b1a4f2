import PqcHsm.Rtl.DecapsReject

/-!
# Decapsulation goes on

Every cycle of a run either takes something away of what is still to be done, or waits for a signal
from outside or from one of the sub-cores.
-/

namespace PqcHsm

open MlKem

/-! ### What a state waits for -/

inductive DecapsWait where
  | dk | dkSha | ct | shaIn | shaOut | ntt | ek | enc | out

def DecapsTiming.gives (t : DecapsTiming) : DecapsWait → Bool
  | .dk => t.dkValid
  | .dkSha => t.dkValid && t.shaInReady
  | .ct => t.cValid && t.shaInReady
  | .shaIn => t.shaInReady
  | .shaOut => t.shaOutValid
  | .ntt => t.nttDone
  | .ek => t.encEkReady
  | .enc => t.encOutValid
  | .out => t.outReady

namespace DecapsCtl

def waitsFor (c : DecapsCtl) : Option DecapsWait :=
  match c.st with
  | .dkIn => if c.inEkRng then some .dkSha else some .dk
  | .hekSq | .jSq => some .shaOut
  | .jZ => some .shaIn
  | .cIn => some .ct
  | .uNtt | .inv => if c.nttKicked then some .ntt else none
  | .reRun =>
    if c.ekbV then some .ek
    else if c.ekbWait || c.ekpos < eklen c.k then none
    else some .enc
  | .out => some .out
  | _ => none

/-- What is still to come of the ciphertext and of its polynomials. -/
def polys (c : DecapsCtl) : Nat := 2 * (clen c.k c.d11 - c.cpos) + 2000 * (c.k - c.idxI)

/-- What is still to come of the key that is replayed. -/
def replays (c : DecapsCtl) : Nat :=
  3 * (eklen c.k - c.ekpos) + if c.ekbWait then 2 else if c.ekbV then 0 else 1

/-- What every cycle takes away that does not wait. -/
def rest (c : DecapsCtl) : Nat :=
  match c.st with
  | .dkIn => dklen c.k - c.dkcnt
  | .cIn => clen c.k c.d11 - c.cpos
  | .hekSq | .jZ | .jSq | .out => 32 - c.ocnt
  | .accClr | .a2n => 256 - c.acnt
  | .uWait => c.polys + 1001 + (256 - c.ucnt)
  | .uStep => c.polys + 1000 + (256 - c.ucnt)
  | .uNtt => c.polys + if c.nttKicked then 900 else 901
  | .macA0 => c.polys + 7 * (128 - c.pair)
  | .macA1 => c.polys + 7 * (128 - c.pair) - 1
  | .macC => c.polys + 7 * (128 - c.pair) - 2
  | .macM => c.polys + 7 * (128 - c.pair) - 3
  | .macT => c.polys + 7 * (128 - c.pair) - 4
  | .macW0 => c.polys + 7 * (128 - c.pair) - 5
  | .macW1 => c.polys + 7 * (128 - c.pair) - 6
  | .inv => if c.nttKicked then 0 else 1
  | .vWait => 2 * (clen c.k c.d11 - c.cpos) + 4 * (256 - c.vcnt)
  | .vStep => 2 * (clen c.k c.d11 - c.cpos) + 4 * (256 - c.vcnt) - 1
  | .vW => 2 * (clen c.k c.d11 - c.cpos) + 4 * (256 - c.vcnt) - 2
  | .vBit => 2 * (clen c.k c.d11 - c.cpos) + 4 * (256 - c.vcnt) - 3
  | .reRun => c.replays + (clen c.k c.d11 + 32 - c.rbcnt)
  | _ => 0

end DecapsCtl

/-- How many groups of states are still to come. -/
def DecapsSt.toCome : DecapsSt → Nat
  | .hekStart => 18
  | .dkIn => 17
  | .hekFlush => 16
  | .hekSq => 15
  | .jStart => 14
  | .jZ => 13
  | .cIn => 12
  | .jFlush => 11
  | .jSq => 10
  | .accClr => 9
  | .uWait | .uStep | .uNtt | .macA0 | .macA1 | .macC | .macM | .macT | .macW0 | .macW1 => 8
  | .a2nRd => 7
  | .a2n => 6
  | .inv => 5
  | .vWait | .vStep | .vW | .vBit => 4
  | .reStart => 3
  | .reRun => 2
  | .out => 1
  | .done | .idle => 0

def DecapsCtl.rank (c : DecapsCtl) : Nat := 20000 * c.st.toCome + c.rest

section

variable {E : Cores} {c : DecapsCtl} {d : DecapsData} {m : DecapsLog} {x : DecapsIn}

/-- A cycle either goes on or waits for a signal that is not there. -/
def GoesOn (c : DecapsCtl) (t : DecapsTiming) : Prop :=
  (c.step t).rank < c.rank ∨ ∃ i, c.waitsFor = some i ∧ t.gives i = false ∧ c.step t = c

theorem kick_again (hKicked : c.nttKicked = true) : { c with nttKicked := true } = c := by
  rw [← hKicked]

theorem ctl_sizes (hSized : c.Sized) :
    c.k ≤ 4 ∧ dklen c.k ≤ 3168 ∧ eklen c.k ≤ 1568 ∧ clen c.k c.d11 ≤ 1568 := by
  have hBounds := kNow_bounds c.ps
  have hSizes := sizes c.k
  have hK := hSized.1
  have hClen : clen c.k c.d11 ≤ 1568 := by
    cases hD : c.d11 with
    | false =>
      change 256 * c.k + 64 * c.k + 0 + 32 * 4 ≤ 1568
      omega
    | true =>
      change 256 * c.k + 64 * c.k + 32 * c.k + 32 * 5 ≤ 1568
      omega
  omega

/-- Into a later group of states. -/
theorem rank_group (t : DecapsTiming) (hLess : (c.step t).st.toCome < c.st.toCome)
    (hRest : (c.step t).rest < 20000) : GoesOn c t := by
  left
  rw [DecapsCtl.rank, DecapsCtl.rank]
  omega

/-- Inside a group. -/
theorem rank_rest (t : DecapsTiming) (hSame : (c.step t).st.toCome ≤ c.st.toCome)
    (hRest : (c.step t).rest < c.rest) : GoesOn c t := by
  left
  rw [DecapsCtl.rank, DecapsCtl.rank]
  omega

theorem falls_dkIn (hSt : c.st = .dkIn) (hMore : c.dkcnt < dklen c.k) :
    GoesOn c x.toDecapsTiming := by
  cases hFire : c.dkFire x.toDecapsTiming with
  | false =>
    have hStay : c.step x.toDecapsTiming = c := by
      simp only [DecapsCtl.step, hSt, hFire, Bool.false_eq_true, if_false]
    have hNeed : c.waitsFor = if c.inEkRng then some .dkSha else some .dk := by
      rw [DecapsCtl.waitsFor, hSt]
    rw [DecapsCtl.dkFire, hSt] at hFire
    cases hEk : c.inEkRng with
    | true =>
      rw [hEk] at hFire hNeed
      refine .inr ⟨.dkSha, hNeed, ?_, hStay⟩
      simpa [DecapsTiming.gives] using hFire
    | false =>
      rw [hEk] at hFire hNeed
      refine .inr ⟨.dk, hNeed, ?_, hStay⟩
      simpa [DecapsTiming.gives] using hFire
  | true =>
    have hStep : c.step x.toDecapsTiming = c.stepDk := by
      simp only [DecapsCtl.step, hSt, hFire, if_true]
    obtain ⟨hK, -, -, -⟩ := stepPlace_keeps c
    have hPlaceSt := (stepPlace_st c).trans hSt
    by_cases hLast : c.dkcnt + 1 = dklen c.k
    · rw [DecapsCtl.stepDk, if_pos hLast] at hStep
      apply rank_group
      · rw [hStep, hSt]
        exact Nat.lt_succ_self 16
      · rw [hStep]
        exact Nat.zero_lt_succ _
    · rw [DecapsCtl.stepDk, if_neg hLast] at hStep
      apply rank_rest
      · rw [hStep, hSt]
        exact Nat.le_of_eq (congrArg DecapsSt.toCome hPlaceSt)
      · rw [hStep]
        simp only [DecapsCtl.rest, hSt, hPlaceSt, hK]
        omega

theorem falls_hekSq (hSt : c.st = .hekSq) (hLess : c.ocnt < 32) : GoesOn c x.toDecapsTiming := by
  cases hValid : x.shaOutValid with
  | false =>
    refine .inr ⟨.shaOut, by rw [DecapsCtl.waitsFor, hSt], hValid, ?_⟩
    simp only [DecapsCtl.step, hSt, hValid, Bool.false_eq_true, if_false]
  | true =>
    by_cases hLast : c.ocnt = 31
    · have hStep : c.step x.toDecapsTiming = { c with ocnt := 0, st := .jStart } := by
        simp only [DecapsCtl.step, hSt, hValid, hLast, if_true]
      apply rank_group
      · rw [hStep, hSt]
        exact Nat.lt_succ_self 14
      · rw [hStep]
        exact Nat.zero_lt_succ _
    · have hStep : c.step x.toDecapsTiming = { c with ocnt := c.ocnt + 1 } := by
        simp only [DecapsCtl.step, hSt, hValid, hLast, if_true, if_false]
      apply rank_rest
      · rw [hStep]
      · rw [hStep]
        simp only [DecapsCtl.rest, hSt]
        omega

theorem falls_jZ (hSized : c.Sized) (hSt : c.st = .jZ) (hLess : c.ocnt < 32) :
    GoesOn c x.toDecapsTiming := by
  obtain ⟨-, -, -, hClen⟩ := ctl_sizes hSized
  cases hReady : x.shaInReady with
  | false =>
    refine .inr ⟨.shaIn, by rw [DecapsCtl.waitsFor, hSt], hReady, ?_⟩
    simp only [DecapsCtl.step, hSt, hReady, Bool.false_eq_true, if_false]
  | true =>
    by_cases hLast : c.ocnt = 31
    · have hStep : c.step x.toDecapsTiming =
          { c with ocnt := c.ocnt + 1, cpos := 0, st := .cIn } := by
        simp only [DecapsCtl.step, hSt, hReady, hLast, if_true]
      apply rank_group
      · rw [hStep, hSt]
        exact Nat.lt_succ_self 12
      · rw [hStep]
        simp only [DecapsCtl.rest]
        omega
    · have hStep : c.step x.toDecapsTiming = { c with ocnt := c.ocnt + 1 } := by
        simp only [DecapsCtl.step, hSt, hReady, hLast, if_true, if_false]
      apply rank_rest
      · rw [hStep]
      · rw [hStep]
        simp only [DecapsCtl.rest, hSt]
        omega

theorem falls_cIn (hSt : c.st = .cIn) (hMore : c.cpos < clen c.k c.d11) :
    GoesOn c x.toDecapsTiming := by
  cases hFire : c.cFire x.toDecapsTiming with
  | false =>
    refine .inr ⟨.ct, by rw [DecapsCtl.waitsFor, hSt], ?_, ?_⟩
    · rw [DecapsCtl.cFire, hSt] at hFire
      exact hFire
    · simp only [DecapsCtl.step, hSt, hFire, Bool.false_eq_true, if_false]
  | true =>
    by_cases hLast : c.cpos + 1 = clen c.k c.d11
    · have hStep : c.step x.toDecapsTiming = { c with cpos := c.cpos + 1, st := .jFlush } := by
        simp only [DecapsCtl.step, hSt, hFire, hLast, if_true]
      apply rank_group
      · rw [hStep, hSt]
        exact Nat.lt_succ_self 11
      · rw [hStep]
        exact Nat.zero_lt_succ _
    · have hStep : c.step x.toDecapsTiming = { c with cpos := c.cpos + 1 } := by
        simp only [DecapsCtl.step, hSt, hFire, hLast, if_true, if_false]
      apply rank_rest
      · rw [hStep]
      · rw [hStep]
        simp only [DecapsCtl.rest, hSt]
        omega

theorem falls_jSq (hSt : c.st = .jSq) (hLess : c.ocnt < 32) : GoesOn c x.toDecapsTiming := by
  cases hValid : x.shaOutValid with
  | false =>
    refine .inr ⟨.shaOut, by rw [DecapsCtl.waitsFor, hSt], hValid, ?_⟩
    simp only [DecapsCtl.step, hSt, hValid, Bool.false_eq_true, if_false]
  | true =>
    by_cases hLast : c.ocnt = 31
    · have hStep : c.step x.toDecapsTiming =
          { c with ocnt := c.ocnt + 1, acnt := 0, st := .accClr } := by
        simp only [DecapsCtl.step, hSt, hValid, hLast, if_true]
      apply rank_group
      · rw [hStep, hSt]
        exact Nat.lt_succ_self 9
      · rw [hStep]
        simp only [DecapsCtl.rest]
        omega
    · have hStep : c.step x.toDecapsTiming = { c with ocnt := c.ocnt + 1 } := by
        simp only [DecapsCtl.step, hSt, hValid, hLast, if_true, if_false]
      apply rank_rest
      · rw [hStep]
      · rw [hStep]
        simp only [DecapsCtl.rest, hSt]
        omega

theorem falls_accClr (hSized : c.Sized) (hSt : c.st = .accClr) (hLess : c.acnt < 256) :
    GoesOn c x.toDecapsTiming := by
  obtain ⟨hK, -, -, hClen⟩ := ctl_sizes hSized
  by_cases hLast : c.acnt = 255
  · have hStep : c.step x.toDecapsTiming =
        { c with acnt := 0, cpos := 0, ucnt := 0, idxI := 0, vPhase := false, st := .uWait } := by
      simp only [DecapsCtl.step, hSt, hLast, if_true]
    apply rank_group
    · rw [hStep, hSt]
      exact Nat.lt_succ_self 8
    · rw [hStep]
      simp only [DecapsCtl.rest, DecapsCtl.polys]
      omega
  · have hStep : c.step x.toDecapsTiming = { c with acnt := c.acnt + 1 } := by
      simp only [DecapsCtl.step, hSt, hLast, if_false]
    apply rank_rest
    · rw [hStep]
    · rw [hStep]
      simp only [DecapsCtl.rest, hSt]
      omega

theorem falls_uStep (hReady : Ready E c d m) (hSt : c.st = .uStep) (hIn : UIn E c d m) :
    GoesOn c x.toDecapsTiming := by
  have hCoef := hIn.coef
  have hD := hIn.buD
  by_cases hValid : du c.d11 ≤ c.nbits
  · have hOutValid : c.buOutValid = true := by
      rw [DecapsCtl.buOutValid, hD]
      exact decide_eq_true hValid
    by_cases hLast : c.ucnt = 255
    · have hStep : c.step x.toDecapsTiming =
          { c with ucnt := 0, nttKicked := false, nttInverse := false, st := .uNtt } := by
        simp only [DecapsCtl.step, hSt, hOutValid, hLast, if_true]
      apply rank_rest
      · rw [hStep, hSt]
        exact Nat.le_refl 8
      · rw [hStep]
        simp only [DecapsCtl.rest, DecapsCtl.polys, hSt, Bool.false_eq_true, if_false]
        omega
    · have hStep : c.step x.toDecapsTiming = { c with ucnt := c.ucnt + 1 } := by
        simp only [DecapsCtl.step, hSt, hOutValid, hLast, if_true, if_false]
      apply rank_rest
      · rw [hStep]
      · rw [hStep]
        simp only [DecapsCtl.rest, DecapsCtl.polys, hSt]
        omega
  · have hOutValid : c.buOutValid = false := by
      rw [DecapsCtl.buOutValid, hD]
      exact decide_eq_false hValid
    have hStep : c.step x.toDecapsTiming = { c with cpos := c.cpos + 1, st := .uWait } := by
      simp only [DecapsCtl.step, hSt, hOutValid, Bool.false_eq_true, if_false]
    have hInside := hIn.inside hReady.ct hValid
    have hLength := length_c1 hReady.ct
    have hClen : c1len c.k c.d11 ≤ clen c.k c.d11 := Nat.le_add_right _ _
    apply rank_rest
    · rw [hStep, hSt]
      exact Nat.le_refl 8
    · rw [hStep]
      simp only [DecapsCtl.rest, DecapsCtl.polys, hSt]
      omega

theorem falls_uNtt (hSt : c.st = .uNtt) : GoesOn c x.toDecapsTiming := by
  cases hDone : x.nttDone && c.nttKicked with
  | true =>
    have hStep : c.step x.toDecapsTiming = { c with pair := 0, st := .macA0 } := by
      simp only [DecapsCtl.step, hSt, hDone, if_true]
    apply rank_rest
    · rw [hStep, hSt]
      exact Nat.le_refl 8
    · rw [hStep]
      simp only [DecapsCtl.rest, DecapsCtl.polys, hSt]
      split
      · omega
      · omega
  | false =>
    have hStep : c.step x.toDecapsTiming = { c with nttKicked := true } := by
      simp only [DecapsCtl.step, hSt, hDone, Bool.false_eq_true, if_false]
    cases hKicked : c.nttKicked with
    | true =>
      rw [hKicked, Bool.and_true] at hDone
      refine .inr ⟨.ntt, ?_, hDone, hStep.trans (kick_again hKicked)⟩
      rw [DecapsCtl.waitsFor, hSt]
      exact if_pos hKicked
    | false =>
      apply rank_rest
      · rw [hStep]
      · rw [hStep]
        simp only [DecapsCtl.rest, DecapsCtl.polys, hSt, hKicked, Bool.false_eq_true, if_true,
          if_false]
        omega

/-- The states of a product but the last. -/
theorem falls_mac (hSt : c.st = .macA0 ∨ c.st = .macA1 ∨ c.st = .macC ∨ c.st = .macM ∨
    c.st = .macT ∨ c.st = .macW0) (hPair : c.pair < 128) : GoesOn c x.toDecapsTiming := by
  obtain hSt | hSt | hSt | hSt | hSt | hSt := hSt
  all_goals
    apply rank_rest
    · simp only [DecapsCtl.step, hSt, DecapsSt.toCome, Nat.le_refl]
    · simp only [DecapsCtl.step, DecapsCtl.rest, DecapsCtl.polys, hSt]
      omega

theorem falls_macW1 (hSt : c.st = .macW1) (hPair : c.pair < 128) (hIdx : c.idxI < c.k) :
    GoesOn c x.toDecapsTiming := by
  by_cases hLast : c.pair = 127
  · by_cases hAll : c.idxI + 1 = c.k
    · have hStep : c.step x.toDecapsTiming = { c with acnt := 0, st := .a2nRd } := by
        simp only [DecapsCtl.step, hSt, hLast, hAll, if_true]
      apply rank_group
      · rw [hStep, hSt]
        exact Nat.lt_succ_self 7
      · rw [hStep]
        exact Nat.zero_lt_succ _
    · have hStep : c.step x.toDecapsTiming =
          { c with idxI := c.idxI + 1, ucnt := 0, st := .uWait } := by
        simp only [DecapsCtl.step, hSt, hLast, hAll, if_true, if_false]
      apply rank_rest
      · rw [hStep, hSt]
        exact Nat.le_refl 8
      · rw [hStep]
        simp only [DecapsCtl.rest, DecapsCtl.polys, hSt]
        omega
  · have hStep : c.step x.toDecapsTiming = { c with pair := c.pair + 1, st := .macA0 } := by
      simp only [DecapsCtl.step, hSt, hLast, if_false]
    apply rank_rest
    · rw [hStep, hSt]
      exact Nat.le_refl 8
    · rw [hStep]
      simp only [DecapsCtl.rest, DecapsCtl.polys, hSt]
      omega

theorem falls_a2n (hSt : c.st = .a2n) (hLess : c.acnt < 256) : GoesOn c x.toDecapsTiming := by
  by_cases hLast : c.acnt = 255
  · have hStep : c.step x.toDecapsTiming =
        { c with acnt := 0, nttKicked := false, nttInverse := true, st := .inv } := by
      simp only [DecapsCtl.step, hSt, hLast, if_true]
    apply rank_group
    · rw [hStep, hSt]
      exact Nat.lt_succ_self 5
    · rw [hStep]
      change 1 < 20000
      decide
  · have hStep : c.step x.toDecapsTiming = { c with acnt := c.acnt + 1 } := by
      simp only [DecapsCtl.step, hSt, hLast, if_false]
    apply rank_rest
    · rw [hStep]
    · rw [hStep]
      simp only [DecapsCtl.rest, hSt]
      omega

theorem falls_inv (hSized : c.Sized) (hSt : c.st = .inv) : GoesOn c x.toDecapsTiming := by
  obtain ⟨-, -, -, hClen⟩ := ctl_sizes hSized
  cases hDone : x.nttDone && c.nttKicked with
  | true =>
    have hStep : c.step x.toDecapsTiming = { c with vcnt := 0, vPhase := true, st := .vWait } := by
      simp only [DecapsCtl.step, hSt, hDone, if_true]
    apply rank_group
    · rw [hStep, hSt]
      exact Nat.lt_succ_self 4
    · rw [hStep]
      simp only [DecapsCtl.rest]
      omega
  | false =>
    have hStep : c.step x.toDecapsTiming = { c with nttKicked := true } := by
      simp only [DecapsCtl.step, hSt, hDone, Bool.false_eq_true, if_false]
    cases hKicked : c.nttKicked with
    | true =>
      rw [hKicked, Bool.and_true] at hDone
      refine .inr ⟨.ntt, ?_, hDone, hStep.trans (kick_again hKicked)⟩
      rw [DecapsCtl.waitsFor, hSt]
      exact if_pos hKicked
    | false =>
      apply rank_rest
      · rw [hStep]
      · rw [hStep]
        simp only [DecapsCtl.rest, hSt, hKicked, Bool.false_eq_true, if_true, if_false]
        exact Nat.zero_lt_one

theorem falls_vStep (hReady : Ready E c d m) (hSt : c.st = .vStep) (hIn : VIn E c d m c.vcnt) :
    GoesOn c x.toDecapsTiming := by
  have hCoef := hIn.coef
  have hD := hIn.buD
  by_cases hValid : dv c.d11 ≤ c.nbits
  · have hOutValid : c.buOutValid = true := by
      rw [DecapsCtl.buOutValid, hD]
      exact decide_eq_true hValid
    have hStep : c.step x.toDecapsTiming = { c with st := .vW } := by
      simp only [DecapsCtl.step, hSt, hOutValid, if_true]
    apply rank_rest
    · rw [hStep, hSt]
      exact Nat.le_refl 4
    · rw [hStep]
      simp only [DecapsCtl.rest, hSt]
      omega
  · have hOutValid : c.buOutValid = false := by
      rw [DecapsCtl.buOutValid, hD]
      exact decide_eq_false hValid
    have hStep : c.step x.toDecapsTiming = { c with cpos := c.cpos + 1, st := .vWait } := by
      simp only [DecapsCtl.step, hSt, hOutValid, Bool.false_eq_true, if_false]
    have hInside := hIn.inside hReady.ct hValid
    have hLength := length_c2 hReady.ct
    have hBehind := hIn.behind
    have hClen : c1len c.k c.d11 + 32 * dv c.d11 = clen c.k c.d11 := rfl
    apply rank_rest
    · rw [hStep, hSt]
      exact Nat.le_refl 4
    · rw [hStep]
      simp only [DecapsCtl.rest, hSt]
      omega

theorem falls_vBit (hSt : c.st = .vBit) (hCoef : c.vcnt < 256) : GoesOn c x.toDecapsTiming := by
  by_cases hLast : c.vcnt = 255
  · have hStep : c.step x.toDecapsTiming = { c with vcnt := c.vcnt + 1, st := .reStart } := by
      simp only [DecapsCtl.step, hSt, hLast, if_true]
    apply rank_group
    · rw [hStep, hSt]
      exact Nat.lt_succ_self 3
    · rw [hStep]
      exact Nat.zero_lt_succ _
  · have hStep : c.step x.toDecapsTiming = { c with vcnt := c.vcnt + 1, st := .vWait } := by
      simp only [DecapsCtl.step, hSt, hLast, if_false]
    apply rank_rest
    · rw [hStep, hSt]
      exact Nat.le_refl 4
    · rw [hStep]
      simp only [DecapsCtl.rest, hSt]
      omega

/-- The replay goes on, waits for the inner core, or is over. -/
theorem replays_falls (hReplay : KeyReplay c d m) (hSt : c.st = .reRun) :
    (c.stepEk x.toDecapsTiming).replays < c.replays ∨
      c.stepEk x.toDecapsTiming = c ∧
        (c.ekbV = true ∧ x.encEkReady = false ∨
          c.ekbV = false ∧ c.ekbWait = false ∧ c.ekpos = eklen c.k) := by
  have hInside := hReplay.inside
  cases hFire : c.ekFire x.toDecapsTiming with
  | true =>
    have hValid : c.ekbV = true := by
      simp only [DecapsCtl.ekFire, Bool.and_eq_true] at hFire
      exact hFire.1.2
    have hLess := (hReplay.loaded hValid).1
    left
    simp only [DecapsCtl.stepEk, hFire, DecapsCtl.replays, if_true]
    omega
  | false =>
    cases hWait : c.ekbWait with
    | true =>
      left
      simp only [DecapsCtl.stepEk, hFire, hWait, DecapsCtl.replays, Bool.false_eq_true, if_true,
        if_false]
      split
      · omega
      · omega
    | false =>
      cases hV : c.ekbV with
      | true =>
        right
        simp only [DecapsCtl.ekFire, hSt, hV, decide_true, Bool.true_and] at hFire
        refine ⟨?_, .inl ⟨rfl, hFire⟩⟩
        simp only [DecapsCtl.stepEk, DecapsCtl.ekFire, DecapsCtl.ekLoad, hSt, hV, hWait, hFire,
          decide_true, Bool.true_and, Bool.not_true, Bool.and_false, Bool.false_and,
          Bool.false_eq_true, if_false]
      | false =>
        by_cases hMore : c.ekpos < eklen c.k
        · have hLoad : c.ekLoad x.toDecapsTiming = true := by
            simp only [DecapsCtl.ekLoad, hFire, hWait, hV, hMore, Bool.not_false, Bool.true_and,
              decide_true]
          left
          simp only [DecapsCtl.stepEk, hFire, hWait, hV, hLoad, DecapsCtl.replays,
            Bool.false_eq_true, if_true, if_false]
          omega
        · have hLoad : c.ekLoad x.toDecapsTiming = false := by
            simp only [DecapsCtl.ekLoad, hMore, decide_false, Bool.and_false]
          right
          refine ⟨?_, .inr ⟨rfl, rfl, by omega⟩⟩
          simp only [DecapsCtl.stepEk, hFire, hWait, hLoad, Bool.false_eq_true, if_false]

theorem falls_reRun (hSt : c.st = .reRun) (hRun : KemReplays E c d m) :
    GoesOn c x.toDecapsTiming := by
  have hStep : c.step x.toDecapsTiming = c.stepRe x.toDecapsTiming := by
    simp only [DecapsCtl.step, hSt]
  have hStNext := stepRe_st (x := x) hSt
  have hR := (stepRe_counts (x := x) hSt).1
  have hMore := hRun.more
  obtain ⟨hK, -, hD11⟩ := step_keeps c x.toDecapsTiming
  obtain ⟨hEkpos, hEkbV, hEkbWait⟩ := stepRe_ek c x.toDecapsTiming
  rw [hStep] at hK hD11
  by_cases hLast : c.encOut x.toDecapsTiming ∧ c.rbcnt + 1 = clen c.k c.d11 + 32
  · rw [if_pos hLast] at hStNext
    apply rank_group
    · rw [hStep, hStNext, hSt]
      exact Nat.lt_succ_self 1
    · rw [hStep]
      simp only [DecapsCtl.rest, hStNext]
      omega
  · rw [if_neg hLast] at hStNext
    have hEkK : (c.stepEk x.toDecapsTiming).k = c.k := by
      rw [DecapsCtl.stepEk]
      repeat' split
      all_goals rfl
    have hReplays : (c.stepRe x.toDecapsTiming).replays =
        (c.stepEk x.toDecapsTiming).replays := by
      rw [DecapsCtl.replays, DecapsCtl.replays, hK, hEkK, hEkpos, hEkbV, hEkbWait]
    have hSame : (c.step x.toDecapsTiming).st.toCome ≤ c.st.toCome := by
      rw [hStep, hStNext, hSt]
    have hRestNext : (c.step x.toDecapsTiming).rest =
        (c.stepEk x.toDecapsTiming).replays +
          (clen c.k c.d11 + 32 - (c.rbcnt + if c.encOut x.toDecapsTiming then 1 else 0)) := by
      rw [hStep]
      simp only [DecapsCtl.rest, hStNext, hReplays, hK, hD11, hR]
    have hRest : c.rest = c.replays + (clen c.k c.d11 + 32 - c.rbcnt) := by
      simp only [DecapsCtl.rest, hSt]
    obtain hFall | ⟨hStay, hWaits⟩ := replays_falls (x := x) hRun.replay hSt
    · apply rank_rest _ hSame
      rw [hRestNext, hRest]
      omega
    · cases hOut : c.encOut x.toDecapsTiming with
      | true =>
        apply rank_rest _ hSame
        rw [hRestNext, hRest, hStay, hOut, if_pos rfl]
        omega
      | false =>
        have hSameStep : c.step x.toDecapsTiming = c := by
          rw [hStep, DecapsCtl.stepRe, hOut, if_neg Bool.false_ne_true]
          exact hStay
        obtain ⟨hV, hNot⟩ | ⟨hV, hWait, hAll⟩ := hWaits
        · refine .inr ⟨.ek, ?_, hNot, hSameStep⟩
          simp only [DecapsCtl.waitsFor, hSt, hV, if_true]
        · refine .inr ⟨.enc, ?_, ?_, hSameStep⟩
          · have hNone : ¬c.ekpos < eklen c.k := by omega
            simp only [DecapsCtl.waitsFor, hSt, hV, hWait, hNone, decide_false, Bool.or_self,
              Bool.false_eq_true, if_false]
          · rw [DecapsCtl.encOut, hAll, decide_eq_true rfl, Bool.and_true] at hOut
            exact hOut

theorem falls_out (hSt : c.st = .out) (hLess : c.ocnt < 32) : GoesOn c x.toDecapsTiming := by
  cases hFire : c.outFire x.toDecapsTiming with
  | false =>
    refine .inr ⟨.out, by rw [DecapsCtl.waitsFor, hSt], ?_, ?_⟩
    · rw [DecapsCtl.outFire, hSt] at hFire
      exact hFire
    · simp only [DecapsCtl.step, hSt, hFire, Bool.false_eq_true, if_false]
  | true =>
    by_cases hLast : c.ocnt = 31
    · have hStep : c.step x.toDecapsTiming = { c with ocnt := c.ocnt + 1, st := .done } := by
        simp only [DecapsCtl.step, hSt, hFire, hLast, if_true]
      apply rank_group
      · rw [hStep, hSt]
        exact Nat.lt_succ_self 0
      · rw [hStep]
        exact Nat.zero_lt_succ _
    · have hStep : c.step x.toDecapsTiming = { c with ocnt := c.ocnt + 1 } := by
        simp only [DecapsCtl.step, hSt, hFire, hLast, if_true, if_false]
      apply rank_rest
      · rw [hStep]
      · rw [hStep]
        simp only [DecapsCtl.rest, hSt]
        omega

theorem step_falls (hInv : InvAt E c d m c.st) (hIdle : c.st ≠ .idle) (hDone : c.st ≠ .done) :
    GoesOn c x.toDecapsTiming := by
  cases hSt : c.st with
  | idle => exact absurd hSt hIdle
  | done => exact absurd hSt hDone
  | hekStart =>
    obtain ⟨hSized, -⟩ : c.Sized ∧ _ := hSt ▸ hInv
    have hSizes := ctl_sizes hSized
    apply rank_group
    · simp only [DecapsCtl.step, hSt, DecapsSt.toCome, Nat.reduceLT]
    · simp only [DecapsCtl.step, DecapsCtl.rest, hSt]
      omega
  | dkIn =>
    obtain ⟨-, -, -, hMore, -⟩ := (hSt ▸ hInv : InvAt E c d m .dkIn)
    exact falls_dkIn hSt hMore
  | hekFlush =>
    apply rank_group
    · simp only [DecapsCtl.step, hSt, DecapsSt.toCome, Nat.reduceLT]
    · simp only [DecapsCtl.step, DecapsCtl.rest, hSt]
      omega
  | hekSq =>
    obtain ⟨-, -, -, hLess⟩ := (hSt ▸ hInv : InvAt E c d m .hekSq)
    exact falls_hekSq hSt hLess
  | jStart =>
    apply rank_group
    · simp only [DecapsCtl.step, hSt, DecapsSt.toCome, Nat.reduceLT]
    · simp only [DecapsCtl.step, DecapsCtl.rest, hSt]
      omega
  | jZ =>
    obtain ⟨hHas, -, -, hLess, -⟩ := (hSt ▸ hInv : InvAt E c d m .jZ)
    exact falls_jZ hHas.sized hSt hLess
  | cIn =>
    obtain ⟨-, -, -, hMore, -⟩ := (hSt ▸ hInv : InvAt E c d m .cIn)
    exact falls_cIn hSt hMore
  | jFlush =>
    apply rank_group
    · simp only [DecapsCtl.step, hSt, DecapsSt.toCome, Nat.reduceLT]
    · simp only [DecapsCtl.step, DecapsCtl.rest, hSt]
      omega
  | jSq =>
    obtain ⟨-, -, -, -, hLess, -⟩ := (hSt ▸ hInv : InvAt E c d m .jSq)
    exact falls_jSq hSt hLess
  | accClr =>
    obtain ⟨hReady, -, hLess, -⟩ := (hSt ▸ hInv : InvAt E c d m .accClr)
    exact falls_accClr hReady.has.sized hSt hLess
  | uWait =>
    apply rank_rest
    · simp only [DecapsCtl.step, hSt, DecapsSt.toCome, Nat.le_refl]
    · simp only [DecapsCtl.step, DecapsCtl.rest, DecapsCtl.polys, hSt]
      omega
  | uStep =>
    obtain ⟨hReady, hIn, -⟩ := (hSt ▸ hInv : InvAt E c d m .uStep)
    exact falls_uStep hReady hSt hIn
  | uNtt => exact falls_uNtt hSt
  | macA0 =>
    obtain ⟨-, hMac⟩ := (hSt ▸ hInv : InvAt E c d m .macA0)
    exact falls_mac (by simp [hSt]) hMac.pair
  | macA1 =>
    obtain ⟨-, hMac, -⟩ := (hSt ▸ hInv : InvAt E c d m .macA1)
    exact falls_mac (by simp [hSt]) hMac.pair
  | macC =>
    obtain ⟨-, hMac, -⟩ := (hSt ▸ hInv : InvAt E c d m .macC)
    exact falls_mac (by simp [hSt]) hMac.pair
  | macM =>
    obtain ⟨-, hMac, -⟩ := (hSt ▸ hInv : InvAt E c d m .macM)
    exact falls_mac (by simp [hSt]) hMac.pair
  | macT =>
    obtain ⟨-, hMac, -⟩ := (hSt ▸ hInv : InvAt E c d m .macT)
    exact falls_mac (by simp [hSt]) hMac.pair
  | macW0 =>
    obtain ⟨-, hMac, -⟩ := (hSt ▸ hInv : InvAt E c d m .macW0)
    exact falls_mac (by simp [hSt]) hMac.pair
  | macW1 =>
    obtain ⟨-, hMac, -⟩ := (hSt ▸ hInv : InvAt E c d m .macW1)
    exact falls_macW1 hSt hMac.pair hMac.out.idx
  | a2nRd =>
    apply rank_group
    · simp only [DecapsCtl.step, hSt, DecapsSt.toCome, Nat.reduceLT]
    · simp only [DecapsCtl.step, DecapsCtl.rest, hSt]
      omega
  | a2n =>
    obtain ⟨-, -, hLess, -⟩ := (hSt ▸ hInv : InvAt E c d m .a2n)
    exact falls_a2n hSt hLess
  | inv =>
    obtain ⟨hReady, -⟩ := (hSt ▸ hInv : InvAt E c d m .inv)
    exact falls_inv hReady.has.sized hSt
  | vWait =>
    obtain ⟨-, hIn⟩ := (hSt ▸ hInv : InvAt E c d m .vWait)
    have hCoef := hIn.coef
    apply rank_rest
    · simp only [DecapsCtl.step, hSt, DecapsSt.toCome, Nat.le_refl]
    · simp only [DecapsCtl.step, DecapsCtl.rest, hSt]
      omega
  | vStep =>
    obtain ⟨hReady, hIn, -⟩ := (hSt ▸ hInv : InvAt E c d m .vStep)
    exact falls_vStep hReady hSt hIn
  | vW =>
    obtain ⟨-, hIn, -⟩ := (hSt ▸ hInv : InvAt E c d m .vW)
    have hCoef := hIn.coef
    apply rank_rest
    · simp only [DecapsCtl.step, hSt, DecapsSt.toCome, Nat.le_refl]
    · simp only [DecapsCtl.step, DecapsCtl.rest, hSt]
      omega
  | vBit =>
    obtain ⟨-, hIn, -⟩ := (hSt ▸ hInv : InvAt E c d m .vBit)
    exact falls_vBit hSt hIn.coef
  | reStart =>
    obtain ⟨hReady, -⟩ := (hSt ▸ hInv : InvAt E c d m .reStart)
    obtain ⟨-, -, hEklen, hClen⟩ := ctl_sizes hReady.has.sized
    apply rank_group
    · simp only [DecapsCtl.step, hSt, DecapsSt.toCome, Nat.reduceLT]
    · simp only [DecapsCtl.step, DecapsCtl.rest, DecapsCtl.replays, hSt, if_true]
      omega
  | reRun =>
    obtain ⟨-, -, hRun⟩ := (hSt ▸ hInv : InvAt E c d m .reRun)
    exact falls_reRun hSt hRun
  | out =>
    obtain ⟨-, hLess, -⟩ := (hSt ▸ hInv : InvAt E c d m .out)
    exact falls_out hSt hLess

end

end PqcHsm
