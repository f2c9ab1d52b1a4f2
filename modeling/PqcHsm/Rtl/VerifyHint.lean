import PqcHsm.Library.SparseRows
import PqcHsm.Rtl.HintCores

/-!
# The verifier reads canonical hints only

The scan of the section against the canonical strings: what has been read so far is canonical as
long as `hbad` is low, and the store holds the positions that it names.
-/

namespace PqcHsm

open SparseRows (Canonical Names start)

/-- The scan has come to position `hidx` in row `i`, and what it has passed is canonical. -/
structure Scanned (room k : Nat) (y : Nat → Nat) (i hidx hfirst hprev : Nat) (h : Nat → Bool) :
    Prop where
  mono : ∀ r < i, start room y r ≤ start room y (r + 1)
  bound : ∀ r < i, start room y (r + 1) ≤ room
  incr : ∀ r < i, ∀ j, start room y r < j → j < start room y (r + 1) → y (j - 1) < y j
  first : hfirst = start room y i
  le : hfirst ≤ hidx
  upto : hidx = hfirst ∨ (hidx ≤ start room y (i + 1) ∧ start room y (i + 1) ≤ room)
  here : ∀ j, hfirst < j → j < hidx → y (j - 1) < y j
  prev : hfirst < hidx → hprev = y (hidx - 1)
  bits : ∀ r < k, ∀ b < 256, h (r * 256 + b) = true ↔
    (r < i ∧ Names room y r b) ∨ (r = i ∧ ∃ j, hfirst ≤ j ∧ j < hidx ∧ y j = b)

namespace Scanned

variable {room k i hidx hfirst hprev : Nat} {y : Nat → Nat} {h : Nat → Bool}

theorem init (hClear : ∀ a < k * 256, h a = false) : Scanned room k y 0 0 0 0 h := by
  constructor
  · intro r hr
    omega
  · intro r hr
    omega
  · intro r hr
    omega
  · rfl
  · exact Nat.le_refl 0
  · exact .inl rfl
  · intro j hFirst hLast
    omega
  · omega
  · intro r hr b hb
    rw [hClear (r * 256 + b) (by omega)]
    constructor
    · intro hFalse
      cases hFalse
    · rintro (⟨hr, -⟩ | ⟨-, j, -, hj, -⟩)
      · omega
      · omega

/-- The counts of a canonical string pass the two tests on them. -/
theorem count_ok (hs : Scanned room k y i hidx hfirst hprev h) (hi : i < k)
    (hBad : y (room + i) < hidx ∨ room < y (room + i)) : ¬Canonical room k y := by
  intro hy
  have hMono : start room y i ≤ y (room + i) := hy.mono i hi
  have hBound : y (room + i) ≤ room := hy.bound i hi
  obtain hLess | hMore := hBad
  · obtain hEq | ⟨hLe, -⟩ := hs.upto
    · rw [hEq, hs.first] at hLess
      omega
    · have : hidx ≤ y (room + i) := hLe
      omega
  · omega

/-- The end of a row. -/
theorem row (hs : Scanned room k y i hidx hfirst hprev h) (hRow : hidx = y (room + i))
    (hBound : y (room + i) ≤ room) : Scanned room k y (i + 1) hidx hidx hprev h := by
  have hEnd : start room y (i + 1) = hidx := hRow.symm
  constructor
  · intro r hr
    obtain hLast | hBefore := Nat.eq_or_lt_of_le (Nat.le_of_lt_succ hr)
    · subst hLast
      rw [hEnd, ← hs.first]
      exact hs.le
    · exact hs.mono r hBefore
  · intro r hr
    obtain hLast | hBefore := Nat.eq_or_lt_of_le (Nat.le_of_lt_succ hr)
    · subst hLast
      exact hBound
    · exact hs.bound r hBefore
  · intro r hr
    obtain hLast | hBefore := Nat.eq_or_lt_of_le (Nat.le_of_lt_succ hr)
    · subst hLast
      rw [hEnd, ← hs.first]
      exact hs.here
    · exact hs.incr r hBefore
  · exact hEnd.symm
  · exact Nat.le_refl _
  · exact .inl rfl
  · intro j hFirst hLast
    omega
  · intro hLt
    omega
  · intro r hr b hb
    rw [hs.bits r hr b hb]
    have hHere : (∃ j, hfirst ≤ j ∧ j < hidx ∧ y j = b) ↔ Names room y i b := by
      unfold Names
      rw [hEnd, ← hs.first]
    constructor
    · rintro (⟨hLt, hNames⟩ | ⟨rfl, hSome⟩)
      · exact .inl ⟨by omega, hNames⟩
      · exact .inl ⟨Nat.lt_succ_self _, hHere.mp hSome⟩
    · rintro (⟨hLt, hNames⟩ | ⟨-, j, hFirst, hLast, -⟩)
      · obtain rfl | hBefore := Nat.eq_or_lt_of_le (Nat.le_of_lt_succ hLt)
        · exact .inr ⟨rfl, hHere.mpr hNames⟩
        · exact .inl ⟨hBefore, hNames⟩
      · omega

/-- A position that does not increase is not canonical. -/
theorem incr_bad (hs : Scanned room k y i hidx hfirst hprev h) (hi : i < k)
    (hMore : hidx < y (room + i)) (hFirst : hfirst < hidx) (hBad : y hidx ≤ hprev) :
    ¬Canonical room k y := by
  intro hy
  have hStep := hy.incr i hi hidx (hs.first ▸ hFirst) hMore
  rw [← hs.prev hFirst] at hStep
  omega

/-- One position. -/
theorem position (hs : Scanned room k y i hidx hfirst hprev h)
    (hMore : hidx < y (room + i)) (hBound : y (room + i) ≤ room) (hByte : y hidx < 256)
    (hGood : hfirst < hidx → hprev < y hidx) :
    Scanned room k y i (hidx + 1) hfirst (y hidx) (Function.update h (i * 256 + y hidx) true) := by
  constructor
  · exact hs.mono
  · exact hs.bound
  · exact hs.incr
  · exact hs.first
  · exact Nat.le_succ_of_le hs.le
  · exact .inr ⟨hMore, hBound⟩
  · intro j hFirst hLast
    obtain rfl | hBefore := Nat.eq_or_lt_of_le (Nat.le_of_lt_succ hLast)
    · rw [← hs.prev hFirst]
      exact hGood hFirst
    · exact hs.here j hFirst hBefore
  · intro _
    rfl
  · intro r hr b hb
    have hOld := hs.bits r hr b hb
    by_cases hSame : r = i ∧ b = y hidx
    · obtain ⟨rfl, rfl⟩ := hSame
      rw [Function.update_self]
      constructor
      · intro _
        exact .inr ⟨rfl, hidx, hs.le, Nat.lt_succ_self _, rfl⟩
      · exact fun _ => rfl
    · have hOther : r * 256 + b ≠ i * 256 + y hidx := by
        intro hEq
        apply hSame
        constructor <;> omega
      rw [Function.update_of_ne hOther, hOld]
      constructor
      · rintro (hDone | ⟨rfl, j, hFirst, hLast, hj⟩)
        · exact .inl hDone
        · exact .inr ⟨rfl, j, hFirst, by omega, hj⟩
      · rintro (hDone | ⟨rfl, j, hFirst, hLast, hj⟩)
        · exact .inl hDone
        · obtain rfl | hBefore := Nat.eq_or_lt_of_le (Nat.le_of_lt_succ hLast)
          · exact absurd ⟨rfl, hj.symm⟩ hSame
          · exact .inr ⟨rfl, j, hFirst, hBefore, hj⟩

/-- All rows and the padding. -/
theorem canonical (hs : Scanned room k y k hidx hfirst hprev h) (hRow : hidx = hfirst)
    (hZero : ∀ j, hidx ≤ j → j < room → y j = 0) : Canonical room k y := by
  constructor
  · exact hs.mono
  · exact hs.bound
  · exact hs.incr
  · intro j hLast
    rw [← hs.first, ← hRow] at hLast
    exact hZero j hLast

theorem names (hs : Scanned room k y k hidx hfirst hprev h) {r b : Nat} (hr : r < k)
    (hb : b < 256) : h (r * 256 + b) = true ↔ Names room y r b := by
  rw [hs.bits r hr b hb]
  constructor
  · rintro (⟨-, hNames⟩ | ⟨rfl, -⟩)
    · exact hNames
    · omega
  · exact fun hNames => .inl ⟨hr, hNames⟩

end Scanned

theorem mldsaParams_bounds (pset : BitVec 2) : 0 < (mldsaParams pset).k ∧ (mldsaParams pset).k ≤ 8 ∧
    0 < (mldsaParams pset).omega ∧ (mldsaParams pset).omega ≤ 80 := by
  unfold mldsaParams
  split
  · decide
  · split <;> decide

/-- The bytes of the hint section. -/
def hintByte (c : MldsaParams) (sig : Nat → BitVec 8) (j : Nat) : Nat := (sig (c.sigH0 + j)).toNat

theorem hintByte_lt (c : MldsaParams) (sig : Nat → BitVec 8) (j : Nat) : hintByte c sig j < 256 :=
  (sig _).isLt

namespace Verifier

def par (s : Verifier) : MldsaParams := mldsaParams s.psetR

structure Cleared (s : Verifier) : Prop where
  busy : s.busyR = true
  good : s.hbad = false
  zero : ∀ a < s.par.k * 256, s.h a = false

structure Counting (sig : Nat → BitVec 8) (s : Verifier) : Prop extends s.Cleared where
  cnt : s.cnt < s.par.k
  counts : ∀ c < s.cnt, s.hcnt c = hintByte s.par sig (s.par.omega + c)
  rd : s.ph = true → s.sigRdata = hintByte s.par sig (s.par.omega + s.cnt)

structure Scanning (sig : Nat → BitVec 8) (s : Verifier) : Prop where
  busy : s.busyR = true
  poly : s.poly < s.par.k
  counts : ∀ c < s.par.k, s.hcnt c = hintByte s.par sig (s.par.omega + c)
  idx : s.hidx ≤ s.par.omega
  good : s.hbad = false →
    Scanned s.par.omega s.par.k (hintByte s.par sig) s.poly s.hidx s.hfirst s.hprev s.h
  bad : s.hbad = true → ¬Canonical s.par.omega s.par.k (hintByte s.par sig)
  rd : s.ph = true → s.hidx < s.hcnt s.poly ∧ s.hcnt s.poly ≤ s.par.omega ∧
    s.sigRdata = hintByte s.par sig s.hidx

structure Padding (sig : Nat → BitVec 8) (s : Verifier) : Prop where
  busy : s.busyR = true
  idx : s.hidx + s.cnt ≤ s.par.omega
  good : s.hbad = false →
    Scanned s.par.omega s.par.k (hintByte s.par sig) s.par.k s.hidx s.hidx s.hprev s.h ∧
      ∀ j, s.hidx ≤ j → j < s.hidx + s.cnt → hintByte s.par sig j = 0
  bad : s.hbad = true → ¬Canonical s.par.omega s.par.k (hintByte s.par sig)
  rd : s.ph = true → s.hidx + s.cnt < s.par.omega ∧
    s.sigRdata = hintByte s.par sig (s.hidx + s.cnt)

structure Judged (sig : Nat → BitVec 8) (s : Verifier) : Prop where
  busy : s.busyR = true
  verdict : s.hbad = false ↔ Canonical s.par.omega s.par.k (hintByte s.par sig)
  bits : s.hbad = false → ∀ r < s.par.k, ∀ b < 256,
    s.h (r * 256 + b) = true ↔ Names s.par.omega (hintByte s.par sig) r b

def Inv (sig : Nat → BitVec 8) (s : Verifier) : Prop :=
  match s.st with
  | .idle => True
  | .hclr => s.busyR = true ∧ s.hbad = false ∧ s.hclr < s.par.k * 256 ∧ ∀ a < s.hclr, s.h a = false
  | .ct => s.Cleared
  | .zu => s.Cleared
  | .hc => s.Counting sig
  | .hi => s.Scanning sig
  | .hp => s.Padding sig
  | .later => s.Judged sig

section Steps

variable {s : Verifier} {x : VfIn} {sig : Nat → BitVec 8}

theorem cfg_eq (hBusy : s.busyR = true) : s.cfg x = s.par := by
  unfold cfg par
  rw [if_pos hBusy]

theorem inv_hclr (h : s.Inv sig) (hSt : s.st = .hclr) : (s.next x sig).Inv sig := by
  simp only [Inv, hSt] at h
  obtain ⟨hBusy, hGood, hLt, hZero⟩ := h
  have hk := mldsaParams_bounds s.psetR
  have hPar : s.par.k ≤ 8 := hk.2.1
  have hNow : ∀ a < s.hclr + 1, Function.update s.h s.hclr false a = false := by
    intro a ha
    obtain hLast | hBefore := Nat.eq_or_lt_of_le (Nat.le_of_lt_succ ha)
    · rw [hLast, Function.update_self]
    · rw [Function.update_of_ne (Nat.ne_of_lt hBefore)]
      exact hZero a hBefore
  simp only [next, nextCtl, nextH, hSt, nextHclr, cfg_eq hBusy]
  split
  · rename_i hEnd
    constructor
    · exact hBusy
    · exact hGood
    · intro a ha
      apply hNow a
      change a < s.par.k * 256 at ha
      omega
  · rename_i hMore
    have hNext : (s.hclr + 1) % 2 ^ 11 = s.hclr + 1 := by omega
    refine ⟨hBusy, hGood, ?_, ?_⟩
    · show (s.hclr + 1) % 2 ^ 11 < s.par.k * 256
      omega
    · show ∀ a < (s.hclr + 1) % 2 ^ 11, _
      rw [hNext]
      exact hNow

theorem inv_idle (hSt : s.st = .idle) : (s.next x sig).Inv sig := by
  simp only [next, nextCtl, nextH, hSt, nextIdle]
  split
  · have hk := mldsaParams_bounds x.pset
    refine ⟨rfl, rfl, ?_, ?_⟩
    · show 0 < (mldsaParams x.pset).k * 256
      omega
    · intro a ha
      exact absurd ha (Nat.not_lt_zero a)
  · simp only [Inv, hSt]

theorem inv_ct (h : s.Inv sig) (hSt : s.st = .ct) : (s.next x sig).Inv sig := by
  simp only [Inv, hSt] at h
  simp only [next, nextCtl, nextH, hSt, nextCt, cfg_eq h.busy]
  split
  · exact ⟨h.busy, h.good, h.zero⟩
  · split
    · exact ⟨h.busy, h.good, h.zero⟩
    · exact ⟨h.busy, h.good, h.zero⟩

theorem inv_zu (h : s.Inv sig) (hSt : s.st = .zu) : (s.next x sig).Inv sig := by
  simp only [Inv, hSt] at h
  have hk : 0 < s.par.k := (mldsaParams_bounds s.psetR).1
  simp only [next, nextCtl, nextH, hSt, nextZu, cfg_eq h.busy]
  split
  · split
    · split
      · constructor
        · exact ⟨h.busy, h.good, h.zero⟩
        · exact hk
        · intro c hc
          exact absurd hc (Nat.not_lt_zero c)
        · exact fun hPh => absurd hPh Bool.false_ne_true
      · exact ⟨h.busy, h.good, h.zero⟩
    · exact ⟨h.busy, h.good, h.zero⟩
  · split
    · exact ⟨h.busy, h.good, h.zero⟩
    · exact ⟨h.busy, h.good, h.zero⟩

theorem inv_hc (h : s.Inv sig) (hSt : s.st = .hc) : (s.next x sig).Inv sig := by
  simp only [Inv, hSt] at h
  obtain ⟨hk, hk8, -, -⟩ := mldsaParams_bounds s.psetR
  have hk : 0 < s.par.k := hk
  have hk8 : s.par.k ≤ 8 := hk8
  have hCnt := h.cnt
  simp only [next, nextCtl, nextH, hSt, nextHc, cfg_eq h.busy]
  cases hPh : s.ph with
  | false =>
    constructor
    · exact ⟨h.busy, h.good, h.zero⟩
    · exact hCnt
    · exact h.counts
    · intro _
      simp only [sigRaddr, hSt, cfg_eq h.busy, hintByte, Nat.add_assoc]
      rfl
  | true =>
    have hRd := h.rd hPh
    have hIdx : s.cnt % 2 ^ 3 = s.cnt := by omega
    have hNow : ∀ c < s.cnt + 1, Function.update s.hcnt (s.cnt % 2 ^ 3) s.sigRdata c =
        hintByte s.par sig (s.par.omega + c) := by
      intro c hc
      rw [hIdx]
      obtain hLast | hBefore := Nat.eq_or_lt_of_le (Nat.le_of_lt_succ hc)
      · rw [hLast, Function.update_self, hRd]
      · rw [Function.update_of_ne (Nat.ne_of_lt hBefore)]
        exact h.counts c hBefore
    simp only [Bool.not_true, Bool.false_eq_true, if_false]
    split
    · rename_i hLast
      have hCounts : ∀ c < s.par.k, Function.update s.hcnt (s.cnt % 2 ^ 3) s.sigRdata c =
          hintByte s.par sig (s.par.omega + c) := by
        intro c hc
        exact hNow c (by omega)
      constructor
      · exact h.busy
      · exact hk
      · exact hCounts
      · exact Nat.zero_le _
      · exact fun _ => .init h.zero
      · intro hBad
        exact absurd (h.good.symm.trans hBad) Bool.false_ne_true
      · exact fun hPh => absurd hPh Bool.false_ne_true
    · rename_i hMore
      have hNext : (s.cnt + 1) % 2 ^ 8 = s.cnt + 1 := by omega
      simp only [hNext]
      constructor
      · exact ⟨h.busy, h.good, h.zero⟩
      · show s.cnt + 1 < s.par.k
        omega
      · exact hNow
      · exact fun hPh => absurd hPh Bool.false_ne_true

/-- The end of the rows, with nothing of the padding seen. -/
theorem Padding.enter {s : Verifier} (hBusy : s.busyR = true) (hIdx : s.hidx ≤ s.par.omega)
    (hCnt : s.cnt = 0) (hPh : s.ph = false)
    (hGood : s.hbad = false →
      Scanned s.par.omega s.par.k (hintByte s.par sig) s.par.k s.hidx s.hidx s.hprev s.h)
    (hBad : s.hbad = true → ¬Canonical s.par.omega s.par.k (hintByte s.par sig)) :
    s.Padding sig := by
  constructor
  · exact hBusy
  · rw [hCnt]
    exact hIdx
  · intro h
    constructor
    · exact hGood h
    · intro j hFirst hLast
      omega
  · exact hBad
  · intro h
    exact absurd (hPh.symm.trans h) Bool.false_ne_true

theorem inv_hi (h : s.Inv sig) (hSt : s.st = .hi) : (s.next x sig).Inv sig := by
  simp only [Inv, hSt] at h
  have hk8 : s.par.k ≤ 8 := (mldsaParams_bounds s.psetR).2.1
  have hOmega : s.par.omega ≤ 80 := (mldsaParams_bounds s.psetR).2.2.2
  have hPoly := h.poly
  have hRow : s.poly % 2 ^ 3 = s.poly := by omega
  have hCount := h.counts s.poly hPoly
  have hKeep (hOk : ¬((decide (s.hcnt s.poly < s.hidx) ||
      decide (s.par.omega < s.hcnt s.poly)) = true)) :
      s.hidx ≤ s.hcnt s.poly ∧ s.hcnt s.poly ≤ s.par.omega := by
    simpa using hOk
  have hPhOk (hPh : s.ph = true) (hOther : s.hcnt s.poly ≤ s.hidx ∨ s.par.omega < s.hcnt s.poly) :
      False := by
    have := h.rd hPh
    omega
  simp only [next, nextCtl, nextH, hSt, nextHi, cfg_eq h.busy, hRow]
  split
  · -- A count that is too small or too large: the rest of the rows is passed over.
    rename_i hOver
    have hOver : s.hcnt s.poly < s.hidx ∨ s.par.omega < s.hcnt s.poly := by simpa using hOver
    have hPh : s.ph = false := by
      rw [Bool.eq_false_iff]
      intro hPh
      exact hPhOk hPh (by omega)
    have hBad : ¬Canonical s.par.omega s.par.k (hintByte s.par sig) := by
      cases hSo : s.hbad with
      | true => exact h.bad hSo
      | false => exact (h.good hSo).count_ok hPoly (by rw [← hCount]; exact hOver)
    split
    · apply Padding.enter
      · exact h.busy
      · exact h.idx
      · rfl
      · rfl
      · exact fun hGood => absurd hGood Bool.false_ne_true.symm
      · exact fun _ => hBad
    · rename_i hMore
      have hNext : (s.poly + 1) % 2 ^ 4 = s.poly + 1 := by omega
      constructor
      · exact h.busy
      · show (s.poly + 1) % 2 ^ 4 < s.par.k
        omega
      · exact h.counts
      · exact h.idx
      · exact fun hGood => absurd hGood Bool.false_ne_true.symm
      · exact fun _ => hBad
      · intro hPh'
        exact absurd (hPh.symm.trans hPh') Bool.false_ne_true
  · rename_i hOk
    obtain ⟨hLe, hBound⟩ := hKeep hOk
    split
    · -- The end of a row.
      rename_i hEnd
      have hPh : s.ph = false := by
        rw [Bool.eq_false_iff]
        intro hPh
        exact hPhOk hPh (by omega)
      have hRowDone (hGood : s.hbad = false) :=
        (h.good hGood).row (hEnd.trans hCount) (hCount ▸ hBound)
      simp only [hPh, Bool.false_eq_true, if_false]
      split
      · rename_i hLast
        have hAll : s.poly + 1 = s.par.k := by omega
        apply Padding.enter
        · exact h.busy
        · exact h.idx
        · rfl
        · rfl
        · intro hGood
          have := hRowDone hGood
          rw [hAll] at this
          exact this
        · exact h.bad
      · rename_i hMore
        have hNext : (s.poly + 1) % 2 ^ 4 = s.poly + 1 := by omega
        constructor
        · exact h.busy
        · show (s.poly + 1) % 2 ^ 4 < s.par.k
          omega
        · exact h.counts
        · exact h.idx
        · intro hGood
          have := hRowDone hGood
          rw [← hNext] at this
          exact this
        · exact h.bad
        · exact fun hPh => absurd hPh Bool.false_ne_true
    · rename_i hGoesOn
      have hLt : s.hidx < s.hcnt s.poly := by omega
      cases hPh : s.ph with
      | false =>
        simp only [Bool.not_false, Bool.false_eq_true, if_true, if_false]
        constructor
        · exact h.busy
        · exact hPoly
        · exact h.counts
        · exact h.idx
        · exact h.good
        · exact h.bad
        · intro _
          refine ⟨hLt, hBound, ?_⟩
          simp only [sigRaddr, hSt, cfg_eq h.busy]
          rfl
      | true =>
        obtain ⟨-, -, hRd⟩ := h.rd hPh
        have hNext : (s.hidx + 1) % 2 ^ 8 = s.hidx + 1 := by omega
        have hByte := hintByte_lt s.par sig s.hidx
        simp only [Bool.not_true, Bool.false_eq_true, if_false, if_true, hNext, hRd]
        constructor
        · exact h.busy
        · exact hPoly
        · exact h.counts
        · show s.hidx + 1 ≤ s.par.omega
          omega
        · intro hGood
          have hBoth :
              s.hbad = false ∧ ¬(s.hfirst < s.hidx ∧ hintByte s.par sig s.hidx ≤ s.hprev) := by
            simpa using hGood
          exact (h.good hBoth.1).position (hCount ▸ hLt) (hCount ▸ hBound) hByte (by omega)
        · intro hBad
          cases hSo : s.hbad with
          | true => exact h.bad hSo
          | false =>
            have hNow : s.hfirst < s.hidx ∧ hintByte s.par sig s.hidx ≤ s.hprev := by
              simpa [hSo] using hBad
            exact (h.good hSo).incr_bad hPoly (hCount ▸ hLt) hNow.1 hNow.2
        · exact fun hPh => absurd hPh Bool.false_ne_true

theorem inv_hp (h : s.Inv sig) (hSt : s.st = .hp) : (s.next x sig).Inv sig := by
  simp only [Inv, hSt] at h
  have hOmega : s.par.omega ≤ 80 := (mldsaParams_bounds s.psetR).2.2.2
  have hIdx := h.idx
  have hSum : (s.hidx + s.cnt) % 2 ^ 8 = s.hidx + s.cnt := by omega
  simp only [next, nextCtl, nextH, hSt, nextHp, cfg_eq h.busy, hSum]
  split
  · rename_i hEnd
    constructor
    · exact h.busy
    · constructor
      · intro hGood
        obtain ⟨hScan, hZero⟩ := h.good hGood
        exact hScan.canonical rfl fun j hFirst hLast => hZero j hFirst (by omega)
      · intro hCanonical
        show s.hbad = false
        rw [Bool.eq_false_iff]
        intro hBad
        exact h.bad hBad hCanonical
    · intro hGood r hr b hb
      exact (h.good hGood).1.names hr hb
  · rename_i hMore
    cases hPh : s.ph with
    | false =>
      constructor
      · exact h.busy
      · exact hIdx
      · exact h.good
      · exact h.bad
      · intro _
        constructor
        · show s.hidx + s.cnt < s.par.omega
          omega
        · simp only [sigRaddr, hSt, cfg_eq h.busy, Nat.add_assoc]
          rfl
    | true =>
      obtain ⟨hLt, hRd⟩ := h.rd hPh
      have hNext : (s.cnt + 1) % 2 ^ 8 = s.cnt + 1 := by omega
      simp only [Bool.not_true, Bool.false_eq_true, if_false, hNext, hRd]
      constructor
      · exact h.busy
      · show s.hidx + (s.cnt + 1) ≤ s.par.omega
        omega
      · intro hGood
        have hBoth : s.hbad = false ∧ hintByte s.par sig (s.hidx + s.cnt) = 0 := by
          simpa using hGood
        obtain ⟨hScan, hZero⟩ := h.good hBoth.1
        constructor
        · exact hScan
        · intro j hFirst hLast
          have hLast : j < s.hidx + (s.cnt + 1) := hLast
          obtain rfl | hBefore := Nat.eq_or_lt_of_le (show j ≤ s.hidx + s.cnt from by omega)
          · exact hBoth.2
          · exact hZero j hFirst hBefore
      · intro hBad
        show ¬Canonical s.par.omega s.par.k (hintByte s.par sig)
        cases hSo : s.hbad with
        | true => exact h.bad hSo
        | false =>
          intro hCanonical
          obtain ⟨hScan, -⟩ := h.good hSo
          have hNow : ¬hintByte s.par sig (s.hidx + s.cnt) = 0 := by simpa [hSo] using hBad
          apply hNow
          apply hCanonical.zero
          · rw [← hScan.first]
            exact Nat.le_add_right _ _
          · exact hLt
      · exact fun hPh => absurd hPh Bool.false_ne_true

theorem inv_later (h : s.Inv sig) (hSt : s.st = .later) : (s.next x sig).Inv sig := by
  simp only [Inv, hSt] at h
  simp only [next, nextCtl, nextH, hSt, nextLater]
  split
  · trivial
  · exact ⟨h.busy, h.verdict, h.bits⟩

theorem Inv.next (h : s.Inv sig) : (s.next x sig).Inv sig := by
  cases hSt : s.st with
  | idle => exact inv_idle hSt
  | hclr => exact inv_hclr h hSt
  | ct => exact inv_ct h hSt
  | zu => exact inv_zu h hSt
  | hc => exact inv_hc h hSt
  | hi => exact inv_hi h hSt
  | hp => exact inv_hp h hSt
  | later => exact inv_later h hSt

end Steps

section Progress

variable {s : Verifier} {x : VfIn} {sig : Nat → BitVec 8}

/-- Cycles that the scan can still take. -/
def rank (s : Verifier) : Nat :=
  match s.st with
  | .hc => 2 * (s.par.k - s.cnt) + (if s.ph then 0 else 1) + 4 * s.par.omega + s.par.k + 4
  | .hi => 2 * (s.par.omega - s.hidx) + (if s.ph then 0 else 1) + (s.par.k - s.poly) +
      2 * s.par.omega + 2
  | .hp => 2 * (s.par.omega - (s.hidx + s.cnt)) + (if s.ph then 0 else 1) + 1
  | _ => 0

/-- The scan is under way. -/
def scans (s : Verifier) : Bool := s.st = .hc ∨ s.st = .hi ∨ s.st = .hp

theorem rank_falls (h : s.Inv sig) (hScans : s.scans = true) : (s.next x sig).st = .later ∨
    (s.next x sig).scans = true ∧ (s.next x sig).rank < s.rank := by
  have hk8 : s.par.k ≤ 8 := (mldsaParams_bounds s.psetR).2.1
  have hOmega : s.par.omega ≤ 80 := (mldsaParams_bounds s.psetR).2.2.2
  cases hSt : s.st with
  | hc =>
    simp only [Inv, hSt] at h
    have hCnt := h.cnt
    have hNext : (s.cnt + 1) % 2 ^ 8 = s.cnt + 1 := by omega
    simp only [next, nextCtl, nextH, hSt, nextHc, cfg_eq h.busy]
    right
    cases hPh : s.ph with
    | false =>
      simp only [Bool.not_false, if_true, scans, rank, hSt, hPh]
      simp [par]
    | true =>
      simp only [Bool.not_true, Bool.false_eq_true, if_false]
      split
      · simp [scans, rank, hSt, hPh, par]
        omega
      · simp only [scans, rank, hSt, hPh, hNext]
        simp [par] at hCnt ⊢
        omega
  | hi =>
    simp only [Inv, hSt] at h
    have hPoly := h.poly
    have hIdx := h.idx
    have hRow : s.poly % 2 ^ 3 = s.poly := by omega
    have hMore : (s.poly + 1) % 2 ^ 4 = s.poly + 1 := by omega
    have hNext : (s.hidx + 1) % 2 ^ 8 = s.hidx + 1 := by omega
    simp only [next, nextCtl, nextH, hSt, nextHi, cfg_eq h.busy, hRow, hMore, hNext]
    right
    split
    · split
      · simp [scans, rank, hSt, par] at hPoly hIdx ⊢
        omega
      · simp [scans, rank, hSt, par] at hPoly ⊢
        omega
    · rename_i hOk
      have hBound : s.hcnt s.poly ≤ s.par.omega := by
        simp at hOk
        exact hOk.2
      split
      · split
        · simp [scans, rank, hSt, par] at hPoly hIdx ⊢
          omega
        · simp [scans, rank, hSt, par] at hPoly ⊢
          omega
      · rename_i hGoesOn
        have hLe : s.hidx ≤ s.hcnt s.poly := by
          simp at hOk
          exact hOk.1
        cases hPh : s.ph with
        | false =>
          simp [scans, rank, hSt, hPh, par]
        | true =>
          simp [scans, rank, hSt, hPh, par] at hBound ⊢
          omega
  | hp =>
    simp only [Inv, hSt] at h
    have hIdx := h.idx
    have hSum : (s.hidx + s.cnt) % 2 ^ 8 = s.hidx + s.cnt := by omega
    have hNext : (s.cnt + 1) % 2 ^ 8 = s.cnt + 1 := by omega
    simp only [next, nextCtl, nextH, hSt, nextHp, cfg_eq h.busy, hSum, hNext]
    split
    · exact .inl rfl
    · rename_i hMore
      right
      cases hPh : s.ph with
      | false =>
        simp [scans, rank, hSt, hPh, par]
      | true =>
        simp [scans, rank, hSt, hPh, par] at hMore ⊢
        omega
  | idle => simp [scans, hSt] at hScans
  | hclr => simp [scans, hSt] at hScans
  | ct => simp [scans, hSt] at hScans
  | zu => simp [scans, hSt] at hScans
  | later => simp [scans, hSt] at hScans

/-- A start: the run of the core from any registers and memories. -/
def circuit (sig : Nat → BitVec 8) (s : Verifier) : Clocked VfIn Verifier :=
  ⟨s, fun s x => s.next x sig⟩

theorem inv_run (hIdle : s.st = .idle) (ins : Nat → VfIn) (k : Nat) :
    ((circuit sig s).after ins k).Inv sig := by
  apply Clocked.invariant
  · simp only [circuit, Inv, hIdle]
  · exact fun _ _ h => h.next

/-- Once the scan has begun it ends, whatever the inputs are. -/
theorem scan_ends (hIdle : s.st = .idle) (ins : Nat → VfIn) (k : Nat)
    (hScans : ((circuit sig s).after ins k).scans = true) :
    ∃ m, ((circuit sig s).after ins m).st = .later ∧ k < m := by
  generalize hr : ((circuit sig s).after ins k).rank = r
  induction r using Nat.strongRecOn generalizing k with
  | ind r ih =>
    obtain hDone | ⟨hOn, hLess⟩ := rank_falls (x := ins k) (inv_run hIdle ins k) hScans
    · exact ⟨k + 1, hDone, Nat.lt_succ_self k⟩
    · obtain ⟨m, hLater, hm⟩ := ih _ (hr ▸ hLess) (k + 1) hOn rfl
      exact ⟨m, hLater, by omega⟩

end Progress

end Verifier

end PqcHsm
