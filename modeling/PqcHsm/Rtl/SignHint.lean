import PqcHsm.Rtl.VerifyHint

/-!
# The signer writes the encoding of its hint

The weight of a round as the core keeps it, and the section as far as it has been written.
-/

namespace PqcHsm

open SparseRows (pack rowOnes onesBefore weight_mono weight_succ)

/-- The hint store as rows of bits. -/
def hintRows (hn : Nat → Bool) (r b : Nat) : Bool := hn (r * 256 + b)

/-- The positions of the ones before coefficient `c` of row `r`. -/
def upTo (h : Nat → Nat → Bool) (r c : Nat) : List Nat :=
  onesBefore 256 h r ++ (List.range c).filter (h r)

section UpTo

variable {h h' : Nat → Nat → Bool} {r c k : Nat}

theorem upTo_zero : upTo h r 0 = onesBefore 256 h r := List.append_nil _

theorem upTo_full : upTo h r 256 = onesBefore 256 h (r + 1) := rfl

theorem upTo_succ : upTo h r (c + 1) = upTo h r c ++ if h r c then [c] else [] := by
  unfold upTo
  rw [List.range_succ, List.filter_append, List.append_assoc]
  cases hOne : h r c <;> simp [hOne]

theorem onesBefore_congr (hSame : ∀ i < r, ∀ b < 256, h' i b = h i b) :
    onesBefore 256 h' r = onesBefore 256 h r := by
  induction r with
  | zero => rfl
  | succ r ih =>
    have hRow : rowOnes 256 h' r = rowOnes 256 h r := by
      apply List.filter_congr
      intro b hb
      exact hSame r (Nat.lt_succ_self r) b (List.mem_range.mp hb)
    rw [onesBefore, onesBefore, hRow, ih fun i hi => hSame i (Nat.lt_succ_of_lt hi)]

/-- A later write of the store does not change what came before. -/
theorem upTo_update {hn : Nat → Bool} {v : Bool} (hc : c < 256) :
    upTo (hintRows (Function.update hn (r * 256 + c) v)) r c = upTo (hintRows hn) r c := by
  have hOther (i b : Nat) (hNe : i * 256 + b ≠ r * 256 + c) :
      hintRows (Function.update hn (r * 256 + c) v) i b = hintRows hn i b :=
    Function.update_of_ne hNe _ _
  unfold upTo
  rw [onesBefore_congr fun i hi b hb => hOther i b (by omega)]
  congr 1
  apply List.filter_congr
  intro b hb
  have hLt := List.mem_range.mp hb
  exact hOther r b (by omega)

theorem length_upTo_le (hr : r < k) (hc : c ≤ 256) :
    (upTo h r c).length ≤ SparseRows.weight 256 h k := by
  have hSub : ((List.range c).filter (h r)).length ≤ (rowOnes 256 h r).length :=
    ((List.range_sublist.mpr hc).filter _).length_le
  have hRow : SparseRows.weight 256 h (r + 1) ≤ SparseRows.weight 256 h k := weight_mono hr
  rw [weight_succ] at hRow
  unfold upTo
  rw [List.length_append]
  unfold SparseRows.weight at hRow ⊢
  omega

end UpTo

namespace Signer

def par (s : Signer) : MldsaParams := mldsaParams s.psetR

/-- The ones of the hint store. -/
def ones (s : Signer) : Nat := SparseRows.weight 256 (hintRows s.hn) s.par.k

structure Weighing (s : Signer) : Prop where
  busy : s.busyR = true
  vi : s.vi < s.par.k
  cnt : s.cnt < 256
  hph : s.hph ≤ 2
  weight : s.weight = (upTo (hintRows s.hn) s.vi s.cnt).length % 2 ^ 11

/-- What `S_REJ` has let pass. -/
structure Passed (s : Signer) : Prop where
  busy : s.busyR = true
  hph : s.hph = 0
  weight : s.ones % 2 ^ 11 ≤ s.par.omega

/-- The section is written as far as the positions `l` and the counts of the rows before `r`. -/
structure Written (s : Signer) (l : List Nat) (r : Nat) : Prop where
  hidx : s.hidx = l.length
  pos : ∀ j < s.par.omega, hintByte s.par s.sig j = l.getD j 0
  counts : ∀ i < r, hintByte s.par s.sig (s.par.omega + i) =
    SparseRows.weight 256 (hintRows s.hn) (i + 1)

structure Packing (s : Signer) : Prop extends s.Passed where
  vi : s.vi < s.par.k
  cnt : s.cnt < 256
  rd : s.ph = true → s.hnDout = hintRows s.hn s.vi s.cnt
  written : s.ones ≤ s.par.omega → s.Written (upTo (hintRows s.hn) s.vi s.cnt) s.vi

def Inv (s : Signer) : Prop :=
  match s.st with
  | .idle => s.hph = 0
  | .prep => s.busyR = true ∧ s.hph = 0
  | .emGo => s.busyR = true ∧ s.hph = 0
  | .round => s.busyR = true ∧ s.hph = 0 ∧ s.weight = 0
  | .hmul => s.busyR = true ∧ s.hph = 0 ∧ s.vi < s.par.k ∧
      s.weight = SparseRows.weight 256 (hintRows s.hn) s.vi % 2 ^ 11
  | .hwb => s.Weighing
  | .rej => s.busyR = true ∧ s.hph = 0 ∧ s.weight = s.ones % 2 ^ 11
  | .enc => s.Passed
  | .hpClr => s.Passed ∧ s.cnt < s.par.omega ∧ ∀ j < s.cnt, hintByte s.par s.sig j = 0
  | .hp => s.Packing
  | .hpCnt => s.Passed ∧ s.vi < s.par.k ∧ (s.ones ≤ s.par.omega →
      s.Written (onesBefore 256 (hintRows s.hn) (s.vi + 1)) s.vi)
  | .fin => s.Passed ∧ (s.ones ≤ s.par.omega →
      (List.range (s.par.omega + s.par.k)).map (hintByte s.par s.sig) =
        pack 256 (hintRows s.hn) s.par.omega s.par.k)

section Steps

variable {s : Signer} {x : SgIn}

theorem cfg_eq (hBusy : s.busyR = true) : s.cfg x = s.par := by
  unfold cfg par
  rw [if_pos hBusy]

theorem nextHn_eq (hSt : s.st ≠ .hwb) : s.nextHn x = s.hn := by
  unfold nextHn
  rw [if_neg (fun h => hSt h.1)]

theorem inv_before (h : s.Inv) (hSt : s.st = .idle ∨ s.st = .prep ∨ s.st = .emGo ∨ s.st = .round) :
    (s.next x).Inv := by
  have hk : 0 < s.par.k := (mldsaParams_bounds s.psetR).1
  obtain hSt | hSt | hSt | hSt := hSt
  · simp only [Inv, hSt] at h
    simp only [next, nextCtl, hSt]
    split
    · exact ⟨rfl, h⟩
    · simp only [Inv, hSt]
      exact h
  · simp only [Inv, hSt] at h
    simp only [next, nextCtl, hSt]
    split
    · exact h
    · simp only [Inv, hSt]
      exact h
  · simp only [Inv, hSt] at h
    simp only [next, nextCtl, hSt]
    exact ⟨h.1, h.2, rfl⟩
  · simp only [Inv, hSt] at h
    simp only [next, nextCtl, hSt]
    split
    · exact ⟨h.1, h.2.1, hk, h.2.2⟩
    · exact h

theorem inv_hmul (h : s.Inv) (hSt : s.st = .hmul) : (s.next x).Inv := by
  have hHn := nextHn_eq (x := x) (s := s) (by simp [hSt])
  simp only [Inv, hSt] at h
  obtain ⟨hBusy, hHph, hVi, hWeight⟩ := h
  simp only [next, nextCtl, hSt, nextHmul, hHn]
  split
  · constructor
    · exact hBusy
    · exact hVi
    · exact Nat.zero_lt_succ 255
    · show s.hph ≤ 2
      omega
    · exact hWeight.trans (by rw [upTo_zero]; rfl)
  · simp only [Inv, hSt]
    exact ⟨hBusy, hHph, hVi, hWeight⟩

theorem inv_hwb (h : s.Inv) (hSt : s.st = .hwb) : (s.next x).Inv := by
  simp only [Inv, hSt] at h
  have hk8 : s.par.k ≤ 8 := (mldsaParams_bounds s.psetR).2.1
  have hVi := h.vi
  have hCnt := h.cnt
  have hHph := h.hph
  simp only [next, nextCtl, hSt, nextHwb, cfg_eq h.busy]
  by_cases h2 : s.hph = 2
  · -- The hint bit is stored and counted.
    have hAddr : s.vi % 2 ^ 3 * 2 ^ 8 + s.cnt = s.vi * 256 + s.cnt := by omega
    have hHn : s.nextHn x = Function.update s.hn (s.vi * 256 + s.cnt) x.hintBit := by
      unfold nextHn
      rw [if_pos ⟨hSt, h2⟩, hAddr]
    have hBit : hintRows (s.nextHn x) s.vi s.cnt = x.hintBit := by
      rw [hHn]
      exact Function.update_self _ _ _
    have hSame : upTo (hintRows (s.nextHn x)) s.vi s.cnt = upTo (hintRows s.hn) s.vi s.cnt := by
      rw [hHn]
      exact upTo_update hCnt
    have hWeight : (if x.hintBit = true then (s.weight + 1) % 2 ^ 11 else s.weight) =
        (upTo (hintRows (s.nextHn x)) s.vi (s.cnt + 1)).length % 2 ^ 11 := by
      rw [upTo_succ, hSame, hBit, List.length_append, h.weight]
      cases x.hintBit with
      | true =>
        simp
      | false => simp
    rw [if_neg (by omega), if_neg (by omega)]
    split
    · rename_i hEnd
      rw [hEnd, upTo_full] at hWeight
      split
      · rename_i hLast
        refine ⟨h.busy, rfl, hWeight.trans ?_⟩
        rw [hLast, Nat.sub_add_cancel (by omega)]
        rfl
      · rename_i hMore
        have hNext : (s.vi + 1) % 2 ^ 4 = s.vi + 1 := by omega
        rw [hNext]
        refine ⟨h.busy, rfl, ?_, hWeight⟩
        show s.vi + 1 < s.par.k
        omega
    · have hNext : (s.cnt + 1) % 2 ^ 8 = s.cnt + 1 := by omega
      simp only [hNext]
      constructor
      · exact h.busy
      · exact hVi
      · show s.cnt + 1 < 256
        omega
      · exact Nat.zero_le 2
      · exact hWeight
  · have hHn : s.nextHn x = s.hn := by
      unfold nextHn
      rw [if_neg (fun hBoth => h2 hBoth.2)]
    rw [hHn]
    by_cases h0 : s.hph = 0
    · rw [if_pos h0]
      constructor
      · exact h.busy
      · exact hVi
      · exact hCnt
      · exact Nat.le_succ 1
      · exact h.weight
    · rw [if_neg h0, if_pos (by omega)]
      constructor
      · exact h.busy
      · exact hVi
      · exact hCnt
      · exact Nat.le_refl 2
      · exact h.weight

theorem inv_rej (h : s.Inv) (hSt : s.st = .rej) : (s.next x).Inv := by
  have hHn := nextHn_eq (x := x) (s := s) (by simp [hSt])
  simp only [Inv, hSt] at h
  obtain ⟨hBusy, hHph, hWeight⟩ := h
  simp only [next, nextCtl, hSt, nextRej, cfg_eq hBusy, hHn]
  split
  · exact ⟨hBusy, hHph⟩
  · rename_i hOk
    have hLe : s.weight ≤ s.par.omega := by
      simp at hOk
      exact hOk.2
    exact ⟨hBusy, hHph, hWeight ▸ hLe⟩

theorem inv_enc (h : s.Inv) (hSt : s.st = .enc) : (s.next x).Inv := by
  have hHn := nextHn_eq (x := x) (s := s) (by simp [hSt])
  have hOmega : 0 < s.par.omega := (mldsaParams_bounds s.psetR).2.2.1
  simp only [Inv, hSt] at h
  simp only [next, nextCtl, hSt, hHn]
  split
  · refine ⟨⟨h.busy, h.hph, h.weight⟩, hOmega, ?_⟩
    intro j hj
    exact absurd hj (Nat.not_lt_zero j)
  · simp only [Inv, hSt]
    exact ⟨h.busy, h.hph, h.weight⟩

/-- A byte of the section that is written. -/
theorem hintByte_update (c : MldsaParams) (sig : Nat → BitVec 8) (j i v : Nat) (hv : v < 256) :
    hintByte c (Function.update sig (c.sigH0 + j) (BitVec.ofNat 8 v)) i =
      if i = j then v else hintByte c sig i := by
  unfold hintByte
  by_cases hEq : i = j
  · rw [hEq, Function.update_self, if_pos rfl, BitVec.toNat_ofNat, Nat.mod_eq_of_lt hv]
  · rw [Function.update_of_ne (by omega), if_neg hEq]

theorem inv_hpClr (h : s.Inv) (hSt : s.st = .hpClr) : (s.next x).Inv := by
  have hHn := nextHn_eq (x := x) (s := s) (by simp [hSt])
  have hk : 0 < s.par.k := (mldsaParams_bounds s.psetR).1
  have hOmega : s.par.omega ≤ 80 := (mldsaParams_bounds s.psetR).2.2.2
  simp only [Inv, hSt] at h
  obtain ⟨hPassed, hCnt, hZero⟩ := h
  have hNow : ∀ j < s.cnt + 1, hintByte s.par (s.nextSig x) j = 0 := by
    intro j hj
    have hSig : s.nextSig x = Function.update s.sig (s.par.sigH0 + s.cnt) (BitVec.ofNat 8 0) := by
      simp [nextSig, hSt, cfg_eq hPassed.busy]
    rw [hSig, hintByte_update _ _ _ _ _ (by omega)]
    split
    · rfl
    · exact hZero j (by omega)
  simp only [next, nextCtl, hSt, nextHpClr, cfg_eq hPassed.busy, hHn]
  split
  · rename_i hEnd
    constructor
    · exact ⟨hPassed.busy, hPassed.hph, hPassed.weight⟩
    · exact hk
    · exact Nat.zero_lt_succ 255
    · exact fun hPh => absurd hPh Bool.false_ne_true
    · intro _
      constructor
      · rfl
      · intro j hj
        have hj : j < s.par.omega := hj
        exact hNow j (by omega)
      · intro i hi
        exact absurd hi (Nat.not_lt_zero i)
  · have hNext : (s.cnt + 1) % 2 ^ 8 = s.cnt + 1 := by omega
    simp only [hNext]
    refine ⟨⟨hPassed.busy, hPassed.hph, hPassed.weight⟩, ?_, hNow⟩
    show s.cnt + 1 < s.par.omega
    omega

theorem inv_hp (h : s.Inv) (hSt : s.st = .hp) : (s.next x).Inv := by
  have hHn := nextHn_eq (x := x) (s := s) (by simp [hSt])
  have hk8 : s.par.k ≤ 8 := (mldsaParams_bounds s.psetR).2.1
  have hOmega : s.par.omega ≤ 80 := (mldsaParams_bounds s.psetR).2.2.2
  simp only [Inv, hSt] at h
  have hVi := h.vi
  have hCnt := h.cnt
  have hRow : s.vi % 2 ^ 3 = s.vi := by omega
  have hPassed : s.Passed := h.toPassed
  cases hPh : s.ph with
  | false =>
    have hSig : s.nextSig x = s.sig := by simp [nextSig, hSt, hPh]
    simp only [next, nextCtl, hSt, nextHp, hPh, hHn, hSig, hRow]
    constructor
    · exact ⟨hPassed.busy, hPassed.hph, hPassed.weight⟩
    · exact hVi
    · exact hCnt
    · exact fun _ => rfl
    · intro hFits
      obtain ⟨hIdx, hPos, hCounts⟩ := h.written hFits
      exact ⟨hIdx, hPos, hCounts⟩
  | true =>
    have hRd := h.rd hPh
    -- One more coefficient of the row.
    have hWritten (hFits : s.ones ≤ s.par.omega) :
        (if s.hnDout = true then (s.hidx + 1) % 2 ^ 8 else s.hidx) =
          (upTo (hintRows s.hn) s.vi (s.cnt + 1)).length ∧
        (∀ j < s.par.omega, hintByte s.par (s.nextSig x) j =
          (upTo (hintRows s.hn) s.vi (s.cnt + 1)).getD j 0) ∧
        ∀ i < s.vi, hintByte s.par (s.nextSig x) (s.par.omega + i) =
          SparseRows.weight 256 (hintRows s.hn) (i + 1) := by
      obtain ⟨hIdx, hPos, hCounts⟩ := h.written hFits
      have hRoom : (upTo (hintRows s.hn) s.vi (s.cnt + 1)).length ≤ s.ones :=
        length_upTo_le hVi (by omega)
      rw [upTo_succ, ← hRd] at hRoom ⊢
      cases hHit : s.hnDout with
      | false =>
        have hSig : s.nextSig x = s.sig := by simp [nextSig, hSt, hHit]
        simp only [hSig, Bool.false_eq_true, if_false, List.append_nil]
        exact ⟨hIdx, hPos, hCounts⟩
      | true =>
        have hSig : s.nextSig x =
            Function.update s.sig (s.par.sigH0 + s.hidx) (BitVec.ofNat 8 s.cnt) := by
          simp [nextSig, hSt, hPh, hHit, cfg_eq hPassed.busy]
        simp only [hHit, if_true, List.length_append, List.length_singleton] at hRoom
        simp only [if_true, List.length_append, List.length_singleton, hSig]
        constructor
        · omega
        · constructor
          · intro j hj
            rw [hintByte_update _ _ _ _ _ hCnt, hIdx]
            obtain hLt | hEq | hGt := Nat.lt_trichotomy j (upTo (hintRows s.hn) s.vi s.cnt).length
            · rw [if_neg (by omega), List.getD_append _ _ _ _ hLt]
              exact hPos j hj
            · rw [if_pos hEq, List.getD_append_right _ _ _ _ (by omega), hEq, Nat.sub_self]
              rfl
            · rw [if_neg (by omega), hPos j hj, List.getD_eq_default _ _ (by omega),
                List.getD_eq_default]
              rw [List.length_append, List.length_singleton]
              omega
          · intro i hi
            rw [hintByte_update _ _ _ _ _ hCnt, if_neg (by omega)]
            exact hCounts i hi
    simp only [next, nextCtl, hSt, nextHp, hPh, hHn, Bool.not_true, Bool.false_eq_true, if_false]
    split
    · rename_i hEnd
      refine ⟨⟨hPassed.busy, hPassed.hph, hPassed.weight⟩, hVi, ?_⟩
      intro hFits
      rw [hEnd, upTo_full] at hWritten
      obtain ⟨hIdx, hPos, hCounts⟩ := hWritten hFits
      exact ⟨hIdx, hPos, hCounts⟩
    · have hNext : (s.cnt + 1) % 2 ^ 8 = s.cnt + 1 := by omega
      simp only [hNext]
      constructor
      · exact ⟨hPassed.busy, hPassed.hph, hPassed.weight⟩
      · exact hVi
      · show s.cnt + 1 < 256
        omega
      · exact fun hPh => absurd hPh Bool.false_ne_true
      · intro hFits
        obtain ⟨hIdx, hPos, hCounts⟩ := hWritten hFits
        exact ⟨hIdx, hPos, hCounts⟩

theorem inv_hpCnt (h : s.Inv) (hSt : s.st = .hpCnt) : (s.next x).Inv := by
  have hHn := nextHn_eq (x := x) (s := s) (by simp [hSt])
  have hk8 : s.par.k ≤ 8 := (mldsaParams_bounds s.psetR).2.1
  have hOmega : s.par.omega ≤ 80 := (mldsaParams_bounds s.psetR).2.2.2
  simp only [Inv, hSt] at h
  obtain ⟨hPassed, hVi, hBefore⟩ := h
  have hSig : s.nextSig x = Function.update s.sig (s.par.sigH0 + (s.par.omega + s.vi))
      (BitVec.ofNat 8 s.hidx) := by
    simp [nextSig, hSt, cfg_eq hPassed.busy, Nat.add_assoc]
  -- The count of the row joins the positions.
  have hWritten (hFits : s.ones ≤ s.par.omega) :
      s.hidx = (onesBefore 256 (hintRows s.hn) (s.vi + 1)).length ∧
      (∀ j < s.par.omega, hintByte s.par (s.nextSig x) j =
        (onesBefore 256 (hintRows s.hn) (s.vi + 1)).getD j 0) ∧
      ∀ i < s.vi + 1, hintByte s.par (s.nextSig x) (s.par.omega + i) =
        SparseRows.weight 256 (hintRows s.hn) (i + 1) := by
    obtain ⟨hIdx, hPos, hCounts⟩ := hBefore hFits
    have hRoom : (onesBefore 256 (hintRows s.hn) (s.vi + 1)).length ≤ s.ones := weight_mono hVi
    constructor
    · exact hIdx
    · rw [hSig]
      constructor
      · intro j hj
        rw [hintByte_update _ _ _ _ _ (by omega), if_neg (by omega)]
        exact hPos j hj
      · intro i hi
        rw [hintByte_update _ _ _ _ _ (by omega)]
        split
        · rename_i hEq
          rw [hIdx, show i = s.vi by omega]
          rfl
        · exact hCounts i (by omega)
  simp only [next, nextCtl, hSt, nextHpCnt, cfg_eq hPassed.busy, hHn]
  split
  · rename_i hLast
    have hAll : s.vi + 1 = s.par.k := by omega
    refine ⟨⟨hPassed.busy, hPassed.hph, hPassed.weight⟩, ?_⟩
    intro hFits
    have hFits : s.ones ≤ s.par.omega := hFits
    obtain ⟨-, hPos, hCounts⟩ := hWritten hFits
    rw [hAll] at hPos hCounts
    exact (SparseRows.eq_pack_iff hFits).mpr ⟨hPos, hCounts⟩
  · have hNext : (s.vi + 1) % 2 ^ 4 = s.vi + 1 := by omega
    simp only [hNext]
    constructor
    · exact ⟨hPassed.busy, hPassed.hph, hPassed.weight⟩
    · show s.vi + 1 < s.par.k
      omega
    · exact Nat.zero_lt_succ 255
    · exact fun hPh => absurd hPh Bool.false_ne_true
    · intro hFits
      obtain ⟨hIdx, hPos, hCounts⟩ := hWritten hFits
      rw [← upTo_zero] at hIdx hPos
      exact ⟨hIdx, hPos, hCounts⟩

theorem inv_fin (h : s.Inv) (hSt : s.st = .fin) : (s.next x).Inv := by
  simp only [Inv, hSt] at h
  simp only [next, nextCtl, hSt]
  exact h.1.hph

theorem Inv.next (h : s.Inv) : (s.next x).Inv := by
  cases hSt : s.st with
  | idle => exact inv_before h (.inl hSt)
  | prep => exact inv_before h (.inr (.inl hSt))
  | emGo => exact inv_before h (.inr (.inr (.inl hSt)))
  | round => exact inv_before h (.inr (.inr (.inr hSt)))
  | hmul => exact inv_hmul h hSt
  | hwb => exact inv_hwb h hSt
  | rej => exact inv_rej h hSt
  | enc => exact inv_enc h hSt
  | hpClr => exact inv_hpClr h hSt
  | hp => exact inv_hp h hSt
  | hpCnt => exact inv_hpCnt h hSt
  | fin => exact inv_fin h hSt

end Steps

end Signer

end PqcHsm
