import PqcHsm.Rtl.DsaNttRun

/-!
# What the NTT core of ML-DSA computes

The pass that ends the way back, the runs from reset, and what a run leaves. In every cycle the sums
and products are those of integers; in every layer each place is read once and then written once.
-/

namespace PqcHsm

open MlDsa Butterflies

namespace DsaNtt

variable {s : DsaNtt} {inverse : Bool} {l i c : Nat} {f : Nat → Coeff}

/-! ### The pass that ends the way back -/

/-- What goes into the multiplier for coefficient `i` of the last pass. -/
structure ScaleOp (f : Nat → Coeff) (i : Nat) (x : MontIn BfTag) : Prop where
  ja : x.tag.ja = BitVec.ofNat 8 i
  scale : x.tag.scale = true
  factor : x.x = FINV
  coeff : x.y = nttLayers true f 8 i

/-- Cycle `c` of the last pass. -/
structure Scaling (s : DsaNtt) (f : Nat → Coeff) (c : Nat) : Prop where
  phase : s.phSc = true
  busy : s.done = false
  inv : s.invR = true
  issuing : c < 256 → s.st = .run ∧ s.scaleI = c
  draining : 256 ≤ c → s.st = .drain
  cells : ∀ p < 256, s.cells p = nttLayers true f 8 p
  spare : ∀ p < 256, p < c - 6 → s.spare p = nttResult true f p
  valid : s.ivR = true ↔ 0 < c ∧ c ≤ 256
  entering : 0 < c → c ≤ 256 → ScaleOp f (c - 1) s.pipeIn
  inFlight : s.InFlight (ScaleOp f) 256 c

namespace Scaling

variable (h : s.Scaling f c) (x : DsaNttIn)

include h

theorem st_ne : s.st ≠ .idle := by
  obtain hLow | hHigh := Nat.lt_or_ge c 256
  · rw [(h.issuing hLow).1]
    decide
  · rw [h.draining hHigh]
    decide

theorem ctl_issue (hc : c + 1 < 256) : s.nextCtl x = { s with scaleI := c + 1 } := by
  obtain ⟨hSt, hScale⟩ := h.issuing (by omega)
  rw [nextCtl, hSt]
  simp only [h.phase, if_true, hScale]
  rw [if_neg (by omega), show (c + 1) % 512 = c + 1 by omega]

theorem ctl_last : c = 255 → s.nextCtl x = { s with st := .drain } := by
  rintro rfl
  obtain ⟨hSt, hScale⟩ := h.issuing (by decide)
  rw [nextCtl, hSt]
  simp only [h.phase, if_true, hScale]

theorem ctl_wait (hc : 256 ≤ c) (hWait : c < 262) : s.nextCtl x = s := by
  have hBusy : s.pipeEmpty = false := by
    rw [← Bool.not_eq_true, h.inFlight.pipeEmpty_iff h.valid hc (by decide)]
    omega
  rw [nextCtl, h.draining hc]
  simp [hBusy]

theorem ctl_swap : c = 262 → s.nextCtl x = { s with sel := !s.sel, st := .fin } := by
  rintro rfl
  have hEmpty : s.pipeEmpty = true := by
    rw [h.inFlight.pipeEmpty_iff h.valid (by decide) (by decide)]
  rw [nextCtl, h.draining (by decide)]
  simp [hEmpty, swap, h.phase]

/-- What the state machine keeps, and where it is. -/
theorem ctl_next (hc : c < 262) :
    (s.nextCtl x).phSc = true ∧ (s.nextCtl x).done = false ∧ (s.nextCtl x).invR = true ∧
      (s.nextCtl x).sel = s.sel ∧
      (c + 1 < 256 → (s.nextCtl x).st = .run ∧ (s.nextCtl x).scaleI = c + 1) ∧
      (256 ≤ c + 1 → (s.nextCtl x).st = .drain) := by
  obtain hIn | rfl | hWait : c + 1 < 256 ∨ c = 255 ∨ 256 ≤ c := by omega
  · rw [ctl_issue h x hIn]
    exact ⟨h.phase, h.busy, h.inv, rfl, fun _ => ⟨(h.issuing (by omega)).1, rfl⟩, by omega⟩
  · rw [ctl_last h x rfl]
    exact ⟨h.phase, h.busy, h.inv, rfl, by omega, fun _ => rfl⟩
  · rw [ctl_wait h x hWait hc]
    exact ⟨h.phase, h.busy, h.inv, rfl, by omega, fun _ => h.draining hWait⟩

theorem valid_next : (s.next x).ivR = true ↔ 0 < c + 1 ∧ c + 1 ≤ 256 := by
  show s.issue = true ↔ _
  obtain hLow | hHigh := Nat.lt_or_ge c 256
  · rw [issue, (h.issuing hLow).1]
    simp only [decide_true, true_iff]
    omega
  · rw [issue, h.draining hHigh]
    simp only [reduceCtorEq, decide_false, Bool.false_eq_true, false_iff]
    omega

theorem entering_next (hc : c < 256) : ScaleOp f c (s.next x).pipeIn := by
  obtain ⟨-, -, -, hSel, -, -⟩ := ctl_next h x (by omega)
  have hIssue : s.issueA = BitVec.ofNat 8 c := by
    rw [issueA, h.phase, if_pos rfl, (h.issuing hc).2]
  have hIsc : (s.next x).iscR = true := h.phase
  have hA : (s.next x).srcA = nttLayers true f 8 c := by
    rw [srcA_next x h.st_ne hSel, hIssue]
    exact h.cells c hc
  constructor
  · exact hIssue
  · exact hIsc
  · show (s.next x).zetaIn = FINV
    rw [zetaIn, hIsc, if_pos rfl]
  · show (s.next x).ySel = _
    rw [ySel, hIsc, if_pos rfl, hA]

/-- One more coefficient has been written. -/
theorem spare_next : ∀ p < 256, p < c + 1 - 6 →
    (s.next x).bank (!s.sel) (BitVec.ofNat 8 p) = nttResult true f p := by
  intro p hp hPlace
  rw [bank_written, RamPort.write, RamPort.write, dstA, dstB]
  by_cases hWrites : 5 < c ∧ c ≤ 256 + 5
  · obtain ⟨y, hOp, hTag, hT⟩ := h.inFlight.wb_op hWrites.1 hWrites.2
    have hValid := h.inFlight.wbValid_iff.mpr hWrites
    have hScale : s.wbScale = true := by
      rw [wbScale, hTag]
      exact hOp.scale
    have hA : s.wbA = nttResult true f (c - 6) := by
      rw [wbA, hTag, hOp.scale, if_pos rfl, hT, hOp.factor, hOp.coeff, nttResult_inverse]
    rw [hValid, hScale, hA, hTag, hOp.ja]
    simp only [Bool.not_true, Bool.and_false, Bool.false_eq_true, if_false, if_true]
    rw [update_cell _ _ (by omega) hp]
    split
    · rename_i hAt
      rw [hAt]
    · exact h.spare p hp (by omega)
  · have hValid : s.wbValid = false := by
      rw [← Bool.not_eq_true, h.inFlight.wbValid_iff]
      exact hWrites
    rw [hValid]
    simp only [Bool.false_and, Bool.false_eq_true, if_false]
    exact h.spare p hp (by omega)

/-- The next cycle of the pass. -/
theorem step (hc : c < 262) : (s.next x).Scaling f (c + 1) := by
  obtain ⟨hPhase, hBusy, hInv, hSel, hIssuing, hDraining⟩ := ctl_next h x hc
  have hSame : (s.next x).sel = s.sel := hSel
  constructor
  · exact hPhase
  · exact hBusy
  · exact hInv
  · exact hIssuing
  · exact hDraining
  · intro p hp
    unfold DsaNtt.cells
    rw [hSame, bank_kept x h.st_ne]
    exact h.cells p hp
  · intro p hp hPlace
    unfold DsaNtt.spare
    rw [hSame]
    exact spare_next h x p hp hPlace
  · exact valid_next h x
  · intro _ hLast
    exact entering_next h x (by omega)
  · exact h.inFlight.step x h.valid h.entering

end Scaling

/-! ### The end of a run -/

/-- All is written. -/
structure Finishing (s : DsaNtt) (inverse : Bool) (f : Nat → Coeff) : Prop where
  st : s.st = .fin
  busy : s.done = false
  cells : ∀ p < 256, s.cells p = nttResult inverse f p

/-- A run that is over. -/
structure Over (s : DsaNtt) (inverse : Bool) (f : Nat → Coeff) : Prop where
  st : s.st = .idle
  done : s.done = true
  cells : ∀ p < 256, s.cells p = nttResult inverse f p

theorem Scaling.finishing (h : s.Scaling f 262) (x : DsaNttIn) :
    (s.next x).Finishing true f := by
  have hCtl := Scaling.ctl_swap h x rfl
  have hSel : (s.next x).sel = !s.sel := by
    show (s.nextCtl x).sel = _
    rw [hCtl]
  constructor
  · show (s.nextCtl x).st = _
    rw [hCtl]
  · show (s.nextCtl x).done = _
    rw [hCtl]
    exact h.busy
  · intro p hp
    unfold DsaNtt.cells
    rw [hSel]
    exact Scaling.spare_next h x p hp (by omega)

/-- After the last layer of the way back comes the last pass. -/
theorem Layer.scaling (h : s.Layer true f 7 134) (x : DsaNttIn) : (s.next x).Scaling f 0 := by
  have hLen : s.len = 128 := (h.draining (by decide)).2.len
  have hCtl : s.nextCtl x = { s with sel := !s.sel, phSc := true, scaleI := 0, st := .run } := by
    rw [Layer.ctl_swap h x rfl, swap, h.phase, h.inv, hLen]
    rfl
  have hSel : (s.next x).sel = !s.sel := by
    show (s.nextCtl x).sel = _
    rw [hCtl]
  obtain ⟨hCells, hIv, hFlight⟩ := h.swapped (by decide) x hSel
  constructor
  · show (s.nextCtl x).phSc = _
    rw [hCtl]
  · show (s.nextCtl x).done = _
    rw [hCtl]
    exact h.busy
  · show (s.nextCtl x).invR = _
    rw [hCtl]
    exact h.inv
  · intro _
    show (s.nextCtl x).st = _ ∧ (s.nextCtl x).scaleI = _
    rw [hCtl]
    exact ⟨rfl, rfl⟩
  · omega
  · exact hCells
  · omega
  · rw [hIv]
    simp
  · omega
  · exact hFlight.emptied (by decide)

theorem Layer.finishing (h : s.Layer false f 7 134) (x : DsaNttIn) :
    (s.next x).Finishing false f := by
  have hLen : s.len = 1 := (h.draining (by decide)).2.len
  have hCtl : s.nextCtl x = { s with sel := !s.sel, st := .fin } := by
    rw [Layer.ctl_swap h x rfl, swap, h.phase, h.inv, hLen]
    rfl
  have hSel : (s.next x).sel = !s.sel := by
    show (s.nextCtl x).sel = _
    rw [hCtl]
  obtain ⟨hCells, -, -⟩ := h.swapped (by decide) x hSel
  constructor
  · show (s.nextCtl x).st = _
    rw [hCtl]
  · show (s.nextCtl x).done = _
    rw [hCtl]
    exact h.busy
  · intro p hp
    rw [nttResult_forward]
    exact hCells p hp

theorem Finishing.over (h : s.Finishing inverse f) (x : DsaNttIn) : (s.next x).Over inverse f := by
  have hCtl : s.nextCtl x = { s with done := true, st := .idle } := by
    rw [nextCtl, h.st]
  have hSel : (s.next x).sel = s.sel := by
    show (s.nextCtl x).sel = _
    rw [hCtl]
  constructor
  · show (s.nextCtl x).st = _
    rw [hCtl]
  · show (s.nextCtl x).done = _
    rw [hCtl]
  · intro p hp
    unfold DsaNtt.cells
    rw [hSel, bank_kept x (by rw [h.st]; decide)]
    exact h.cells p hp

/-! ### Widths -/

/-- No sum and no product of the cycle that the run uses leaves its width. -/
structure Exact (s : DsaNtt) : Prop where
  entering : s.ivR = true → s.iscR = false → s.invR = true →
    (s.srcA + s.srcB).toInt = s.srcA.toInt + s.srcB.toInt ∧
      (s.srcA - s.srcB).toInt = s.srcA.toInt - s.srcB.toInt
  product : (smul s.pipe.xS1 s.pipe.yS1).toInt = s.pipe.xS1.toInt * s.pipe.yS1.toInt
  multiple : (montProd s.pipe.mS3).toInt = s.pipe.mS3.toInt * 8380417
  diff : s.pipe.v4 = true →
    (s.pipe.pS4 - s.pipe.mqS4).toInt = s.pipe.pS4.toInt - s.pipe.mqS4.toInt ∧
      (4294967296 : Int) ∣ s.pipe.pS4.toInt - s.pipe.mqS4.toInt
  leaving : s.pipe.v5 = true → s.pipe.tag5.scale = false → s.pipe.tag5.mode = false →
    (s.pipe.tag5.keep + s.pipe.tS5).toInt = s.pipe.tag5.keep.toInt + s.pipe.tS5.toInt ∧
      (s.pipe.tag5.keep - s.pipe.tS5).toInt = s.pipe.tag5.keep.toInt - s.pipe.tS5.toInt

/-- A factor within a quarter of the modulus, and sums that fit: then nothing leaves its width. -/
structure Fits (x : MontIn BfTag) : Prop where
  factor : |x.x.toInt| ≤ 4190208
  sums : x.tag.scale = false → x.tag.mode = false →
    |x.tag.keep.toInt + (montReduce (smul x.x x.y)).toInt| ≤ 2147483647 ∧
      |x.tag.keep.toInt - (montReduce (smul x.x x.y)).toInt| ≤ 2147483647

theorem exact_of_fits {h : Nat → MontIn BfTag} (hPipe : s.pipe = .ofLast h)
    (hFits : ∀ p, 1 ≤ p → p ≤ 5 → (h p).valid = true → Fits (h p))
    (hEntering : s.ivR = true → s.iscR = false → s.invR = true →
      |s.srcA.toInt + s.srcB.toInt| ≤ 2147483647 ∧
        |s.srcA.toInt - s.srcB.toInt| ≤ 2147483647) : s.Exact where
  entering := by
    intro hIv hIsc hInv
    obtain ⟨hPlus, hMinus⟩ := hEntering hIv hIsc hInv
    exact ⟨toInt_add hPlus, toInt_sub hMinus⟩
  product := toInt_smul _ _
  multiple := toInt_montProd _
  diff := by
    intro hValid
    rw [hPipe] at hValid ⊢
    have hSmall := abs_product (b := (h 4).y) (hFits 4 (by decide) (by decide) hValid).factor
    simp only [MontPipe.ofLast]
    rw [toInt_montDiff hSmall, toInt_montProd]
    exact ⟨rfl, montFactor_sub_dvd _⟩
  leaving := by
    intro hValid hScale hMode
    rw [hPipe] at hValid hScale hMode ⊢
    obtain ⟨hPlus, hMinus⟩ := (hFits 5 (by decide) (by decide) hValid).sums hScale hMode
    exact ⟨toInt_add hPlus, toInt_sub hMinus⟩

/-- The coefficients that a run may start from. -/
def InRange (inverse : Bool) (f : Nat → Coeff) : Prop :=
  ∀ p < 256, |(f p).toInt| ≤ if inverse then (8388607 : Int) else 2080440319

/-- A bound for the sums of every layer. -/
theorem layers_bound (hf : InRange inverse f) (hl : l < 8) :
    ∀ p < 256, |(nttLayers inverse f l p).toInt| ≤
      if inverse then (1073741696 : Int) else 2139103231 := by
  intro p hp
  cases inverse
  · have hBound := (forward_layers (by norm_num) hf (Nat.le_of_lt hl) p hp).1
    apply hBound.trans
    simp only [Bool.false_eq_true, if_false]
    omega
  · have hBound := (inverse_layers hf (Nat.le_of_lt hl) p hp).1
    have hPow : (2 : Int) ^ l ≤ 2 ^ 7 := by gcongr <;> omega
    apply hBound.trans
    simp only [if_true]
    omega

theorem fits_layerOp (hf : InRange inverse f) (hl : l < 8) (hi : i < 128) :
    Fits (layerOp inverse f l i) := by
  have hHigh := high_lt_256 inverse hl hi
  have hA := layers_bound hf hl _ (show low (nttWidth inverse l) i < 256 by omega)
  have hZeta := abs_zeta (nttTwiddle inverse l (i / nttWidth inverse l))
  constructor
  · cases inverse
    · exact hZeta
    · show |(-zeta _).toInt| ≤ _
      rw [toInt_neg (hZeta.trans (by norm_num)), abs_neg]
      exact hZeta
  · intro _ hMode
    have hForward : inverse = false := hMode
    subst hForward
    obtain ⟨hPlus, hMinus⟩ := ct_sums
      (b := nttLayers false f l (low (nttWidth false l) i + nttWidth false l)) hZeta hA
    exact ⟨hPlus.trans (by norm_num), hMinus.trans (by norm_num)⟩

theorem Layer.exact (h : s.Layer inverse f l c) (hl : l < 8) (hf : InRange inverse f) :
    s.Exact := by
  obtain ⟨old, hPipe, hStages⟩ := h.inFlight.stages
  apply exact_of_fits hPipe
  · intro p hFirst hLast hValid
    obtain ⟨hV, hOp⟩ := hStages p hFirst hLast
    obtain ⟨hLow, hHigh⟩ := hV.mp hValid
    rw [hOp hLow hHigh]
    exact fits_layerOp hf hl (by omega)
  · intro hIv _ hInv
    obtain ⟨hLow, hHigh⟩ := h.valid.mp hIv
    obtain ⟨hA, hB⟩ := h.sources hLow hHigh
    have hInverse : inverse = true := h.inv.symm.trans hInv
    subst hInverse
    have hPlaces := high_lt_256 true hl (show c - 1 < 128 by omega)
    have hBoundA := layers_bound hf hl _
      (show low (nttWidth true l) (c - 1) < 256 by omega)
    have hBoundB := layers_bound hf hl _ hPlaces
    rw [← hA] at hBoundA
    rw [← hB] at hBoundB
    obtain ⟨hPlus, hMinus⟩ := gs_sums hBoundA hBoundB
    exact ⟨hPlus.trans (by norm_num), hMinus.trans (by norm_num)⟩

theorem Scaling.exact (h : s.Scaling f c) : s.Exact := by
  obtain ⟨old, hPipe, hStages⟩ := h.inFlight.stages
  apply exact_of_fits hPipe
  · intro p hFirst hLast hValid
    obtain ⟨hV, hOp⟩ := hStages p hFirst hLast
    obtain ⟨hLow, hHigh⟩ := hV.mp hValid
    have hScale := hOp hLow hHigh
    constructor
    · rw [hScale.factor]
      exact finv_small
    · intro hNot
      rw [hScale.scale] at hNot
      exact absurd hNot (by decide)
  · intro hIv hIsc
    obtain ⟨hLow, hHigh⟩ := h.valid.mp hIv
    have hScale : s.iscR = true := (h.entering hLow hHigh).scale
    rw [hIsc] at hScale
    exact absurd hScale (by decide)

/-! ### Schedule -/

/-- The bank that holds the coefficients gives the one at `p` to a butterfly. -/
def Reads (s : DsaNtt) (x : DsaNttIn) (p : Nat) : Prop :=
  s.st = .run ∧ ((s.actA x).addr = BitVec.ofNat 8 p ∨ (s.actB x).addr = BitVec.ofNat 8 p)

/-- The other bank takes a coefficient at `p`. -/
def Writes (s : DsaNtt) (p : Nat) : Prop :=
  (s.dstA.we = true ∧ s.dstA.addr = BitVec.ofNat 8 p) ∨
    (s.dstB.we = true ∧ s.dstB.addr = BitVec.ofNat 8 p)

/-- The butterfly that works on a place. -/
theorem at_place (hl : l < 8) (hi : i < 128) {p : Nat} (hp : p < 256) :
    (BitVec.ofNat 8 (low (nttWidth inverse l) i) = BitVec.ofNat 8 p ∨
        BitVec.ofNat 8 (low (nttWidth inverse l) i + nttWidth inverse l) = BitVec.ofNat 8 p) ↔
      i = pairOf (nttWidth inverse l) p := by
  have hPos := nttWidth_pos inverse l
  have hHigh := high_lt_256 inverse hl hi
  rw [ofNat_inj (by omega) hp, ofNat_inj hHigh hp]
  constructor
  · rintro (rfl | rfl)
    · exact (pairOf_low hPos).symm
    · exact (pairOf_high hPos).symm
  · rintro rfl
    exact (eq_low_or_high hPos p).imp Eq.symm Eq.symm

theorem pairOf_lt_128 (inverse : Bool) (hl : l < 8) {p : Nat} (hp : p < 256) :
    pairOf (nttWidth inverse l) p < 128 := by
  have hBlocks := nttBlocks_mul inverse hl
  rw [← hBlocks]
  apply pairOf_lt (nttWidth_pos inverse l)
  rwa [Nat.mul_left_comm, hBlocks]

theorem Layer.reads_iff (h : s.Layer inverse f l c) (hl : l < 8) {p : Nat} (hp : p < 256)
    (x : DsaNttIn) : s.Reads x p ↔ c = pairOf (nttWidth inverse l) p := by
  have hPair := pairOf_lt_128 inverse hl hp
  obtain hLow | hHigh := Nat.lt_or_ge c 128
  · rw [← at_place hl hLow hp, ← h.issueA_eq hLow, ← Layer.issueB_eq h hl hLow]
    simp [Reads, actA, actB, busyI, (h.issuing hLow).1]
  · simp only [Reads, (h.draining hHigh).1, reduceCtorEq, false_and, false_iff]
    omega

theorem Layer.writes_iff (h : s.Layer inverse f l c) (hl : l < 8) {p : Nat} (hp : p < 256) :
    s.Writes p ↔ c = pairOf (nttWidth inverse l) p + 6 := by
  have hPair := pairOf_lt_128 inverse hl hp
  by_cases hWrites : 5 < c ∧ c ≤ 128 + 5
  · obtain ⟨y, rfl, hTag, -⟩ := h.inFlight.wb_op hWrites.1 hWrites.2
    have hValid := h.inFlight.wbValid_iff.mpr hWrites
    rw [show c = pairOf (nttWidth inverse l) p + 6 ↔ c - 6 = pairOf (nttWidth inverse l) p by omega,
      ← at_place hl (by omega) hp]
    simp [Writes, dstA, dstB, wbScale, hValid, hTag, layerOp]
  · have hValid : s.wbValid = false := by
      rw [← Bool.not_eq_true, h.inFlight.wbValid_iff]
      exact hWrites
    simp only [Writes, dstA, dstB, hValid, Bool.false_and, Bool.false_eq_true, false_and, or_self,
      false_iff]
    omega

/-! ### Runs -/

/-- At rest the issue register and the multiplier are empty. -/
structure Settled (s : DsaNtt) : Prop where
  stages : ∃ h : Nat → MontIn BfTag, s.pipe = .ofLast h ∧
    (s.st = .idle ∨ s.st = .fin → s.ivR = false ∧ ∀ p, 1 ≤ p → p ≤ 5 → (h p).valid = false)

theorem push_invalid {h : Nat → MontIn BfTag} (hValid : ∀ p, 1 ≤ p → p ≤ 5 → (h p).valid = false)
    {y : MontIn BfTag} (hy : y.valid = false) :
    ∀ p, 1 ≤ p → p ≤ 5 → (MontPipe.push h y p).valid = false := by
  intro p hFirst hLast
  unfold MontPipe.push
  split
  · exact hy
  · exact hValid (p - 1) (by omega) (by omega)

/-- Only the empty multiplier lets the core come to rest. -/
theorem resting_cases {x : DsaNttIn} (h : (s.next x).st = .idle ∨ (s.next x).st = .fin) :
    s.issue = false ∧ ((s.st = .idle ∨ s.st = .fin) ∨ s.pipeEmpty = true) := by
  change (s.nextCtl x).st = .idle ∨ (s.nextCtl x).st = .fin at h
  cases hSt : s.st with
  | idle => exact ⟨by simp [issue, hSt], .inl (.inl rfl)⟩
  | fin => exact ⟨by simp [issue, hSt], .inl (.inr rfl)⟩
  | drain =>
    refine ⟨by simp [issue, hSt], .inr ?_⟩
    by_contra hBusy
    rw [nextCtl, hSt] at h
    simp [hBusy, hSt] at h
  | run =>
    exfalso
    rw [nextCtl, hSt] at h
    by_cases hScale : s.phSc
    · by_cases hLast : s.scaleI = 255
      · simp [hScale, hLast] at h
      · simp [hScale, hLast] at h
    · by_cases hWithin : s.j + 1 < s.grp + s.len
      · simp [hScale, advance, hWithin, hSt] at h
      · by_cases hBlock : s.grp + 2 * s.len < 256 <;>
          simp [hScale, advance, hWithin, hBlock, hSt] at h

theorem Settled.step (h : s.Settled) (x : DsaNttIn) : (s.next x).Settled := by
  obtain ⟨old, hPipe, hRest⟩ := h.stages
  refine ⟨MontPipe.push old s.pipeIn, ?_, ?_⟩
  · rw [← MontPipe.next_ofLast, ← hPipe]
    rfl
  · intro hNext
    obtain ⟨hIssue, hBefore⟩ := resting_cases hNext
    refine ⟨hIssue, ?_⟩
    obtain hRests | hEmpty := hBefore
    · exact push_invalid (hRest hRests).2 (hRest hRests).1
    · rw [pipeEmpty, Bool.and_eq_true, Bool.not_eq_true', Bool.not_eq_true', hPipe] at hEmpty
      apply push_invalid _ hEmpty.1
      intro p hFirst hLast
      rw [← Bool.not_eq_true]
      intro hValid
      have hBusy := (MontPipe.pipeBusy_ofLast old).mpr ⟨p, hFirst, hLast, hValid⟩
      rw [hEmpty.2] at hBusy
      exact absurd hBusy (by decide)

theorem settled_after (mem0 mem1 : Poly) (ins : Nat → DsaNttIn) (k : Nat) :
    ((circuit mem0 mem1).after ins k).Settled := by
  apply Clocked.invariant
  · refine ⟨fun _ => ⟨false, .none, 0, 0⟩, rfl, ?_⟩
    intro _
    exact ⟨rfl, fun _ _ _ => rfl⟩
  · intro s x h
    exact h.step x

/-- A start. -/
theorem Settled.started (h : s.Settled) (hIdle : s.st = .idle) (x : DsaNttIn)
    (hStart : x.start = true) : (s.next x).Layer x.inverse (s.next x).cells 0 0 := by
  have hCtl : s.nextCtl x = { s with
      done := false
      invR := x.inverse
      len := if x.inverse then 1 else 128
      grp := 0
      j := 0
      k := if x.inverse then 255 else 1
      phSc := false
      scaleI := 0
      st := .run } := by
    simp [nextCtl, hIdle, hStart]
  obtain ⟨old, hPipe, hRest⟩ := h.stages
  obtain ⟨hIv, hValid⟩ := hRest (.inl hIdle)
  apply Layer.first
  · show (s.nextCtl x).st = _
    rw [hCtl]
  · show (s.nextCtl x).phSc = _
    rw [hCtl]
  · show (s.nextCtl x).done = _
    rw [hCtl]
  · have hCounts : (s.nextCtl x).Counts x.inverse 0 0 := by
      rw [hCtl]
      constructor
      · rfl
      · cases x.inverse <;> rfl
      · cases x.inverse <;> rfl
      · cases x.inverse <;> rfl
      · cases x.inverse <;> rfl
    exact ⟨hCounts.inv, hCounts.len, hCounts.grp, hCounts.j, hCounts.k⟩
  · intro p _
    rfl
  · show s.issue = false
    simp [issue, hIdle]
  · refine ⟨MontPipe.push old s.pipeIn, ?_, ?_⟩
    · rw [← MontPipe.next_ofLast, ← hPipe]
      rfl
    · intro p hFirst hLast
      rw [push_invalid hValid hIv p hFirst hLast]
      constructor
      · simp
      · intro hLow
        omega

/-- At rest no sum or product of the cycle leaves its width. -/
theorem Settled.exact (h : s.Settled) (hRests : s.st = .idle ∨ s.st = .fin) : s.Exact := by
  obtain ⟨old, hPipe, hRest⟩ := h.stages
  obtain ⟨hIv, hInvalid⟩ := hRest hRests
  apply exact_of_fits hPipe
  · intro p hFirst hLast hValid
    rw [hInvalid p hFirst hLast] at hValid
    exact absurd hValid (by decide)
  · intro hValid
    rw [hIv] at hValid
    exact absurd hValid (by decide)

section Runs

variable {mem0 mem1 : Poly} {ins : Nat → DsaNttIn} {k : Nat}
  (hIdle : ((circuit mem0 mem1).after ins k).st = .idle) (hStart : (ins k).start = true)

include hIdle hStart

/-- Cycle by cycle through the layers. -/
theorem layer_at {n : Nat} (hn : n < 1080) :
    ((circuit mem0 mem1).after ins (k + 1 + n)).Layer (ins k).inverse
      ((circuit mem0 mem1).after ins (k + 1)).cells (n / 135) (n % 135) := by
  induction n with
  | zero => exact (settled_after mem0 mem1 ins k).started hIdle (ins k) hStart
  | succ n ih =>
    have hBefore := ih (by omega)
    by_cases hWithin : n % 135 < 134
    · rw [show (n + 1) / 135 = n / 135 by omega, show (n + 1) % 135 = n % 135 + 1 by omega]
      exact hBefore.step (by omega) _ hWithin
    · rw [show (n + 1) / 135 = n / 135 + 1 by omega, show (n + 1) % 135 = 0 by omega]
      rw [show n % 135 = 134 by omega] at hBefore
      exact hBefore.next_layer (by omega) _

theorem last_layer :
    ((circuit mem0 mem1).after ins (k + 1080)).Layer (ins k).inverse
      ((circuit mem0 mem1).after ins (k + 1)).cells 7 134 := by
  have hLast := layer_at hIdle hStart (show 1079 < 1080 by omega)
  rwa [show k + 1 + 1079 = k + 1080 by omega] at hLast

/-- Cycle by cycle through the pass that ends the way back. -/
theorem scaling_at (hInverse : (ins k).inverse = true) (hc : c ≤ 262) :
    ((circuit mem0 mem1).after ins (k + 1081 + c)).Scaling
      ((circuit mem0 mem1).after ins (k + 1)).cells c := by
  induction c with
  | zero =>
    have hLast := last_layer hIdle hStart
    rw [hInverse] at hLast
    exact hLast.scaling _
  | succ c ih => exact (ih (by omega)).step _ (by omega)

/-- The number of cycles of a run. -/
def nttCycles (inverse : Bool) : Nat := if inverse then 1345 else 1082

theorem finishing_at :
    ((circuit mem0 mem1).after ins (k + (nttCycles (ins k).inverse - 1))).Finishing
      (ins k).inverse ((circuit mem0 mem1).after ins (k + 1)).cells := by
  cases hInverse : (ins k).inverse with
  | false =>
    have hLast := last_layer hIdle hStart
    rw [hInverse] at hLast
    exact hLast.finishing _
  | true => exact (scaling_at hIdle hStart hInverse (Nat.le_refl 262)).finishing _

theorem over_at :
    ((circuit mem0 mem1).after ins (k + nttCycles (ins k).inverse)).Over
      (ins k).inverse ((circuit mem0 mem1).after ins (k + 1)).cells := by
  have hPos : nttCycles (ins k).inverse = nttCycles (ins k).inverse - 1 + 1 := by
    cases (ins k).inverse <;> rfl
  rw [hPos]
  exact (finishing_at hIdle hStart).over _

/-- The cycles of a run. -/
theorem cycle_cases {n : Nat} (hFirst : k < n) (hLast : n < k + nttCycles (ins k).inverse) :
    (∃ l c, l < 8 ∧ ((circuit mem0 mem1).after ins n).Layer (ins k).inverse
      ((circuit mem0 mem1).after ins (k + 1)).cells l c) ∨
    (∃ c, ((circuit mem0 mem1).after ins n).Scaling
      ((circuit mem0 mem1).after ins (k + 1)).cells c) ∨
    ((circuit mem0 mem1).after ins n).Finishing (ins k).inverse
      ((circuit mem0 mem1).after ins (k + 1)).cells := by
  by_cases hLayers : n < k + 1081
  · left
    obtain ⟨d, rfl⟩ : ∃ d, n = k + 1 + d := ⟨n - (k + 1), by omega⟩
    exact ⟨_, _, by omega, layer_at hIdle hStart (show d < 1080 by omega)⟩
  · right
    by_cases hEnd : n = k + (nttCycles (ins k).inverse - 1)
    · right
      rw [hEnd]
      exact finishing_at hIdle hStart
    · left
      cases hInverse : (ins k).inverse with
      | false =>
        rw [hInverse] at hLast hEnd
        simp only [nttCycles, Bool.false_eq_true, if_false] at hLast hEnd
        omega
      | true =>
        rw [hInverse] at hLast hEnd
        simp only [nttCycles, if_true] at hLast hEnd
        obtain ⟨d, rfl⟩ : ∃ d, n = k + 1081 + d := ⟨n - (k + 1081), by omega⟩
        exact ⟨d, scaling_at hIdle hStart hInverse (by omega)⟩

theorem done_low {n : Nat} (hFirst : k < n) (hLast : n < k + nttCycles (ins k).inverse) :
    ((circuit mem0 mem1).after ins n).done = false := by
  obtain ⟨l, c, -, h⟩ | ⟨c, h⟩ | h := cycle_cases hIdle hStart hFirst hLast
  · exact h.busy
  · exact h.busy
  · exact h.busy

theorem exact_at (hf : InRange (ins k).inverse ((circuit mem0 mem1).after ins (k + 1)).cells)
    {n : Nat} (hFirst : k < n) (hLast : n < k + nttCycles (ins k).inverse) :
    ((circuit mem0 mem1).after ins n).Exact := by
  obtain ⟨l, c, hl, h⟩ | ⟨c, h⟩ | h := cycle_cases hIdle hStart hFirst hLast
  · exact h.exact hl hf
  · exact h.exact
  · exact (settled_after mem0 mem1 ins n).exact (.inr h.st)

/-- In layer `l`, the butterfly of a place is the only one that reads it, and then writes it. -/
theorem once_per_layer (hl : l < 8) {p : Nat} (hp : p < 256) :
    ∃ i < 128, ∀ c < 135,
      (((circuit mem0 mem1).after ins (k + 1 + (135 * l + c))).Reads
        (ins (k + 1 + (135 * l + c))) p ↔ c = i) ∧
      (((circuit mem0 mem1).after ins (k + 1 + (135 * l + c))).Writes p ↔ c = i + 6) := by
  refine ⟨_, pairOf_lt_128 (ins k).inverse hl hp, ?_⟩
  intro c hc
  have hLayer := layer_at hIdle hStart (show 135 * l + c < 1080 by omega)
  rw [show (135 * l + c) / 135 = l by omega, show (135 * l + c) % 135 = c by omega] at hLayer
  exact ⟨hLayer.reads_iff hl hp _, hLayer.writes_iff hl hp⟩

end Runs

/-- What a run leaves: `f` is the memory after the start, `r` the memory at the end. -/
structure Computes (inverse : Bool) (f r : Nat → Coeff) : Prop where
  /-- A forward run leaves the transform. -/
  forward : inverse = false → ∀ p < 256, residue (r p) = ntt (fun i => residue (f i)) p
  /-- It adds at most eight times the modulus. -/
  grows : inverse = false → ∀ bound : Int, bound ≤ 2080440319 →
    (∀ p < 256, |(f p).toInt| ≤ bound) → ∀ p < 256, |(r p).toInt| ≤ bound + 8 * 8380416
  /-- The other run leaves what has `2 ^ 32` times the start as its transform. -/
  backward : inverse = true → ∀ p < 256, |(r p).toInt| ≤ 8380416 ∧
    ntt (fun i => residue (r i)) p = 4294967296 * residue (f p)
  /-- From a transform it leaves `2 ^ 32` times what was transformed. -/
  undoes : inverse = true → ∀ g : Nat → ZMod 8380417, (∀ p < 256, residue (f p) = ntt g p) →
    ∀ p < 256, residue (r p) = 4294967296 * g p

theorem ntt_congr {g g' : Nat → ZMod 8380417} (h : ∀ i < 256, g i = g' i) (p : Nat) :
    ntt g p = ntt g' p := by
  unfold ntt
  apply Finset.sum_congr rfl
  intro m hm
  rw [h m (Finset.mem_range.mp hm)]

theorem computes_result (hf : InRange inverse f) {r : Nat → Coeff}
    (hr : ∀ p < 256, r p = nttResult inverse f p) : Computes inverse f r := by
  constructor
  · rintro rfl p hp
    rw [hr p hp]
    exact (forward_result (by norm_num) hf p hp).2
  · rintro rfl bound hBound hWithin p hp
    rw [hr p hp]
    exact (forward_result (by omega) hWithin p hp).1
  · rintro rfl p hp
    have hSame : ∀ i < 256, residue (r i) = residue (nttResult true f i) := by
      intro i hi
      rw [hr i hi]
    rw [ntt_congr hSame, ntt_inverse hf p hp, hr p hp]
    exact ⟨(inverse_result hf p hp).1, rfl⟩
  · rintro rfl g hg p hp
    rw [hr p hp]
    exact inverse_ntt hf hg p hp

end DsaNtt

/-- Started from coefficients in range, the core computes the transform, or the way back times
`2 ^ 32`, and raises `done` when it has; no sum or product leaves its width. In every layer each
coefficient is read once, by its butterfly, and written once into the other bank, six cycles
later. -/
theorem mldsa_ntt_core_computes (mem0 mem1 : Poly) (ins : Nat → DsaNttIn) (k : Nat)
    (hIdle : ((DsaNtt.circuit mem0 mem1).after ins k).st = .idle)
    (hStart : (ins k).start = true) :
    let run := (DsaNtt.circuit mem0 mem1).after ins
    let inverse := (ins k).inverse
    let last := k + DsaNtt.nttCycles inverse
    (run last).st = .idle ∧ (∀ n, k < n → n ≤ last → ((run n).done = true ↔ n = last)) ∧
      (DsaNtt.InRange inverse (run (k + 1)).cells →
        DsaNtt.Computes inverse (run (k + 1)).cells (run last).cells ∧
          ∀ n, k < n → n < last → (run n).Exact) ∧
      ∀ l < 8, ∀ p < 256, ∃ i < 128, ∀ c < 135,
        ((run (k + 1 + (135 * l + c))).Reads (ins (k + 1 + (135 * l + c))) p ↔ c = i) ∧
          ((run (k + 1 + (135 * l + c))).Writes p ↔ c = i + 6) := by
  intro run inverse last
  have hOver := DsaNtt.over_at hIdle hStart
  refine ⟨hOver.st, ?_, ?_, ?_⟩
  · intro n hFirst hLast
    by_cases hEnd : n = last
    · subst hEnd
      exact ⟨fun _ => rfl, fun _ => hOver.done⟩
    · have hLow := DsaNtt.done_low hIdle hStart hFirst (show n < last by omega)
      simp only [hEnd, iff_false, Bool.not_eq_true]
      exact hLow
  · intro hRange
    exact ⟨DsaNtt.computes_result hRange hOver.cells,
      fun n => DsaNtt.exact_at hIdle hStart hRange⟩
  · intro l hl p hp
    exact DsaNtt.once_per_layer hIdle hStart hl hp

/-- A run over coefficients that are all 0. -/
theorem mldsa_ntt_core_computes_zero :
    let ins : Nat → DsaNttIn := fun k => ⟨k = 0, false, false, 0, 0, 0⟩
    let run := (DsaNtt.circuit (fun _ => 0) fun _ => 0).after ins
    DsaNtt.Computes false (run 1).cells (run 1082).cells := by
  intro ins run
  have hRange : DsaNtt.InRange false (run 1).cells := by
    intro p _
    show |(0 : Coeff).toInt| ≤ 2080440319
    decide
  exact ((mldsa_ntt_core_computes (fun _ => 0) (fun _ => 0) ins 0 rfl rfl).2.2.1 hRange).1

end PqcHsm
