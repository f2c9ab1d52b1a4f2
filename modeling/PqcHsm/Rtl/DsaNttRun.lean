import Mathlib.Tactic.IntervalCases
import PqcHsm.Rtl.DsaNttValues

/-!
# Runs of the NTT core of ML-DSA

A layer takes 135 cycles. In cycle `c` butterfly `c` is issued, butterfly `c - 1` enters the
multiplier, `c - 1 - p` is in its stage `p`, and `c - 6` is written into the other bank. When all
are written the banks change places.
-/

namespace PqcHsm

open MlDsa Butterflies

/-! ### The multiplier -/

namespace MontPipe

variable {τ : Type}

/-- The stages when `h p` went in `p` cycles ago. -/
def ofLast (h : Nat → MontIn τ) : MontPipe τ where
  v1 := (h 1).valid
  v2 := (h 2).valid
  v3 := (h 3).valid
  v4 := (h 4).valid
  v5 := (h 5).valid
  tag1 := (h 1).tag
  tag2 := (h 2).tag
  tag3 := (h 3).tag
  tag4 := (h 4).tag
  tag5 := (h 5).tag
  xS1 := (h 1).x
  yS1 := (h 1).y
  pS2 := smul (h 2).x (h 2).y
  pS3 := smul (h 3).x (h 3).y
  mS3 := montFactor (smul (h 3).x (h 3).y)
  pS4 := smul (h 4).x (h 4).y
  mqS4 := montProd (montFactor (smul (h 4).x (h 4).y))
  tS5 := montReduce (smul (h 5).x (h 5).y)

def push (h : Nat → MontIn τ) (x : MontIn τ) (p : Nat) : MontIn τ := if p ≤ 1 then x else h (p - 1)

theorem next_ofLast (h : Nat → MontIn τ) (x : MontIn τ) :
    (ofLast h).next x = ofLast (push h x) := rfl

theorem pipeBusy_ofLast (h : Nat → MontIn τ) :
    (ofLast h).pipeBusy = true ↔ ∃ p, 1 ≤ p ∧ p ≤ 5 ∧ (h p).valid = true := by
  constructor
  · intro hBusy
    simp only [pipeBusy, ofLast, Bool.or_eq_true] at hBusy
    obtain (((h1 | h2) | h3) | h4) | h5 := hBusy
    · exact ⟨1, by omega, by omega, h1⟩
    · exact ⟨2, by omega, by omega, h2⟩
    · exact ⟨3, by omega, by omega, h3⟩
    · exact ⟨4, by omega, by omega, h4⟩
    · exact ⟨5, by omega, by omega, h5⟩
  · rintro ⟨p, hFirst, hLast, hValid⟩
    simp only [pipeBusy, ofLast, Bool.or_eq_true]
    interval_cases p <;> simp [hValid]

end MontPipe

namespace DsaNtt

variable {s : DsaNtt} {inverse : Bool} {l i : Nat}

/-! ### The banks -/

def bank (s : DsaNtt) (upper : Bool) : Poly := if upper then s.mem1 else s.mem0

/-- The coefficient at a place. -/
def cells (s : DsaNtt) (p : Nat) : Coeff := s.bank s.sel (BitVec.ofNat 8 p)

/-- The word at a place of the other bank. -/
def spare (s : DsaNtt) (p : Nat) : Coeff := s.bank (!s.sel) (BitVec.ofNat 8 p)

theorem bank_kept (x : DsaNttIn) (hBusy : s.st ≠ .idle) :
    (s.next x).bank s.sel = s.bank s.sel := by
  cases hSel : s.sel <;> simp [bank, next, r0A, r0B, r1A, r1B, actA, actB, RamPort.write, busyI,
    hBusy, hSel]

theorem bank_written (x : DsaNttIn) :
    (s.next x).bank (!s.sel) = s.dstB.write (s.dstA.write (s.bank (!s.sel))) := by
  cases hSel : s.sel <;> simp [bank, next, r0A, r0B, r1A, r1B, hSel]

theorem srcA_next (x : DsaNttIn) (hBusy : s.st ≠ .idle) (hSel : (s.next x).sel = s.sel) :
    (s.next x).srcA = s.bank s.sel s.issueA := by
  unfold srcA
  rw [hSel]
  cases h : s.sel <;> simp [bank, next, r0A, r1A, actA, busyI, hBusy, h]

theorem srcB_next (x : DsaNttIn) (hBusy : s.st ≠ .idle) (hSel : (s.next x).sel = s.sel) :
    (s.next x).srcB = s.bank s.sel s.issueB := by
  unfold srcB
  rw [hSel]
  cases h : s.sel <;> simp [bank, next, r0B, r1B, actB, busyI, hBusy, h]

/-! ### Counters -/

/-- The counters at butterfly `i` of layer `l`. -/
structure Counts (s : DsaNtt) (inverse : Bool) (l i : Nat) : Prop where
  inv : s.invR = inverse
  len : s.len = nttWidth inverse l
  grp : s.grp = i / nttWidth inverse l * (2 * nttWidth inverse l)
  j : s.j = low (nttWidth inverse l) i
  k : s.k = nttTwiddle inverse l (i / nttWidth inverse l)

/-- The counters when layer `l` has been issued. -/
structure Issued (s : DsaNtt) (inverse : Bool) (l : Nat) : Prop where
  inv : s.invR = inverse
  len : s.len = nttWidth inverse l
  k : s.k = nttTwiddle inverse (l + 1) 0

/-- The number of blocks in layer `l`. -/
def nttBlocks (inverse : Bool) (l : Nat) : Nat := if inverse then 2 ^ (7 - l) else 2 ^ l

theorem nttWidth_pos (inverse : Bool) (l : Nat) : 0 < nttWidth inverse l := by
  unfold nttWidth
  split <;> exact Nat.two_pow_pos _

theorem nttBlocks_mul (inverse : Bool) (hl : l < 8) :
    nttBlocks inverse l * nttWidth inverse l = 128 := by
  interval_cases l <;> cases inverse <;> rfl

theorem nttBlocks_le (inverse : Bool) (hl : l < 8) : nttBlocks inverse l ≤ 128 := by
  interval_cases l <;> cases inverse <;> decide

theorem nttTwiddle_eq (hl : l < 8) (b : Nat) :
    nttTwiddle inverse l b =
      if inverse then 2 * nttBlocks inverse l - 1 - b else nttBlocks inverse l + b := by
  interval_cases l <;> cases inverse <;> rfl

/-- Both places of a butterfly are in the memory. -/
theorem high_lt_256 (inverse : Bool) (hl : l < 8) (hi : i < 128) :
    low (nttWidth inverse l) i + nttWidth inverse l < 256 := by
  have hBlocks := nttBlocks_mul inverse hl
  have hHigh := high_lt (nttWidth_pos inverse l)
    (show i < nttBlocks inverse l * nttWidth inverse l by omega)
  rwa [Nat.mul_left_comm, hBlocks] at hHigh

theorem block_lt (inverse : Bool) (hl : l < 8) (hi : i < 128) :
    i / nttWidth inverse l < nttBlocks inverse l := by
  apply Nat.div_lt_of_lt_mul
  rwa [Nat.mul_comm, nttBlocks_mul inverse hl]

/-- The counters within a layer. -/
theorem advance_within (h : s.Counts inverse l i) (hl : l < 8) (hi : i + 1 < 128) :
    s.advance.st = s.st ∧ s.advance.Counts inverse l (i + 1) := by
  obtain ⟨hInv, hLen, hGrp, hJ, hK⟩ := h
  have hHigh := high_lt_256 inverse hl hi
  have hBlock := block_lt inverse hl hi
  have hFew := nttBlocks_le inverse hl
  have hLow : low (nttWidth inverse l) i =
      i / nttWidth inverse l * (2 * nttWidth inverse l) + i % nttWidth inverse l := rfl
  rw [nttTwiddle_eq hl] at hK
  obtain ⟨hIn, hSame, hNext⟩ | ⟨hOut, hOther, hNext⟩ := next_place (nttWidth_pos inverse l) i
  · have hStep : s.advance = { s with j := (s.j + 1) % 512 } := if_pos (by omega)
    rw [hStep]
    constructor
    · rfl
    constructor
    · exact hInv
    · exact hLen
    · rw [hSame]
      exact hGrp
    · show (s.j + 1) % 512 = _
      omega
    · rw [hSame, nttTwiddle_eq hl]
      exact hK
  · have hStep : s.advance = { s with
        k := if s.invR then (s.k + 511) % 512 else (s.k + 1) % 512
        grp := (s.grp + 2 * s.len) % 512
        j := (s.grp + 2 * s.len) % 512 } := by
      rw [advance, if_neg (by omega), if_pos (by omega)]
    rw [hStep]
    constructor
    · rfl
    constructor
    · exact hInv
    · exact hLen
    · show (s.grp + 2 * s.len) % 512 = _
      rw [hOther, Nat.add_one_mul (i / nttWidth inverse l)]
      omega
    · show (s.grp + 2 * s.len) % 512 = _
      omega
    · show (if s.invR then (s.k + 511) % 512 else (s.k + 1) % 512) = _
      rw [hInv, hK, nttTwiddle_eq hl, hOther]
      rw [hOther] at hBlock
      generalize i / nttWidth inverse l = block at hBlock
      cases inverse
      · simp only [Bool.false_eq_true, if_false]
        omega
      · simp only [if_true]
        omega

/-- The counters when the last butterfly of a layer is issued. -/
theorem advance_last (h : s.Counts inverse l 127) (hl : l < 8) :
    s.advance.st = .drain ∧ s.advance.Issued inverse l := by
  obtain ⟨hInv, hLen, hGrp, hJ, hK⟩ := h
  have hStep : s.advance = { s with
      k := if s.invR then (s.k + 511) % 512 else (s.k + 1) % 512
      st := .drain } := by
    rw [advance, if_neg, if_neg]
    · rw [hGrp, hLen]
      interval_cases l <;> cases inverse <;> decide
    · rw [hJ, hGrp, hLen]
      interval_cases l <;> cases inverse <;> decide
  rw [hStep]
  constructor
  · rfl
  constructor
  · exact hInv
  · exact hLen
  · show (if s.invR then (s.k + 511) % 512 else (s.k + 1) % 512) = _
    rw [hInv, hK]
    interval_cases l <;> cases inverse <;> rfl

/-- `advance` leaves everything else. -/
theorem advance_frame (s : DsaNtt) :
    s.advance.sel = s.sel ∧ s.advance.phSc = s.phSc ∧ s.advance.done = s.done ∧
      s.advance.invR = s.invR := by
  unfold advance
  split
  · exact ⟨rfl, rfl, rfl, rfl⟩
  split <;> exact ⟨rfl, rfl, rfl, rfl⟩

/-! ### What is in flight -/

/-- `c` cycles after the first of `n` operations was issued, those that are in the multiplier. -/
structure InFlight (s : DsaNtt) (Op : Nat → MontIn BfTag → Prop) (n c : Nat) : Prop where
  stages : ∃ h : Nat → MontIn BfTag, s.pipe = .ofLast h ∧ ∀ p, 1 ≤ p → p ≤ 5 →
    ((h p).valid = true ↔ p < c ∧ c ≤ n + p) ∧ (p < c → c ≤ n + p → Op (c - 1 - p) (h p))

variable {Op : Nat → MontIn BfTag → Prop} {n c : Nat}

theorem InFlight.step (h : s.InFlight Op n c) (x : DsaNttIn)
    (hValid : s.ivR = true ↔ 0 < c ∧ c ≤ n) (hOp : 0 < c → c ≤ n → Op (c - 1) s.pipeIn) :
    (s.next x).InFlight Op n (c + 1) := by
  obtain ⟨old, hPipe, hStages⟩ := h.stages
  refine ⟨MontPipe.push old s.pipeIn, ?_, ?_⟩
  · rw [← MontPipe.next_ofLast, ← hPipe]
    rfl
  · intro p hFirst hLast
    by_cases hOne : p = 1
    · subst hOne
      constructor
      · show s.ivR = true ↔ _
        rw [hValid]
        omega
      · intro hLow hHigh
        rw [show c + 1 - 1 - 1 = c - 1 by omega]
        exact hOp (by omega) (by omega)
    · obtain ⟨hV, hO⟩ := hStages (p - 1) (by omega) (by omega)
      have hPush : MontPipe.push old s.pipeIn p = old (p - 1) := if_neg (by omega)
      rw [hPush]
      constructor
      · rw [hV]
        omega
      · intro hLow hHigh
        rw [show c + 1 - 1 - p = c - 1 - (p - 1) by omega]
        exact hO (by omega) (by omega)

theorem InFlight.wbValid_iff (h : s.InFlight Op n c) :
    s.wbValid = true ↔ 5 < c ∧ c ≤ n + 5 := by
  obtain ⟨old, hPipe, hStages⟩ := h.stages
  rw [wbValid, hPipe]
  exact (hStages 5 (by omega) (by omega)).1

/-- What is written is what the operation that went in five cycles ago gives. -/
theorem InFlight.wb_op (h : s.InFlight Op n c) (hLow : 5 < c) (hHigh : c ≤ n + 5) :
    ∃ x, Op (c - 6) x ∧ s.pipe.tag5 = x.tag ∧ s.pipe.tS5 = montReduce (smul x.x x.y) := by
  obtain ⟨old, hPipe, hStages⟩ := h.stages
  refine ⟨old 5, ?_, ?_, ?_⟩
  · rw [show c - 6 = c - 1 - 5 by omega]
    exact (hStages 5 (by omega) (by omega)).2 hLow hHigh
  · rw [hPipe]
    rfl
  · rw [hPipe]
    rfl

/-- The multiplier is empty six cycles after the last operation was issued. -/
theorem InFlight.pipeEmpty_iff (h : s.InFlight Op n c) (hValid : s.ivR = true ↔ 0 < c ∧ c ≤ n)
    (hn : n ≤ c) (hPos : 0 < n) : s.pipeEmpty = true ↔ n + 6 ≤ c := by
  obtain ⟨old, hPipe, hStages⟩ := h.stages
  have hBusy : s.pipe.pipeBusy = true ↔ n < c ∧ c ≤ n + 5 ∨ c = n ∧ 1 < n := by
    rw [hPipe, MontPipe.pipeBusy_ofLast]
    constructor
    · rintro ⟨p, hFirst, hLast, hV⟩
      have hRange := (hStages p hFirst hLast).1.mp hV
      omega
    · intro hRange
      refine ⟨if c = n then 1 else c - n, ?_, ?_, ?_⟩
      · split <;> omega
      · split <;> omega
      · rw [(hStages _ (by split <;> omega) (by split <;> omega)).1]
        split <;> omega
  have hIv : s.ivR = true ↔ c = n := by
    rw [hValid]
    omega
  rw [pipeEmpty, Bool.and_eq_true, Bool.not_eq_true', Bool.not_eq_true', ← Bool.not_eq_true,
    ← Bool.not_eq_true, hIv, hBusy]
  omega

/-! ### A layer -/

/-- What goes into the multiplier for butterfly `i` of layer `l`. -/
def layerOp (inverse : Bool) (f : Nat → Coeff) (l i : Nat) : MontIn BfTag :=
  let w := nttWidth inverse l
  let a := nttLayers inverse f l (low w i)
  let b := nttLayers inverse f l (low w i + w)
  let z := zeta (nttTwiddle inverse l (i / w))
  { valid := true
    tag := ⟨BitVec.ofNat 8 (low w i), BitVec.ofNat 8 (low w i + w), if inverse then a + b else a,
      inverse, false⟩
    x := if inverse then -z else z
    y := if inverse then a - b else b }

/-- What comes out of it is the next layer at the two places. -/
theorem wb_layerOp {f : Nat → Coeff} (hTag : s.pipe.tag5 = (layerOp inverse f l i).tag)
    (hT : s.pipe.tS5 =
      montReduce (smul (layerOp inverse f l i).x (layerOp inverse f l i).y)) :
    s.wbA = nttLayers inverse f (l + 1) (low (nttWidth inverse l) i) ∧
      s.wbB = nttLayers inverse f (l + 1) (low (nttWidth inverse l) i + nttWidth inverse l) := by
  have hPos := nttWidth_pos inverse l
  rw [nttLayers, pairs_at_low hPos, pairs_at_high hPos, wbA, wbB, hTag, hT]
  cases inverse <;> exact ⟨rfl, rfl⟩

/-- Cycle `c` of layer `l`. -/
structure Layer (s : DsaNtt) (inverse : Bool) (f : Nat → Coeff) (l c : Nat) : Prop where
  phase : s.phSc = false
  busy : s.done = false
  inv : s.invR = inverse
  issuing : c < 128 → s.st = .run ∧ s.Counts inverse l c
  draining : 128 ≤ c → s.st = .drain ∧ s.Issued inverse l
  cells : ∀ p < 256, s.cells p = nttLayers inverse f l p
  spare : ∀ p < 256, pairOf (nttWidth inverse l) p < c - 6 →
    s.spare p = nttLayers inverse f (l + 1) p
  valid : s.ivR = true ↔ 0 < c ∧ c ≤ 128
  sources : 0 < c → c ≤ 128 →
    s.srcA = nttLayers inverse f l (low (nttWidth inverse l) (c - 1)) ∧
      s.srcB = nttLayers inverse f l (low (nttWidth inverse l) (c - 1) + nttWidth inverse l)
  entering : 0 < c → c ≤ 128 → s.pipeIn = layerOp inverse f l (c - 1)
  inFlight : s.InFlight (fun i x => x = layerOp inverse f l i) 128 c

namespace Layer

variable {f : Nat → Coeff} (h : s.Layer inverse f l c) (hl : l < 8) (x : DsaNttIn)

include h

theorem st_ne : s.st ≠ .idle := by
  obtain hLow | hHigh := Nat.lt_or_ge c 128
  · rw [(h.issuing hLow).1]
    decide
  · rw [(h.draining hHigh).1]
    decide

theorem issueA_eq (hc : c < 128) : s.issueA = BitVec.ofNat 8 (low (nttWidth inverse l) c) := by
  rw [issueA, h.phase, if_neg Bool.false_ne_true, (h.issuing hc).2.j]

/-- The banks stay where they are until the multiplier is empty. -/
theorem sel_next (hc : c < 134) : (s.next x).sel = s.sel := by
  show (s.nextCtl x).sel = s.sel
  obtain hLow | hHigh := Nat.lt_or_ge c 128
  · rw [nextCtl, (h.issuing hLow).1]
    simp only [h.phase, Bool.false_eq_true, if_false]
    exact (advance_frame s).1
  · have hBusy : s.pipeEmpty = false := by
      rw [← Bool.not_eq_true, h.inFlight.pipeEmpty_iff h.valid hHigh (by decide)]
      omega
    rw [nextCtl, (h.draining hHigh).1]
    simp [hBusy]

theorem ctl_issue (hc : c < 128) : s.nextCtl x = s.advance := by
  rw [nextCtl, (h.issuing hc).1]
  simp [h.phase]

theorem ctl_wait (hc : 128 ≤ c) (hWait : c < 134) : s.nextCtl x = s := by
  have hBusy : s.pipeEmpty = false := by
    rw [← Bool.not_eq_true, h.inFlight.pipeEmpty_iff h.valid hc (by decide)]
    omega
  rw [nextCtl, (h.draining hc).1]
  simp [hBusy]

theorem ctl_swap : c = 134 → s.nextCtl x = s.swap := by
  rintro rfl
  have hEmpty : s.pipeEmpty = true := by
    rw [h.inFlight.pipeEmpty_iff h.valid (by decide) (by decide)]
  rw [nextCtl, (h.draining (by decide)).1]
  simp [hEmpty]

include hl

theorem issueB_eq (hc : c < 128) :
    s.issueB = BitVec.ofNat 8 (low (nttWidth inverse l) c + nttWidth inverse l) := by
  have hHigh := high_lt_256 inverse hl hc
  rw [issueB, jHi, (h.issuing hc).2.j, (h.issuing hc).2.len]
  congr 1
  omega

theorem sources_next (hc : c < 128) :
    (s.next x).srcA = nttLayers inverse f l (low (nttWidth inverse l) c) ∧
      (s.next x).srcB =
        nttLayers inverse f l (low (nttWidth inverse l) c + nttWidth inverse l) := by
  have hHigh := high_lt_256 inverse hl hc
  have hSel := sel_next h x (by omega)
  constructor
  · rw [srcA_next x h.st_ne hSel, h.issueA_eq hc]
    exact h.cells _ (by omega)
  · rw [srcB_next x h.st_ne hSel, issueB_eq h hl hc]
    exact h.cells _ hHigh

theorem entering_next (hc : c < 128) : (s.next x).pipeIn = layerOp inverse f l c := by
  obtain ⟨hA, hB⟩ := sources_next h hl x hc
  have hInv : (s.next x).invR = inverse := by
    show (s.nextCtl x).invR = inverse
    rw [ctl_issue h x hc, (advance_frame s).2.2.2, h.inv]
  have hIv : (s.next x).ivR = true := by
    show s.issue = true
    rw [issue, (h.issuing hc).1]
    rfl
  have hIsc : (s.next x).iscR = false := h.phase
  have hJa : (s.next x).jaR = BitVec.ofNat 8 (low (nttWidth inverse l) c) := h.issueA_eq hc
  have hJb : (s.next x).jbR = BitVec.ofNat 8 (low (nttWidth inverse l) c + nttWidth inverse l) :=
    issueB_eq h hl hc
  have hZ : (s.next x).zetaQ = zeta (nttTwiddle inverse l (c / nttWidth inverse l)) := by
    show zeta s.k = _
    rw [(h.issuing hc).2.k]
  unfold pipeIn keepSel zetaIn ySel layerOp
  rw [hIv, hJa, hJb, hIsc, hInv, hA, hB, hZ]
  rfl

/-- One more butterfly has been written. -/
theorem spare_next (hc : c ≤ 134) : ∀ p < 256, pairOf (nttWidth inverse l) p < c + 1 - 6 →
    (s.next x).bank (!s.sel) (BitVec.ofNat 8 p) = nttLayers inverse f (l + 1) p := by
  have hPos := nttWidth_pos inverse l
  intro p hp hPair
  rw [bank_written, RamPort.write, RamPort.write, dstA, dstB]
  by_cases hWrites : 5 < c ∧ c ≤ 128 + 5
  · obtain ⟨y, rfl, hTag, hT⟩ := h.inFlight.wb_op hWrites.1 hWrites.2
    have hHigh := high_lt_256 inverse hl (show c - 6 < 128 by omega)
    obtain ⟨hA, hB⟩ := wb_layerOp hTag hT
    have hValid := h.inFlight.wbValid_iff.mpr hWrites
    have hScale : s.wbScale = false := by
      rw [wbScale, hTag]
      rfl
    have hJa : s.pipe.tag5.ja = BitVec.ofNat 8 (low (nttWidth inverse l) (c - 6)) := by
      rw [hTag]
      rfl
    have hJb : s.pipe.tag5.jb =
        BitVec.ofNat 8 (low (nttWidth inverse l) (c - 6) + nttWidth inverse l) := by
      rw [hTag]
      rfl
    rw [hValid, hScale, hA, hB, hJa, hJb]
    simp only [Bool.not_false, Bool.and_self, if_true]
    rw [update_cell _ _ hHigh hp, update_cell _ _ (by omega) hp]
    split
    · rename_i hAt
      rw [hAt]
    · split
      · rename_i hAt
        rw [hAt]
      · rename_i hNotHigh hNotLow
        apply h.spare p hp
        obtain hAt | hAt := eq_low_or_high hPos p
        · have hOther : pairOf (nttWidth inverse l) p ≠ c - 6 := by
            intro hSame
            exact hNotLow (hSame ▸ hAt)
          omega
        · have hOther : pairOf (nttWidth inverse l) p ≠ c - 6 := by
            intro hSame
            exact hNotHigh (hSame ▸ hAt)
          omega
  · have hValid : s.wbValid = false := by
      rw [← Bool.not_eq_true, h.inFlight.wbValid_iff]
      exact hWrites
    rw [hValid]
    simp only [Bool.false_and, Bool.false_eq_true, if_false]
    apply h.spare p hp
    have hBlocks := nttBlocks_mul inverse hl
    have hAll := pairOf_lt hPos (show p < nttBlocks inverse l * (2 * nttWidth inverse l) by
      rwa [Nat.mul_left_comm, hBlocks])
    omega

omit hl in
theorem frame_next (hc : c < 134) :
    (s.next x).phSc = false ∧ (s.next x).done = false ∧ (s.next x).invR = inverse := by
  show (s.nextCtl x).phSc = false ∧ (s.nextCtl x).done = false ∧ (s.nextCtl x).invR = inverse
  obtain ⟨-, hPhase, hDone, hInv⟩ := advance_frame s
  obtain hLow | hHigh := Nat.lt_or_ge c 128
  · rw [ctl_issue h x hLow, hPhase, hDone, hInv]
    exact ⟨h.phase, h.busy, h.inv⟩
  · rw [ctl_wait h x hHigh hc]
    exact ⟨h.phase, h.busy, h.inv⟩

theorem issuing_next (hc : c + 1 < 128) :
    (s.next x).st = .run ∧ (s.next x).Counts inverse l (c + 1) := by
  obtain ⟨hSt, hCounts⟩ := advance_within (h.issuing (by omega)).2 hl hc
  rw [(h.issuing (by omega)).1] at hSt
  rw [← ctl_issue h x (by omega)] at hSt hCounts
  exact ⟨hSt, hCounts.inv, hCounts.len, hCounts.grp, hCounts.j, hCounts.k⟩

theorem draining_next (hc : 128 ≤ c + 1) (hWait : c < 134) :
    (s.next x).st = .drain ∧ (s.next x).Issued inverse l := by
  show (s.nextCtl x).st = .drain ∧ _
  obtain hLast | hHigh := Nat.lt_or_ge c 128
  · obtain rfl : c = 127 := by omega
    obtain ⟨hSt, hIssued⟩ := advance_last (h.issuing (by decide)).2 hl
    rw [← ctl_issue h x (by decide)] at hSt hIssued
    exact ⟨hSt, hIssued.inv, hIssued.len, hIssued.k⟩
  · obtain ⟨hSt, hIssued⟩ := h.draining hHigh
    rw [← ctl_wait h x hHigh hWait] at hSt hIssued
    exact ⟨hSt, hIssued.inv, hIssued.len, hIssued.k⟩

omit hl in
theorem valid_next : (s.next x).ivR = true ↔ 0 < c + 1 ∧ c + 1 ≤ 128 := by
  show s.issue = true ↔ _
  obtain hLow | hHigh := Nat.lt_or_ge c 128
  · rw [issue, (h.issuing hLow).1]
    simp only [decide_true, true_iff]
    omega
  · rw [issue, (h.draining hHigh).1]
    simp only [reduceCtorEq, decide_false, Bool.false_eq_true, false_iff]
    omega

/-- The next cycle of the layer. -/
theorem step (hc : c < 134) : (s.next x).Layer inverse f l (c + 1) := by
  have hSel := sel_next h x hc
  obtain ⟨hPhase, hBusy, hInv⟩ := frame_next h x hc
  constructor
  · exact hPhase
  · exact hBusy
  · exact hInv
  · exact issuing_next h hl x
  · exact fun hHigh => draining_next h hl x hHigh hc
  · intro p hp
    unfold DsaNtt.cells
    rw [hSel, bank_kept x h.st_ne]
    exact h.cells p hp
  · intro p hp hPair
    unfold DsaNtt.spare
    rw [hSel]
    exact spare_next h hl x (by omega) p hp hPair
  · exact valid_next h x
  · intro _ hLast
    exact sources_next h hl x (by omega)
  · intro _ hLast
    exact entering_next h hl x (by omega)
  · exact h.inFlight.step x h.valid h.entering

end Layer

theorem InFlight.emptied {Op' : Nat → MontIn BfTag → Prop} {n' : Nat} (h : s.InFlight Op n c)
    (hc : n + 6 ≤ c) : s.InFlight Op' n' 0 := by
  obtain ⟨old, hPipe, hStages⟩ := h.stages
  refine ⟨old, hPipe, ?_⟩
  intro p hFirst hLast
  constructor
  · rw [(hStages p hFirst hLast).1]
    omega
  · intro hLow
    exact absurd hLow (Nat.not_lt_zero p)

/-- The memory, the issue register and the multiplier when the banks have changed places. -/
theorem Layer.swapped {f : Nat → Coeff} (h : s.Layer inverse f l 134) (hl : l < 8) (x : DsaNttIn)
    (hSel : (s.next x).sel = !s.sel) :
    (∀ p < 256, (s.next x).cells p = nttLayers inverse f (l + 1) p) ∧ (s.next x).ivR = false ∧
      (s.next x).InFlight (fun i y => y = layerOp inverse f l i) 128 135 := by
  refine ⟨?_, ?_, h.inFlight.step x h.valid h.entering⟩
  · intro p hp
    have hBlocks := nttBlocks_mul inverse hl
    have hAll := pairOf_lt (nttWidth_pos inverse l)
      (show p < nttBlocks inverse l * (2 * nttWidth inverse l) by rwa [Nat.mul_left_comm, hBlocks])
    unfold DsaNtt.cells
    rw [hSel]
    exact Layer.spare_next h hl x (by decide) p hp (by omega)
  · rw [← Bool.not_eq_true, Layer.valid_next h x]
    decide

theorem Layer.first {f : Nat → Coeff} (hSt : s.st = .run) (hPhase : s.phSc = false)
    (hBusy : s.done = false) (hCounts : s.Counts inverse l 0)
    (hCells : ∀ p < 256, s.cells p = nttLayers inverse f l p) (hIv : s.ivR = false)
    (hFlight : s.InFlight (fun i y => y = layerOp inverse f l i) 128 0) :
    s.Layer inverse f l 0 where
  phase := hPhase
  busy := hBusy
  inv := hCounts.inv
  issuing := fun _ => ⟨hSt, hCounts⟩
  draining := by
    intro hHigh
    omega
  cells := hCells
  spare := by
    intro p _ hLow
    omega
  valid := by
    rw [hIv]
    simp
  sources := by
    intro hLow
    omega
  entering := by
    intro hLow
    omega
  inFlight := hFlight

/-- The next layer. -/
theorem Layer.next_layer {f : Nat → Coeff} (h : s.Layer inverse f l 134) (hl : l < 7)
    (x : DsaNttIn) : (s.next x).Layer inverse f (l + 1) 0 := by
  obtain ⟨hSt, hIssued⟩ := h.draining (by decide)
  have hNotLast : ¬s.len = if inverse then 128 else 1 := by
    rw [hIssued.len]
    interval_cases l <;> cases inverse <;> decide
  have hSwap : s.nextCtl x = { s with
      sel := !s.sel
      len := if inverse then s.len * 2 % 512 else s.len / 2
      grp := 0
      j := 0
      st := .run } := by
    rw [Layer.ctl_swap h x rfl, swap, h.phase, h.inv]
    cases inverse
    · simp only [Bool.false_eq_true, if_false] at hNotLast ⊢
      rw [if_neg hNotLast]
    · simp only [if_true] at hNotLast ⊢
      rw [if_neg Bool.false_ne_true, if_neg hNotLast]
  have hSel : (s.next x).sel = !s.sel := by
    show (s.nextCtl x).sel = _
    rw [hSwap]
  obtain ⟨hCells, hIv, hFlight⟩ := h.swapped (by omega) x hSel
  apply Layer.first
  · show (s.nextCtl x).st = _
    rw [hSwap]
  · show (s.nextCtl x).phSc = _
    rw [hSwap]
    exact h.phase
  · show (s.nextCtl x).done = _
    rw [hSwap]
    exact h.busy
  · have hCounts : (s.nextCtl x).Counts inverse (l + 1) 0 := by
      rw [hSwap]
      constructor
      · exact h.inv
      · show (if inverse then s.len * 2 % 512 else s.len / 2) = _
        rw [hIssued.len]
        interval_cases l <;> cases inverse <;> rfl
      · show 0 = _
        rw [Nat.zero_div, Nat.zero_mul]
      · show 0 = _
        rw [low, Nat.zero_div, Nat.zero_mul, Nat.zero_mod]
      · rw [Nat.zero_div]
        exact hIssued.k
    exact ⟨hCounts.inv, hCounts.len, hCounts.grp, hCounts.j, hCounts.k⟩
  · exact hCells
  · exact hIv
  · exact hFlight.emptied (by decide)

end DsaNtt

end PqcHsm
