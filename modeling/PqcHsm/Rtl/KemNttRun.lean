import Mathlib.Tactic.IntervalCases
import PqcHsm.Rtl.KemNttValues

/-!
# Runs of the NTT core of ML-KEM

Butterfly `i` of layer `l` takes three cycles: both places are read, multiplied and written. After
128 of them the memory holds the next layer, and after seven layers the pass that ends the run takes
each coefficient once more.
-/

namespace PqcHsm

open MlKem Butterflies

namespace NttCore

variable {s : NttCore} {inverse : Bool} {l i : Nat}

/-! ### Counters -/

/-- The counters at butterfly `i` of layer `l`. -/
structure Counts (s : NttCore) (inverse : Bool) (l i : Nat) : Prop where
  inv : s.invR = inverse
  len : s.len = nttWidth inverse l
  grp : s.grp = i / nttWidth inverse l * (2 * nttWidth inverse l)
  j : s.j = low (nttWidth inverse l) i
  k : s.k = nttTwiddle inverse l (i / nttWidth inverse l)

/-- The number of blocks in layer `l`. -/
def nttBlocks (inverse : Bool) (l : Nat) : Nat := if inverse then 2 ^ (6 - l) else 2 ^ l

theorem nttWidth_pos (inverse : Bool) (l : Nat) : 0 < nttWidth inverse l := by
  unfold nttWidth
  split <;> exact Nat.two_pow_pos _

theorem nttBlocks_mul (inverse : Bool) (hl : l < 7) :
    nttBlocks inverse l * nttWidth inverse l = 128 := by
  interval_cases l <;> cases inverse <;> rfl

theorem nttBlocks_le (inverse : Bool) (hl : l < 7) : nttBlocks inverse l ≤ 64 := by
  interval_cases l <;> cases inverse <;> decide

theorem nttTwiddle_eq (hl : l < 7) (b : Nat) :
    nttTwiddle inverse l b =
      if inverse then 2 * nttBlocks inverse l - 1 - b else nttBlocks inverse l + b := by
  interval_cases l <;> cases inverse <;> rfl

/-- Both places of a butterfly are in the memory. -/
theorem high_lt_256 (inverse : Bool) (hl : l < 7) (hi : i < 128) :
    low (nttWidth inverse l) i + nttWidth inverse l < 256 := by
  have hBlocks := nttBlocks_mul inverse hl
  have hHigh := high_lt (nttWidth_pos inverse l)
    (show i < nttBlocks inverse l * nttWidth inverse l by omega)
  rwa [Nat.mul_left_comm, hBlocks] at hHigh

theorem block_lt (inverse : Bool) (hl : l < 7) (hi : i < 128) :
    i / nttWidth inverse l < nttBlocks inverse l := by
  apply Nat.div_lt_of_lt_mul
  rwa [Nat.mul_comm, nttBlocks_mul inverse hl]

theorem advance_done (s : NttCore) : s.advance.done = s.done := by
  unfold advance
  split
  · rfl
  split
  · rfl
  split <;> rfl

/-- The counters within a layer. -/
theorem advance_within (h : s.Counts inverse l i) (hl : l < 7) (hi : i + 1 < 128) :
    s.advance.st = .rd ∧ s.advance.Counts inverse l (i + 1) := by
  obtain ⟨hInv, hLen, hGrp, hJ, hK⟩ := h
  have hHigh := high_lt_256 inverse hl hi
  have hBlock := block_lt inverse hl hi
  have hFew := nttBlocks_le inverse hl
  have hLow : low (nttWidth inverse l) i =
      i / nttWidth inverse l * (2 * nttWidth inverse l) + i % nttWidth inverse l := rfl
  rw [nttTwiddle_eq hl] at hK
  obtain ⟨hIn, hSame, hNext⟩ | ⟨hOut, hOther, hNext⟩ := next_place (nttWidth_pos inverse l) i
  · have hStep : s.advance = { s with st := .rd, j := (s.j + 1) % 512 } := if_pos (by omega)
    rw [hStep]
    constructor
    · rfl
    constructor
    · exact hInv
    · exact hLen
    · rw [hSame]
      exact hGrp
    · show (s.j + 1) % 512 = _
      omega
    · rw [hSame, nttTwiddle_eq hl]
      exact hK
  · have hStep : s.advance = { s with
        st := .rd
        k := s.kNext
        grp := (s.grp + 2 * s.len) % 512
        j := (s.grp + 2 * s.len) % 512 } := by
      rw [advance, if_neg (by omega), if_pos (by omega)]
    rw [hStep]
    constructor
    · rfl
    constructor
    · exact hInv
    · exact hLen
    · show (s.grp + 2 * s.len) % 512 = _
      rw [hOther, Nat.add_one_mul (i / nttWidth inverse l)]
      omega
    · show (s.grp + 2 * s.len) % 512 = _
      omega
    · show s.kNext = _
      rw [kNext, hInv, hK, nttTwiddle_eq hl, hOther]
      rw [hOther] at hBlock
      generalize i / nttWidth inverse l = block at hBlock
      cases inverse
      · simp only [Bool.false_eq_true, if_false]
        omega
      · simp only [if_true]
        omega

/-- The counters at the end of a layer. -/
theorem advance_layer (h : s.Counts inverse l 127) (hl : l < 6) :
    s.advance.st = .rd ∧ s.advance.Counts inverse (l + 1) 0 := by
  obtain ⟨hInv, hLen, hGrp, hJ, hK⟩ := h
  have hStep : s.advance = { s with
      st := .rd
      k := s.kNext
      len := if s.invR then s.len * 2 % 512 else s.len / 2
      grp := 0
      j := 0 } := by
    rw [advance, if_neg, if_neg, if_neg]
    · rw [lastLen, hLen, hInv]
      interval_cases l <;> cases inverse <;> decide
    · rw [hGrp, hLen]
      interval_cases l <;> cases inverse <;> decide
    · rw [hJ, hGrp, hLen]
      interval_cases l <;> cases inverse <;> decide
  rw [hStep]
  constructor
  · rfl
  constructor
  · exact hInv
  · show (if s.invR then s.len * 2 % 512 else s.len / 2) = _
    rw [hInv, hLen]
    interval_cases l <;> cases inverse <;> rfl
  · show 0 = _
    rw [Nat.zero_div, Nat.zero_mul]
  · show 0 = _
    rw [low, Nat.zero_div, Nat.zero_mul, Nat.zero_mod]
  · show s.kNext = _
    rw [kNext, hInv, hK]
    interval_cases l <;> cases inverse <;> rfl

/-- The end of the last layer. -/
theorem advance_last (h : s.Counts inverse 6 127) :
    s.advance.st = .scRd ∧ s.advance.scaleI = 0 ∧ s.advance.invR = inverse := by
  obtain ⟨hInv, hLen, hGrp, hJ, hK⟩ := h
  have hStep : s.advance = { s with st := .scRd, k := s.kNext, scaleI := 0 } := by
    rw [advance, if_neg, if_neg, if_pos]
    · rw [lastLen, hLen, hInv]
      cases inverse <;> rfl
    · rw [hGrp, hLen]
      cases inverse <;> decide
    · rw [hJ, hGrp, hLen]
      cases inverse <;> decide
  rw [hStep]
  exact ⟨rfl, rfl, hInv⟩

/-! ### The memory -/

/-- The coefficient at a place. -/
def cells (s : NttCore) (p : Nat) : Coeff := s.mem (BitVec.ofNat 8 p)

/-! ### The three cycles of a butterfly -/

section Beat

variable (x y z : NttIn)

theorem next_rd (h : s.st = .rd) :
    s.next x = { s with
      st := .mu
      paDout := s.cells s.j
      pbDout := s.cells s.jHi } := by
  simp [next, nextCtl, paPort, pbPort, RamPort.write, h, cells]

theorem next_mu (h : s.st = .mu) :
    s.next x = { s with
      prodR := if s.invR then (gsHead s.paDout s.pbDout s.zetaNow).1
        else ctHead s.pbDout s.zetaNow
      bfAR := s.paDout
      gsAR := (gsHead s.paDout s.pbDout s.zetaNow).2
      st := .wb
      paDout := s.cells s.j
      pbDout := s.cells s.jHi } := by
  simp [next, nextCtl, paPort, pbPort, RamPort.write, h, cells]

/-- What is written. -/
def written (s : NttCore) : Coeff × Coeff :=
  if s.invR then (s.gsAR, gsTail s.prodR) else ctTail s.bfAR s.prodR

theorem next_wb (h : s.st = .wb) :
    s.next x = { s.advance with
      mem := Function.update (Function.update s.mem (BitVec.ofNat 8 s.j) s.written.1)
        (BitVec.ofNat 8 s.jHi) s.written.2
      paDout := s.cells s.j
      pbDout := s.cells s.jHi } := by
  cases hInv : s.invR <;>
    simp [next, nextCtl, paPort, pbPort, RamPort.write, h, cells, written, hInv]

/-- The state in the second cycle of a butterfly. -/
def multiplied (s : NttCore) : NttCore :=
  { s with st := .mu, paDout := s.cells s.j, pbDout := s.cells s.jHi }

/-- The state in the third cycle of a butterfly. -/
def reduced (s : NttCore) : NttCore :=
  { s with
    prodR := if s.invR then (gsHead (s.cells s.j) (s.cells s.jHi) s.zetaNow).1
      else ctHead (s.cells s.jHi) s.zetaNow
    bfAR := s.cells s.j
    gsAR := (gsHead (s.cells s.j) (s.cells s.jHi) s.zetaNow).2
    st := .wb
    paDout := s.cells s.j
    pbDout := s.cells s.jHi }

theorem next_reduced (h : s.st = .rd) : (s.next x).next y = s.reduced := by
  rw [next_rd x h, next_mu y rfl]
  rfl

theorem written_reduced :
    s.reduced.written = butterfly s.invR s.zetaNow (s.cells s.j) (s.cells s.jHi) := by
  cases hInv : s.invR <;> simp [written, reduced, butterfly, hInv]

end Beat

/-- Amid layer `l`, with `i` butterflies done. -/
structure Amid (s : NttCore) (inverse : Bool) (f : Nat → Coeff) (l i : Nat) : Prop where
  st : s.st = .rd
  busy : s.done = false
  counts : s.Counts inverse l i
  cells : ∀ p < 256, s.cells p =
    partly (nttWidth inverse l) i (nttLayers inverse f l) (nttLayers inverse f (l + 1)) p

namespace Amid

variable {f : Nat → Coeff}

theorem jHi_eq (h : s.Amid inverse f l i) (hl : l < 7) (hi : i < 128) :
    s.jHi = low (nttWidth inverse l) i + nttWidth inverse l := by
  have hHigh := high_lt_256 inverse hl hi
  rw [jHi, h.counts.j, h.counts.len]
  omega

theorem cells_low (h : s.Amid inverse f l i) (hl : l < 7) (hi : i < 128) :
    s.cells s.j = nttLayers inverse f l (low (nttWidth inverse l) i) := by
  have hHigh := high_lt_256 inverse hl hi
  rw [h.counts.j, h.cells _ (by omega)]
  exact partly_low (nttWidth_pos inverse l)

theorem cells_high (h : s.Amid inverse f l i) (hl : l < 7) (hi : i < 128) :
    s.cells s.jHi = nttLayers inverse f l (low (nttWidth inverse l) i + nttWidth inverse l) := by
  have hHigh := high_lt_256 inverse hl hi
  rw [h.jHi_eq hl hi, h.cells _ hHigh]
  exact partly_high (nttWidth_pos inverse l)

/-- What a butterfly writes is the next layer at its two places. -/
theorem written_eq (h : s.Amid inverse f l i) (hl : l < 7) (hi : i < 128) :
    s.reduced.written = (nttLayers inverse f (l + 1) (low (nttWidth inverse l) i),
      nttLayers inverse f (l + 1) (low (nttWidth inverse l) i + nttWidth inverse l)) := by
  have hPos := nttWidth_pos inverse l
  rw [written_reduced, h.cells_low hl hi, h.cells_high hl hi, zetaNow, h.counts.inv, h.counts.k,
    nttLayers, pairs_at_low hPos, pairs_at_high hPos]

/-- The memory after a butterfly. -/
theorem cells_next (h : s.Amid inverse f l i) (hl : l < 7) (hi : i < 128) (x y z : NttIn) :
    ∀ p < 256, (((s.next x).next y).next z).cells p =
      partly (nttWidth inverse l) (i + 1) (nttLayers inverse f l)
        (nttLayers inverse f (l + 1)) p := by
  have hPos := nttWidth_pos inverse l
  have hHigh := high_lt_256 inverse hl hi
  intro p hp
  rw [next_reduced x y h.st, next_wb z rfl]
  unfold NttCore.cells
  dsimp only
  rw [show s.reduced.j = s.j from rfl, show s.reduced.jHi = s.jHi from rfl, h.jHi_eq hl hi,
    h.counts.j, update_cell _ _ hHigh hp, update_cell _ _ (by omega) hp, h.written_eq hl hi,
    partly_succ hPos]
  split
  · rename_i hAt
    rw [if_pos (.inr hAt), hAt]
  · rename_i hNot
    split
    · rename_i hAt
      rw [if_pos (.inl hAt), hAt]
    · rename_i hOther
      rw [if_neg (by omega)]
      exact h.cells p hp

theorem busy_reduced (h : s.Amid inverse f l i) : s.reduced.advance.done = false := by
  rw [advance_done]
  exact h.busy

theorem counts_reduced (h : s.Amid inverse f l i) : s.reduced.Counts inverse l i :=
  ⟨h.counts.inv, h.counts.len, h.counts.grp, h.counts.j, h.counts.k⟩

/-- The next butterfly of the layer. -/
theorem within (h : s.Amid inverse f l i) (hl : l < 7) (hi : i + 1 < 128) (x y z : NttIn) :
    (((s.next x).next y).next z).Amid inverse f l (i + 1) := by
  obtain ⟨hSt, hCounts⟩ := advance_within h.counts_reduced hl hi
  have hCells := h.cells_next hl (by omega) x y z
  have hNext : ((s.next x).next y).next z = s.reduced.next z := by rw [next_reduced x y h.st]
  rw [hNext] at hCells ⊢
  rw [next_wb z rfl] at hCells ⊢
  constructor
  · exact hSt
  · exact h.busy_reduced
  · exact ⟨hCounts.inv, hCounts.len, hCounts.grp, hCounts.j, hCounts.k⟩
  · exact hCells

/-- At the end of a layer the memory holds the next one. -/
theorem cells_whole (h : s.Amid inverse f l 127) (hl : l < 7) (x y z : NttIn) :
    ∀ p < 256, (((s.next x).next y).next z).cells p = nttLayers inverse f (l + 1) p := by
  intro p hp
  have hBlocks := nttBlocks_mul inverse hl
  rw [h.cells_next hl (by omega) x y z p hp, show 127 + 1 = 128 by rfl, ← hBlocks]
  apply partly_all (nttWidth_pos inverse l)
  rw [Nat.mul_left_comm, hBlocks]
  exact hp

theorem layer (h : s.Amid inverse f l 127) (hl : l < 6) (x y z : NttIn) :
    (((s.next x).next y).next z).Amid inverse f (l + 1) 0 := by
  obtain ⟨hSt, hCounts⟩ := advance_layer h.counts_reduced hl
  have hCells := h.cells_whole (by omega) x y z
  have hNext : ((s.next x).next y).next z = s.reduced.next z := by rw [next_reduced x y h.st]
  rw [hNext] at hCells ⊢
  rw [next_wb z rfl] at hCells ⊢
  constructor
  · exact hSt
  · exact h.busy_reduced
  · exact ⟨hCounts.inv, hCounts.len, hCounts.grp, hCounts.j, hCounts.k⟩
  · intro p hp
    rw [partly_zero]
    exact hCells p hp

end Amid

/-! ### The pass that ends a run -/

/-- In the last pass, with `i` coefficients done. -/
structure Ending (s : NttCore) (inverse : Bool) (f : Nat → Coeff) (i : Nat) : Prop where
  st : s.st = .scRd
  busy : s.done = false
  inv : s.invR = inverse
  scaleI : s.scaleI = i
  cells : ∀ p < 256, s.cells p = if p < i then nttResult inverse f p else nttLayers inverse f 7 p

/-- A run that is over. -/
structure Over (s : NttCore) (inverse : Bool) (f : Nat → Coeff) : Prop where
  st : s.st = .idle
  done : s.done = true
  cells : ∀ p < 256, s.cells p = nttResult inverse f p

theorem Amid.last {f : Nat → Coeff} (h : s.Amid inverse f 6 127) (x y z : NttIn) :
    (((s.next x).next y).next z).Ending inverse f 0 := by
  obtain ⟨hSt, hScale, hInv⟩ := advance_last h.counts_reduced
  have hCells := h.cells_whole (by omega) x y z
  have hNext : ((s.next x).next y).next z = s.reduced.next z := by rw [next_reduced x y h.st]
  rw [hNext] at hCells ⊢
  rw [next_wb z rfl] at hCells ⊢
  constructor
  · exact hSt
  · exact h.busy_reduced
  · exact hInv
  · exact hScale
  · intro p hp
    rw [if_neg (Nat.not_lt_zero p)]
    exact hCells p hp

/-- The state in the third cycle of a coefficient of the last pass. -/
def scaled (s : NttCore) : NttCore :=
  { s with
    st := .scWb
    scprodR := smul FINV (s.cells s.scaleI)
    scbarrR := barrettReduce (s.cells s.scaleI)
    paDout := s.cells s.scaleI
    pbDout := s.mem 0 }

/-- What the last pass writes. -/
def finished (s : NttCore) : Coeff := if s.invR then montReduce s.scprodR else s.scbarrR

section Ending

variable (x y z : NttIn)

theorem next_scRd (h : s.st = .scRd) :
    s.next x = { s with st := .scMu, paDout := s.cells s.scaleI, pbDout := s.mem 0 } := by
  simp [next, nextCtl, paPort, pbPort, RamPort.write, h, cells]

theorem next_scaled (h : s.st = .scRd) : (s.next x).next y = s.scaled := by
  rw [next_scRd x h]
  simp [next, nextCtl, paPort, pbPort, RamPort.write, cells, scaled]

theorem next_scWb (h : s.st = .scWb) :
    s.next x = { s with
      st := if s.scaleI = 255 then .fin else .scRd
      scaleI := if s.scaleI = 255 then s.scaleI else (s.scaleI + 1) % 512
      mem := Function.update s.mem (BitVec.ofNat 8 s.scaleI) s.finished
      paDout := s.cells s.scaleI
      pbDout := s.mem 0 } := by
  by_cases hLast : s.scaleI = 255 <;>
    simp [next, nextCtl, paPort, pbPort, RamPort.write, h, cells, finished, hLast]

theorem next_fin (h : s.st = .fin) :
    s.next x = { s with done := true, st := .idle, paDout := s.mem 0, pbDout := s.mem 0 } := by
  simp [next, nextCtl, paPort, pbPort, RamPort.write, h]

end Ending

namespace Ending

variable {f : Nat → Coeff}

/-- The memory after a coefficient of the last pass. -/
theorem cells_next (h : s.Ending inverse f i) (hi : i < 256) (x y z : NttIn) :
    ∀ p < 256, (((s.next x).next y).next z).cells p =
      if p < i + 1 then nttResult inverse f p else nttLayers inverse f 7 p := by
  have hBefore := h.cells i hi
  rw [if_neg (Nat.lt_irrefl i)] at hBefore
  have hFinished : s.scaled.finished = nttResult inverse f i := by
    unfold finished scaled nttResult
    rw [h.scaleI, hBefore]
    cases hInv : s.invR <;> rw [h.inv] at hInv <;> subst hInv <;> simp
  intro p hp
  rw [next_scaled x y h.st, next_scWb z rfl]
  unfold NttCore.cells
  dsimp only
  rw [show s.scaled.scaleI = s.scaleI from rfl, h.scaleI, update_cell _ _ hi hp, hFinished]
  split
  · rename_i hAt
    rw [if_pos (by omega), hAt]
  · rename_i hNot
    have hCell := h.cells p hp
    by_cases hDone : p < i
    · rw [if_pos hDone] at hCell
      rw [if_pos (by omega)]
      exact hCell
    · rw [if_neg hDone] at hCell
      rw [if_neg (by omega)]
      exact hCell

theorem within (h : s.Ending inverse f i) (hi : i < 255) (x y z : NttIn) :
    (((s.next x).next y).next z).Ending inverse f (i + 1) := by
  have hCells := h.cells_next (by omega) x y z
  have hScale := h.scaleI
  have hNot : ¬s.scaled.scaleI = 255 := by
    show ¬s.scaleI = 255
    omega
  have hNext : ((s.next x).next y).next z = s.scaled.next z := by rw [next_scaled x y h.st]
  rw [hNext] at hCells ⊢
  rw [next_scWb z rfl] at hCells ⊢
  constructor
  · exact if_neg hNot
  · exact h.busy
  · exact h.inv
  · show (if s.scaled.scaleI = 255 then s.scaled.scaleI else (s.scaled.scaleI + 1) % 512) = i + 1
    rw [if_neg hNot, show s.scaled.scaleI = i from hScale]
    omega
  · exact hCells

/-- The end of the last pass. -/
theorem finishing (h : s.Ending inverse f 255) (x y z : NttIn) :
    (((s.next x).next y).next z).st = .fin ∧ (((s.next x).next y).next z).done = false := by
  have hLast : s.scaled.scaleI = 255 := h.scaleI
  rw [next_scaled x y h.st, next_scWb z rfl]
  exact ⟨if_pos hLast, h.busy⟩

/-- The end of the run. -/
theorem last (h : s.Ending inverse f 255) (x y z w : NttIn) :
    ((((s.next x).next y).next z).next w).Over inverse f := by
  have hCells := h.cells_next (by omega) x y z
  rw [next_fin w (h.finishing x y z).1]
  constructor
  · rfl
  · rfl
  · intro p hp
    have hCell := hCells p hp
    rwa [if_pos (by omega)] at hCell

end Ending

/-! ### Runs -/

section Runs

variable {ins : Nat → NttIn}

theorem started (hIdle : s.st = .idle) (x : NttIn) (hStart : x.start = true) :
    (s.next x).Amid x.inverse (s.next x).cells 0 0 := by
  have hCtl : s.nextCtl x = { s with
      done := false
      invR := x.inverse
      len := if x.inverse then 2 else 128
      grp := 0
      j := 0
      k := if x.inverse then 127 else 1
      st := .rd } := by
    simp [nextCtl, hIdle, hStart]
  have hNext : s.next x = { s.nextCtl x with
      mem := (s.pbPort x).write ((s.paPort x).write s.mem)
      paDout := s.mem (s.paPort x).addr
      pbDout := s.mem (s.pbPort x).addr } := rfl
  constructor
  · rw [hNext, hCtl]
  · rw [hNext, hCtl]
  · rw [hNext, hCtl]
    constructor
    · rfl
    · cases x.inverse <;> rfl
    · cases x.inverse <;> rfl
    · cases x.inverse <;> rfl
    · cases x.inverse <;> rfl
  · intro p _
    rw [partly_zero]
    rfl

/-- Three cycles on. -/
theorem after_three (s : NttCore) (ins : Nat → NttIn) (k : Nat) :
    s.circuit.after ins (k + 3) =
      (((s.circuit.after ins k).next (ins k)).next (ins (k + 1))).next (ins (k + 2)) := rfl

variable (hIdle : s.st = .idle) (hStart : (ins 0).start = true)

include hIdle hStart

/-- Butterfly by butterfly. -/
theorem amid_at {n : Nat} (hn : n < 896) :
    (s.circuit.after ins (1 + 3 * n)).Amid (ins 0).inverse (s.circuit.after ins 1).cells
      (n / 128) (n % 128) := by
  induction n with
  | zero => exact started hIdle (ins 0) hStart
  | succ n ih =>
    have hBefore := ih (by omega)
    rw [show 1 + 3 * (n + 1) = 1 + 3 * n + 3 by ring, after_three]
    by_cases hWithin : n % 128 + 1 < 128
    · rw [show (n + 1) / 128 = n / 128 by omega, show (n + 1) % 128 = n % 128 + 1 by omega]
      exact hBefore.within (by omega) hWithin _ _ _
    · rw [show (n + 1) / 128 = n / 128 + 1 by omega, show (n + 1) % 128 = 0 by omega]
      rw [show n % 128 = 127 by omega] at hBefore
      exact hBefore.layer (by omega) _ _ _

theorem ending_at {i : Nat} (hi : i < 256) :
    (s.circuit.after ins (2689 + 3 * i)).Ending (ins 0).inverse
      (s.circuit.after ins 1).cells i := by
  induction i with
  | zero => exact (amid_at hIdle hStart (show 895 < 896 by decide)).last _ _ _
  | succ i ih =>
    rw [show 2689 + 3 * (i + 1) = 2689 + 3 * i + 3 by ring, after_three]
    exact (ih (by omega)).within (by omega) _ _ _

theorem over_at :
    (s.circuit.after ins 3458).Over (ins 0).inverse (s.circuit.after ins 1).cells :=
  (ending_at hIdle hStart (show 255 < 256 by decide)).last _ _ _ _

end Runs

end NttCore

end PqcHsm
