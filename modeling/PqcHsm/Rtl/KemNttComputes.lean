import PqcHsm.Rtl.KemNttRun

/-!
# What the NTT core of ML-KEM computes

Every run ends with the transform, or with the way back; in every cycle the sums and products are
those of integers, and in every layer each place is read once and then written once.
-/

namespace PqcHsm

open MlKem Butterflies

namespace NttCore

variable {s t : NttCore} {inverse : Bool} {l i : Nat} {f : Nat → Coeff}

/-! ### Widths -/

/-- No sum and no product of the cycle that the run uses leaves its width. -/
def Exact (s : NttCore) : Prop :=
  match s.st with
  | .mu =>
    if s.invR then
      (s.paDout + s.pbDout).toInt = s.paDout.toInt + s.pbDout.toInt ∧
        (s.pbDout - s.paDout).toInt = s.pbDout.toInt - s.paDout.toInt ∧
        (gsHead s.paDout s.pbDout s.zetaNow).1.toInt =
          s.zetaNow.toInt * (s.pbDout - s.paDout).toInt ∧
        BarrettExact (s.paDout + s.pbDout)
    else (ctHead s.pbDout s.zetaNow).toInt = s.zetaNow.toInt * s.pbDout.toInt
  | .wb =>
    MontExact s.prodR ∧
      (s.invR = false →
        (ctTail s.bfAR s.prodR).1.toInt = s.bfAR.toInt + (montReduce s.prodR).toInt ∧
          (ctTail s.bfAR s.prodR).2.toInt = s.bfAR.toInt - (montReduce s.prodR).toInt)
  | .scMu =>
    (smul FINV s.paDout).toInt = FINV.toInt * s.paDout.toInt ∧ BarrettExact s.paDout
  | .scWb => MontExact s.scprodR
  | _ => True

/-- The coefficients that a run may start from. -/
def InRange (inverse : Bool) (f : Nat → Coeff) : Prop :=
  ∀ p < 256, |(f p).toInt| ≤ if inverse then (15812 : Int) else 8329

/-- A bound for every layer. -/
theorem layers_bound (hf : InRange inverse f) (hl : l ≤ 7) :
    ∀ p < 256, |(nttLayers inverse f l p).toInt| ≤
      if inverse then (15812 : Int) else 8329 + l * 3328 := by
  intro p hp
  cases inverse
  · exact (forward_layers (by norm_num) hf hl p hp).1
  · exact (inverse_layers hf hl p hp).1

theorem exact_multiplied (h : s.Amid inverse f l i) (hl : l < 7) (hi : i < 128)
    (hf : InRange inverse f) : s.multiplied.Exact := by
  have hHigh := high_lt_256 inverse hl hi
  have hA := layers_bound hf (by omega : l ≤ 7) _ (show low (nttWidth inverse l) i < 256 by omega)
  have hB := layers_bound hf (by omega : l ≤ 7) _ hHigh
  rw [← h.cells_low hl hi] at hA
  rw [← h.cells_high hl hi] at hB
  show if s.invR then _ else _
  rw [h.counts.inv]
  cases inverse
  · exact toInt_smul _ _
  · obtain ⟨hPlus, hMinus⟩ := gs_sums hA hB
    refine ⟨toInt_add (hPlus.trans (by norm_num)), toInt_sub (hMinus.trans (by norm_num)),
      toInt_smul _ _, barrettReduce_exact ?_⟩
    show |(s.cells s.j + s.cells s.jHi).toInt| ≤ 31625
    rw [toInt_add (hPlus.trans (by norm_num))]
    exact hPlus.trans (by norm_num)

theorem exact_reduced (h : s.Amid inverse f l i) (hl : l < 7) (hi : i < 128)
    (hf : InRange inverse f) : s.reduced.Exact := by
  have hHigh := high_lt_256 inverse hl hi
  have hA := layers_bound hf (by omega : l ≤ 7) _ (show low (nttWidth inverse l) i < 256 by omega)
  rw [← h.cells_low hl hi] at hA
  have hProd : s.reduced.prodR = if inverse then (gsHead (s.cells s.j) (s.cells s.jHi) s.zetaNow).1
      else ctHead (s.cells s.jHi) s.zetaNow := by
    rw [← h.counts.inv]
    rfl
  constructor
  · apply montReduce_exact
    rw [hProd]
    cases inverse
    · exact abs_product (abs_zeta _)
    · exact abs_product (abs_zeta _)
  · intro hInv
    have hForward : inverse = false := h.counts.inv.symm.trans hInv
    subst hForward
    obtain ⟨hPlus, hMinus⟩ := ct_sums (b := s.cells s.jHi) (abs_zeta s.k) hA (by simp; omega)
    rw [hProd]
    exact ⟨toInt_add hPlus, toInt_sub hMinus⟩

theorem exact_scMu (h : s.Ending inverse f i) (hi : i < 256) (hf : InRange inverse f) (x : NttIn) :
    (s.next x).Exact := by
  have hBound := layers_bound hf (Nat.le_refl 7) i hi
  have hCell := h.cells i hi
  rw [if_neg (Nat.lt_irrefl i)] at hCell
  rw [next_scRd x h.st]
  constructor
  · exact toInt_smul _ _
  · apply barrettReduce_exact
    show |(s.cells s.scaleI).toInt| ≤ _
    rw [h.scaleI, hCell]
    apply hBound.trans
    cases inverse <;> decide

theorem exact_scaled (s : NttCore) : s.scaled.Exact :=
  montReduce_exact (abs_product (by decide))

/-! ### Schedule -/

/-- The memory gives the coefficient at `p` to a butterfly. -/
def Reads (s : NttCore) (x : NttIn) (p : Nat) : Prop :=
  s.st = .rd ∧ ((s.paPort x).addr = BitVec.ofNat 8 p ∨ (s.pbPort x).addr = BitVec.ofNat 8 p)

/-- The memory takes a coefficient at `p`. -/
def Writes (s : NttCore) (x : NttIn) (p : Nat) : Prop :=
  ((s.paPort x).we = true ∧ (s.paPort x).addr = BitVec.ofNat 8 p) ∨
    ((s.pbPort x).we = true ∧ (s.pbPort x).addr = BitVec.ofNat 8 p)

/-- The butterfly that works on a place is the one that the counters are at. -/
theorem at_place (h : s.Amid inverse f l i) (hl : l < 7) (hi : i < 128) {p : Nat} (hp : p < 256) :
    (BitVec.ofNat 8 s.j = BitVec.ofNat 8 p ∨ BitVec.ofNat 8 s.jHi = BitVec.ofNat 8 p) ↔
      i = pairOf (nttWidth inverse l) p := by
  have hPos := nttWidth_pos inverse l
  have hHigh := high_lt_256 inverse hl hi
  rw [h.jHi_eq hl hi, h.counts.j, ofNat_inj (by omega) hp, ofNat_inj hHigh hp]
  constructor
  · rintro (rfl | rfl)
    · exact (pairOf_low hPos).symm
    · exact (pairOf_high hPos).symm
  · rintro rfl
    exact (eq_low_or_high hPos p).imp Eq.symm Eq.symm

theorem reads_iff (h : s.Amid inverse f l i) (hl : l < 7) (hi : i < 128) {p : Nat} (hp : p < 256)
    (x : NttIn) : s.Reads x p ↔ i = pairOf (nttWidth inverse l) p := by
  rw [← at_place h hl hi hp]
  simp [Reads, paPort, pbPort, h.st]

theorem writes_iff (h : s.Amid inverse f l i) (hl : l < 7) (hi : i < 128) {p : Nat} (hp : p < 256)
    (x : NttIn) : s.reduced.Writes x p ↔ i = pairOf (nttWidth inverse l) p := by
  rw [← at_place h hl hi hp]
  simp [Writes, paPort, pbPort, reduced, jHi]

theorem not_writes (h : s.st = .rd) (x : NttIn) (p : Nat) : ¬s.Writes x p := by
  simp [Writes, paPort, pbPort, h]

theorem multiplied_quiet (s : NttCore) (x : NttIn) (p : Nat) :
    ¬s.multiplied.Reads x p ∧ ¬s.multiplied.Writes x p := by
  simp [Reads, Writes, paPort, pbPort, multiplied]

theorem reduced_not_reads (s : NttCore) (x : NttIn) (p : Nat) : ¬s.reduced.Reads x p := by
  simp [Reads, reduced]

section Runs

variable {ins : Nat → NttIn} (hIdle : s.st = .idle) (hStart : (ins 0).start = true)

include hIdle hStart

/-- The cycles of a run. -/
theorem cycle_cases {k : Nat} (hFirst : 1 ≤ k) (hLast : k < 3458) :
    (∃ l i t, l < 7 ∧ i < 128 ∧
      Amid t (ins 0).inverse (s.circuit.after ins 1).cells l i ∧
      (s.circuit.after ins k = t ∨ s.circuit.after ins k = t.multiplied ∨
        s.circuit.after ins k = t.reduced)) ∨
    (∃ i t, i < 256 ∧ Ending t (ins 0).inverse (s.circuit.after ins 1).cells i ∧
      (s.circuit.after ins k = t ∨ (∃ x, s.circuit.after ins k = t.next x) ∨
        s.circuit.after ins k = t.scaled)) ∨
    (s.circuit.after ins k).st = .fin ∧ (s.circuit.after ins k).done = false := by
  by_cases hLayers : k < 2689
  · left
    obtain ⟨n, hn⟩ : ∃ n, k = 1 + 3 * n ∨ k = 1 + 3 * n + 1 ∨ k = 1 + 3 * n + 2 :=
      ⟨(k - 1) / 3, by omega⟩
    have hAmid := amid_at hIdle hStart (show n < 896 by omega)
    refine ⟨_, _, _, by omega, Nat.mod_lt _ (by decide), hAmid, ?_⟩
    obtain rfl | rfl | rfl := hn
    · exact .inl rfl
    · exact .inr (.inl (next_rd _ hAmid.st))
    · exact .inr (.inr (next_reduced _ _ hAmid.st))
  · right
    obtain ⟨n, hn⟩ : ∃ n, k = 2689 + 3 * n ∨ k = 2689 + 3 * n + 1 ∨ k = 2689 + 3 * n + 2 :=
      ⟨(k - 2689) / 3, by omega⟩
    by_cases hEnd : n < 256
    · left
      have hEnding := ending_at hIdle hStart hEnd
      refine ⟨_, _, hEnd, hEnding, ?_⟩
      obtain rfl | rfl | rfl := hn
      · exact .inl rfl
      · exact .inr (.inl ⟨_, rfl⟩)
      · exact .inr (.inr (next_scaled _ _ hEnding.st))
    · right
      obtain rfl : k = 3457 := by omega
      exact (ending_at hIdle hStart (show 255 < 256 by decide)).finishing _ _ _

theorem done_low {k : Nat} (hFirst : 1 ≤ k) (hLast : k < 3458) :
    (s.circuit.after ins k).done = false := by
  obtain ⟨l, i, t, -, -, hAmid, h | h | h⟩ | ⟨i, t, -, hEnding, h | ⟨x, h⟩ | h⟩ | h :=
    cycle_cases hIdle hStart hFirst hLast
  · rw [h]
    exact hAmid.busy
  · rw [h]
    exact hAmid.busy
  · rw [h]
    exact hAmid.busy
  · rw [h]
    exact hEnding.busy
  · rw [h, next_scRd x hEnding.st]
    exact hEnding.busy
  · rw [h]
    exact hEnding.busy
  · exact h.2

theorem exact_at (hf : InRange (ins 0).inverse (s.circuit.after ins 1).cells) {k : Nat}
    (hFirst : 1 ≤ k) (hLast : k < 3458) : (s.circuit.after ins k).Exact := by
  obtain ⟨l, i, t, hl, hi, hAmid, h | h | h⟩ | ⟨i, t, hi, hEnding, h | ⟨x, h⟩ | h⟩ | h :=
    cycle_cases hIdle hStart hFirst hLast
  · rw [h, Exact, hAmid.st]
    trivial
  · rw [h]
    exact exact_multiplied hAmid hl hi hf
  · rw [h]
    exact exact_reduced hAmid hl hi hf
  · rw [h, Exact, hEnding.st]
    trivial
  · rw [h]
    exact exact_scMu hEnding hi hf x
  · rw [h]
    exact exact_scaled t
  · rw [Exact, h.1]
    trivial

/-- In layer `l`, the butterfly of a place is the only one that reads it, and then writes it. -/
theorem once_per_layer (hl : l < 7) {p : Nat} (hp : p < 256) :
    ∃ i < 128, ∀ t < 384,
      ((s.circuit.after ins (1 + 384 * l + t)).Reads (ins (1 + 384 * l + t)) p ↔ t = 3 * i) ∧
      ((s.circuit.after ins (1 + 384 * l + t)).Writes (ins (1 + 384 * l + t)) p ↔
        t = 3 * i + 2) := by
  have hBlocks := nttBlocks_mul (ins 0).inverse hl
  have hPair : pairOf (nttWidth (ins 0).inverse l) p < 128 := by
    rw [← hBlocks]
    apply pairOf_lt (nttWidth_pos _ _)
    rwa [Nat.mul_left_comm, hBlocks]
  refine ⟨_, hPair, ?_⟩
  intro t ht
  obtain ⟨i, hi⟩ : ∃ i, t = 3 * i ∨ t = 3 * i + 1 ∨ t = 3 * i + 2 := ⟨t / 3, by omega⟩
  have hAmid := amid_at hIdle hStart (show 128 * l + i < 896 by omega)
  rw [show (128 * l + i) / 128 = l by omega, show (128 * l + i) % 128 = i by omega] at hAmid
  rw [show 1 + 3 * (128 * l + i) = 1 + 384 * l + 3 * i by ring] at hAmid
  have hReads := reads_iff hAmid hl (by omega) hp
  have hWrites := writes_iff hAmid hl (by omega) hp
  obtain rfl | rfl | rfl := hi
  · have hNot := not_writes hAmid.st (ins (1 + 384 * l + 3 * i)) p
    rw [hReads]
    simp only [hNot, false_iff]
    omega
  · have hState : s.circuit.after ins (1 + 384 * l + (3 * i + 1)) =
        (s.circuit.after ins (1 + 384 * l + 3 * i)).multiplied := next_rd _ hAmid.st
    obtain ⟨hNoRead, hNoWrite⟩ := multiplied_quiet (s.circuit.after ins (1 + 384 * l + 3 * i))
      (ins (1 + 384 * l + (3 * i + 1))) p
    rw [hState]
    simp only [hNoRead, hNoWrite, false_iff]
    omega
  · have hState : s.circuit.after ins (1 + 384 * l + (3 * i + 2)) =
        (s.circuit.after ins (1 + 384 * l + 3 * i)).reduced := next_reduced _ _ hAmid.st
    have hNot := reduced_not_reads (s.circuit.after ins (1 + 384 * l + 3 * i))
      (ins (1 + 384 * l + (3 * i + 2))) p
    rw [hState, hWrites]
    simp only [hNot, false_iff]
    omega

end Runs

/-- What a run leaves: `f` is the memory after the start, `r` the memory at the end. -/
structure Computes (inverse : Bool) (f r : Nat → Coeff) : Prop where
  /-- A forward run leaves the transform, nearest to 0. -/
  forward : inverse = false → ∀ p < 256, |(r p).toInt| ≤ 1664 ∧
    residue (r p) = ntt (fun i => residue (f i)) p
  /-- The other run leaves what has `2 ^ 16` times the start as its transform. -/
  backward : inverse = true → ∀ p < 256, |(r p).toInt| ≤ 3328 ∧
    ntt (fun i => residue (r i)) p = 65536 * residue (f p)
  /-- From a transform it leaves `2 ^ 16` times what was transformed. -/
  undoes : inverse = true → ∀ g : Nat → ZMod 3329, (∀ p < 256, residue (f p) = ntt g p) →
    ∀ p < 256, residue (r p) = 65536 * g p

theorem computes_result (hf : InRange inverse f) {r : Nat → Coeff}
    (hr : ∀ p < 256, r p = nttResult inverse f p) : Computes inverse f r := by
  constructor
  · rintro rfl p hp
    have hWide : ∀ p < 256, |(f p).toInt| ≤ 9471 := fun p hp => (hf p hp).trans (by simp)
    rw [hr p hp]
    exact forward_result hWide p hp
  · rintro rfl p hp
    have hSame : ∀ i < 2 ^ 8, residue (r i) = 1 * residue (nttResult true f i) := by
      intro i hi
      rw [hr i hi, one_mul]
    have hNtt := layers_smul root (show 7 ≤ 8 by omega) hSame p hp
    rw [layers_eq_ntt _ p hp, layers_eq_ntt _ p hp, ntt_inverse hf p hp, one_mul] at hNtt
    rw [hr p hp]
    exact ⟨(inverse_result hf p hp).1, hNtt⟩
  · rintro rfl g hg p hp
    rw [hr p hp]
    exact inverse_ntt hf hg p hp

end NttCore

/-- Started from coefficients in range, the core computes the transform, or the way back times
`2 ^ 16`, and raises `done` when it has; no sum or product leaves its width. In every layer each
coefficient is read once, by its butterfly, and written once, two cycles later. -/
theorem ntt_core_computes (s : NttCore) (ins : Nat → NttIn) (hIdle : s.st = .idle)
    (hStart : (ins 0).start = true) :
    let run := s.circuit.after ins
    (run 3458).st = .idle ∧ (∀ k, 1 ≤ k → k ≤ 3458 → ((run k).done = true ↔ k = 3458)) ∧
      (NttCore.InRange (ins 0).inverse (run 1).cells →
        NttCore.Computes (ins 0).inverse (run 1).cells (run 3458).cells ∧
          ∀ k, 1 ≤ k → k < 3458 → (run k).Exact) ∧
      ∀ l < 7, ∀ p < 256, ∃ i < 128, ∀ t < 384,
        ((run (1 + 384 * l + t)).Reads (ins (1 + 384 * l + t)) p ↔ t = 3 * i) ∧
          ((run (1 + 384 * l + t)).Writes (ins (1 + 384 * l + t)) p ↔ t = 3 * i + 2) := by
  intro run
  have hOver := NttCore.over_at hIdle hStart
  refine ⟨hOver.st, ?_, ?_, ?_⟩
  · intro k hFirst hLast
    by_cases hEnd : k = 3458
    · subst hEnd
      exact ⟨fun _ => rfl, fun _ => hOver.done⟩
    · have hLow := NttCore.done_low hIdle hStart hFirst (by omega)
      simp only [hEnd, iff_false, Bool.not_eq_true]
      exact hLow
  · intro hRange
    exact ⟨NttCore.computes_result hRange hOver.cells,
      fun k => NttCore.exact_at hIdle hStart hRange⟩
  · intro l hl p hp
    exact NttCore.once_per_layer hIdle hStart hl hp

/-- A run over coefficients that are all 0. -/
theorem ntt_core_computes_zero :
    let ins : Nat → NttIn := fun k => ⟨k = 0, false, false, 0, 0, 0⟩
    let s := NttCore.reset fun _ => 0
    NttCore.Computes false (s.circuit.after ins 1).cells (s.circuit.after ins 3458).cells := by
  intro ins s
  have hRange : NttCore.InRange false (s.circuit.after ins 1).cells := by
    intro p _
    show |(0 : Coeff).toInt| ≤ 8329
    decide
  exact ((ntt_core_computes s ins rfl rfl).2.2.1 hRange).1

end PqcHsm
