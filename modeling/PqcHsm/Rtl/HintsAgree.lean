import PqcHsm.Rtl.SignHint

/-!
# Both cores agree on the hint

The verifier accepts the encodings of hints with few ones and uses the hint that is encoded. What
the signer writes is such an encoding of its hint, but for one: its weight register has 11 bits, and
2048 ones weigh nothing.
-/

namespace PqcHsm

open SparseRows (Canonical Names pack)

/-- The section is the encoding of `h` and `h` has at most ω ones. -/
def Encodes (c : MldsaParams) (sig : Nat → BitVec 8) (h : Nat → Nat → Bool) : Prop :=
  SparseRows.weight 256 h c.k ≤ c.omega ∧
    (List.range (c.omega + c.k)).map (hintByte c sig) = pack 256 h c.omega c.k

/-- Two hints with the same bits. -/
def SameHint (c : MldsaParams) (h h' : Nat → Nat → Bool) : Prop :=
  ∀ r < c.k, ∀ b < 256, h r b = h' r b

namespace Verifier

variable {s : Verifier} {sig : Nat → BitVec 8}

theorem hbad_iff (h : s.Inv sig) (hSt : s.st = .later) :
    s.hbad = false ↔ ∃ hint, Encodes s.par sig hint := by
  simp only [Inv, hSt] at h
  rw [h.verdict]
  exact SparseRows.canonical_iff fun j _ => hintByte_lt s.par sig j

theorem useHint_eq (h : s.Inv sig) (hSt : s.st = .later) {hint : Nat → Nat → Bool}
    (hEnc : Encodes s.par sig hint) : SameHint s.par s.useHint hint := by
  have hGood := (hbad_iff h hSt).mpr ⟨hint, hEnc⟩
  have hk8 : s.par.k ≤ 8 := (mldsaParams_bounds s.psetR).2.1
  simp only [Inv, hSt] at h
  intro r hr b hb
  have hAddr : r % 2 ^ 3 * 2 ^ 8 + b = r * 256 + b := by omega
  rw [Bool.eq_iff_iff, ← SparseRows.names_iff_of_pack hEnc.1 hEnc.2 hr hb, ← h.bits hGood r hr b hb]
  unfold useHint
  rw [hAddr]

end Verifier

namespace Signer

variable {s : Signer} {x : SgIn}

/-- The registers after a reset, with anything in the memories. -/
def reset (hn : Nat → Bool) (sig : Nat → BitVec 8) : Signer where
  st := .idle
  psetR := 0
  busyR := false
  cnt := 0
  ph := false
  vi := 0
  hph := 0
  nbR := false
  reject := false
  weight := 0
  hidx := 0
  done := false
  hnDout := false
  hn := hn
  sig := sig

def circuit (hn : Nat → Bool) (sig : Nat → BitVec 8) : Clocked SgIn Signer :=
  ⟨reset hn sig, Signer.next⟩

theorem inv_run (hn : Nat → Bool) (sig : Nat → BitVec 8) (ins : Nat → SgIn) (k : Nat) :
    ((circuit hn sig).after ins k).Inv := by
  apply Clocked.invariant
  · rfl
  · exact fun _ _ h => h.next

/-- The hint of ML-DSA-87 in which every bit is one. -/
def Full (s : Signer) : Prop :=
  s.par.k = 8 ∧ ∀ r < 8, ∀ b < 256, hintRows s.hn r b = true

theorem ones_eq_iff : s.ones = 2 ^ 11 ↔ s.Full := by
  have hk8 : s.par.k ≤ 8 := (mldsaParams_bounds s.psetR).2.1
  have hMost : s.ones ≤ s.par.k * 256 := SparseRows.weight_le
  constructor
  · intro hOnes
    have hk : s.par.k = 8 := by omega
    refine ⟨hk, ?_⟩
    have hAll : SparseRows.weight 256 (hintRows s.hn) 8 = 8 * 256 := by
      rw [← hk]
      exact hOnes.trans (by omega)
    exact SparseRows.weight_eq_iff.mp hAll
  · rintro ⟨hk, hAll⟩
    unfold ones
    rw [hk]
    exact SparseRows.weight_eq_iff.mpr hAll

theorem encodes_iff (h : s.Inv) (hSt : s.st = .fin) :
    (∃ hint, Encodes s.par s.sig hint ∧ SameHint s.par hint (hintRows s.hn)) ↔ ¬s.Full := by
  simp only [Inv, hSt] at h
  obtain ⟨hPassed, hWritten⟩ := h
  have hGate := hPassed.weight
  have hk8 : s.par.k ≤ 8 := (mldsaParams_bounds s.psetR).2.1
  have hOmega : s.par.omega ≤ 80 := (mldsaParams_bounds s.psetR).2.2.2
  have hMost : s.ones ≤ s.par.k * 256 := SparseRows.weight_le
  rw [← ones_eq_iff]
  constructor
  · rintro ⟨hint, ⟨hFew, -⟩, hSame⟩ hFull
    have hEq : SparseRows.weight 256 hint s.par.k = s.ones := by
      unfold ones SparseRows.weight
      rw [onesBefore_congr hSame]
    omega
  · intro hNot
    have hFits : s.ones ≤ s.par.omega := by omega
    exact ⟨hintRows s.hn, ⟨hFits, hWritten hFits⟩, fun _ _ _ _ => rfl⟩

/-! ## The round of ones -/

/-- Every wait ends at once, every check passes and every hint bit is one. -/
def allOnes : SgIn where
  start := true
  pset := 2
  prepDone := true
  roundDone := true
  ntDone := true
  encDone := true
  normBad := false
  hintBit := true
  dbgAddr := 0
  encWrite := none

def Filling (s : Signer) : Prop :=
  match s.st with
  | .idle => True
  | .prep => s.psetR = 2
  | .emGo => s.psetR = 2
  | .round => s.psetR = 2 ∧ s.reject = false
  | .hmul => s.psetR = 2 ∧ s.reject = false ∧ ∀ a < s.vi * 256, s.hn a = true
  | .hwb => s.psetR = 2 ∧ s.reject = false ∧ (s.hph = 2 → s.nbR = false) ∧
      ∀ a < s.vi * 256 + s.cnt, s.hn a = true
  | .rej => s.psetR = 2 ∧ s.reject = false ∧ ∀ a < 2048, s.hn a = true
  | _ => s.psetR = 2 ∧ ∀ a < 2048, s.hn a = true

/-- Cycles that are left. -/
def left (s : Signer) : Nat :=
  match s.st with
  | .idle => 14418
  | .prep => 14417
  | .emGo => 14416
  | .round => 14415
  | .hmul => 6222 + 4 * (2048 - s.vi * 256)
  | .hwb => 6222 + 4 * (2048 - (s.vi * 256 + s.cnt)) - s.hph - 1
  | .rej => 6222
  | .enc => 6221
  | .hpClr => 6145 + (75 - s.cnt)
  | .hp => 3 * (2048 - (s.vi * 256 + s.cnt)) - if s.ph then 1 else 0
  | .hpCnt => 3 * (2048 - (s.vi + 1) * 256) + 1
  | .fin => 0

theorem filling_hwb (h : s.Inv) (hSt : s.st = .hwb) (hFill : s.Filling) :
    (s.next allOnes).Filling ∧ (s.next allOnes).left < s.left := by
  simp only [Inv, hSt] at h
  simp only [Filling, hSt] at hFill
  obtain ⟨hPset, hReject, hNb, hOnes⟩ := hFill
  have hPar : s.par = mldsaParams 2 := congrArg mldsaParams hPset
  have hVi : s.vi < 8 := by
    have := h.vi
    rw [hPar] at this
    exact this
  have hCnt := h.cnt
  have hHph := h.hph
  have hRow : s.vi % 2 ^ 3 = s.vi := by omega
  have hCfg : s.cfg allOnes = mldsaParams 2 := (cfg_eq h.busy).trans hPar
  have hK : (mldsaParams 2).k = 8 := rfl
  simp only [next, nextCtl, hSt, nextHwb, hCfg, hK]
  by_cases h2 : s.hph = 2
  · have hHn : s.nextHn allOnes = Function.update s.hn (s.vi * 256 + s.cnt) true := by
      unfold nextHn
      rw [if_pos ⟨hSt, h2⟩, hRow]
      rfl
    have hNow : ∀ a < s.vi * 256 + (s.cnt + 1), s.nextHn allOnes a = true := by
      intro a ha
      rw [hHn]
      by_cases hEq : a = s.vi * 256 + s.cnt
      · rw [hEq, Function.update_self]
      · rw [Function.update_of_ne hEq]
        exact hOnes a (by omega)
    have hClean : (s.reject || s.nbR) = false := by rw [hReject, hNb h2]; rfl
    rw [if_neg (by omega), if_neg (by omega)]
    split
    · split
      · constructor
        · refine ⟨hPset, hClean, ?_⟩
          intro a ha
          exact hNow a (by omega)
        · simp only [left, hSt]
          omega
      · have hNext : (s.vi + 1) % 2 ^ 4 = s.vi + 1 := by omega
        have hPos : (s.vi + 1) * 256 = s.vi * 256 + (s.cnt + 1) := by omega
        rw [hNext]
        constructor
        · refine ⟨hPset, hClean, ?_⟩
          intro a ha
          exact hNow a (hPos ▸ ha)
        · simp only [left, hSt]
          omega
    · have hNext : (s.cnt + 1) % 2 ^ 8 = s.cnt + 1 := by omega
      simp only [hNext]
      constructor
      · refine ⟨hPset, hClean, ?_, hNow⟩
        intro (hPhase : 0 = 2)
        omega
      · simp only [left, hSt]
        omega
  · have hHn : s.nextHn allOnes = s.hn := by
      unfold nextHn
      rw [if_neg (fun hBoth => h2 hBoth.2)]
    rw [hHn]
    by_cases h0 : s.hph = 0
    · rw [if_pos h0]
      constructor
      · refine ⟨hPset, hReject, ?_, hOnes⟩
        intro (hPhase : 1 = 2)
        omega
      · simp only [left, hSt]
        omega
    · rw [if_neg h0, if_pos (by omega)]
      constructor
      · exact ⟨hPset, hReject, fun _ => rfl, hOnes⟩
      · simp only [left, hSt]
        omega

theorem filling_next (h : s.Inv) (hFill : s.Filling) (hOn : s.st ≠ .fin) :
    (s.next allOnes).Filling ∧ (s.next allOnes).left < s.left := by
  have hHn (hSt : s.st ≠ .hwb) : s.nextHn allOnes = s.hn := nextHn_eq hSt
  have hK : (mldsaParams 2).k = 8 := rfl
  have hOmega : (mldsaParams 2).omega = 75 := rfl
  cases hSt : s.st with
  | idle =>
    simp only [next, nextCtl, hSt, allOnes, if_true]
    constructor
    · exact rfl
    · simp only [left, hSt]
      omega
  | prep =>
    simp only [Filling, hSt] at hFill
    simp only [next, nextCtl, hSt, allOnes, if_true]
    constructor
    · exact hFill
    · simp only [left, hSt]
      omega
  | emGo =>
    simp only [Filling, hSt] at hFill
    simp only [next, nextCtl, hSt]
    constructor
    · exact ⟨hFill, rfl⟩
    · simp only [left, hSt]
      omega
  | round =>
    simp only [Filling, hSt] at hFill
    simp only [next, nextCtl, hSt, allOnes, if_true, hFill.2, Bool.or_false]
    constructor
    · refine ⟨hFill.1, rfl, ?_⟩
      intro a (ha : a < 0 * 256)
      omega
    · simp only [left, hSt]
      omega
  | hmul =>
    simp only [Inv, hSt] at h
    simp only [Filling, hSt] at hFill
    have hVi := h.2.2.1
    rw [par, hFill.1, hK] at hVi
    simp only [next, nextCtl, hSt, nextHmul, hHn (by simp [hSt])]
    rw [if_pos (show allOnes.ntDone = true from rfl)]
    constructor
    · refine ⟨hFill.1, hFill.2.1, ?_, ?_⟩
      · intro (hPhase : s.hph = 2)
        omega
      · intro a (ha : a < s.vi * 256 + 0)
        rw [Nat.add_zero] at ha
        exact hFill.2.2 a ha
    · simp only [left, hSt]
      omega
  | hwb => exact filling_hwb h hSt hFill
  | rej =>
    simp only [Inv, hSt] at h
    simp only [Filling, hSt] at hFill
    obtain ⟨hPset, hReject, hOnes⟩ := hFill
    have hCfg : s.cfg allOnes = mldsaParams 2 := (cfg_eq h.1).trans (congrArg mldsaParams hPset)
    -- All the bits are ones, so the register is at 0 again.
    have hFull : s.ones = 2 ^ 11 := by
      rw [ones_eq_iff, Full, par, hPset]
      refine ⟨rfl, ?_⟩
      intro r hr b hb
      exact hOnes _ (by omega)
    have hWeight : s.weight = 0 := by
      rw [h.2.2, hFull, Nat.mod_self]
    simp only [next, nextCtl, hSt, nextRej, hCfg, hReject, hWeight, hHn (by simp [hSt])]
    rw [if_neg (by simp)]
    constructor
    · exact ⟨hPset, hOnes⟩
    · simp only [left, hSt]
      omega
  | enc =>
    simp only [Filling, hSt] at hFill
    simp only [next, nextCtl, hSt, hHn (by simp [hSt])]
    rw [if_pos (show allOnes.encDone = true from rfl)]
    constructor
    · exact hFill
    · simp only [left, hSt]
      omega
  | hpClr =>
    simp only [Inv, hSt] at h
    simp only [Filling, hSt] at hFill
    have hCnt := h.2.1
    rw [par, hFill.1, hOmega] at hCnt
    have hCfg : s.cfg allOnes = mldsaParams 2 :=
      (cfg_eq h.1.busy).trans (congrArg mldsaParams hFill.1)
    have hNext : (s.cnt + 1) % 2 ^ 8 = s.cnt + 1 := by omega
    simp only [next, nextCtl, hSt, nextHpClr, hCfg, hHn (by simp [hSt]), hNext]
    split
    · constructor
      · exact hFill
      · simp [left, hSt]
        omega
    · constructor
      · exact hFill
      · simp only [left, hSt]
        omega
  | hp =>
    simp only [Inv, hSt] at h
    simp only [Filling, hSt] at hFill
    have hVi := h.vi
    rw [par, hFill.1, hK] at hVi
    have hCnt := h.cnt
    simp only [next, nextCtl, hSt, nextHp, hHn (by simp [hSt])]
    cases hPh : s.ph with
    | false =>
      simp only [Bool.not_false, if_true]
      constructor
      · exact hFill
      · simp [left, hSt, hPh]
        omega
    | true =>
      simp only [Bool.not_true, Bool.false_eq_true, if_false]
      split
      · constructor
        · exact hFill
        · simp [left, hSt, hPh]
          omega
      · have hNext : (s.cnt + 1) % 2 ^ 8 = s.cnt + 1 := by omega
        rw [hNext]
        constructor
        · exact hFill
        · simp [left, hSt, hPh]
          omega
  | hpCnt =>
    simp only [Inv, hSt] at h
    simp only [Filling, hSt] at hFill
    have hVi := h.2.1
    rw [par, hFill.1, hK] at hVi
    have hCfg : s.cfg allOnes = mldsaParams 2 :=
      (cfg_eq h.1.busy).trans (congrArg mldsaParams hFill.1)
    have hNext : (s.vi + 1) % 2 ^ 4 = s.vi + 1 := by omega
    simp only [next, nextCtl, hSt, nextHpCnt, hCfg, hHn (by simp [hSt]), hNext, hK]
    split
    · constructor
      · exact hFill
      · simp [left, hSt]
    · constructor
      · exact hFill
      · simp [left, hSt]
  | fin => exact absurd hSt hOn

/-- The round of ones comes to its end. -/
theorem full_reached (hn : Nat → Bool) (sig : Nat → BitVec 8) :
    ∃ k, ((circuit hn sig).after (fun _ => allOnes) k).st = .fin ∧
      ((circuit hn sig).after (fun _ => allOnes) k).Full := by
  have hRun (r : Nat) : ∀ k, ((circuit hn sig).after (fun _ => allOnes) k).left = r →
      ((circuit hn sig).after (fun _ => allOnes) k).Filling →
      ∃ m, ((circuit hn sig).after (fun _ => allOnes) m).st = .fin ∧
        ((circuit hn sig).after (fun _ => allOnes) m).Filling := by
    induction r using Nat.strongRecOn with
    | ind r ih =>
      intro k hr hFill
      by_cases hEnd : ((circuit hn sig).after (fun _ => allOnes) k).st = .fin
      · exact ⟨k, hEnd, hFill⟩
      · obtain ⟨hNext, hLess⟩ := filling_next (inv_run hn sig _ k) hFill hEnd
        exact ih _ (hr ▸ hLess) (k + 1) rfl hNext
  obtain ⟨m, hEnd, hFill⟩ := hRun _ 0 rfl trivial
  refine ⟨m, hEnd, ?_⟩
  simp only [Filling, hEnd] at hFill
  rw [Full, par, hFill.1]
  refine ⟨rfl, ?_⟩
  intro r hr b hb
  exact hFill.2 _ (by omega)

end Signer

/-- Whatever is in its store and counters when a verification starts, the verifier leaves `hbad` low
exactly for the encodings of hints with at most ω ones, and uses that hint; its scan ends. A section
that the signer has written is such an encoding of the signer's hint exactly when the hint is not
the one of ML-DSA-87 whose bits are all ones. -/
theorem hints_agree_iff (sig : Nat → BitVec 8) (s : Verifier) (vIns : Nat → VfIn)
    (hn : Nat → Bool) (sigBefore : Nat → BitVec 8) (sIns : Nat → SgIn) (k : Nat) :
    (s.st = .idle →
      let V := (Verifier.circuit sig s).after vIns
      ((V k).st = .later → ((V k).hbad = false ↔ ∃ h, Encodes (V k).par sig h) ∧
        ∀ h, Encodes (V k).par sig h → SameHint (V k).par (V k).useHint h) ∧
      ((V k).st = .hc → ∃ m > k, (V m).st = .later)) ∧
    let S := (Signer.circuit hn sigBefore).after sIns k
    S.st = .fin →
      ((∃ h, Encodes S.par S.sig h ∧ SameHint S.par h (hintRows S.hn)) ↔ ¬S.Full) := by
  constructor
  · intro hIdle V
    have hInv : ∀ j, (V j).Inv sig := Verifier.inv_run hIdle vIns
    constructor
    · intro hSt
      constructor
      · exact Verifier.hbad_iff (hInv k) hSt
      · exact fun h => Verifier.useHint_eq (hInv k) hSt
    · intro hSt
      have hScans : (V k).scans = true := by simp [Verifier.scans, hSt]
      obtain ⟨m, hLater, hm⟩ := Verifier.scan_ends hIdle vIns k hScans
      exact ⟨m, hm, hLater⟩
  · intro S hSt
    exact Signer.encodes_iff (Signer.inv_run hn sigBefore sIns k) hSt

/-- The signer finishes a section that does not encode its hint. -/
theorem full_hint_passes :
    ¬ ∀ (hn : Nat → Bool) (sig : Nat → BitVec 8) (ins : Nat → SgIn) (k : Nat),
    let S := (Signer.circuit hn sig).after ins k
    S.st = .fin → ∃ h, Encodes S.par S.sig h ∧ SameHint S.par h (hintRows S.hn) := by
  intro hAll
  obtain ⟨k, hFin, hFull⟩ := Signer.full_reached (fun _ => false) (fun _ => 0)
  have hInv := Signer.inv_run (fun _ => false) (fun _ => 0) (fun _ => Signer.allOnes) k
  exact (Signer.encodes_iff hInv hFin).mp (hAll _ _ _ k hFin) hFull

end PqcHsm
