import PqcHsm.Rtl.Sha3Aligned

/-!
# What a cycle of the sponge does to the lanes

One lemma for each state. The sweep that follows a start or a zeroization leaves all the lanes zero.
-/

namespace PqcHsm

section Positions

theorem toNat_lanePart (p : BitVec 8) : (p.extractLsb' 3 5).toNat = p.toNat / 8 := by
  simp [BitVec.extractLsb'_toNat, Nat.shiftRight_eq_div_pow]
  omega

theorem toNat_bytePart (p : BitVec 8) : (p.extractLsb' 0 3).toNat = p.toNat % 8 := by
  simp [BitVec.extractLsb'_toNat]

end Positions

/-- A multiple of 8 bytes from 8 to 200. -/
def LegalRate (r : BitVec 8) : Prop := 0 < r.toNat ∧ r.toNat ≤ 200 ∧ r.toNat % 8 = 0

instance (r : BitVec 8) : Decidable (LegalRate r) := inferInstanceAs (Decidable (_ ∧ _ ∧ _))

namespace Sha3Core

section Lanes

variable {c : Sha3Core} {x : Sha3In}

/-- In a quiet state the permutation core takes the write and nothing else. -/
theorem Aligned.kec_next (h : c.Aligned) (hQuiet : c.state.quiet = true) :
    (c.next x).kec =
      { c.kec with
        A := if c.kecWrEn x then c.kec.A.setIfInBounds (c.kecWrAddr x).toNat (c.kecWrData x)
          else c.kec.A } := by
  have hStart : c.kecStart x = false := by
    apply h.kecStart_eq_false <;> intro hEq <;> rw [hEq] at hQuiet <;> cases hQuiet
  exact KeccakF1600.next_of_idle (h.idle hQuiet) hStart

theorem lanes_clr (h : c.Aligned) (hState : c.state = .clr) :
    (c.next x).kec.A = c.kec.A.setIfInBounds c.clrIdx.toNat 0 := by
  rw [h.kec_next (by rw [hState]; rfl)]
  simp only [kecWrEn, kecWrAddr, kecWrData, hState, if_true]

theorem lanes_absorb (h : c.Aligned) (hState : c.state = .absorb) :
    (c.next x).kec.A = if x.inValid then c.kec.A.xorByte c.bpos.toNat x.inData else c.kec.A := by
  rw [h.kec_next (by rw [hState]; rfl)]
  simp only [kecWrEn, kecWrAddr, kecWrData, kecRdData, kecRdAddr, atBpos, hState, toNat_lanePart,
    toNat_bytePart, Lanes.xorByte, Lanes.xorLane]

theorem lanes_padSuf (h : c.Aligned) (hState : c.state = .padSuf) :
    (c.next x).kec.A = c.kec.A.xorByte c.bpos.toNat c.suffixR := by
  rw [h.kec_next (by rw [hState]; rfl)]
  simp only [kecWrEn, kecWrAddr, kecWrData, kecRdData, kecRdAddr, atBpos, hState, toNat_lanePart,
    toNat_bytePart, Lanes.xorByte, Lanes.xorLane, if_true]

/-- The last byte below a legal rate is the highest of its lane. -/
theorem lanes_padLast (h : c.Aligned) (hState : c.state = .padLast) (hRate : LegalRate c.rateR) :
    (c.next x).kec.A = c.kec.A.xorByte (c.rateR.toNat - 1) 0x80 := by
  obtain ⟨hPos, hMax, hEight⟩ := hRate
  have hLane : c.lastLane.toNat = (c.rateR.toNat - 1) / 8 := by
    rw [lastLane, BitVec.toNat_sub, toNat_lanePart]
    simp
    omega
  have hByte : (c.rateR.toNat - 1) % 8 = 7 := by omega
  rw [h.kec_next (by rw [hState]; rfl)]
  simp only [kecWrEn, kecWrAddr, kecWrData, kecRdData, kecRdAddr, hState, hLane, hByte,
    Lanes.xorByte, Lanes.xorLane, if_true]
  rfl

theorem lanes_permKick (h : c.Aligned) (hState : c.state = .permKick) :
    (c.next x).kec.A = c.kec.A := by
  rw [h.kec_next (by rw [hState]; rfl)]
  simp only [kecWrEn, hState, Bool.false_eq_true, if_false]

theorem lanes_squeeze (h : c.Aligned) (hState : c.state = .squeeze) :
    (c.next x).kec.A = c.kec.A := by
  rw [h.kec_next (by rw [hState]; rfl)]
  simp only [kecWrEn, hState, Bool.false_eq_true, if_false]

theorem outData_squeeze (hState : c.state = .squeeze) :
    c.outData x = c.kec.A.byteAt c.sqBpos.toNat := by
  simp only [outData, kecRdData, kecRdAddr, hState, toNat_lanePart, toNat_bytePart, Lanes.byteAt]

/-! ### The wait for the rounds -/

/-- The lanes that the wait will end with. -/
def due (c : Sha3Core) : Lanes := if c.kecStartR then c.kec.A.permute else c.kec.result

theorem Aligned.idle_of_kick (h : c.Aligned) (hState : c.state = .permWait)
    (hKick : c.kecStartR = true) : c.kec.busy = false := by
  have hMark := h.waits hState
  rw [hKick] at hMark
  exact Bool.eq_false_iff.mpr fun hBusy => absurd (hMark.symm.trans (h.marked hBusy)) Bool.false_ne_true

theorem due_of_kick (h : c.Aligned) (hState : c.state = .permKick)
    (hAgain : (x.start || c.zeroizeRise x) = false) : (c.next x).due = c.kec.A.permute := by
  have hKick : (c.next x).kecStartR = true := by
    rw [(next_of_advance hAgain).2]
    simp only [advance, hState]
  rw [due, if_pos hKick, lanes_permKick h hState]

theorem kecIn_permWait (hState : c.state = .permWait) :
    (c.kecIn x).start = c.kecStartR ∧ (c.kecIn x).wrEn = false := by
  simp [kecIn, kecStart, kecWrEn, hState]

theorem due_next (h : c.Aligned) (hState : c.state = .permWait)
    (hOver : (c.permBusy && c.kec.done) = false)
    (hAgain : (x.start || c.zeroizeRise x) = false) : (c.next x).due = c.due := by
  obtain ⟨hStart, hWr⟩ := kecIn_permWait (x := x) hState
  have hKick' : (c.next x).kecStartR = false := by
    rw [(next_of_advance hAgain).2]
    exact kecStartR_advance (by rw [hState]; exact fun hEq => nomatch hEq)
  rw [due, hKick', if_neg Bool.false_ne_true]
  cases hKick : c.kecStartR with
  | true =>
    rw [due, if_pos hKick]
    exact KeccakF1600.result_start (h.idle_of_kick hState hKick) (hStart.trans hKick) hWr
  | false =>
    have hMark : c.permBusy = true := by rw [h.waits hState, hKick]; rfl
    have hBusy : c.kec.busy = true := by
      rw [← Bool.not_eq_false]
      intro hIdle
      rw [hMark, h.landed hMark hIdle] at hOver
      cases hOver
    rw [due, hKick, if_neg Bool.false_ne_true]
    exact KeccakF1600.result_next h.inRound hBusy

/-- The wait ends with the lanes that were due. -/
theorem lanes_of_over (h : c.Aligned) (hState : c.state = .permWait) (hMark : c.permBusy = true)
    (hDone : c.kec.done = true) : (c.next x).kec.A = c.due := by
  obtain ⟨hStart, hWr⟩ := kecIn_permWait (x := x) hState
  have hKick : c.kecStartR = false := by
    have hWaits := h.waits hState
    rw [hMark] at hWaits
    simpa using hWaits.symm
  have hIdle : c.kec.busy = false :=
    Bool.eq_false_iff.mpr fun hBusy =>
      absurd ((h.inRound.notDone hBusy).symm.trans hDone) Bool.false_ne_true
  change (c.kec.next (c.kecIn x)).A = c.due
  rw [KeccakF1600.next_of_idle hIdle (hStart.trans hKick), hWr, due, hKick, KeccakF1600.result, hIdle]
  rfl

/-! ### The sweep -/

/-- The lanes behind the sweep are zero. -/
structure Sweeps (c : Sha3Core) : Prop where
  begins : c.state = .zwait → c.clrIdx = 0
  behind : c.state = .clr → c.clrIdx.toNat ≤ 24 ∧ ∀ i < c.clrIdx.toNat, c.kec.A.lane i = 0

theorem lane_clr {A : Lanes} {i j : Nat} (hZero : ∀ k < i, A.lane k = 0) (hj : j < i + 1) :
    Lanes.lane (A.setIfInBounds i 0) j = 0 := by
  have hRest : j ≠ i → A.lane j = 0 := fun hNe => hZero j (by omega)
  unfold Lanes.lane at hRest ⊢
  rw [Vector.getElem?_setIfInBounds]
  split_ifs with hEq hIn
  · rfl
  · rfl
  · exact hRest (Ne.symm hEq)

theorem eq_zero_of_lane {A : Lanes} (h : ∀ i < 25, A.lane i = 0) : A = Lanes.zero := by
  apply Vector.ext
  intro i hi
  have hLane := h i hi
  rw [Lanes.lane, Vector.getElem?_eq_getElem hi] at hLane
  rw [Lanes.zero, Vector.getElem_replicate]
  exact hLane

/-- The sweep has gone over all the lanes when the state is left. -/
theorem lanes_of_swept (h : c.Aligned) (hSweep : c.Sweeps) (hState : c.state = .clr)
    (hLast : c.clrIdx = 24) : (c.next x).kec.A = Lanes.zero := by
  rw [lanes_clr h hState]
  obtain ⟨-, hZero⟩ := hSweep.behind hState
  apply eq_zero_of_lane
  intro i hi
  apply lane_clr hZero
  rw [hLast]
  exact hi

theorem advance_zwait (hEnds : (c.advance x).state = .zwait) :
    c.state = .zwait ∧ (c.advance x).clrIdx = c.clrIdx := by
  cases hSt : c.state <;> simp only [advance, hSt] at hEnds ⊢
  case zwait => exact ⟨trivial, trivial⟩
  case idle | padSuf | padLast | permKick => cases hEnds
  all_goals split_ifs at hEnds

theorem advance_clr (hEnds : (c.advance x).state = .clr) :
    (c.state = .zwait ∧ (c.advance x).clrIdx = c.clrIdx) ∨
      (c.state = .clr ∧ c.clrIdx ≠ 24 ∧ (c.advance x).clrIdx = c.clrIdx + 1) := by
  cases hSt : c.state <;> simp only [advance, hSt] at hEnds ⊢
  case zwait => exact .inl ⟨trivial, trivial⟩
  case idle | padSuf | padLast | permKick => cases hEnds
  case clr =>
    by_cases hLast : c.clrIdx = 24
    · rw [if_pos hLast] at hEnds
      dsimp only at hEnds
      split_ifs at hEnds
    · rw [if_neg hLast]
      exact .inr ⟨trivial, hLast, rfl⟩
  all_goals split_ifs at hEnds

theorem Sweeps.next (hSweep : c.Sweeps) (h : c.Aligned) : (c.next x).Sweeps := by
  cases hAgain : x.start || c.zeroizeRise x with
  | true =>
    have hState := (next_of_restart hAgain).1
    constructor
    · intro _
      unfold Sha3Core.next
      rw [if_pos hAgain]
      rfl
    · rw [hState]
      exact fun hEq => nomatch hEq
  | false =>
    have hIdx : (c.next x).clrIdx = (c.advance x).clrIdx := by
      unfold Sha3Core.next
      rw [hAgain, if_neg Bool.false_ne_true]
    have hState := (next_of_advance hAgain).1
    constructor
    · rw [hState, hIdx]
      intro hEnds
      obtain ⟨hSt, hSame⟩ := advance_zwait hEnds
      rw [hSame, hSweep.begins hSt]
    · rw [hState, hIdx]
      intro hEnds
      rcases advance_clr hEnds with ⟨hSt, hSame⟩ | ⟨hSt, hMore, hSucc⟩
      · rw [hSame, hSweep.begins hSt]
        exact ⟨Nat.zero_le 24, fun i hi => absurd hi (Nat.not_lt_zero i)⟩
      · obtain ⟨hLe, hZero⟩ := hSweep.behind hSt
        have hNe : c.clrIdx.toNat ≠ 24 := fun hEq => hMore (BitVec.eq_of_toNat_eq hEq)
        have hNat : (c.clrIdx + 1).toNat = c.clrIdx.toNat + 1 := by
          rw [BitVec.toNat_add]
          simp
          omega
        rw [hSucc, hNat, lanes_clr h hSt]
        exact ⟨by omega, fun i hi => lane_clr hZero hi⟩

end Lanes

end Sha3Core

end PqcHsm
