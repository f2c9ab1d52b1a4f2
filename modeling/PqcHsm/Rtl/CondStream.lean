import PqcHsm.Rtl.CondSponge

/-!
# The conditioner cycle by cycle

The conditioner in step with its permutation core, the bits it has taken, the words it has put out,
and the cycles for which it takes no bits.
-/

namespace PqcHsm

namespace TrngCond

/-- The lanes once the write under way is done. -/
def lanesNow (c : TrngCond) : Lanes :=
  if c.kecWrEn then c.kec.A.setIfInBounds c.kecWrAddr.toNat c.kecWrData else c.kec.A

/-- The lanes that the wait will end with. -/
def due (c : TrngCond) : Lanes := if c.kecStart then c.kec.A.permute else c.kec.result

structure Aligned (c : TrngCond) : Prop where
  inRound : c.kec.InRound
  kicked : c.kecStart = true → c.state = .permWait
  writes : c.kecWrEn = true → c.state = .absorb ∨ c.state = .permKick
  runs : c.kec.busy = true → c.state = .permWait ∧ c.kecStart = false
  waits : c.state = .permWait → c.kecStart = false → c.kec.busy = false → c.kec.done = true
  block : c.blkCnt = 0
  lane : c.laneIdx.toNat < 17
  half : c.state = .squeeze → c.sqLane.toNat < 4

theorem aligned_reset : reset.Aligned := by
  constructor
  · constructor <;> exact fun h => nomatch h
  all_goals decide

section Steps

variable {c : TrngCond} {x : CondIn}

theorem Aligned.idle (h : c.Aligned) (hState : c.state ≠ .permWait) :
    c.kec.busy = false ∧ c.kecStart = false :=
  ⟨Bool.eq_false_iff.mpr fun hBusy => hState (h.runs hBusy).1,
    Bool.eq_false_iff.mpr fun hKick => hState (h.kicked hKick)⟩

/-- Outside the wait the permutation core takes a write and nothing else. -/
theorem Aligned.kec_next (h : c.Aligned) (hState : c.state ≠ .permWait) :
    (c.next x).kec = { c.kec with A := c.lanesNow } :=
  KeccakF1600.next_of_idle (h.idle hState).1 (h.idle hState).2

theorem advance_flags (c : TrngCond) (x : CondIn) :
    (c.advance x).kecStart = decide (c.state = .permKick) ∧
      (c.advance x).kecWrEn = decide (c.state = .xor) := by
  cases hSt : c.state <;> simp only [advance, hSt]
  case xor | permKick => exact ⟨rfl, rfl⟩
  all_goals split_ifs <;> exact ⟨rfl, rfl⟩

theorem advance_waits (h : (c.advance x).state = .permWait) :
    c.state = .permKick ∨ (c.state = .permWait ∧ (!c.kecStart && c.kec.done) = false) := by
  cases hSt : c.state <;> simp only [advance, hSt] at h
  case permKick => exact .inl rfl
  case permWait =>
    cases hOver : !c.kecStart && c.kec.done with
    | true =>
      rw [if_pos hOver] at h
      dsimp only at h
      split_ifs at h
    | false => exact .inr ⟨rfl, rfl⟩
  all_goals split_ifs at h

theorem advance_xor (h : c.state = .xor) :
    (c.advance x).state = .absorb ∨ (c.advance x).state = .permKick := by
  simp only [advance, h]
  split_ifs
  · exact .inr rfl
  · exact .inl rfl

theorem advance_laneIdx (h : c.Aligned) : (c.advance x).laneIdx.toNat < 17 := by
  have hLt := h.lane
  cases hSt : c.state <;> simp only [advance, hSt]
  case xor =>
    split_ifs with hLast
    · decide
    · have hNe : c.laneIdx.toNat ≠ 16 := fun hEq => hLast (BitVec.eq_of_toNat_eq hEq)
      rw [BitVec.toNat_add]
      simp
      omega
  all_goals first
    | exact hLt
    | split_ifs <;> exact hLt

theorem advance_blkCnt (h : c.Aligned) : (c.advance x).blkCnt = 0 := by
  have hZero := h.block
  cases hSt : c.state <;> simp only [advance, hSt]
  case xor =>
    rw [hZero, if_pos (show (0 : BitVec 16) = ABSORB_BLOCKS - 1 by decide), ite_self]
  all_goals first
    | exact hZero
    | split_ifs <;> exact hZero

theorem advance_sqLane (h : c.Aligned) (hOut : (c.advance x).state = .squeeze) :
    (c.advance x).sqLane.toNat < 4 := by
  have hLt := h.half
  cases hSt : c.state <;> simp only [advance, hSt] at hOut ⊢
  case permWait =>
    cases hOver : !c.kecStart && c.kec.done with
    | true =>
      rw [if_pos rfl]
      exact Nat.succ_pos 3
    | false =>
      rw [hOver, if_neg Bool.false_ne_true] at hOut
      cases hOut
  case squeeze =>
    have hLane := hLt hSt
    split_ifs with hReady hLast hHalf
    · exact hLane
    · have hNe : c.sqLane.toNat ≠ 3 := by
        intro hEq
        have hThree : c.sqLane = OUT_LANES - 1 := BitVec.eq_of_toNat_eq hEq
        rw [lastSq, hThree, hHalf] at hLast
        exact hLast rfl
      rw [BitVec.toNat_add]
      simp
      omega
    · exact hLane
    · exact hLane
  case permKick => cases hOut
  case xor | absorb => split_ifs at hOut

theorem Aligned.runs_next (h : c.Aligned) (hBusy : (c.next x).kec.busy = true) :
    (c.next x).state = .permWait ∧ (c.next x).kecStart = false := by
  have hState : c.state = .permWait := by
    by_contra hNot
    rw [h.kec_next hNot] at hBusy
    exact absurd ((h.idle hNot).1.symm.trans hBusy) Bool.false_ne_true
  have hOver : (!c.kecStart && c.kec.done) = false := by
    rw [Bool.eq_false_iff]
    intro hOn
    obtain ⟨hKick, hDone⟩ := Bool.and_eq_true_iff.mp hOn
    rw [Bool.not_eq_true'] at hKick
    have hIdle : c.kec.busy = false :=
      Bool.eq_false_iff.mpr fun hRuns =>
        absurd ((h.inRound.notDone hRuns).symm.trans hDone) Bool.false_ne_true
    change (c.kec.next ⟨c.kecStart, c.kecWrEn, c.kecWrAddr, c.kecWrData⟩).busy = true at hBusy
    rw [KeccakF1600.next_of_idle hIdle hKick] at hBusy
    exact absurd (hIdle.symm.trans hBusy) Bool.false_ne_true
  constructor
  · change (c.advance x).state = .permWait
    simp only [advance, hState, hOver, Bool.false_eq_true, if_false]
  · change (c.advance x).kecStart = false
    rw [(advance_flags c x).1, hState]
    rfl

theorem Aligned.waits_next (h : c.Aligned) (hWaits : (c.next x).state = .permWait)
    (hKick : (c.next x).kecStart = false) (hIdle : (c.next x).kec.busy = false) :
    (c.next x).kec.done = true := by
  change (c.advance x).kecStart = false at hKick
  change (c.kec.next ⟨c.kecStart, c.kecWrEn, c.kecWrAddr, c.kecWrData⟩).busy = false at hIdle
  rw [(advance_flags c x).1] at hKick
  rcases advance_waits hWaits with hState | ⟨hState, hOver⟩
  · rw [hState] at hKick
    cases hKick
  · cases hKicked : c.kecStart with
    | true =>
      have hWas : c.kec.busy = false :=
        Bool.eq_false_iff.mpr fun hRuns => absurd ((h.runs hRuns).2.symm.trans hKicked) Bool.false_ne_true
      rw [KeccakF1600.next_of_start hWas hKicked] at hIdle
      cases hIdle
    | false =>
      have hRuns : c.kec.busy = true := by
        rw [← Bool.not_eq_false]
        intro hWas
        rw [hKicked, h.waits hState hKicked hWas] at hOver
        cases hOver
      exact KeccakF1600.done_of_ends hRuns hIdle

theorem Aligned.next (h : c.Aligned) : (c.next x).Aligned := by
  obtain ⟨hStart, hWr⟩ := advance_flags c x
  constructor
  · exact h.inRound.next
  · intro hOn
    have hState : c.state = .permKick := of_decide_eq_true (hStart.symm.trans hOn)
    change (c.advance x).state = .permWait
    simp only [advance, hState]
  · intro hOn
    exact advance_xor (of_decide_eq_true (hWr.symm.trans hOn))
  · exact h.runs_next
  · exact h.waits_next
  · exact advance_blkCnt h
  · exact advance_laneIdx h
  · exact advance_sqLane h

/-! ### The bits taken -/

end Steps

/-- The first `m` bits after `n` blocks are in the lanes. -/
def Fed (bits : List (BitVec 1)) (n m : Nat) (A : Lanes) : Prop :=
  A = bitSponge.injectAll (condBlocks bits n) 0 ((bits.drop (n * COND_RATE)).take m)

/-- Nothing of the next block is in. -/
structure Clean (c : TrngCond) : Prop where
  laneIdx : c.laneIdx = 0
  bitCnt : c.bitCnt = 0
  laneSr : c.laneSr = 0

/-- Some lanes of the next block are in the sponge, and some bits of a lane in the shift register. -/
structure Collects (c : TrngCond) (bits : List (BitVec 1)) (n : Nat) : Prop where
  count : bits.length = n * COND_RATE + 64 * c.laneIdx.toNat + c.bitCnt.toNat
  lanes : Fed bits n (64 * c.laneIdx.toNat) c.lanesNow
  laneSr : c.laneSr =
    packFrom (64 - c.bitCnt.toNat) (bits.drop (n * COND_RATE + 64 * c.laneIdx.toNat))

/-- The shift register holds a whole lane. -/
structure Adds (c : TrngCond) (bits : List (BitVec 1)) (n : Nat) : Prop where
  count : bits.length = n * COND_RATE + 64 * c.laneIdx.toNat + 64
  lanes : Fed bits n (64 * c.laneIdx.toNat) c.kec.A
  laneSr : c.laneSr = packFrom 0 (bits.drop (n * COND_RATE + 64 * c.laneIdx.toNat))
  bitCnt : c.bitCnt = 0

/-- The registers after `n` blocks have been permuted. -/
def Tracks (c : TrngCond) (bits : List (BitVec 1)) (n : Nat) : Prop :=
  match c.state with
  | .absorb => c.Collects bits n
  | .xor => c.Adds bits n
  | .permKick => c.Clean ∧ bits.length = (n + 1) * COND_RATE ∧ Fed bits n COND_RATE c.lanesNow
  | .permWait => c.Clean ∧ bits.length = (n + 1) * COND_RATE ∧ c.due = condBlocks bits (n + 1)
  | .squeeze => c.Clean ∧ bits.length = n * COND_RATE ∧ 0 < n ∧ c.kec.A = condBlocks bits n

section Bits

variable {c : TrngCond} {x : CondIn} {bits : List (BitVec 1)} {n : Nat}

theorem condBlocks_append (h : n * COND_RATE ≤ bits.length) (bs : List (BitVec 1)) :
    condBlocks (bits ++ bs) n = condBlocks bits n := Sponge.absorb_append h bs

theorem Fed.append {m : Nat} {A : Lanes} (h : Fed bits n m A)
    (hLen : n * COND_RATE + m ≤ bits.length) (bs : List (BitVec 1)) : Fed (bits ++ bs) n m A := by
  unfold Fed at h ⊢
  rw [condBlocks_append (by omega), List.drop_append_of_le_length (by omega),
    List.take_append_of_le_length, h]
  rw [List.length_drop]
  omega

/-- A lane of bits more. -/
theorem Fed.lane {l : Nat} {A : Lanes} (h : Fed bits n (64 * l) A)
    (hLen : bits.length = n * COND_RATE + 64 * l + 64) :
    Fed bits n (64 * (l + 1))
      (A.xorLane l (packFrom 0 (bits.drop (n * COND_RATE + 64 * l)))) := by
  have hSplit : (bits.drop (n * COND_RATE)).take (64 * (l + 1)) =
      (bits.drop (n * COND_RATE)).take (64 * l) ++ bits.drop (n * COND_RATE + 64 * l) := by
    rw [Nat.mul_add, Nat.mul_one, List.take_add, List.drop_drop, List.take_of_length_le (i := 64)]
    rw [List.length_drop]
    omega
  have hFirst : ((bits.drop (n * COND_RATE)).take (64 * l)).length = 64 * l := by
    rw [List.length_take, List.length_drop]
    omega
  unfold Fed at h ⊢
  rw [hSplit, Sponge.injectAll_append, hFirst, ← h, ← injectAll_pack]
  · rw [Nat.zero_add, Nat.add_zero]
  · rw [List.length_drop]
    omega

/-- A whole block is permuted. -/
theorem Fed.permute {A : Lanes} (h : Fed bits n COND_RATE A) :
    A.permute = condBlocks bits (n + 1) := congrArg Lanes.permute h

theorem fields_next (c : TrngCond) (x : CondIn) :
    (c.next x).state = (c.advance x).state ∧ (c.next x).laneSr = (c.advance x).laneSr ∧
      (c.next x).bitCnt = (c.advance x).bitCnt ∧ (c.next x).laneIdx = (c.advance x).laneIdx :=
  ⟨rfl, rfl, rfl, rfl⟩

theorem lanesNow_next (h : c.Aligned) (hState : c.state ≠ .permWait) (hXor : c.state ≠ .xor) :
    (c.next x).lanesNow = c.lanesNow ∧ (c.next x).kec.A = c.lanesNow := by
  have hWr : (c.next x).kecWrEn = false := by
    change (c.advance x).kecWrEn = false
    rw [(advance_flags c x).2]
    exact decide_eq_false hXor
  have hKec := congrArg KeccakF1600.A (h.kec_next (x := x) hState)
  refine ⟨?_, hKec⟩
  rw [lanesNow, hWr, if_neg Bool.false_ne_true]
  exact hKec

theorem Tracks.absorb_bit (h : c.Aligned) (hTracks : c.Tracks bits n) (hState : c.state = .absorb)
    (hBit : x.bitValid = true) : (c.next x).Tracks (bits ++ [x.bitIn]) n := by
  simp only [Tracks, hState] at hTracks
  obtain ⟨hSt, hSr, hCnt, hIdx⟩ := fields_next c x
  obtain ⟨hNow, hA⟩ := lanesNow_next (x := x) h (by simp [hState]) (by simp [hState])
  have hCount := hTracks.count
  have hFed := hTracks.lanes.append (by omega) [x.bitIn]
  have hLen : (bits.drop (n * COND_RATE + 64 * c.laneIdx.toNat)).length = c.bitCnt.toNat := by
    rw [List.length_drop]
    omega
  have hLt : c.bitCnt.toNat < 64 := c.bitCnt.isLt
  have hShift : shiftIn c.laneSr x.bitIn =
      packFrom (64 - (c.bitCnt.toNat + 1))
        ((bits ++ [x.bitIn]).drop (n * COND_RATE + 64 * c.laneIdx.toNat)) := by
    have hPack := shiftIn_packFrom (bits.drop (n * COND_RATE + 64 * c.laneIdx.toNat)) x.bitIn
      (by omega)
    rw [hLen, List.length_append, List.length_singleton, hLen] at hPack
    rw [hTracks.laneSr, hPack, List.drop_append_of_le_length (by omega)]
  by_cases hLast : c.bitCnt = 63
  · have hNat : c.bitCnt.toNat = 63 := by rw [hLast]; rfl
    simp only [advance, hState, hBit, if_true, if_pos hLast] at hSt hSr hCnt hIdx
    simp only [Tracks, hSt]
    constructor
    · rw [hIdx, List.length_append, List.length_singleton]
      omega
    · rw [hIdx, hA]
      exact hFed
    · rw [hSr, hIdx, hShift, hNat]
    · exact hCnt
  · have hNe : c.bitCnt.toNat ≠ 63 := fun hEq => hLast (BitVec.eq_of_toNat_eq hEq)
    have hNat : (c.bitCnt + 1).toNat = c.bitCnt.toNat + 1 := by
      rw [BitVec.toNat_add]
      simp
      omega
    simp only [advance, hState, hBit, if_true, if_neg hLast] at hSt hSr hCnt hIdx
    simp only [Tracks, hSt]
    constructor
    · rw [hIdx, hCnt, hNat, List.length_append, List.length_singleton]
      omega
    · rw [hIdx, hNow]
      exact hFed
    · rw [hSr, hIdx, hCnt, hNat, hShift]

theorem Tracks.absorb_none (h : c.Aligned) (hTracks : c.Tracks bits n) (hState : c.state = .absorb)
    (hBit : x.bitValid = false) : (c.next x).Tracks bits n := by
  simp only [Tracks, hState] at hTracks
  obtain ⟨hSt, hSr, hCnt, hIdx⟩ := fields_next c x
  obtain ⟨hNow, -⟩ := lanesNow_next (x := x) h (by simp [hState]) (by simp [hState])
  simp only [advance, hState, hBit, Bool.false_eq_true, if_false] at hSt hSr hCnt hIdx
  simp only [Tracks, hSt]
  constructor
  · rw [hIdx, hCnt]
    exact hTracks.count
  · rw [hIdx, hNow]
    exact hTracks.lanes
  · rw [hSr, hIdx, hCnt]
    exact hTracks.laneSr

theorem drop_eq_nil {m : Nat} (h : bits.length = m) : bits.drop m = [] := by
  rw [← h, List.drop_length]

/-- A lane goes into the sponge, and after the last one of a block the permutation is due. -/
theorem Tracks.xor (h : c.Aligned) (hTracks : c.Tracks bits n) (hState : c.state = .xor) :
    (c.next x).Tracks bits n := by
  simp only [Tracks, hState] at hTracks
  obtain ⟨hSt, hSr, hCnt, hIdx⟩ := fields_next c x
  have hCount := hTracks.count
  have hLt := h.lane
  have hWr : c.kecWrEn = false :=
    Bool.eq_false_iff.mpr fun hOn => by rcases h.writes hOn with hSt | hSt <;> simp [hSt] at hState
  have hNow : (c.next x).lanesNow = c.kec.A.xorLane c.laneIdx.toNat c.laneSr := by
    have hA : (c.next x).kec.A = c.kec.A := by
      rw [h.kec_next (by simp [hState]), lanesNow, hWr]
      rfl
    have hOn : (c.next x).kecWrEn = true ∧ (c.next x).kecWrAddr = c.laneIdx ∧
        (c.next x).kecWrData = c.kec.A.lane c.laneIdx.toNat ^^^ c.laneSr := by
      change (c.advance x).kecWrEn = true ∧ (c.advance x).kecWrAddr = c.laneIdx ∧
        (c.advance x).kecWrData = _
      simp [advance, hState, kecRdData, kecRdAddr]
    rw [lanesNow, hOn.1, if_pos rfl, hA, hOn.2.1, hOn.2.2]
    rfl
  have hFed := hTracks.lanes.lane hCount
  rw [← hTracks.laneSr, ← hNow] at hFed
  by_cases hLast : c.laneIdx = RATE_LANES - 1
  · have hNat : c.laneIdx.toNat = 16 := by rw [hLast]; rfl
    simp only [advance, hState, if_pos hLast] at hSt hSr hCnt hIdx
    simp only [Tracks, hSt]
    rw [hNat] at hFed
    refine ⟨⟨hIdx, hCnt.trans hTracks.bitCnt, hSr⟩, ?_, hFed⟩
    rw [hCount, hNat, Nat.add_mul, Nat.add_assoc]
    rfl
  · have hNe : c.laneIdx.toNat ≠ 16 := fun hEq => hLast (BitVec.eq_of_toNat_eq hEq)
    have hNat : (c.laneIdx + 1).toNat = c.laneIdx.toNat + 1 := by
      rw [BitVec.toNat_add]
      simp
      omega
    simp only [advance, hState, if_neg hLast] at hSt hSr hCnt hIdx
    simp only [Tracks, hSt]
    have hEnd : bits.length = n * COND_RATE + 64 * (c.laneIdx.toNat + 1) := by omega
    have hZero : (0 : BitVec 6).toNat = 0 := rfl
    constructor
    · rw [hIdx, hCnt, hTracks.bitCnt, hNat, hZero, Nat.add_zero]
      exact hEnd
    · rw [hIdx, hNat]
      exact hFed
    · rw [hSr, hIdx, hCnt, hTracks.bitCnt, hNat, drop_eq_nil hEnd]
      rfl

theorem Clean.of_eq {c' : TrngCond} (h : c.Clean) (hSr : c'.laneSr = c.laneSr)
    (hCnt : c'.bitCnt = c.bitCnt) (hIdx : c'.laneIdx = c.laneIdx) : c'.Clean :=
  ⟨hIdx.trans h.laneIdx, hCnt.trans h.bitCnt, hSr.trans h.laneSr⟩

theorem Tracks.permKick (h : c.Aligned) (hTracks : c.Tracks bits n) (hState : c.state = .permKick) :
    (c.next x).Tracks bits n := by
  simp only [Tracks, hState] at hTracks
  obtain ⟨hClean, hCount, hFed⟩ := hTracks
  obtain ⟨hSt, hSr, hCnt, hIdx⟩ := fields_next c x
  obtain ⟨-, hA⟩ := lanesNow_next (x := x) h (by simp [hState]) (by simp [hState])
  have hKick : (c.next x).kecStart = true := by
    change (c.advance x).kecStart = true
    rw [(advance_flags c x).1, hState]
    rfl
  simp only [advance, hState] at hSt hSr hCnt hIdx
  simp only [Tracks, hSt]
  refine ⟨hClean.of_eq hSr hCnt hIdx, hCount, ?_⟩
  rw [due, if_pos hKick, hA]
  exact hFed.permute

theorem Tracks.permWait (h : c.Aligned) (hTracks : c.Tracks bits n) (hState : c.state = .permWait) :
    ∃ n', (c.next x).Tracks bits n' ∧
      ((n' = n ∧ (c.next x).state = .permWait) ∨ (n' = n + 1 ∧ (c.next x).state = .squeeze)) := by
  simp only [Tracks, hState] at hTracks
  obtain ⟨hClean, hCount, hDue⟩ := hTracks
  obtain ⟨hSt, hSr, hCnt, hIdx⟩ := fields_next c x
  have hWr : c.kecWrEn = false :=
    Bool.eq_false_iff.mpr fun hOn => by rcases h.writes hOn with hSt | hSt <;> simp [hSt] at hState
  have hKick' : (c.next x).kecStart = false := by
    change (c.advance x).kecStart = false
    rw [(advance_flags c x).1, hState]
    rfl
  cases hOver : !c.kecStart && c.kec.done with
  | true =>
    obtain ⟨hKick, hDone⟩ := Bool.and_eq_true_iff.mp hOver
    rw [Bool.not_eq_true'] at hKick
    have hIdle : c.kec.busy = false :=
      Bool.eq_false_iff.mpr fun hRuns =>
        absurd ((h.inRound.notDone hRuns).symm.trans hDone) Bool.false_ne_true
    have hA : (c.next x).kec.A = c.due := by
      change (c.kec.next ⟨c.kecStart, c.kecWrEn, c.kecWrAddr, c.kecWrData⟩).A = c.due
      rw [KeccakF1600.next_of_idle hIdle hKick, hWr, due, hKick, KeccakF1600.result, hIdle]
      rfl
    simp only [advance, hState, hOver, h.block, if_true] at hSt hSr hCnt hIdx
    refine ⟨n + 1, ?_, .inr ⟨rfl, hSt⟩⟩
    simp only [Tracks, hSt]
    exact ⟨hClean.of_eq hSr hCnt hIdx, hCount, Nat.succ_pos n, hA.trans hDue⟩
  | false =>
    have hDue' : (c.next x).due = c.due := by
      rw [due, hKick', if_neg Bool.false_ne_true]
      cases hKick : c.kecStart with
      | true =>
        have hIdle : c.kec.busy = false :=
          Bool.eq_false_iff.mpr fun hRuns =>
            absurd ((h.runs hRuns).2.symm.trans hKick) Bool.false_ne_true
        rw [due, if_pos hKick]
        exact KeccakF1600.result_start hIdle hKick hWr
      | false =>
        have hRuns : c.kec.busy = true := by
          rw [← Bool.not_eq_false]
          intro hIdle
          rw [hKick, h.waits hState hKick hIdle] at hOver
          cases hOver
        rw [due, hKick, if_neg Bool.false_ne_true]
        exact KeccakF1600.result_next h.inRound hRuns
    simp only [advance, hState, hOver, Bool.false_eq_true, if_false] at hSt hSr hCnt hIdx
    refine ⟨n, ?_, .inl ⟨rfl, hSt⟩⟩
    simp only [Tracks, hSt]
    exact ⟨hClean.of_eq hSr hCnt hIdx, hCount, hDue'.trans hDue⟩

theorem Clean.toNat_eq (h : c.Clean) : c.laneIdx.toNat = 0 ∧ c.bitCnt.toNat = 0 := by
  rw [h.laneIdx, h.bitCnt]
  exact ⟨rfl, rfl⟩

theorem Collects.of_clean (hClean : c.Clean) (hCount : bits.length = n * COND_RATE)
    (hA : c.lanesNow = condBlocks bits n) : c.Collects bits n := by
  obtain ⟨hIdx, hCnt⟩ := hClean.toNat_eq
  constructor
  · rw [hIdx, hCnt, Nat.mul_zero, Nat.add_zero]
    exact hCount
  · rw [hIdx, Nat.mul_zero, Fed, List.take_zero]
    exact hA
  · rw [hClean.laneSr, hIdx, hCnt, Nat.mul_zero, Nat.add_zero, drop_eq_nil hCount]
    rfl

theorem Tracks.squeeze (h : c.Aligned) (hTracks : c.Tracks bits n) (hState : c.state = .squeeze) :
    (c.next x).Tracks bits n := by
  simp only [Tracks, hState] at hTracks
  obtain ⟨hClean, hCount, hPos, hA⟩ := hTracks
  obtain ⟨hSt, hSr, hCnt, hIdx⟩ := fields_next c x
  obtain ⟨hNow, hA'⟩ := lanesNow_next (x := x) h (by simp [hState]) (by simp [hState])
  have hWr : c.kecWrEn = false :=
    Bool.eq_false_iff.mpr fun hOn => by rcases h.writes hOn with hSt | hSt <;> simp [hSt] at hState
  have hLanes : c.lanesNow = condBlocks bits n := by
    rw [lanesNow, hWr, if_neg Bool.false_ne_true]
    exact hA
  have hKept : (c.advance x).laneSr = c.laneSr ∧ (c.advance x).bitCnt = c.bitCnt ∧
      (c.advance x).laneIdx = c.laneIdx ∧
      ((c.advance x).state = .squeeze ∨ (c.advance x).state = .absorb) := by
    simp only [advance, hState]
    split_ifs <;> simp
  obtain ⟨hSr', hCnt', hIdx', hEnds⟩ := hKept
  have hClean' : (c.next x).Clean :=
    hClean.of_eq (hSr.trans hSr') (hCnt.trans hCnt') (hIdx.trans hIdx')
  rcases hEnds with hEnds | hEnds
  · rw [hEnds] at hSt
    simp only [Tracks, hSt]
    exact ⟨hClean', hCount, hPos, hA'.trans hLanes⟩
  · rw [hEnds] at hSt
    simp only [Tracks, hSt]
    exact Collects.of_clean hClean' hCount (hNow.trans hLanes)

theorem tracks_reset : reset.Tracks [] 0 :=
  Collects.of_clean ⟨rfl, rfl, rfl⟩ rfl rfl

end Bits

/-! ### The words put out -/

/-- The words put out after `n` blocks. -/
def wordCount (c : TrngCond) (n : Nat) : Nat :=
  if c.state = .squeeze then 8 * (n - 1) + (2 * c.sqLane.toNat + c.sqHalf.toNat) else 8 * n

/-- The bit that a cycle takes. -/
def taken (c : TrngCond) (x : CondIn) : List (BitVec 1) :=
  if c.bitReady && x.bitValid then [x.bitIn] else []

/-- A bound on the cycles until the next one that takes a bit. -/
def busyFor (c : TrngCond) : Nat :=
  match c.state with
  | .absorb => 0
  | .xor => if c.laneIdx = RATE_LANES - 1 then 36 else 1
  | .permKick => 35
  | .permWait => 8 + if c.kecStart then 26 else c.kec.left
  | .squeeze => 8 - (2 * c.sqLane.toNat + c.sqHalf.toNat)

section Words

variable {c : TrngCond} {x : CondIn} {bits : List (BitVec 1)} {n : Nat}

/-- The word on the port is the next one of the output. -/
theorem Tracks.wordOut_eq (h : c.Aligned) (hTracks : c.Tracks bits n) (hOut : c.wordValid = true) :
    c.wordOut = condWord bits (c.wordCount n) ∧ c.wordCount n < 8 * n ∧
      n * COND_RATE ≤ bits.length := by
  have hState : c.state = .squeeze := by simpa [wordValid] using hOut
  simp only [Tracks, hState] at hTracks
  obtain ⟨-, hCount, hPos, hA⟩ := hTracks
  have hLane := h.half hState
  have hHalf : c.sqHalf.toNat < 2 := Bool.toNat_lt c.sqHalf
  have hBlock : c.wordCount n / 8 + 1 = n := by
    rw [wordCount, if_pos hState]
    omega
  have hLaneOf : c.wordCount n % 8 / 2 = c.sqLane.toNat := by
    rw [wordCount, if_pos hState]
    omega
  have hHalfOf : c.wordCount n % 2 = c.sqHalf.toNat := by
    rw [wordCount, if_pos hState]
    omega
  refine ⟨?_, by rw [wordCount, if_pos hState]; omega, Nat.le_of_eq hCount.symm⟩
  rw [condWord, hBlock, hLaneOf, hHalfOf, ← hA]
  simp only [wordOut, kecRdData, kecRdAddr, hState, if_true]
  cases c.sqHalf <;> rfl

/-- Every block gives eight words. -/
theorem Tracks.wordCount_le (hTracks : c.Tracks bits n) (h : c.Aligned) :
    c.wordCount n ≤ 8 * n ∧ n * COND_RATE ≤ bits.length := by
  cases hState : c.state <;> simp only [Tracks, hState] at hTracks
  case absorb =>
    have hCount := hTracks.count
    rw [wordCount, if_neg (by simp [hState])]
    omega
  case xor =>
    have hCount := hTracks.count
    rw [wordCount, if_neg (by simp [hState])]
    omega
  case permKick | permWait =>
    have hCount := hTracks.2.1
    rw [Nat.add_mul] at hCount
    rw [wordCount, if_neg (by simp [hState])]
    omega
  case squeeze =>
    have hLane := h.half hState
    have hHalf : c.sqHalf.toNat < 2 := Bool.toNat_lt c.sqHalf
    obtain ⟨-, hCount, hPos, -⟩ := hTracks
    rw [wordCount, if_pos hState]
    omega

theorem sqHalf_cases (h : c.Aligned) (hState : c.state = .squeeze) (hReady : x.wordReady = true) :
    (c.lastSq = true ∧ 2 * c.sqLane.toNat + c.sqHalf.toNat = 7 ∧ (c.advance x).state = .absorb) ∨
      ((c.advance x).state = .squeeze ∧
        2 * (c.advance x).sqLane.toNat + (c.advance x).sqHalf.toNat =
          2 * c.sqLane.toNat + c.sqHalf.toNat + 1) := by
  have hLane := h.half hState
  cases hLast : c.lastSq with
  | true =>
    have hBoth : c.sqLane = OUT_LANES - 1 ∧ c.sqHalf = true := by simpa [lastSq] using hLast
    have hNat : c.sqLane.toNat = 3 := by rw [hBoth.1]; rfl
    refine .inl ⟨rfl, ?_, ?_⟩
    · rw [hNat, hBoth.2]
      rfl
    · simp only [advance, hState, hReady, hLast, if_true]
  | false =>
    refine .inr ?_
    cases hHalf : c.sqHalf with
    | true =>
      have hNe : c.sqLane.toNat ≠ 3 := by
        intro hEq
        have hThree : c.sqLane = OUT_LANES - 1 := BitVec.eq_of_toNat_eq hEq
        rw [lastSq, hThree, hHalf] at hLast
        cases hLast
      have hSucc : (c.sqLane + 1).toNat = c.sqLane.toNat + 1 := by
        rw [BitVec.toNat_add]
        simp
        omega
      simp only [advance, hState, hReady, hLast, hHalf, if_true, Bool.false_eq_true, if_false, hSucc]
      exact ⟨trivial, by simp; omega⟩
    | false =>
      simp only [advance, hState, hReady, hLast, hHalf, if_true, Bool.false_eq_true, if_false]
      exact ⟨trivial, by simp⟩

/-- A cycle takes a bit, or puts out a word, or neither. -/
theorem Tracks.next (h : c.Aligned) (hTracks : c.Tracks bits n) (hReady : x.wordReady = true) :
    ∃ n', (c.next x).Tracks (bits ++ c.taken x) n' ∧
      (c.next x).wordCount n' = c.wordCount n + c.wordValid.toNat := by
  cases hState : c.state with
  | absorb =>
    have hAfter : (c.next x).state ≠ .squeeze := by
      change (c.advance x).state ≠ .squeeze
      simp only [advance, hState]
      split_ifs <;> simp
    refine ⟨n, ?_, ?_⟩
    · cases hBit : x.bitValid with
      | true =>
        have hTaken : c.taken x = [x.bitIn] := by simp [taken, bitReady, hState, hBit]
        rw [hTaken]
        exact hTracks.absorb_bit h hState hBit
      | false =>
        have hTaken : c.taken x = [] := by simp [taken, hBit]
        rw [hTaken, List.append_nil]
        exact hTracks.absorb_none h hState hBit
    · rw [wordCount, wordCount, if_neg hAfter, if_neg (by simp [hState])]
      simp [wordValid, hState]
  | xor =>
    have hAfter : (c.next x).state ≠ .squeeze := by
      rcases advance_xor (x := x) hState with hEnds | hEnds
      all_goals
        change (c.advance x).state ≠ .squeeze
        simp [hEnds]
    refine ⟨n, ?_, ?_⟩
    · rw [show c.taken x = [] by simp [taken, bitReady, hState], List.append_nil]
      exact hTracks.xor h hState
    · rw [wordCount, wordCount, if_neg hAfter, if_neg (by simp [hState])]
      simp [wordValid, hState]
  | permKick =>
    have hAfter : (c.next x).state = .permWait := by
      change (c.advance x).state = .permWait
      simp only [advance, hState]
    refine ⟨n, ?_, ?_⟩
    · rw [show c.taken x = [] by simp [taken, bitReady, hState], List.append_nil]
      exact hTracks.permKick h hState
    · rw [wordCount, wordCount, if_neg (by simp [hAfter]), if_neg (by simp [hState])]
      simp [wordValid, hState]
  | permWait =>
    obtain ⟨n', hNext, hEnds⟩ := hTracks.permWait (x := x) h hState
    refine ⟨n', ?_, ?_⟩
    · rw [show c.taken x = [] by simp [taken, bitReady, hState], List.append_nil]
      exact hNext
    · rw [show c.wordValid = false by simp [wordValid, hState], wordCount, wordCount,
        if_neg (show ¬c.state = .squeeze by simp [hState])]
      rcases hEnds with ⟨rfl, hAfter⟩ | ⟨rfl, hAfter⟩
      · rw [if_neg (by simp [hAfter])]
        rfl
      · have hFirst : (c.next x).sqLane = 0 ∧ (c.next x).sqHalf = false := by
          change (c.advance x).state = .squeeze at hAfter
          change (c.advance x).sqLane = 0 ∧ (c.advance x).sqHalf = false
          simp only [advance, hState] at hAfter ⊢
          split_ifs at hAfter ⊢
          exact ⟨rfl, rfl⟩
        rw [if_pos hAfter, hFirst.1, hFirst.2, Nat.add_sub_cancel]
        rfl
  | squeeze =>
    refine ⟨n, ?_, ?_⟩
    · rw [show c.taken x = [] by simp [taken, bitReady, hState], List.append_nil]
      exact hTracks.squeeze h hState
    · have hPos : 0 < n := by
        simp only [Tracks, hState] at hTracks
        exact hTracks.2.2.1
      rw [show c.wordValid = true by simp [wordValid, hState], wordCount, wordCount, if_pos hState]
      rcases sqHalf_cases h hState hReady with ⟨-, hSeven, hEnds⟩ | ⟨hEnds, hSucc⟩
      · have hAfter : (c.next x).state = .absorb := hEnds
        rw [if_neg (by simp [hAfter]), hSeven]
        simp
        omega
      · have hAfter : (c.next x).state = .squeeze := hEnds
        have hSucc' : 2 * (c.next x).sqLane.toNat + (c.next x).sqHalf.toNat =
            2 * c.sqLane.toNat + c.sqHalf.toNat + 1 := hSucc
        rw [if_pos hAfter, hSucc']
        rfl

/-! ### The cycles without a bit -/

theorem busyFor_absorb (hState : c.state = .absorb) : c.busyFor = 0 := by
  simp only [busyFor, hState]

/-- The cycles without a bit are counted down, and the shift register is empty at their end. -/
theorem Tracks.busyFor_next (h : c.Aligned) (hTracks : c.Tracks bits n) (hReady : x.wordReady = true)
    (hState : c.state ≠ .absorb) :
    (c.next x).busyFor + 1 ≤ c.busyFor ∧ (c.next x).bitCnt = 0 := by
  obtain ⟨hSt, -, hCnt, -⟩ := fields_next c x
  cases hWas : c.state with
  | absorb => exact absurd hWas hState
  | xor =>
    simp only [Tracks, hWas] at hTracks
    have hZero := hTracks.bitCnt
    by_cases hLast : c.laneIdx = RATE_LANES - 1
    · simp only [advance, hWas, if_pos hLast] at hSt hCnt
      simp only [busyFor, hSt, hWas, if_pos hLast]
      exact ⟨Nat.le_refl 36, hCnt.trans hZero⟩
    · simp only [advance, hWas, if_neg hLast] at hSt hCnt
      simp only [busyFor, hSt, hWas, if_neg hLast]
      exact ⟨Nat.le_refl 1, hCnt.trans hZero⟩
  | permKick =>
    simp only [Tracks, hWas] at hTracks
    have hKick : (c.next x).kecStart = true := by
      change (c.advance x).kecStart = true
      rw [(advance_flags c x).1, hWas]
      rfl
    simp only [advance, hWas] at hSt hCnt
    simp only [busyFor, hSt, hWas, hKick, if_true]
    exact ⟨Nat.le_refl 35, hCnt.trans hTracks.1.bitCnt⟩
  | permWait =>
    simp only [Tracks, hWas] at hTracks
    have hLeft := KeccakF1600.left_pos h.inRound
    have hKick' : (c.next x).kecStart = false := by
      change (c.advance x).kecStart = false
      rw [(advance_flags c x).1, hWas]
      rfl
    cases hOver : !c.kecStart && c.kec.done with
    | true =>
      obtain ⟨hKick, -⟩ := Bool.and_eq_true_iff.mp hOver
      rw [Bool.not_eq_true'] at hKick
      have hFirst : (c.next x).sqLane = 0 ∧ (c.next x).sqHalf = false := by
        change (c.advance x).sqLane = 0 ∧ (c.advance x).sqHalf = false
        simp only [advance, hWas, hOver, if_true]
        exact ⟨trivial, trivial⟩
      simp only [advance, hWas, hOver, h.block, if_true] at hSt hCnt
      refine ⟨?_, hCnt.trans hTracks.1.bitCnt⟩
      simp only [busyFor, hSt, hWas, hKick, hFirst.1, hFirst.2, Bool.false_eq_true, if_false]
      simp
      omega
    | false =>
      simp only [advance, hWas, hOver, Bool.false_eq_true, if_false] at hSt hCnt
      refine ⟨?_, hCnt.trans hTracks.1.bitCnt⟩
      simp only [busyFor, hSt, hWas, hKick', Bool.false_eq_true, if_false]
      cases hKick : c.kecStart with
      | true =>
        have hIdle : c.kec.busy = false :=
          Bool.eq_false_iff.mpr fun hRuns =>
            absurd ((h.runs hRuns).2.symm.trans hKick) Bool.false_ne_true
        have hLeft' : (c.next x).kec.left = 25 := KeccakF1600.left_start hIdle hKick
        rw [if_pos rfl]
        omega
      | false =>
        have hRuns : c.kec.busy = true := by
          rw [← Bool.not_eq_false]
          intro hIdle
          rw [hKick, h.waits hWas hKick hIdle] at hOver
          cases hOver
        have hLeft' : (c.next x).kec.left < c.kec.left := KeccakF1600.left_next h.inRound hRuns
        rw [if_neg Bool.false_ne_true]
        omega
  | squeeze =>
    simp only [Tracks, hWas] at hTracks
    have hZero : (c.next x).bitCnt = 0 := by
      rw [hCnt, ← hTracks.1.bitCnt]
      simp only [advance, hWas]
      split_ifs <;> rfl
    refine ⟨?_, hZero⟩
    rcases sqHalf_cases h hWas hReady with ⟨-, hSeven, hEnds⟩ | ⟨hEnds, hSucc⟩
    · rw [hEnds] at hSt
      simp only [busyFor, hSt, hWas, hSeven]
      omega
    · rw [hEnds] at hSt
      have hSucc' : 2 * (c.next x).sqLane.toNat + (c.next x).sqHalf.toNat =
          2 * c.sqLane.toNat + c.sqHalf.toNat + 1 := hSucc
      have hLane := h.half hWas
      have hHalf : c.sqHalf.toNat < 2 := Bool.toNat_lt c.sqHalf
      simp only [busyFor, hSt, hWas, hSucc']
      omega

/-- A bit leaves the state, or ends a lane. -/
theorem busyFor_bit (hState : c.state = .absorb) (hBit : x.bitValid = true) :
    ((c.next x).state = .absorb ∧ (c.next x).bitCnt.toNat = c.bitCnt.toNat + 1) ∨
      (c.bitCnt.toNat = 63 ∧ (c.next x).state ≠ .absorb ∧ (c.next x).busyFor ≤ 36) := by
  obtain ⟨hSt, -, hCnt, -⟩ := fields_next c x
  by_cases hLast : c.bitCnt = 63
  · simp only [advance, hState, hBit, if_true, if_pos hLast] at hSt hCnt
    refine .inr ⟨by rw [hLast]; rfl, by simp [hSt], ?_⟩
    simp only [busyFor, hSt]
    split_ifs <;> omega
  · have hNe : c.bitCnt.toNat ≠ 63 := fun hEq => hLast (BitVec.eq_of_toNat_eq hEq)
    simp only [advance, hState, hBit, if_true, if_neg hLast] at hSt hCnt
    refine .inl ⟨hSt, ?_⟩
    rw [hCnt, BitVec.toNat_add]
    simp
    omega

theorem absorb_without_bit (hState : c.state = .absorb) (hBit : x.bitValid = false) :
    (c.next x).state = .absorb ∧ (c.next x).bitCnt = c.bitCnt := by
  obtain ⟨hSt, -, hCnt, -⟩ := fields_next c x
  simp only [advance, hState, hBit, Bool.false_eq_true, if_false] at hSt hCnt
  exact ⟨hSt, hCnt⟩

end Words

end TrngCond

end PqcHsm
