import PqcHsm.Rtl.Sha3Sponge

/-!
# The streams of the SHA-3 core

In every run the bytes delivered are the output of the sponge, a sponge that falls idle is empty, and
one that is left alone comes to the state it is heading for.
-/

namespace PqcHsm

namespace Sha3Core

/-- Where the sponge goes unless a start or a zeroization comes between. -/
def goal (c : Sha3Core) : Sha3St :=
  match c.state with
  | .zwait | .clr => if c.ret = .idle then .idle else .absorb
  | .padSuf | .padLast => .squeeze
  | .permKick | .permWait => if c.ret = .squeeze then .squeeze else .absorb
  | s => s

/-- A bound on the cycles to the goal. -/
def rank (c : Sha3Core) : Nat :=
  match c.state with
  | .idle | .absorb | .squeeze => 0
  | .zwait => 26 + if c.permBusy then c.kec.left else 0
  | .clr => 25 - c.clrIdx.toNat
  | .padSuf => 29
  | .padLast => 28
  | .permKick => 27
  | .permWait => if c.kecStartR then 26 else c.kec.left

section Progress

variable {c : Sha3Core} {x : Sha3In}

theorem rank_le (h : c.Aligned) : c.rank ≤ 51 := by
  have hLeft := KeccakF1600.left_pos h.inRound
  unfold rank
  split <;> try omega
  all_goals split_ifs <;> omega

theorem state_eq_goal (h : c.Aligned) (hSweep : c.Sweeps) (hRank : c.rank = 0) : c.state = c.goal := by
  have hLeft := KeccakF1600.left_pos h.inRound
  cases hState : c.state <;> simp only [rank, goal, hState] at hRank ⊢
  case clr =>
    obtain ⟨hLe, -⟩ := hSweep.behind hState
    omega
  case permWait => split_ifs at hRank <;> omega
  all_goals omega

/-- Only the end of a sweep leads to the idle state. -/
theorem advance_idle (hWas : c.state ≠ .idle) (hEnds : (c.advance x).state = .idle) :
    c.state = .clr ∧ c.clrIdx = 24 := by
  cases hSt : c.state <;> simp only [advance, hSt] at hEnds
  case idle => exact absurd hSt hWas
  case clr =>
    split_ifs at hEnds with hLast
    exact ⟨rfl, hLast⟩
  case padSuf | padLast | permKick => cases hEnds
  all_goals split_ifs at hEnds

theorem progress_zwait (h : c.Aligned) (hState : c.state = .zwait)
    (hAgain : (x.start || c.zeroizeRise x) = false) :
    (c.next x).rank < c.rank ∧ (c.next x).goal = c.goal := by
  obtain ⟨hSt, hRet, -, -⟩ := fields_next hAgain
  have hStart : c.kecStart x = false := by
    apply h.kecStart_eq_false <;> rw [hState] <;> exact fun hEq => nomatch hEq
  cases hMark : c.permBusy with
  | false =>
    simp only [advance, hState, hMark, Bool.not_false, if_true] at hSt hRet
    simp only [rank, goal, hSt, hRet, hState]
    constructor
    · omega
    · trivial
  | true =>
    simp only [advance, hState, hMark, Bool.not_true, Bool.false_eq_true, if_false] at hSt hRet
    simp only [rank, goal, hSt, hRet, hState, hMark, if_true]
    refine ⟨?_, trivial⟩
    have hMark' : (c.next x).permBusy = if c.kec.done then false else true := by
      change (if c.kecStart x then true else if c.kec.done then false else c.permBusy) = _
      rw [hStart, hMark, if_neg Bool.false_ne_true]
    cases hBusy : c.kec.busy with
    | true =>
      have hLeft : (c.next x).kec.left < c.kec.left := KeccakF1600.left_next h.inRound hBusy
      rw [hMark', h.inRound.notDone hBusy, if_neg Bool.false_ne_true, if_pos rfl]
      omega
    | false =>
      have hLeft := KeccakF1600.left_pos h.inRound
      rw [hMark', h.landed hMark hBusy, if_pos rfl, if_neg Bool.false_ne_true]
      omega

theorem progress_clr (hSweep : c.Sweeps) (hState : c.state = .clr)
    (hAgain : (x.start || c.zeroizeRise x) = false) :
    (c.next x).rank < c.rank ∧ (c.next x).goal = c.goal := by
  obtain ⟨hSt, hRet, -, -⟩ := fields_next hAgain
  obtain ⟨hLe, -⟩ := hSweep.behind hState
  by_cases hLast : c.clrIdx = 24
  · simp only [advance, hState, if_pos hLast] at hSt hRet
    have hNat : c.clrIdx.toNat = 24 := by rw [hLast]; rfl
    by_cases hBack : c.ret = .idle
    · rw [if_pos hBack] at hSt
      simp only [rank, goal, hSt, hState, if_pos hBack, hNat]
      exact ⟨Nat.one_pos, trivial⟩
    · rw [if_neg hBack] at hSt
      simp only [rank, goal, hSt, hState, if_neg hBack, hNat]
      exact ⟨Nat.one_pos, trivial⟩
  · have hNe : c.clrIdx.toNat ≠ 24 := fun hEq => hLast (BitVec.eq_of_toNat_eq hEq)
    have hIdx : (c.next x).clrIdx = c.clrIdx + 1 := by
      unfold Sha3Core.next
      rw [hAgain, if_neg Bool.false_ne_true]
      simp only [advance, hState, if_neg hLast]
    have hNat : (c.clrIdx + 1).toNat = c.clrIdx.toNat + 1 := by
      rw [BitVec.toNat_add]
      simp
      omega
    simp only [advance, hState, if_neg hLast] at hSt hRet
    simp only [rank, goal, hSt, hRet, hState, hIdx, hNat]
    exact ⟨by omega, trivial⟩

theorem progress_permWait (h : c.Aligned) (hState : c.state = .permWait)
    (hAgain : (x.start || c.zeroizeRise x) = false) :
    (c.next x).rank < c.rank ∧ (c.next x).goal = c.goal := by
  obtain ⟨hSt, hRet, -, -⟩ := fields_next hAgain
  have hLeft := KeccakF1600.left_pos h.inRound
  have hKick' : (c.next x).kecStartR = false := by
    rw [(next_of_advance hAgain).2]
    exact kecStartR_advance (by rw [hState]; exact fun hEq => nomatch hEq)
  have hWaits := h.waits hState
  cases hOver : c.permBusy && c.kec.done with
  | true =>
    obtain ⟨hMark, -⟩ := Bool.and_eq_true_iff.mp hOver
    have hKick : c.kecStartR = false := by
      rw [hMark] at hWaits
      simpa using hWaits.symm
    simp only [advance, hState, hOver, if_true] at hSt
    by_cases hOut : c.ret = .squeeze
    · rw [if_pos hOut] at hSt
      simp only [rank, goal, hSt, hState, if_pos hOut, hKick, Bool.false_eq_true, if_false]
      exact ⟨hLeft.1, trivial⟩
    · rw [if_neg hOut] at hSt
      simp only [rank, goal, hSt, hState, if_neg hOut, hKick, Bool.false_eq_true, if_false]
      exact ⟨hLeft.1, trivial⟩
  | false =>
    simp only [advance, hState, hOver, Bool.false_eq_true, if_false] at hSt hRet
    simp only [rank, goal, hSt, hRet, hState, hKick', Bool.false_eq_true, if_false]
    refine ⟨?_, trivial⟩
    cases hKick : c.kecStartR with
    | true =>
      have hLeft' := KeccakF1600.left_pos (h.next (x := x)).inRound
      rw [if_pos rfl]
      omega
    | false =>
      have hMark : c.permBusy = true := by rw [hWaits, hKick]; rfl
      rw [if_neg Bool.false_ne_true]
      apply KeccakF1600.left_next h.inRound
      rw [← Bool.not_eq_false]
      intro hIdle
      rw [hMark, h.landed hMark hIdle] at hOver
      cases hOver

/-- A cycle that leaves the sponge alone brings it nearer to its goal. -/
theorem progress (h : c.Aligned) (hSweep : c.Sweeps) (hRank : c.rank ≠ 0)
    (hAgain : (x.start || c.zeroizeRise x) = false) :
    (c.next x).rank < c.rank ∧ (c.next x).goal = c.goal := by
  obtain ⟨hSt, hRet, -, -⟩ := fields_next hAgain
  cases hState : c.state with
  | idle | absorb | squeeze =>
    simp only [rank, hState] at hRank
    exact absurd rfl hRank
  | zwait => exact progress_zwait h hState hAgain
  | clr => exact progress_clr hSweep hState hAgain
  | permWait => exact progress_permWait h hState hAgain
  | padSuf =>
    simp only [advance, hState] at hSt
    simp [rank, goal, hSt, hState]
  | padLast =>
    simp only [advance, hState] at hSt hRet
    simp [rank, goal, hSt, hRet, hState]
  | permKick =>
    have hKick : (c.next x).kecStartR = true := by
      rw [(next_of_advance hAgain).2]
      simp only [advance, hState]
    simp only [advance, hState] at hSt hRet
    simp [rank, goal, hSt, hRet, hState, hKick]

end Progress

/-- The inputs of the port. -/
structure Sha3Port where
  start : Bool
  wrEn : Bool
  wrAddr : BitVec 5
  wrData : BitVec 64
  rdAddr : BitVec 5

/-- The same cycle with the port driven otherwise. -/
def withPort (x : Sha3In) (e : Sha3Port) : Sha3In :=
  { x with
    extStart := e.start
    extWrEn := e.wrEn
    extWrAddr := e.wrAddr
    extWrData := e.wrData
    extRdAddr := e.rdAddr }

/-- The port of a busy sponge reads zero, and does nothing. -/
theorem port_of_busy {c : Sha3Core} (x : Sha3In) (hBusy : c.busy = true) :
    c.extRdData x = 0 ∧ ∀ e, c.next (withPort x e) = c.next x := by
  have hState : c.state ≠ .idle := by simpa [busy] using hBusy
  constructor
  · rw [extRdData, if_neg hState]
  · intro e
    have hIn : c.kecIn (withPort x e) = c.kecIn x := by
      cases hSt : c.state
      case idle => exact absurd hSt hState
      all_goals
        simp [kecIn, kecStart, kecWrEn, kecWrAddr, kecWrData, kecRdAddr, kecRdData, hSt, withPort]
    have hStart : c.kecStart (withPort x e) = c.kecStart x := congrArg KeccakIn.start hIn
    unfold Sha3Core.next
    rw [hIn, hStart]
    rfl

theorem Tracks.told {c : Sha3Core} {o : Sha3Op} (h : c.Tracks o) :
    o.delivered = o.prefixOf o.delivered.length := by
  have hFirst : o.delivered = [] → o.delivered = o.prefixOf o.delivered.length := by
    intro hNil
    rw [hNil]
    rfl
  have hResumes : ∀ L, c.Resumes o L → o.delivered = o.prefixOf o.delivered.length := by
    intro L hL
    unfold Resumes at hL
    split_ifs at hL
    · exact hL.told
    · exact hFirst hL.first
  cases hState : c.state <;> simp only [Tracks, hState] at h
  case zwait | clr => exact hFirst h.2.2
  case absorb | padSuf => exact hFirst h.first
  case padLast => exact hFirst h.1
  case permKick | permWait => exact hResumes _ h
  case squeeze => exact h.told

end Sha3Core

section Runs

variable (ins : Nat → Sha3In)

/-- Neither a start nor a zeroization in cycle `k`. -/
def LeftAlone (k : Nat) : Prop := ((ins k).start || (sha3At ins k).zeroizeRise (ins k)) = false

/-- A sponge that is left alone comes to its goal. -/
theorem sha3_comes_to_goal (n : Nat) : ∀ k, (sha3At ins k).rank ≤ n →
    (∀ j < n, LeftAlone ins (k + j)) → ∃ j ≤ n, (sha3At ins (k + j)).state = (sha3At ins k).goal := by
  induction n with
  | zero =>
    intro k hRank _
    obtain ⟨h, hSweep, -⟩ := sha3_invariant ins k
    exact ⟨0, Nat.le_refl 0, Sha3Core.state_eq_goal h hSweep (Nat.le_zero.mp hRank)⟩
  | succ n ih =>
    intro k hRank hAlone
    obtain ⟨h, hSweep, -⟩ := sha3_invariant ins k
    by_cases hZero : (sha3At ins k).rank = 0
    · exact ⟨0, Nat.zero_le _, Sha3Core.state_eq_goal h hSweep hZero⟩
    · obtain ⟨hLess, hGoal⟩ := Sha3Core.progress h hSweep hZero (hAlone 0 (Nat.succ_pos n))
      obtain ⟨j, hj, hState⟩ := ih (k + 1) (Nat.le_of_lt_succ (Nat.lt_of_lt_of_le hLess hRank)) (by
        intro j hj
        have hNext := hAlone (j + 1) (by omega)
        rwa [show k + 1 + j = k + (j + 1) by omega])
      refine ⟨j + 1, by omega, ?_⟩
      rw [show k + (j + 1) = k + 1 + j by omega, hState]
      exact hGoal

/-- A sponge that falls idle has just been swept. -/
theorem sha3_idle_is_empty (k : Nat) (hBusy : (sha3At ins k).busy = true)
    (hIdle : (sha3At ins (k + 1)).busy = false) : (sha3At ins (k + 1)).kec.A = Lanes.zero := by
  obtain ⟨h, hSweep, hFollows⟩ := sha3_invariant ins k
  have hWas : (sha3At ins k).state ≠ .idle := by simpa [Sha3Core.busy] using hBusy
  have hNow : (sha3At ins (k + 1)).state = .idle := by simpa [Sha3Core.busy] using hIdle
  cases hAgain : (ins k).start || (sha3At ins k).zeroizeRise (ins k) with
  | true =>
    have hState : (sha3At ins (k + 1)).state = .zwait := (Sha3Core.next_of_restart hAgain).1
    rw [hState] at hNow
    cases hNow
  | false =>
    have hState : (sha3At ins (k + 1)).state = ((sha3At ins k).advance (ins k)).state :=
      (Sha3Core.next_of_advance hAgain).1
    obtain ⟨hSt, hLast⟩ := Sha3Core.advance_idle hWas (hState.symm.trans hNow)
    exact Sha3Core.lanes_of_swept h hSweep hSt hLast

end Runs

end PqcHsm
