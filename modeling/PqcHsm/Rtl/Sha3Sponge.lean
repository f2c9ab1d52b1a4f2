import PqcHsm.Rtl.Sha3Lanes

/-!
# The SHA-3 core computes the sponge

What a monitor of the streams has seen since the last start is compared with the sponge over the
permutation of the core: the lanes are those of the bytes accepted, and the bytes delivered are its
output. It holds from every state in which a start or a zeroization may come.
-/

namespace PqcHsm

/-- An operation, as the streams show it: what the start latched, and the bytes since then. -/
structure Sha3Op where
  rate : BitVec 8
  suffix : BitVec 8
  accepted : List (BitVec 8)
  delivered : List (BitVec 8)

/-- The mark of the padding. -/
def padMark : BitVec 8 := 0x80

/-- Byte `i` of the sponge's output for the bytes accepted. -/
def Sha3Op.output (o : Sha3Op) (i : Nat) : BitVec 8 :=
  keccakSponge.output o.rate.toNat o.suffix padMark o.accepted i

example : (⟨136, 0x06, [], []⟩ : Sha3Op).output 0 = 0xa7 := by decide +kernel

def Sha3Op.prefixOf (o : Sha3Op) (k : Nat) : List (BitVec 8) := (List.range k).map o.output

namespace Sha3Core

/-- The bytes that the two handshakes of a cycle add. -/
def handshakes (c : Sha3Core) (x : Sha3In) (o : Sha3Op) : Sha3Op :=
  { o with
    accepted := if c.inReady && x.inValid then o.accepted ++ [x.inData] else o.accepted
    delivered := if c.outValid && x.outReady then o.delivered ++ [c.outData x] else o.delivered }

/-- The operation after a cycle; a zeroization without a start ends it. -/
def observe (op : Option Sha3Op) (c : Sha3Core) (x : Sha3In) : Option Sha3Op :=
  if x.start then some ⟨x.rateBytes, x.suffix, [], []⟩
  else if c.zeroizeRise x then none
  else op.map (c.handshakes x)

/-- `L` are the lanes of the bytes accepted, and `bpos` is the next position. -/
structure Fills (c : Sha3Core) (o : Sha3Op) (L : Lanes) : Prop where
  pos : c.bpos.toNat = o.accepted.length % o.rate.toNat
  lanes : L = keccakSponge.absorbed o.rate.toNat o.accepted
  first : o.delivered = []

/-- `L` are the lanes that the next byte comes from, and `sq_bpos` is its position. -/
structure Pours (c : Sha3Core) (o : Sha3Op) (L : Lanes) : Prop where
  pos : c.sqBpos.toNat = o.delivered.length % o.rate.toNat
  lanes : L = keccakSponge.perm^[o.delivered.length / o.rate.toNat]
    (keccakSponge.sealed o.rate.toNat o.suffix padMark o.accepted)
  told : o.delivered = o.prefixOf o.delivered.length

/-- What the lanes are for after a permutation. -/
def Resumes (c : Sha3Core) (o : Sha3Op) (L : Lanes) : Prop :=
  if c.ret = .squeeze then c.Pours o L else c.Fills o L

/-- The registers in an operation with a legal rate. -/
def Tracks (c : Sha3Core) (o : Sha3Op) : Prop :=
  match c.state with
  | .idle => False
  | .zwait | .clr => c.bpos = 0 ∧ o.accepted = [] ∧ o.delivered = []
  | .absorb | .padSuf => c.Fills o c.kec.A
  | .padLast =>
    o.delivered = [] ∧
      c.kec.A = (keccakSponge.absorbed o.rate.toNat o.accepted).xorByte
        (o.accepted.length % o.rate.toNat) o.suffix
  | .permKick => c.Resumes o c.kec.A.permute
  | .permWait => c.Resumes o c.due
  | .squeeze => c.Pours o c.kec.A

/-- The registers without an operation. -/
def Rests (c : Sha3Core) : Prop :=
  c.state = .idle ∨ ((c.state = .zwait ∨ c.state = .clr) ∧ c.ret = .idle)

/-- The registers in an operation. -/
structure Serves (c : Sha3Core) (o : Sha3Op) : Prop where
  runs : c.state ≠ .idle
  clears : c.state = .zwait ∨ c.state = .clr → c.ret = .absorb
  rate : c.rateR = o.rate
  suffix : c.suffixR = o.suffix
  tracks : LegalRate o.rate → c.Tracks o

def Follows (c : Sha3Core) : Option Sha3Op → Prop
  | none => c.Rests
  | some o => c.Serves o

section Streams

variable {c : Sha3Core} {x : Sha3In} {o : Sha3Op}

/-- A position below a legal rate moves on without a wrap. -/
theorem toNat_succ_pos {p r : BitVec 8} {n : Nat} (hRate : LegalRate r) (hp : p.toNat = n % r.toNat) :
    (p + 1).toNat = n % r.toNat + 1 ∧ (p + 1 = r ↔ n % r.toNat + 1 = r.toNat) := by
  have hMod := Nat.mod_lt n hRate.1
  have hMax := hRate.2.1
  have hNat : (p + 1).toNat = n % r.toNat + 1 := by
    rw [BitVec.toNat_add, hp]
    simp
    omega
  exact ⟨hNat, by rw [← BitVec.toNat_inj, hNat]⟩

/-- The byte at the next position is the next one of the output. -/
theorem Pours.output_eq {L : Lanes} (h : c.Pours o L) :
    L.byteAt c.sqBpos.toNat = o.output o.delivered.length := by
  rw [h.pos, h.lanes]
  rfl

theorem handshakes_absorb (hState : c.state = .absorb) :
    c.handshakes x o =
      { o with accepted := if x.inValid then o.accepted ++ [x.inData] else o.accepted } := by
  simp [handshakes, inReady, outValid, hState]

theorem handshakes_squeeze (hState : c.state = .squeeze) :
    c.handshakes x o =
      { o with delivered := if x.outReady then o.delivered ++ [c.outData x] else o.delivered } := by
  simp [handshakes, inReady, outValid, hState]

theorem handshakes_eq (hIn : c.state ≠ .absorb) (hOut : c.state ≠ .squeeze) :
    c.handshakes x o = o := by
  simp [handshakes, inReady, outValid, hIn, hOut]

theorem fields_next (hAgain : (x.start || c.zeroizeRise x) = false) :
    (c.next x).state = (c.advance x).state ∧ (c.next x).ret = (c.advance x).ret ∧
      (c.next x).bpos = (c.advance x).bpos ∧ (c.next x).sqBpos = (c.advance x).sqBpos := by
  unfold next
  rw [hAgain, if_neg Bool.false_ne_true]
  exact ⟨rfl, rfl, rfl, rfl⟩

/-! ### The bytes accepted -/

theorem Fills.full {L : Lanes} (h : c.Fills o L) {b : BitVec 8} {c' : Sha3Core}
    (hFull : o.accepted.length % o.rate.toNat + 1 = o.rate.toNat) (hPos : c'.bpos = 0) :
    c'.Fills { o with accepted := o.accepted ++ [b] } (L.xorByte c.bpos.toNat b).permute := by
  obtain ⟨hMod, -⟩ := Sponge.position_of_full hFull
  constructor
  · rw [hPos, List.length_append, List.length_singleton, hMod]
    rfl
  · rw [Sponge.absorbed_concat_full b hFull, h.pos, h.lanes]
    rfl
  · exact h.first

theorem Fills.more {L : Lanes} (h : c.Fills o L) {b : BitVec 8} {c' : Sha3Core}
    (hLt : o.accepted.length % o.rate.toNat + 1 < o.rate.toNat)
    (hPos : c'.bpos.toNat = o.accepted.length % o.rate.toNat + 1) :
    c'.Fills { o with accepted := o.accepted ++ [b] } (L.xorByte c.bpos.toNat b) := by
  obtain ⟨hMod, -⟩ := Sponge.position_of_lt hLt
  constructor
  · rw [hPos, List.length_append, List.length_singleton, hMod]
  · rw [Sponge.absorbed_concat b hLt, h.pos, h.lanes]
    rfl
  · exact h.first

theorem Tracks.absorb (h : c.Aligned) (hTracks : c.Tracks o) (hRate : LegalRate o.rate)
    (hR : c.rateR = o.rate) (hState : c.state = .absorb)
    (hAgain : (x.start || c.zeroizeRise x) = false) : (c.next x).Tracks (c.handshakes x o) := by
  simp only [Tracks, hState] at hTracks
  have hLanes := lanes_absorb (x := x) h hState
  obtain ⟨hSt, hRet, hPos, -⟩ := fields_next hAgain
  obtain ⟨hNat, hEnd⟩ := toNat_succ_pos hRate hTracks.pos
  have hMod := Nat.mod_lt o.accepted.length hRate.1
  rw [handshakes_absorb hState]
  cases hIn : x.inValid with
  | true =>
    rw [hIn, if_pos rfl] at hLanes
    rw [if_pos rfl]
    by_cases hFull : c.bpos + 1 = o.rate
    · simp only [advance, hState, hIn, hR, if_true, if_pos hFull] at hSt hRet hPos
      simp only [Tracks, hSt, Resumes, hRet, hLanes]
      exact hTracks.full (hEnd.mp hFull) hPos
    · simp only [advance, hState, hIn, hR, if_true, if_neg hFull] at hSt hPos
      simp only [Tracks, hSt, hLanes]
      have hNe : ¬o.accepted.length % o.rate.toNat + 1 = o.rate.toNat :=
        fun hEq => hFull (hEnd.mpr hEq)
      apply hTracks.more (by omega)
      rw [hPos, hNat]
  | false =>
    rw [hIn, if_neg Bool.false_ne_true] at hLanes
    rw [if_neg Bool.false_ne_true]
    have hSame : (c.next x).Fills o (c.next x).kec.A := by
      rw [hLanes]
      refine ⟨?_, hTracks.lanes, hTracks.first⟩
      rw [hPos, ← hTracks.pos]
      simp only [advance, hState, hIn, Bool.false_eq_true, if_false]
      split_ifs <;> rfl
    simp only [advance, hState, hIn, Bool.false_eq_true, if_false] at hSt
    cases hFlush : x.inFlush <;> simp only [hFlush, Bool.false_eq_true, if_true, if_false] at hSt
    all_goals
      simp only [Tracks, hSt]
      exact hSame

/-! ### The padding and the permutations -/

theorem Tracks.padSuf (h : c.Aligned) (hTracks : c.Tracks o) (hS : c.suffixR = o.suffix)
    (hState : c.state = .padSuf) (hAgain : (x.start || c.zeroizeRise x) = false) :
    (c.next x).Tracks o := by
  simp only [Tracks, hState] at hTracks
  have hSt := (fields_next hAgain).1
  simp only [advance, hState] at hSt
  simp only [Tracks, hSt]
  rw [lanes_padSuf h hState, hTracks.pos, hTracks.lanes, hS]
  exact ⟨hTracks.first, rfl⟩

theorem Tracks.padLast (h : c.Aligned) (hTracks : c.Tracks o) (hRate : LegalRate o.rate)
    (hR : c.rateR = o.rate) (hState : c.state = .padLast)
    (hAgain : (x.start || c.zeroizeRise x) = false) : (c.next x).Tracks o := by
  simp only [Tracks, hState] at hTracks
  obtain ⟨hFirst, hLanes⟩ := hTracks
  obtain ⟨hSt, hRet, -, hPos⟩ := fields_next hAgain
  simp only [advance, hState] at hSt hRet hPos
  simp only [Tracks, hSt, Resumes, hRet, if_true]
  rw [lanes_padLast h hState (hR ▸ hRate), hLanes, hR]
  constructor
  · rw [hPos, hFirst, List.length_nil, Nat.zero_mod]
    rfl
  · rw [hFirst, List.length_nil, Nat.zero_div, Sponge.sealed_eq o.suffix padMark hRate.1]
    rfl
  · rw [hFirst]
    rfl

/-- What the wait ends with belongs to the same position. -/
theorem Resumes.congr {c' : Sha3Core} {L : Lanes} (h : c.Resumes o L) (hRet : c'.ret = c.ret)
    (hB : c'.bpos = c.bpos) (hSq : c'.sqBpos = c.sqBpos) : c'.Resumes o L := by
  unfold Resumes at h ⊢
  rw [hRet]
  split_ifs at h ⊢ with hOut
  · exact ⟨hSq ▸ h.pos, h.lanes, h.told⟩
  · exact ⟨hB ▸ h.pos, h.lanes, h.first⟩

theorem Tracks.permKick (h : c.Aligned) (hTracks : c.Tracks o) (hState : c.state = .permKick)
    (hAgain : (x.start || c.zeroizeRise x) = false) : (c.next x).Tracks o := by
  simp only [Tracks, hState] at hTracks
  obtain ⟨hSt, hRet, hPos, hSq⟩ := fields_next hAgain
  simp only [advance, hState] at hSt hRet hPos hSq
  simp only [Tracks, hSt]
  rw [due_of_kick h hState hAgain]
  exact hTracks.congr hRet hPos hSq

theorem Tracks.permWait (h : c.Aligned) (hTracks : c.Tracks o) (hState : c.state = .permWait)
    (hAgain : (x.start || c.zeroizeRise x) = false) : (c.next x).Tracks o := by
  simp only [Tracks, hState] at hTracks
  obtain ⟨hSt, hRet, hPos, hSq⟩ := fields_next hAgain
  cases hOver : c.permBusy && c.kec.done with
  | true =>
    obtain ⟨hMark, hDone⟩ := Bool.and_eq_true_iff.mp hOver
    simp only [advance, hState, hOver, if_true] at hSt hRet hPos hSq
    have hResumes := hTracks.congr hRet hPos hSq
    rw [← lanes_of_over (x := x) h hState hMark hDone] at hResumes
    by_cases hOut : c.ret = .squeeze
    · rw [if_pos hOut] at hSt
      simp only [Resumes, hRet, if_pos hOut] at hResumes
      simp only [Tracks, hSt]
      exact hResumes
    · rw [if_neg hOut] at hSt
      simp only [Resumes, hRet, if_neg hOut] at hResumes
      simp only [Tracks, hSt]
      exact hResumes
  | false =>
    simp only [advance, hState, hOver, Bool.false_eq_true, if_false] at hSt hRet hPos hSq
    simp only [Tracks, hSt]
    rw [due_next h hState hOver hAgain]
    exact hTracks.congr hRet hPos hSq

/-! ### The bytes delivered -/

theorem prefixOf_succ (k : Nat) : o.prefixOf (k + 1) = o.prefixOf k ++ [o.output k] := by
  simp [Sha3Op.prefixOf, List.range_succ]

theorem told_concat {b : BitVec 8} (h : o.delivered = o.prefixOf o.delivered.length)
    (hByte : b = o.output o.delivered.length) :
    o.delivered ++ [b] = o.prefixOf (o.delivered ++ [b]).length := by
  rw [List.length_append, List.length_singleton, prefixOf_succ, ← h, hByte]

theorem Tracks.squeeze (h : c.Aligned) (hTracks : c.Tracks o) (hRate : LegalRate o.rate)
    (hR : c.rateR = o.rate) (hState : c.state = .squeeze)
    (hAgain : (x.start || c.zeroizeRise x) = false) : (c.next x).Tracks (c.handshakes x o) := by
  simp only [Tracks, hState] at hTracks
  have hLanes := lanes_squeeze (x := x) h hState
  have hByte : c.outData x = o.output o.delivered.length :=
    (outData_squeeze hState).trans hTracks.output_eq
  obtain ⟨hSt, hRet, -, hPos⟩ := fields_next hAgain
  obtain ⟨hNat, hEnd⟩ := toNat_succ_pos hRate hTracks.pos
  have hMod := Nat.mod_lt o.delivered.length hRate.1
  rw [handshakes_squeeze hState]
  cases hOut : x.outReady with
  | true =>
    rw [if_pos rfl]
    have hTold := told_concat hTracks.told hByte
    by_cases hFull : c.sqBpos + 1 = o.rate
    · obtain ⟨hZero, hDiv⟩ := Sponge.position_of_full (hEnd.mp hFull)
      simp only [advance, hState, hOut, hR, if_true, if_pos hFull] at hSt hRet hPos
      simp only [Tracks, hSt, Resumes, hRet, if_true, hLanes]
      constructor
      · rw [hPos, List.length_append, List.length_singleton, hZero]
        rfl
      · rw [List.length_append, List.length_singleton, hDiv, Function.iterate_succ_apply',
          ← hTracks.lanes]
        rfl
      · exact hTold
    · have hLt : o.delivered.length % o.rate.toNat + 1 < o.rate.toNat := by
        have hNe : ¬o.delivered.length % o.rate.toNat + 1 = o.rate.toNat :=
          fun hEq => hFull (hEnd.mpr hEq)
        omega
      obtain ⟨hSucc, hDiv⟩ := Sponge.position_of_lt hLt
      simp only [advance, hState, hOut, hR, if_true, if_neg hFull] at hSt hPos
      simp only [Tracks, hSt, hLanes]
      constructor
      · rw [hPos, List.length_append, List.length_singleton, hSucc, hNat]
      · rw [List.length_append, List.length_singleton, hDiv]
        exact hTracks.lanes
      · exact hTold
  | false =>
    rw [if_neg Bool.false_ne_true]
    simp only [advance, hState, hOut, Bool.false_eq_true, if_false] at hSt hPos
    simp only [Tracks, hSt, hLanes]
    exact ⟨hPos ▸ hTracks.pos, hTracks.lanes, hTracks.told⟩

/-! ### Every cycle -/

theorem advance_latched : (c.advance x).rateR = c.rateR ∧ (c.advance x).suffixR = c.suffixR := by
  cases hSt : c.state <;> simp only [advance, hSt]
  case absorb | squeeze | clr | permWait => split_ifs <;> exact ⟨rfl, rfl⟩
  all_goals exact ⟨trivial, trivial⟩

theorem Tracks.zwait (hTracks : c.Tracks o) (hState : c.state = .zwait)
    (hAgain : (x.start || c.zeroizeRise x) = false) : (c.next x).Tracks o := by
  simp only [Tracks, hState] at hTracks
  obtain ⟨hSt, -, hPos, -⟩ := fields_next hAgain
  simp only [advance, hState] at hSt hPos
  cases hMark : c.permBusy <;> simp only [hMark, Bool.not_true, Bool.not_false, if_true,
    Bool.false_eq_true, if_false] at hSt
  all_goals
    simp only [Tracks, hSt, hPos]
    exact hTracks

/-- A swept sponge has accepted nothing. -/
theorem Tracks.clr (h : c.Aligned) (hSweep : c.Sweeps) (hTracks : c.Tracks o)
    (hRet : c.ret = .absorb) (hState : c.state = .clr)
    (hAgain : (x.start || c.zeroizeRise x) = false) : (c.next x).Tracks o := by
  simp only [Tracks, hState] at hTracks
  obtain ⟨hZero, hNone, hFirst⟩ := hTracks
  obtain ⟨hSt, -, hPos, -⟩ := fields_next hAgain
  by_cases hLast : c.clrIdx = 24
  · simp only [advance, hState, if_pos hLast, hRet] at hSt hPos
    rw [if_neg (by decide)] at hSt
    simp only [Tracks, hSt, lanes_of_swept (x := x) h hSweep hState hLast]
    constructor
    · rw [hPos, hZero, hNone, List.length_nil, Nat.zero_mod]
      rfl
    · rw [hNone, Sponge.absorbed_nil]
      rfl
    · exact hFirst
  · simp only [advance, hState, if_neg hLast] at hSt hPos
    simp only [Tracks, hSt, hPos]
    exact ⟨hZero, hNone, hFirst⟩

theorem Serves.advance_ne_idle (h : c.Serves o) : (c.advance x).state ≠ .idle := by
  cases hSt : c.state <;> simp only [advance, hSt]
  case idle => exact absurd hSt h.runs
  case clr =>
    rw [h.clears (.inr hSt), if_neg (show ¬Sha3Ret.absorb = .idle by decide)]
    split_ifs <;> exact fun hEq => by cases hEq
  case padSuf | padLast | permKick => exact fun hEq => by cases hEq
  all_goals split_ifs <;> exact fun hEq => by cases hEq

theorem ret_of_clearing (h : c.state = .zwait ∨ c.state = .clr) : (c.advance x).ret = c.ret := by
  rcases h with hSt | hSt <;> simp only [advance, hSt]
  split_ifs <;> rfl

theorem clearing_of_advance (h : (c.advance x).state = .zwait ∨ (c.advance x).state = .clr) :
    c.state = .zwait ∨ c.state = .clr := by
  rcases h with h | h
  · exact .inl (advance_zwait h).1
  · exact (advance_clr h).imp And.left And.left

theorem Serves.next (h : c.Aligned) (hSweep : c.Sweeps) (hServes : c.Serves o)
    (hAgain : (x.start || c.zeroizeRise x) = false) : (c.next x).Serves (c.handshakes x o) := by
  obtain ⟨hSt, hRet, -, -⟩ := fields_next hAgain
  obtain ⟨hR, hS⟩ := advance_latched (c := c) (x := x)
  have hKept : (c.next x).rateR = c.rateR ∧ (c.next x).suffixR = c.suffixR := by
    unfold Sha3Core.next
    rw [hAgain, if_neg Bool.false_ne_true]
    exact ⟨hR, hS⟩
  constructor
  · rw [hSt]
    exact hServes.advance_ne_idle
  · rw [hSt, hRet]
    intro hClears
    have hWas := clearing_of_advance hClears
    rw [ret_of_clearing hWas]
    exact hServes.clears hWas
  · exact hKept.1.trans hServes.rate
  · exact hKept.2.trans hServes.suffix
  · intro hRate
    have hTracks := hServes.tracks hRate
    cases hState : c.state with
    | idle => exact absurd hState hServes.runs
    | clr =>
      rw [handshakes_eq (by simp [hState]) (by simp [hState])]
      exact hTracks.clr h hSweep (hServes.clears (.inr hState)) hState hAgain
    | absorb => exact hTracks.absorb h hRate hServes.rate hState hAgain
    | padSuf =>
      rw [handshakes_eq (by simp [hState]) (by simp [hState])]
      exact hTracks.padSuf h hServes.suffix hState hAgain
    | padLast =>
      rw [handshakes_eq (by simp [hState]) (by simp [hState])]
      exact hTracks.padLast h hRate hServes.rate hState hAgain
    | permKick =>
      rw [handshakes_eq (by simp [hState]) (by simp [hState])]
      exact hTracks.permKick h hState hAgain
    | permWait =>
      rw [handshakes_eq (by simp [hState]) (by simp [hState])]
      exact hTracks.permWait h hState hAgain
    | squeeze => exact hTracks.squeeze h hRate hServes.rate hState hAgain
    | zwait =>
      rw [handshakes_eq (by simp [hState]) (by simp [hState])]
      exact hTracks.zwait hState hAgain

theorem Rests.next (h : c.Rests) (hAgain : (x.start || c.zeroizeRise x) = false) :
    (c.next x).Rests := by
  obtain ⟨hSt, hRet, -, -⟩ := fields_next hAgain
  unfold Rests
  rw [hSt, hRet]
  rcases h with hState | ⟨hState | hState, hBack⟩
  · simp [advance, hState]
  · rw [ret_of_clearing (.inl hState), hBack]
    cases hMark : c.permBusy <;> simp [advance, hState, hMark]
  · rw [ret_of_clearing (.inr hState), hBack]
    by_cases hLast : c.clrIdx = 24
    · simp only [advance, hState, if_pos hLast, hBack]
      exact .inl rfl
    · simp only [advance, hState, if_neg hLast]
      exact .inr ⟨.inr trivial, trivial⟩

/-- A start begins an operation, and a zeroization without one ends it. -/
theorem Follows.next {op : Option Sha3Op} (h : c.Aligned) (hSweep : c.Sweeps)
    (hFollows : c.Follows op) : (c.next x).Follows (observe op c x) := by
  unfold observe
  cases hStart : x.start with
  | true =>
    rw [if_pos rfl]
    have hAgain : (x.start || c.zeroizeRise x) = true := by rw [hStart]; rfl
    unfold Sha3Core.next
    rw [if_pos hAgain]
    simp only [restart, hStart, if_true]
    constructor
    · exact fun hEq => nomatch hEq
    · exact fun _ => rfl
    · rfl
    · rfl
    · exact fun _ => ⟨rfl, rfl, rfl⟩
  | false =>
    rw [if_neg Bool.false_ne_true]
    cases hRise : c.zeroizeRise x with
    | true =>
      rw [if_pos rfl]
      have hAgain : (x.start || c.zeroizeRise x) = true := by rw [hStart, hRise]; rfl
      unfold Sha3Core.next
      rw [if_pos hAgain]
      simp only [restart, hStart, Bool.false_eq_true, if_false]
      exact .inr ⟨.inl rfl, rfl⟩
    | false =>
      rw [if_neg Bool.false_ne_true]
      have hAgain : (x.start || c.zeroizeRise x) = false := by rw [hStart, hRise]; rfl
      cases op with
      | none => exact Rests.next hFollows hAgain
      | some o => exact Serves.next h hSweep hFollows hAgain

end Streams

end Sha3Core

/-! ### Runs -/

section Runs

variable (ins : Nat → Sha3In) (k : Nat)

/-- The core and the operation that the streams show in cycle `k`. -/
def sha3At : Sha3Core := sha3Circuit.after ins k

def sha3OpAt : Option Sha3Op := sha3Circuit.record none Sha3Core.observe ins k

theorem sha3_invariant :
    (sha3At ins k).Aligned ∧ (sha3At ins k).Sweeps ∧ (sha3At ins k).Follows (sha3OpAt ins k) := by
  apply Clocked.invariant_record (C := sha3Circuit)
    (I := fun c op => c.Aligned ∧ c.Sweeps ∧ c.Follows op)
  · refine ⟨Sha3Core.aligned_reset, ⟨?_, ?_⟩, .inl rfl⟩
    · exact fun hEq => nomatch hEq
    · exact fun hEq => nomatch hEq
  · rintro c op x ⟨h, hSweep, hFollows⟩
    exact ⟨h.next, hSweep.next h, hFollows.next h hSweep⟩

end Runs

end PqcHsm
