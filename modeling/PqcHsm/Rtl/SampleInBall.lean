import PqcHsm.Rtl.PolySamplers
import Mathlib.Data.Finset.Card
import Mathlib.Data.List.GetD

/-!
# The challenge sampler

`mldsa_sample_in_ball` beside the algorithm of the standard. The swap takes a cycle of its own, so
the algorithm is a byte ahead of the registers there.
-/

namespace PqcHsm

structure BallCfg where
  tau : BitVec 7
  ctb : BitVec 7
  seed : BitVec 512

inductive BallSt where
  | sign
  | byte
  | place
  | done

structure BallCore where
  scnt : BitVec 4
  signs : BitVec 64
  ii : BitVec 8
  bb : BitVec 8
  cc : BitVec 8 → BitVec 2

/-- `START_I` -/
def startI (tau : BitVec 7) : BitVec 8 := (256 - tau.setWidth 9 : BitVec 9).setWidth 8

def ballHdrByte (cfg : BallCfg) (i : BitVec 7) : BitVec 8 := cfg.seed.extractLsb' (8 * i.toNat) 8

def ballHdrByteNxt (cfg : BallCfg) (i : BitVec 7) : BitVec 8 :=
  ballHdrByte cfg (if cfg.ctb ≤ i + 1 then cfg.ctb - 1 else i + 1)

def BallCore.curSign (c : BallCore) : BitVec 2 := if c.signs.getLsbD 0 then -1 else 1

/-- `c[ii]` takes the old `c[bb]`, and `c[bb]` the sign, which stays where both are one. -/
def BallCore.swap (c : BallCore) : BallCore :=
  { c with
    cc := Function.update (Function.update c.cc c.ii (c.cc c.bb)) c.bb c.curSign
    signs := c.signs >>> 1 }

def BallCore.shift (c : BallCore) (outData : BitVec 8) : BallCore :=
  { c with signs := outData ++ c.signs.extractLsb' 8 56 }

def BallCore.own (outValid : Bool) (outData : BitVec 8) (c : BallCore) :
    BallSt → Option BallSt × BallCore
  | .sign =>
    if outValid then
      if c.scnt = 7 then (some .byte, c.shift outData)
      else (some .sign, { c.shift outData with scnt := c.scnt + 1 })
    else (some .sign, c)
  | .byte =>
    if outValid then (some (if outData ≤ c.ii then .place else .byte), { c with bb := outData })
    else (some .byte, c)
  | .place =>
    if c.ii = 255 then (some .done, c.swap) else (some .byte, { c.swap with ii := c.ii + 1 })
  | .done => (none, c)

/-- `mldsa_sample_in_ball`, with what a reset leaves in `ii` and `cc`. -/
def sampleInBall (ii : BitVec 8) (cc : BitVec 8 → BitVec 2) :
    SamplerParts 7 BallCfg BallSt BallCore where
  reset := ⟨0, 0, ii, 0, cc⟩
  last cfg := cfg.ctb - 1
  hdrByte := ballHdrByte
  hdrByteNxt := ballHdrByteNxt
  init cfg c := { c with scnt := 0, ii := startI cfg.tau, cc := fun _ => 0 }
  rest c := c
  first := .sign
  outReady r _ :=
    match r with
    | .sign => true
    | .byte => true
    | _ => false
  own _ outValid outData r c := c.own outValid outData r

/-! ### The algorithm -/

/-- `BytesToBits` -/
def bytesToBits (bytes : List (BitVec 8)) (k : Nat) : Bool := (bytes.getD (k / 8) 0).getLsbD (k % 8)

structure Ball where
  head : List (BitVec 8)
  i : Nat
  c : Nat → Int

/-- `c_i ← c_j` and then `c_j ← (-1)^h[i + τ - 256]`. -/
def Ball.place (tau j : Nat) (s : Ball) : Ball :=
  { s with
    i := s.i + 1
    c := Function.update (Function.update s.c s.i (s.c j)) j
      (if bytesToBits s.head (s.i + tau - 256) then -1 else 1) }

/-- `SampleInBall` behind its header: eight bytes of signs, and then an index below or at `i` for
every `i`. -/
def ballReader (tau : Nat) : Reader (BitVec 8) Ball where
  start := ⟨[], 256 - tau, fun _ => 0⟩
  feed s b :=
    if s.head.length < 8 then { s with head := s.head ++ [b] }
    else if s.i < b.toNat then s
    else s.place tau b.toNat
  full s := 256 ≤ s.i

/-- The coefficients that are not zero: `i + τ - 256` of them, all below `i`. -/
def Ball.Sparse (tau : Nat) (s : Ball) (ones : Finset Nat) : Prop :=
  256 ≤ s.i + tau ∧ ones.card + 256 = s.i + tau ∧ (∀ k ∈ ones, k < s.i ∧ (s.c k = 1 ∨ s.c k = -1)) ∧
    ∀ k, k ∉ ones → s.c k = 0

section Reader

variable {tau : Nat} {s : Ball} {ones : Finset Nat}

theorem Ball.Sparse.place (hSparse : s.Sparse tau ones) {j : Nat} (hj : j ≤ s.i) :
    ∃ ones', (s.place tau j).Sparse tau ones' := by
  obtain ⟨hLow, hCard, hOnes, hZero⟩ := hSparse
  have hNew : s.i ∉ ones := fun hIn => Nat.lt_irrefl _ (hOnes s.i hIn).1
  have hSign : (s.place tau j).c j = 1 ∨ (s.place tau j).c j = -1 := by
    rw [Ball.place]
    dsimp only
    rw [Function.update_self]
    split
    · exact .inr rfl
    · exact .inl rfl
  have hOther (k : Nat) (hk : k ≠ j) : (s.place tau j).c k = if k = s.i then s.c j else s.c k := by
    rw [Ball.place]
    dsimp only
    rw [Function.update_of_ne hk]
    split
    · rename_i hEq
      rw [hEq, Function.update_self]
    · rename_i hNe
      exact Function.update_of_ne hNe _ _
  have hMore : 256 ≤ (s.place tau j).i + tau := by
    change 256 ≤ s.i + 1 + tau
    omega
  -- the value that moves to `i` is one of the old ones, or the index drawn is new
  by_cases hOld : j ∈ ones
  · have hBelow := (hOnes j hOld).1
    refine ⟨insert s.i ones, hMore, ?_, ?_, ?_⟩
    · rw [Finset.card_insert_of_notMem hNew]
      change _ = s.i + 1 + tau
      omega
    · intro k hk
      obtain rfl | hIn := Finset.mem_insert.mp hk
      · refine ⟨Nat.lt_succ_self _, ?_⟩
        rw [hOther _ (Nat.ne_of_gt hBelow), if_pos rfl]
        exact (hOnes j hOld).2
      · refine ⟨Nat.lt_succ_of_lt (hOnes k hIn).1, ?_⟩
        obtain rfl | hNe := eq_or_ne k j
        · exact hSign
        · rw [hOther k hNe, if_neg (Nat.ne_of_lt (hOnes k hIn).1)]
          exact (hOnes k hIn).2
    · intro k hk
      have hNot := Finset.mem_insert.not.mp hk
      have hNe : k ≠ j := fun hEq => hNot (.inr (hEq ▸ hOld))
      rw [hOther k hNe, if_neg fun hEq => hNot (.inl hEq)]
      exact hZero k fun hIn => hNot (.inr hIn)
  · refine ⟨insert j ones, by simp [Ball.place]; omega, ?_, ?_, ?_⟩
    · rw [Finset.card_insert_of_notMem hOld]
      change _ = s.i + 1 + tau
      omega
    · intro k hk
      obtain rfl | hIn := Finset.mem_insert.mp hk
      · exact ⟨Nat.lt_succ_of_le hj, hSign⟩
      · have hNe : k ≠ j := fun hEq => hOld (hEq ▸ hIn)
        refine ⟨Nat.lt_succ_of_lt (hOnes k hIn).1, ?_⟩
        rw [hOther k hNe, if_neg (Nat.ne_of_lt (hOnes k hIn).1)]
        exact (hOnes k hIn).2
    · intro k hk
      have hNot := Finset.mem_insert.not.mp hk
      have hNe : k ≠ j := fun hEq => hNot (.inl hEq)
      rw [hOther k hNe]
      split
      · exact hZero j hOld
      · exact hZero k fun hIn => hNot (.inr hIn)

theorem ballReader_sparse (hTau : tau ≤ 256) (bs : List (BitVec 8)) :
    ∃ ones, ((ballReader tau).read bs).Sparse tau ones := by
  induction bs using List.reverseRecOn with
  | nil =>
    refine ⟨∅, ?_, ?_, ?_, ?_⟩
    · change 256 ≤ 256 - tau + tau
      omega
    · change 0 + 256 = 256 - tau + tau
      omega
    · intro k hk
      exact absurd hk (Finset.notMem_empty k)
    · intro k _
      rfl
  | append_singleton bs b ih =>
    obtain ⟨ones, hSparse⟩ := ih
    rw [Reader.read_concat]
    simp only [ballReader]
    split
    · exact ⟨ones, hSparse⟩
    · split
      · exact ⟨ones, hSparse⟩
      · exact hSparse.place (Nat.le_of_not_lt ‹_›)

/-- Where the algorithm stops it has drawn an index for every `i`. -/
theorem ballReader_stops (hTau : 0 < tau) {bs : List (BitVec 8)}
    (hStops : (ballReader tau).Stops bs) :
    ((ballReader tau).read bs).i = 256 := by
  obtain ⟨hFull, hBefore⟩ := hStops
  have hEnd : 256 ≤ ((ballReader tau).read bs).i := of_decide_eq_true hFull
  induction bs using List.reverseRecOn with
  | nil =>
    change 256 ≤ 256 - tau at hEnd
    omega
  | append_singleton bs b _ =>
    have hNe : bs ≠ bs ++ [b] := by
      intro hEq
      have hLen := congrArg List.length hEq
      rw [List.length_append, List.length_singleton] at hLen
      omega
    have hLess : ¬256 ≤ ((ballReader tau).read bs).i :=
      of_decide_eq_false (hBefore bs (List.prefix_append _ _) hNe)
    have hStep : ((ballReader tau).read (bs ++ [b])).i ≤ ((ballReader tau).read bs).i + 1 := by
      rw [Reader.read_concat]
      simp only [ballReader]
      split
      · exact Nat.le_succ _
      · split
        · exact Nat.le_succ _
        · exact Nat.le_refl _
    omega

end Reader

/-! ### The registers and the algorithm -/

/-- The registers while indices are drawn. -/
structure BallCore.Draws (tau : Nat) (c : BallCore) (s : Ball) : Prop where
  head : s.head.length = 8
  low : 256 ≤ s.i + tau
  index : c.ii.toNat = s.i
  coeffs : ∀ a, (c.cc a).toInt = s.c a.toNat
  signs : ∀ k, s.i + tau - 256 + k < 64 →
    c.signs.getLsbD k = bytesToBits s.head (s.i + tau - 256 + k)

/-- The registers while the signs come in. -/
structure BallCore.Signs (tau : Nat) (c : BallCore) (bs : List (BitVec 8)) : Prop where
  count : c.scnt.toNat = bs.length
  few : bs.length < 8
  read : (ballReader tau).read bs = ⟨bs, 256 - tau, fun _ => 0⟩
  index : c.ii.toNat = 256 - tau
  coeffs : ∀ a, c.cc a = 0
  signs : ∀ k < 8 * bs.length, c.signs.getLsbD (64 - 8 * bs.length + k) = bytesToBits bs k

def BallCore.Runs (tau : Nat) : BallSt → BallCore → List (BitVec 8) → Prop
  | .sign, c, bs => c.Signs tau bs ∧ (ballReader tau).Open bs
  | .byte, c, bs => c.Draws tau ((ballReader tau).read bs) ∧ (ballReader tau).Open bs
  | .place, c, bs => ∃ bs', bs = bs' ++ [c.bb] ∧ c.Draws tau ((ballReader tau).read bs') ∧
      (ballReader tau).Open bs' ∧ c.bb.toNat ≤ c.ii.toNat
  | .done, c, bs => (ballReader tau).Stops bs ∧
      ∀ a, (c.cc a).toInt = ((ballReader tau).read bs).c a.toNat

section Step

variable {tau : Nat} {c : BallCore} {bs : List (BitVec 8)} {b : BitVec 8}

theorem getLsbD_shift (c : BallCore) (b : BitVec 8) (k : Nat) :
    (c.shift b).signs.getLsbD k =
      if k < 56 then c.signs.getLsbD (k + 8) else b.getLsbD (k - 56) := by
  change (b ++ c.signs.extractLsb' 8 56 : BitVec 64).getLsbD k = _
  rw [BitVec.getLsbD_append]
  split
  · rename_i hLow
    rw [BitVec.getLsbD_extractLsb', decide_eq_true hLow, Bool.true_and, Nat.add_comm]
  · rfl

theorem bytesToBits_append (bs : List (BitVec 8)) (b : BitVec 8) {k : Nat}
    (hk : k < 8 * (bs.length + 1)) :
    bytesToBits (bs ++ [b]) k =
      if k < 8 * bs.length then bytesToBits bs k else b.getLsbD (k - 8 * bs.length) := by
  rw [bytesToBits, bytesToBits]
  split
  · rw [List.getD_append _ _ _ _ (by omega)]
  · have hByte : k / 8 = bs.length := by omega
    have hBit : k % 8 = k - 8 * bs.length := by omega
    rw [List.getD_append_right _ _ _ _ (by omega), hByte, Nat.sub_self, hBit]
    rfl

/-- A byte of signs goes in. -/
theorem BallCore.Signs.shift (hSigns : c.Signs tau bs) :
    (∀ k < 8 * (bs ++ [b]).length,
      (c.shift b).signs.getLsbD (64 - 8 * (bs ++ [b]).length + k) = bytesToBits (bs ++ [b]) k) ∧
      (ballReader tau).read (bs ++ [b]) = ⟨bs ++ [b], 256 - tau, fun _ => 0⟩ := by
  have hFew := hSigns.few
  have hLength : (bs ++ [b]).length = bs.length + 1 := List.length_append
  constructor
  · intro k hk
    rw [hLength] at hk ⊢
    rw [getLsbD_shift c b, bytesToBits_append bs b hk]
    by_cases hOld : k < 8 * bs.length
    · have hPlace : 64 - 8 * (bs.length + 1) + k + 8 = 64 - 8 * bs.length + k := by omega
      rw [if_pos hOld, if_pos (by omega), hPlace]
      exact hSigns.signs k hOld
    · have hPlace : 64 - 8 * (bs.length + 1) + k - 56 = k - 8 * bs.length := by omega
      rw [if_neg hOld, if_neg (by omega), hPlace]
  · rw [Reader.read_concat, hSigns.read]
    simp only [ballReader, hFew, if_true]

theorem BallCore.Draws.of_regs {c' : BallCore} {s : Ball} (hDraws : c.Draws tau s)
    (hIi : c'.ii = c.ii) (hCc : c'.cc = c.cc) (hSigns : c'.signs = c.signs) : c'.Draws tau s := by
  obtain ⟨hHead, hLow, hIndex, hCoeffs, hBits⟩ := hDraws
  constructor
  · exact hHead
  · exact hLow
  · rwa [hIi]
  · rwa [hCc]
  · rwa [hSigns]

/-- Behind the signs every byte is an index. -/
theorem feed_index {s : Ball} (hHead : s.head.length = 8) :
    (ballReader tau).feed s b = if s.i < b.toNat then s else s.place tau b.toNat := by
  change (if s.head.length < 8 then _ else _) = _
  rw [if_neg (by omega)]

theorem full_ballReader (s : Ball) : (ballReader tau).full s = decide (256 ≤ s.i) := rfl

theorem BallCore.Runs.of_sign (hTau : 0 < tau ∧ tau ≤ 64) (hRuns : BallCore.Runs tau .sign c bs) :
    (c.own true b .sign).1.elim (BallCore.Runs tau .done) (BallCore.Runs tau) (c.own true b .sign).2
      (bs ++ [b]) := by
  obtain ⟨hSigns, hOpen⟩ := hRuns
  obtain ⟨hBits, hRead⟩ := hSigns.shift (b := b)
  have hFew := hSigns.few
  have hCount := hSigns.count
  have hLength : (bs ++ [b]).length = bs.length + 1 := List.length_append
  have hMore : (ballReader tau).Open (bs ++ [b]) := by
    apply hOpen.concat
    rw [← Reader.read_concat, hRead, full_ballReader]
    change decide (256 ≤ 256 - tau) = false
    exact decide_eq_false (by omega)
  rw [BallCore.own, if_pos rfl]
  by_cases hLast : c.scnt = 7
  · have hEight : (bs ++ [b]).length = 8 := by
      rw [hLength, ← hCount, hLast]
      rfl
    rw [if_pos hLast]
    refine ⟨?_, hMore⟩
    rw [hRead]
    constructor
    · exact hEight
    · change 256 ≤ 256 - tau + tau
      omega
    · exact hSigns.index
    · intro a
      change (c.cc a).toInt = 0
      rw [hSigns.coeffs]
      rfl
    · intro k hk
      dsimp only at hk ⊢
      rw [hEight] at hBits
      have hBit := hBits (256 - tau + tau - 256 + k) (by omega)
      have hZero : 256 - tau + tau - 256 = 0 := by omega
      rw [hZero, Nat.zero_add] at hBit ⊢
      rw [Nat.zero_add] at hBit
      exact hBit
  · rw [if_neg hLast]
    have hSeven : bs.length ≠ 7 := by
      rw [← hCount]
      intro hEq
      exact hLast (BitVec.eq_of_toNat_eq hEq)
    refine ⟨⟨?_, ?_, hRead, hSigns.index, hSigns.coeffs, hBits⟩, hMore⟩
    · change (c.scnt + 1).toNat = _
      rw [hLength, BitVec.toNat_add, hCount]
      apply Nat.mod_eq_of_lt
      change bs.length + 1 < 16
      omega
    · omega

/-- An index comes in. -/
theorem BallCore.Runs.of_byte (hRuns : BallCore.Runs tau .byte c bs) :
    (c.own true b .byte).1.elim (BallCore.Runs tau .done) (BallCore.Runs tau) (c.own true b .byte).2
      (bs ++ [b]) := by
  obtain ⟨hDraws, hOpen⟩ := hRuns
  have hLess : c.ii.toNat < 256 := c.ii.isLt
  rw [BallCore.own, if_pos rfl]
  by_cases hDrawn : b ≤ c.ii
  · rw [if_pos hDrawn]
    exact ⟨bs, rfl, hDraws.of_regs rfl rfl rfl, hOpen, BitVec.le_def.mp hDrawn⟩
  · have hAbove : ((ballReader tau).read bs).i < b.toNat := by
      rw [BitVec.le_def] at hDrawn
      rw [← hDraws.index]
      exact Nat.lt_of_not_le hDrawn
    have hSame : (ballReader tau).feed ((ballReader tau).read bs) b = (ballReader tau).read bs := by
      rw [feed_index hDraws.head, if_pos hAbove]
    rw [if_neg hDrawn]
    refine ⟨?_, hOpen.concat ?_⟩
    · rw [Reader.read_concat, hSame]
      exact hDraws.of_regs rfl rfl rfl
    · rw [hSame, full_ballReader, ← hDraws.index]
      exact decide_eq_false (Nat.not_le_of_lt hLess)

/-- The swap, which the algorithm has made already. -/
theorem BallCore.Draws.swap {s : Ball} (hTau : tau ≤ 64) (hDraws : c.Draws tau s) :
    (∀ a, (c.swap.cc a).toInt = (s.place tau c.bb.toNat).c a.toNat) ∧
      ∀ k, s.i + tau - 256 + (k + 1) < 64 →
        c.swap.signs.getLsbD k = bytesToBits s.head (s.i + tau - 256 + (k + 1)) := by
  obtain ⟨hHead, hLow, hIndex, hCoeffs, hBits⟩ := hDraws
  constructor
  · intro a
    change (Function.update (Function.update c.cc c.ii (c.cc c.bb)) c.bb c.curSign a).toInt =
      Function.update (Function.update s.c s.i (s.c c.bb.toNat)) c.bb.toNat _ a.toNat
    by_cases hDrawn : a = c.bb
    · have hLess := c.ii.isLt
      have hBit := hBits 0 (by omega)
      rw [hDrawn, Function.update_self, Function.update_self, BallCore.curSign, hBit, Nat.add_zero]
      cases bytesToBits s.head (s.i + tau - 256) with
      | false => rfl
      | true => rfl
    · have hNat : a.toNat ≠ c.bb.toNat := fun hEq => hDrawn (BitVec.eq_of_toNat_eq hEq)
      rw [Function.update_of_ne hDrawn, Function.update_of_ne hNat]
      by_cases hHere : a = c.ii
      · rw [hHere, hIndex, Function.update_self, Function.update_self]
        exact hCoeffs c.bb
      · have hThere : a.toNat ≠ s.i := by
          rw [← hIndex]
          exact fun hEq => hHere (BitVec.eq_of_toNat_eq hEq)
        rw [Function.update_of_ne hHere, Function.update_of_ne hThere]
        exact hCoeffs a
  · intro k hk
    change (c.signs >>> 1).getLsbD k = _
    rw [BitVec.getLsbD_ushiftRight, Nat.add_comm 1 k]
    exact hBits (k + 1) hk

theorem BallCore.Runs.of_place (hTau : tau ≤ 64) (hRuns : BallCore.Runs tau .place c bs) (v : Bool)
    (b : BitVec 8) :
    (c.own v b .place).1.elim (BallCore.Runs tau .done) (BallCore.Runs tau) (c.own v b .place).2
      bs := by
  obtain ⟨bs', rfl, hDraws, hOpen, hLe⟩ := hRuns
  obtain ⟨hCoeffs, hBits⟩ := hDraws.swap hTau
  have hIndex := hDraws.index
  have hNext : (ballReader tau).feed ((ballReader tau).read bs') c.bb =
      ((ballReader tau).read bs').place tau c.bb.toNat := by
    rw [feed_index hDraws.head, if_neg (by omega)]
  rw [BallCore.own]
  by_cases hLast : c.ii = 255
  · have hEnd : ((ballReader tau).read bs').i = 255 := by
      rw [← hIndex, hLast]
      rfl
    rw [if_pos hLast]
    refine ⟨hOpen.stops ?_, ?_⟩
    · rw [hNext, full_ballReader]
      change decide (256 ≤ ((ballReader tau).read bs').i + 1) = true
      rw [hEnd]
      rfl
    · rw [Reader.read_concat, hNext]
      exact hCoeffs
  · have hMore : c.ii.toNat + 1 < 256 := by
      have hLess := c.ii.isLt
      have hNe : c.ii.toNat ≠ (255 : BitVec 8).toNat := fun hEq => hLast (BitVec.eq_of_toNat_eq hEq)
      change c.ii.toNat ≠ 255 at hNe
      omega
    have hSucc : (c.ii + 1).toNat = c.ii.toNat + 1 := by
      rw [BitVec.toNat_add]
      apply Nat.mod_eq_of_lt
      change c.ii.toNat + 1 < 256
      exact hMore
    rw [if_neg hLast]
    refine ⟨?_, hOpen.concat ?_⟩
    · rw [Reader.read_concat, hNext]
      have hLow := hDraws.low
      constructor
      · exact hDraws.head
      · change 256 ≤ ((ballReader tau).read bs').i + 1 + tau
        omega
      · change (c.ii + 1).toNat = ((ballReader tau).read bs').i + 1
        omega
      · exact hCoeffs
      · intro k hk
        rw [Ball.place] at hk ⊢
        dsimp only at hk ⊢
        have hPlace : ((ballReader tau).read bs').i + tau - 256 + (k + 1) =
            ((ballReader tau).read bs').i + 1 + tau - 256 + k := by omega
        have hBit := hBits k
        rw [hPlace] at hBit
        exact hBit hk
    · rw [hNext, full_ballReader]
      change decide (256 ≤ ((ballReader tau).read bs').i + 1) = false
      exact decide_eq_false (by omega)

end Step

/-- A number of signs and a length that the registers can hold. -/
structure BallCfg.Valid (cfg : BallCfg) : Prop where
  tau : 0 < cfg.tau.toNat ∧ cfg.tau.toNat ≤ 64
  ctb : 0 < cfg.ctb.toNat ∧ cfg.ctb.toNat ≤ 64

def BallCore.Begun (cfg : BallCfg) (c : BallCore) : Prop :=
  c.scnt = 0 ∧ c.ii = startI cfg.tau ∧ ∀ a, c.cc a = 0

section Configured

variable {cfg : BallCfg} {ii : BitVec 8} {cc : BitVec 8 → BitVec 2}

theorem toNat_startI (hTau : 0 < cfg.tau.toNat ∧ cfg.tau.toNat ≤ 64) :
    (startI cfg.tau).toNat = 256 - cfg.tau.toNat := by
  rw [startI, BitVec.toNat_setWidth, BitVec.toNat_sub, BitVec.toNat_setWidth]
  change (2 ^ 9 - cfg.tau.toNat % 2 ^ 9 + 256) % 2 ^ 9 % 2 ^ 8 = _
  omega

theorem length_bytesLe {w : Nat} (v : BitVec w) (n : Nat) : (bytesLe v n).length = n := by
  rw [bytesLe, List.length_map, List.length_range]

theorem ballHdrByte_eq (cfg : BallCfg) (i : BitVec 7) (hi : i.toNat < cfg.ctb.toNat) :
    (bytesLe cfg.seed cfg.ctb.toNat)[i.toNat]? = some (ballHdrByte cfg i) := by
  rw [bytesLe, List.getElem?_map, List.getElem?_range hi]
  rfl

theorem ball_samples (hCfg : cfg.Valid) :
    Samples (sampleInBall ii cc) cfg (bytesLe cfg.seed cfg.ctb.toNat) (BallCore.Begun cfg)
      (BallCore.Runs cfg.tau.toNat) (BallCore.Runs cfg.tau.toNat .done) where
  last := by
    have hCtb := hCfg.ctb
    rw [length_bytesLe]
    change (cfg.ctb - 1).toNat + 1 = _
    rw [BitVec.toNat_sub]
    change (2 ^ 7 - 1 + cfg.ctb.toNat) % 2 ^ 7 + 1 = _
    omega
  byte i hi := by
    rw [length_bytesLe] at hi
    exact ballHdrByte_eq cfg i hi
  nxt i hi := by
    rw [length_bytesLe] at hi
    have hCtb := hCfg.ctb
    have hSucc : (i + 1).toNat = i.toNat + 1 := by
      rw [BitVec.toNat_add]
      apply Nat.mod_eq_of_lt
      change i.toNat + 1 < 128
      omega
    have hInside : ¬cfg.ctb ≤ i + 1 := by
      rw [BitVec.le_def, hSucc]
      omega
    change _ = some (ballHdrByteNxt cfg i)
    rw [ballHdrByteNxt, if_neg hInside, ← hSucc]
    exact ballHdrByte_eq cfg (i + 1) (by omega)
  init c := ⟨rfl, rfl, fun _ => rfl⟩
  rest c hBegun := hBegun
  first c hBegun := by
    obtain ⟨hCount, hIndex, hZero⟩ := hBegun
    have hTau := hCfg.tau
    refine ⟨⟨congrArg BitVec.toNat hCount, Nat.zero_lt_succ 7, rfl, ?_, hZero, ?_⟩, ?_⟩
    · exact (congrArg BitVec.toNat hIndex).trans (toNat_startI hTau)
    · intro k hk
      exact absurd hk (Nat.not_lt_zero k)
    · apply Reader.open_nil
      change decide (256 ≤ 256 - cfg.tau.toNat) = false
      exact decide_eq_false (by omega)
  own r c bs v b hRuns := by
    cases r with
    | sign =>
      cases v with
      | false => exact hRuns
      | true => exact hRuns.of_sign hCfg.tau
    | byte =>
      cases v with
      | false => exact hRuns
      | true => exact hRuns.of_byte
    | place => exact hRuns.of_place hCfg.tau.2 v b
    | done => exact hRuns
  keeps c bs hEnds := hEnds

/-- Two cycles for a byte, and the last ones. -/
def ballRank (last : Nat) : BallSt → BallCore → Nat → Nat
  | .sign, _, t => 2 * (last - t) + 2
  | .byte, _, t => 2 * (last - t) + 2
  | .place, _, t => 2 * (last - t) + 3
  | .done, _, _ => 1

theorem ball_falls {stream : Nat → BitVec 8} {last : Nat}
    (hStops : (ballReader cfg.tau.toNat).Stops ((List.range last).map stream)) :
    Falls (sampleInBall ii cc) cfg (BallCore.Begun cfg) (BallCore.Runs cfg.tau.toNat) stream
      (ballRank last) (2 * last + 2) where
  first c _ := Nat.le_refl _
  waits r c t b _ hReady := by
    cases r with
    | sign => exact ⟨rfl, rfl, rfl⟩
    | byte => exact ⟨rfl, rfl, rfl⟩
    | place => exact nomatch hReady
    | done => exact nomatch hReady
  moves r c t v b hRuns hFire _ r' hNext := by
    cases r with
    | sign =>
      have hMore := hRuns.2.lt_of_stops hStops
      have hByte := hFire rfl
      have hRank : ballRank last r' ((sampleInBall ii cc).own cfg v b .sign c).2 (t + 1) =
          2 * (last - (t + 1)) + 2 := by
        rw [hByte] at hNext ⊢
        change (c.own true b .sign).1 = some r' at hNext
        rw [BallCore.own, if_pos rfl] at hNext
        split at hNext
        · rw [← Option.some.inj hNext]
          rfl
        · rw [← Option.some.inj hNext]
          rfl
      rw [hByte] at hRank ⊢
      change ballRank last r' _ (t + 1) < 2 * (last - t) + 2
      rw [hRank]
      omega
    | byte =>
      have hMore := hRuns.2.lt_of_stops hStops
      have hByte := hFire rfl
      have hRank : ballRank last r' ((sampleInBall ii cc).own cfg v b .byte c).2 (t + 1) ≤
          2 * (last - (t + 1)) + 3 := by
        rw [hByte] at hNext ⊢
        change (c.own true b .byte).1 = some r' at hNext
        rw [BallCore.own, if_pos rfl] at hNext
        rw [← Option.some.inj hNext]
        split
        · exact Nat.le_refl _
        · exact Nat.le_succ _
      rw [hByte] at hRank ⊢
      change ballRank last r' _ (t + 1) < 2 * (last - t) + 2
      omega
    | place =>
      change (c.own v b .place).1 = some r' at hNext
      rw [BallCore.own] at hNext
      split at hNext
      · rw [← Option.some.inj hNext]
        change 1 < 2 * (last - t) + 3
        omega
      · rw [← Option.some.inj hNext]
        exact Nat.lt_succ_self _
    | done => exact nomatch hNext

end Configured

/-- The registers hold the polynomial of the algorithm, which has `τ` coefficients of 1 or -1 and is
zero elsewhere. -/
def BallCore.Holds (tau : Nat) (c : BallCore) (s : Ball) : Prop :=
  (∀ a, (c.cc a).toInt = s.c a.toNat) ∧
    ∃ ones : Finset Nat, ones.card = tau ∧ (∀ k ∈ ones, k < 256 ∧ (s.c k = 1 ∨ s.c k = -1)) ∧
      ∀ k, k ∉ ones → s.c k = 0

theorem sampleInBall_reads {ii : BitVec 8} {cc : BitVec 8 → BitVec 2} {cfg : BallCfg}
    (hCfg : cfg.Valid) {ins : Nat → SamplerIn BallCfg} {n : Nat}
    (hBegins : Begins (sampleInBall ii cc) cfg ins n) :
    ReadsAs (sampleInBall ii cc) (bytesLe cfg.seed cfg.ctb.toNat) (ballReader cfg.tau.toNat)
      (BallCore.Holds cfg.tau.toNat) ins n := by
  have hTau := hCfg.tau
  apply (ball_samples hCfg).readsAs _ _ hBegins
  · rintro c bs ⟨hStops, hStored⟩
    obtain ⟨ones, -, hCard, hOnes, hZero⟩ :=
      ballReader_sparse (Nat.le_trans hTau.2 (by decide)) bs
    have hEnd := ballReader_stops hTau.1 hStops
    rw [hEnd] at hCard hOnes
    exact ⟨hStops, hStored, ones, by omega, hOnes, hZero⟩
  · intro stream last hStops
    exact ⟨ballRank last, 2 * last + 2, ball_falls hStops⟩

/-- The three samplers are the algorithms of the standard. -/
theorem samplers_read :
    (∀ (cfg : UniformCfg) (ins : Nat → SamplerIn UniformCfg) (n : Nat),
      Begins polyUniform cfg ins n →
        ReadsAs polyUniform (polyHeader cfg.seed 32 cfg.nonce) rejNttPoly UniformCore.Holds ins n) ∧
    (∀ (cfg : EtaCfg) (ins : Nat → SamplerIn EtaCfg) (n : Nat), cfg.eta = 2 ∨ cfg.eta = 4 →
      Begins polyEta cfg ins n →
        ReadsAs polyEta (polyHeader cfg.seed 64 cfg.nonce) (rejBoundedPoly cfg.eta.toNat)
          EtaCore.Holds ins n) ∧
    (∀ (ii : BitVec 8) (cc : BitVec 8 → BitVec 2) (cfg : BallCfg) (ins : Nat → SamplerIn BallCfg)
      (n : Nat), cfg.Valid → Begins (sampleInBall ii cc) cfg ins n →
        ReadsAs (sampleInBall ii cc) (bytesLe cfg.seed cfg.ctb.toNat) (ballReader cfg.tau.toNat)
          (BallCore.Holds cfg.tau.toNat) ins n) :=
  ⟨fun _ _ _ hBegins => polyUniform_reads hBegins,
    fun _ _ _ hEta hBegins => polyEta_reads hEta hBegins,
    fun _ _ _ _ _ hCfg hBegins => sampleInBall_reads hCfg hBegins⟩

/-- Inputs that start a sampler whenever it is idle, with a sponge that always takes a byte and
always gives a zero. -/
def readyInputs {ξ : Type} (cfg : ξ) (_ : Nat) : SamplerIn ξ := ⟨cfg, true, true, true, 0⟩

theorem begins_readyInputs {w : Nat} {ξ ρ κ : Type} (P : SamplerParts w ξ ρ κ) (cfg : ξ) :
    Begins P cfg (readyInputs cfg) 0 :=
  ⟨rfl, rfl, fun _ _ _ => rfl⟩

theorem squeezes_readyInputs {w : Nat} {ξ ρ κ : Type} (P : SamplerParts w ξ ρ κ) (cfg : ξ) :
    Squeezes P (fun _ => 0) (readyInputs cfg) 0 :=
  ⟨fun k _ _ _ => ⟨k, Nat.le_refl k, rfl⟩, fun k _ _ _ => ⟨k, Nat.le_refl k, rfl⟩,
    fun _ _ _ _ => rfl⟩

/-- Eight bytes of signs and one index are enough for one sign. -/
theorem ballReader_one_stops : (ballReader 1).Stops ((List.range 9).map fun _ => 0) := by
  constructor
  · decide
  · intro p hp hNe
    rw [List.prefix_iff_eq_take] at hp
    have hLength : p.length < 9 := by
      by_contra hLong
      rw [List.take_of_length_le (by simpa using hLong)] at hp
      exact hNe hp
    have hEach : ∀ m < 9, (ballReader 1).full
        ((ballReader 1).read (((List.range 9).map fun _ => 0).take m)) = false := by decide
    rw [hp]
    exact hEach p.length hLength

theorem samplers_read_zeros :
    ReadsAs polyUniform (polyHeader (0 : BitVec 256) 32 7) rejNttPoly UniformCore.Holds
        (readyInputs ⟨0, 7⟩) 0 ∧
      ReadsAs polyEta (polyHeader (0 : BitVec 512) 64 7) (rejBoundedPoly 4) EtaCore.Holds
        (readyInputs ⟨4, 0, 7⟩) 0 ∧
      ∃ k > 0,
        ((sampler (sampleInBall 0 fun _ => 3)).after (readyInputs ⟨1, 32, 0⟩) k).done = true ∧
        (sampled (sampleInBall 0 fun _ => 3) (readyInputs ⟨1, 32, 0⟩) k).taken =
          (List.range 9).map fun _ => 0 := by
  obtain ⟨hUniform, hEta, hBall⟩ := samplers_read
  refine ⟨hUniform ⟨0, 7⟩ _ 0 (begins_readyInputs _ _),
    hEta ⟨4, 0, 7⟩ _ 0 (.inr rfl) (begins_readyInputs _ _), ?_⟩
  have hReads := hBall 0 (fun _ => 3) ⟨1, 32, 0⟩ _ 0 ⟨by decide, by decide⟩ (begins_readyInputs _ _)
  obtain ⟨k, hk, -, -, hDone, hTaken⟩ :=
    hReads.finishes _ 9 ballReader_one_stops (squeezes_readyInputs _ _)
  exact ⟨k, hk, hDone, hTaken⟩

end PqcHsm
