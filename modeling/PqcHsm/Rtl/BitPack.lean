import PqcHsm.Library.BitGroups
import PqcHsm.Library.Clocked
import Mathlib.Data.Nat.Init

/-!
# The bit packers

`mldsa_bitpack` takes numbers of some width and gives bytes, `mldsa_bitunpack` takes bytes and gives
numbers of some width. Each holds the bits in between, and takes new ones or gives some away, never
both in one cycle.
-/

namespace PqcHsm

open BitGroups

/-- The mask is looked up; a width that is not in the table counts as twenty. -/
def wMask (w : BitVec 5) : BitVec 20 :=
  if w = 3 then 0x00007
  else if w = 4 then 0x0000F
  else if w = 6 then 0x0003F
  else if w = 10 then 0x003FF
  else if w = 13 then 0x01FFF
  else if w = 18 then 0x3FFFF
  else 0xFFFFF

/-- The widths of the packings of ML-DSA. -/
def packWidths : List (BitVec 5) := [3, 4, 6, 10, 13, 18, 20]

/-! ### The packer -/

structure PackIn where
  clr : Bool
  w : BitVec 5
  inVal : BitVec 20
  inValid : Bool

structure BitPack where
  acc : BitVec 28
  nbits : BitVec 5
  outByte : BitVec 8
  outValid : Bool

namespace BitPack

variable (s : BitPack) (x : PackIn)

def reset : BitPack := ⟨0, 0, 0, false⟩

def inReady : Bool := s.nbits < 8

def next : BitPack :=
  if x.clr then { s with acc := 0, nbits := 0, outValid := false }
  else if x.inValid && s.inReady then
    { s with
      acc := s.acc ||| ((x.inVal &&& wMask x.w).setWidth 28 <<< s.nbits)
      nbits := s.nbits + x.w
      outValid := false }
  else if 8 ≤ s.nbits then
    ⟨s.acc >>> 8, s.nbits - 8, s.acc.setWidth 8, true⟩
  else { s with outValid := false }

end BitPack

def bitPack : Clocked PackIn BitPack := ⟨.reset, BitPack.next⟩

/-! ### The unpacker -/

structure UnpackIn where
  clr : Bool
  w : BitVec 5
  inByte : BitVec 8
  inValid : Bool
  outReady : Bool

structure BitUnpack where
  acc : BitVec 28
  nbits : BitVec 5

namespace BitUnpack

variable (s : BitUnpack) (x : UnpackIn)

def reset : BitUnpack := ⟨0, 0⟩

def outValid : Bool := x.w ≤ s.nbits

def inReady : Bool := s.nbits < x.w

def outVal : BitVec 20 := s.acc.setWidth 20 &&& wMask x.w

def next : BitUnpack :=
  if x.clr then ⟨0, 0⟩
  else if s.outValid x && x.outReady then ⟨s.acc >>> x.w, s.nbits - x.w⟩
  else if x.inValid && s.inReady x then
    ⟨s.acc ||| (x.inByte.setWidth 28 <<< s.nbits), s.nbits + 8⟩
  else s

end BitUnpack

def bitUnpack : Clocked UnpackIn BitUnpack := ⟨.reset, BitUnpack.next⟩

/-! ### What goes in and what comes out -/

/-- Since the last clear: the numbers taken, each with its width, and the bytes given. -/
structure Packed where
  coefs : List (BitVec 5 × BitVec 20)
  bytes : List (BitVec 8)

def Packed.see (m : Packed) (s : BitPack) (x : PackIn) : Packed :=
  if x.clr then ⟨[], []⟩
  else
    { coefs := if x.inValid && s.inReady then m.coefs ++ [(x.w, x.inVal)] else m.coefs
      bytes := if s.outValid then m.bytes ++ [s.outByte] else m.bytes }

def packed (ins : Nat → PackIn) : Nat → Packed := bitPack.record ⟨[], []⟩ Packed.see ins

/-- Since the last clear: the bytes taken, and the numbers given, each with its width. -/
structure Unpacked where
  bytes : List (BitVec 8)
  coefs : List (BitVec 5 × BitVec 20)

def Unpacked.see (m : Unpacked) (s : BitUnpack) (x : UnpackIn) : Unpacked :=
  if x.clr then ⟨[], []⟩
  else
    { bytes := if x.inValid && s.inReady x then m.bytes ++ [x.inByte] else m.bytes
      coefs := if s.outValid x && x.outReady then m.coefs ++ [(x.w, s.outVal x)] else m.coefs }

def unpacked (ins : Nat → UnpackIn) : Nat → Unpacked := bitUnpack.record ⟨[], []⟩ Unpacked.see ins

/-- The low bits of the numbers, one after another. -/
def coefBits (cs : List (BitVec 5 × BitVec 20)) : List Bool :=
  cs.flatMap fun c => bitsOf c.1.toNat c.2.toNat

def byteBits (bs : List (BitVec 8)) : List Bool := stream 8 (bs.map BitVec.toNat)

theorem coefBits_concat (cs : List (BitVec 5 × BitVec 20)) (c : BitVec 5 × BitVec 20) :
    coefBits (cs ++ [c]) = coefBits cs ++ bitsOf c.1.toNat c.2.toNat := by
  rw [coefBits, List.flatMap_append, List.flatMap_cons, List.flatMap_nil, List.append_nil]
  rfl

theorem byteBits_concat (bs : List (BitVec 8)) (b : BitVec 8) :
    byteBits (bs ++ [b]) = byteBits bs ++ bitsOf 8 b.toNat := by
  rw [byteBits, List.map_append, stream_append]
  exact congrArg (byteBits bs ++ ·) (List.append_nil _)

/-! ### The bits held -/

/-- The value an accumulator holds fits the bits counted, and a byte or a number has room above. -/
def Held (acc : BitVec 28) (nbits : BitVec 5) : Prop :=
  acc.toNat < 2 ^ nbits.toNat ∧ nbits.toNat ≤ 27

def heldBits (acc : BitVec 28) (nbits : BitVec 5) : List Bool := bitsOf nbits.toNat acc.toNat

section Held

variable {acc : BitVec 28} {nbits w : BitVec 5}

theorem held_zero : Held 0 0 := ⟨by decide, by decide⟩

theorem width_bounds (hw : w ∈ packWidths) : 3 ≤ w.toNat ∧ w.toNat ≤ 20 := by
  revert hw
  revert w
  decide

theorem wMask_eq (hw : w ∈ packWidths) : (wMask w).toNat = 2 ^ w.toNat - 1 := by
  revert hw
  revert w
  decide

theorem toNat_masked (hw : w ∈ packWidths) (v : BitVec 20) :
    (v &&& wMask w).toNat = v.toNat % 2 ^ w.toNat := by
  rw [BitVec.toNat_and, wMask_eq hw, Nat.and_two_pow_sub_one_eq_mod]

theorem toNat_add_width {n : BitVec 5} (hRoom : nbits.toNat + n.toNat ≤ 27) :
    (nbits + n).toNat = nbits.toNat + n.toNat := by
  rw [BitVec.toNat_add]
  exact Nat.mod_eq_of_lt (by omega)

/-- New bits above the ones held. -/
theorem held_push (hHeld : Held acc nbits) {v : BitVec 28} {n : BitVec 5}
    (hv : v.toNat < 2 ^ n.toNat) (hRoom : nbits.toNat + n.toNat ≤ 27) :
    Held (acc ||| (v <<< nbits.toNat)) (nbits + n) ∧
      heldBits (acc ||| (v <<< nbits.toNat)) (nbits + n) =
        heldBits acc nbits ++ bitsOf n.toNat v.toNat := by
  obtain ⟨hAcc, -⟩ := hHeld
  have hBound : v.toNat * 2 ^ nbits.toNat + acc.toNat < 2 ^ (nbits.toNat + n.toNat) := by
    calc v.toNat * 2 ^ nbits.toNat + acc.toNat
        < v.toNat * 2 ^ nbits.toNat + 2 ^ nbits.toNat := by omega
      _ = (v.toNat + 1) * 2 ^ nbits.toNat := by rw [Nat.add_mul, Nat.one_mul]
      _ ≤ 2 ^ n.toNat * 2 ^ nbits.toNat := Nat.mul_le_mul_right _ hv
      _ = 2 ^ (nbits.toNat + n.toNat) := by rw [Nat.pow_add, Nat.mul_comm]
  have hRegister : 2 ^ (nbits.toNat + n.toNat) ≤ 2 ^ 27 :=
    Nat.pow_le_pow_right (by decide) hRoom
  have hShift : (v <<< nbits.toNat).toNat = v.toNat <<< nbits.toNat := by
    rw [BitVec.toNat_shiftLeft]
    apply Nat.mod_eq_of_lt
    rw [Nat.shiftLeft_eq]
    omega
  have hValue : (acc ||| (v <<< nbits.toNat)).toNat = acc.toNat + v.toNat * 2 ^ nbits.toNat := by
    rw [BitVec.toNat_or, hShift, Nat.or_comm, ← Nat.shiftLeft_add_eq_or_of_lt hAcc,
      Nat.shiftLeft_eq, Nat.add_comm]
  constructor
  · constructor
    · rw [hValue, toNat_add_width hRoom]
      omega
    · rwa [toNat_add_width hRoom]
  · rw [heldBits, hValue, toNat_add_width hRoom, bitsOf_join _ _ hAcc, heldBits]

/-- The low bits given away. -/
theorem held_pop (hHeld : Held acc nbits) {n : BitVec 5} (hn : n.toNat ≤ nbits.toNat) :
    Held (acc >>> n.toNat) (nbits - n) ∧
      heldBits acc nbits =
        bitsOf n.toNat acc.toNat ++ heldBits (acc >>> n.toNat) (nbits - n) := by
  obtain ⟨hAcc, hRoom⟩ := hHeld
  have hValue : (acc >>> n.toNat).toNat = acc.toNat / 2 ^ n.toNat := by
    rw [BitVec.toNat_ushiftRight, Nat.shiftRight_eq_div_pow]
  have hCount : (nbits - n).toNat = nbits.toNat - n.toNat := by
    rw [BitVec.toNat_sub]
    have hWidth := n.isLt
    omega
  have hSplit : nbits.toNat = n.toNat + (nbits.toNat - n.toNat) := by omega
  constructor
  · constructor
    · rw [hValue, hCount, Nat.div_lt_iff_lt_mul (Nat.two_pow_pos _), ← Nat.pow_add,
        Nat.sub_add_cancel hn]
      exact hAcc
    · omega
  · rw [heldBits, heldBits, hValue, hCount]
    conv_lhs => rw [hSplit, bitsOf_add]

end Held

/-! ### The packer loses no bit -/

namespace BitPack

variable {s : BitPack} {m : Packed} {x : PackIn}

/-- The byte that the next cycle shows. -/
def pending (s : BitPack) : List (BitVec 8) := if s.outValid then [s.outByte] else []

structure Carries (s : BitPack) (m : Packed) : Prop where
  held : Held s.acc s.nbits
  bits : coefBits m.coefs = byteBits (m.bytes ++ s.pending) ++ heldBits s.acc s.nbits

theorem see_open (hClr : x.clr = false) :
    m.see s x =
      { coefs := if x.inValid && s.inReady then m.coefs ++ [(x.w, x.inVal)] else m.coefs
        bytes := m.bytes ++ s.pending } := by
  rw [Packed.see, if_neg (by rw [hClr]; exact Bool.false_ne_true), pending]
  cases s.outValid with
  | false => rw [if_neg Bool.false_ne_true, if_neg Bool.false_ne_true, List.append_nil]
  | true => rw [if_pos rfl, if_pos rfl]

theorem inReady_iff : s.inReady = true ↔ s.nbits.toNat < 8 := by
  rw [inReady, decide_eq_true_iff, BitVec.lt_def]
  rfl

theorem next_clr (hClr : x.clr = true) :
    s.next x = { s with acc := 0, nbits := 0, outValid := false } := if_pos hClr

theorem next_accept (hClr : x.clr = false) (hValid : x.inValid = true)
    (hReady : s.nbits.toNat < 8) :
    s.next x = { s with
      acc := s.acc ||| ((x.inVal &&& wMask x.w).setWidth 28 <<< s.nbits.toNat)
      nbits := s.nbits + x.w
      outValid := false } := by
  have hTakes : (x.inValid && s.inReady) = true := by
    rw [hValid, inReady_iff.mpr hReady]
    rfl
  rw [next, if_neg (by rw [hClr]; exact Bool.false_ne_true), if_pos hTakes]
  rfl

theorem next_emit (hClr : x.clr = false) (hTakes : (x.inValid && s.inReady) = false)
    (hFull : 8 ≤ s.nbits.toNat) :
    s.next x = ⟨s.acc >>> 8, s.nbits - 8, s.acc.setWidth 8, true⟩ := by
  have hEight : (8 : BitVec 5) ≤ s.nbits := BitVec.le_def.mpr hFull
  rw [next, if_neg (by rw [hClr]; exact Bool.false_ne_true),
    if_neg (by rw [hTakes]; exact Bool.false_ne_true), if_pos hEight]

theorem next_rest (hClr : x.clr = false) (hValid : x.inValid = false) (hLow : s.nbits.toNat < 8) :
    s.next x = { s with outValid := false } := by
  have hEight : ¬(8 : BitVec 5) ≤ s.nbits := fun h => Nat.not_le_of_lt hLow (BitVec.le_def.mp h)
  rw [next, if_neg (by rw [hClr]; exact Bool.false_ne_true), if_neg (by rw [hValid]; simp),
    if_neg hEight]

theorem Carries.reset : BitPack.reset.Carries ⟨[], []⟩ := by
  constructor
  · exact held_zero
  · rfl

theorem Carries.next (hw : x.w ∈ packWidths) (hCarries : s.Carries m) :
    (s.next x).Carries (m.see s x) := by
  obtain ⟨hHeld, hBits⟩ := hCarries
  cases hClr : x.clr with
  | true =>
    rw [next_clr hClr, Packed.see, if_pos hClr]
    constructor
    · exact held_zero
    · rfl
  | false =>
    rw [see_open hClr]
    cases hTakes : x.inValid && s.inReady with
    | true =>
      obtain ⟨hValid, hReady⟩ := Bool.and_eq_true_iff.mp hTakes
      have hLow := inReady_iff.mp hReady
      have hWidth := width_bounds hw
      have hValue : ((x.inVal &&& wMask x.w).setWidth 28).toNat =
          x.inVal.toNat % 2 ^ x.w.toNat := by
        rw [BitVec.toNat_setWidth, Nat.mod_eq_of_lt (Nat.lt_trans (BitVec.isLt _) (by decide)),
          toNat_masked hw]
      have hFits : ((x.inVal &&& wMask x.w).setWidth 28).toNat < 2 ^ x.w.toNat := by
        rw [hValue]
        exact Nat.mod_lt _ (Nat.two_pow_pos _)
      obtain ⟨hNext, hJoin⟩ := held_push hHeld hFits (by omega)
      rw [next_accept hClr hValid hLow, if_pos rfl]
      constructor
      · exact hNext
      · rw [hJoin, hValue, bitsOf_mod, coefBits_concat, hBits, List.append_assoc]
        exact congrArg (fun bs => byteBits bs ++ _) (List.append_nil _).symm
    | false =>
      rw [if_neg Bool.false_ne_true]
      by_cases hFull : 8 ≤ s.nbits.toNat
      · obtain ⟨hNext, hSplit⟩ := @held_pop _ _ hHeld 8 hFull
        rw [next_emit hClr hTakes hFull]
        constructor
        · exact hNext
        · have hByte : bitsOf 8 (s.acc.setWidth 8).toNat = bitsOf 8 s.acc.toNat := by
            rw [BitVec.toNat_setWidth, bitsOf_mod]
          dsimp only [pending]
          rw [hBits, if_pos rfl, byteBits_concat, hByte, List.append_assoc]
          exact congrArg (byteBits _ ++ ·) hSplit
      · have hLow : s.nbits.toNat < 8 := Nat.lt_of_not_le hFull
        have hValid : x.inValid = false := by
          rwa [inReady_iff.mpr hLow, Bool.and_true] at hTakes
        rw [next_rest hClr hValid hLow]
        constructor
        · exact hHeld
        · dsimp only [pending]
          rw [hBits, if_neg Bool.false_ne_true, List.append_nil]
          rfl

theorem next_full (hClr : x.clr = false) (hValid : x.inValid = false) (hFull : 8 ≤ s.nbits.toNat) :
    (s.next x).nbits.toNat + 8 = s.nbits.toNat := by
  have hWidth := s.nbits.isLt
  rw [next_emit hClr (by rw [hValid]; rfl) hFull, BitVec.toNat_sub]
  change (2 ^ 5 - 8 + s.nbits.toNat) % 2 ^ 5 + 8 = s.nbits.toNat
  omega

end BitPack

/-- The whole bytes of a stream of bits. -/
def wholeBytes (bits : List Bool) : List (BitVec 8) := (groups 8 bits).map (BitVec.ofNat 8)

/-- No number was offered, and nothing cleared, in the four cycles before. -/
def Paused (ins : Nat → PackIn) (n : Nat) : Prop :=
  4 ≤ n ∧ ∀ k < n, n ≤ k + 4 → (ins k).clr = false ∧ (ins k).inValid = false

section Packing

variable {ins : Nat → PackIn} (hWidths : ∀ k, (ins k).w ∈ packWidths)

include hWidths

theorem carries_packed (k : Nat) : (bitPack.after ins k).Carries (packed ins k) := by
  induction k with
  | zero => exact BitPack.Carries.reset
  | succ k ih => exact ih.next (hWidths k)

theorem wholeBytes_packed (k : Nat) :
    wholeBytes (coefBits (packed ins k).coefs) =
      (packed ins k).bytes ++ wholeBytes
        (byteBits (bitPack.after ins k).pending ++
          heldBits (bitPack.after ins k).acc (bitPack.after ins k).nbits) := by
  have hBytes (bs : List (BitVec 8)) :
      (bs.map BitVec.toNat).map (· % 2 ^ 8) = bs.map BitVec.toNat := by
    rw [List.map_map]
    apply List.map_congr_left
    intro b _
    exact Nat.mod_eq_of_lt b.isLt
  have hBack (bs : List (BitVec 8)) : (bs.map BitVec.toNat).map (BitVec.ofNat 8) = bs := by
    rw [List.map_map]
    conv_rhs => rw [← List.map_id bs]
    apply List.map_congr_left
    intro b _
    exact BitVec.ofNat_toNat 8 b
  rw [(carries_packed hWidths k).bits, byteBits, List.map_append, stream_append, List.append_assoc,
    wholeBytes, groups_stream (by decide), List.map_append, hBytes, hBack]
  rfl

theorem packed_paused {n : Nat} (hPaused : Paused ins n) :
    (packed ins n).bytes = wholeBytes (coefBits (packed ins n).coefs) := by
  obtain ⟨hFour, hIdle⟩ := hPaused
  obtain ⟨k, rfl⟩ := Nat.exists_eq_add_of_le' hFour
  have hStill (j : Nat) (hj : j < 4) := hIdle (k + j) (by omega) (by omega)
  have hRest (j : Nat) (hj : j < 4) (hLow : (bitPack.after ins (k + j)).nbits.toNat < 8) :
      bitPack.after ins (k + j + 1) = { bitPack.after ins (k + j) with outValid := false } :=
    BitPack.next_rest (hStill j hj).1 (hStill j hj).2 hLow
  -- A full byte leaves in every cycle until fewer than eight bits are held.
  have hDrain (j : Nat) (hj : j ≤ 4) : (bitPack.after ins (k + j)).nbits.toNat < 8 ∨
      (bitPack.after ins (k + j)).nbits.toNat + 8 * j ≤ 27 := by
    induction j with
    | zero => exact .inr (carries_packed hWidths k).held.2
    | succ j ih =>
      by_cases hLow : (bitPack.after ins (k + j)).nbits.toNat < 8
      · have hSame := hRest j (by omega) hLow
        rw [Nat.add_assoc] at hSame
        rw [hSame]
        exact .inl hLow
      · obtain ⟨hClr, hValid⟩ := hStill j (by omega)
        have hFall := BitPack.next_full hClr hValid (Nat.le_of_not_lt hLow)
        change (bitPack.after ins (k + (j + 1))).nbits.toNat + 8 = _ at hFall
        have hBound := ih (by omega)
        omega
  have hLow : (bitPack.after ins (k + 3)).nbits.toNat < 8 := by
    have hThree := hDrain 3 (by decide)
    omega
  have hLast := hRest 3 (by decide) hLow
  change bitPack.after ins (k + 4) = _ at hLast
  have hNone : (bitPack.after ins (k + 4)).pending = [] := by
    rw [hLast]
    rfl
  have hShort : (heldBits (bitPack.after ins (k + 4)).acc
      (bitPack.after ins (k + 4)).nbits).length < 8 := by
    rw [heldBits, length_bitsOf, hLast]
    exact hLow
  rw [wholeBytes_packed hWidths, hNone]
  change _ = _ ++ wholeBytes (heldBits _ _)
  rw [wholeBytes, groups_short hShort, List.map_nil, List.append_nil]

end Packing

/-! ### The unpacker gives them back -/

namespace BitUnpack

variable {s : BitUnpack} {m : Unpacked} {x : UnpackIn}

structure Carries (s : BitUnpack) (m : Unpacked) : Prop where
  held : Held s.acc s.nbits
  bits : byteBits m.bytes = coefBits m.coefs ++ heldBits s.acc s.nbits
  small : ∀ c ∈ m.coefs, c.2.toNat < 2 ^ c.1.toNat

theorem outValid_iff : s.outValid x = true ↔ x.w.toNat ≤ s.nbits.toNat := by
  rw [outValid, decide_eq_true_iff, BitVec.le_def]

theorem inReady_iff : s.inReady x = true ↔ s.nbits.toNat < x.w.toNat := by
  rw [inReady, decide_eq_true_iff, BitVec.lt_def]

theorem toNat_outVal (hw : x.w ∈ packWidths) :
    (s.outVal x).toNat = s.acc.toNat % 2 ^ x.w.toNat := by
  have hDvd : 2 ^ x.w.toNat ∣ 2 ^ 20 := Nat.pow_dvd_pow 2 (width_bounds hw).2
  rw [outVal, toNat_masked hw, BitVec.toNat_setWidth, Nat.mod_mod_of_dvd _ hDvd]

theorem Carries.reset : BitUnpack.reset.Carries ⟨[], []⟩ := by
  constructor
  · exact held_zero
  · rfl
  · intro c hc
    exact absurd hc List.not_mem_nil

/-- A cycle that takes nothing and gives nothing. -/
theorem next_rest (hClr : x.clr = false) (hGives : (s.outValid x && x.outReady) = false)
    (hTakes : (x.inValid && s.inReady x) = false) : s.next x = s ∧ m.see s x = m := by
  constructor
  · rw [next, hClr, hGives, hTakes]
    rfl
  · rw [Unpacked.see, hClr, hGives, hTakes]
    rfl

theorem next_give (hClr : x.clr = false) (hGives : (s.outValid x && x.outReady) = true) :
    s.next x = ⟨s.acc >>> x.w.toNat, s.nbits - x.w⟩ ∧
      m.see s x = ⟨m.bytes, m.coefs ++ [(x.w, s.outVal x)]⟩ := by
  have hNot : (x.inValid && s.inReady x) = false := by
    have hFull := outValid_iff.mp (Bool.and_eq_true_iff.mp hGives).1
    rw [Bool.and_eq_false_iff]
    right
    rw [← Bool.not_eq_true, inReady_iff]
    omega
  constructor
  · rw [next, hClr, hGives]
    rfl
  · rw [Unpacked.see, hClr, hGives, hNot]
    rfl

theorem next_take (hClr : x.clr = false) (hTakes : (x.inValid && s.inReady x) = true) :
    s.next x = ⟨s.acc ||| (x.inByte.setWidth 28 <<< s.nbits.toNat), s.nbits + 8⟩ ∧
      m.see s x = ⟨m.bytes ++ [x.inByte], m.coefs⟩ := by
  have hNot : (s.outValid x && x.outReady) = false := by
    have hLow := inReady_iff.mp (Bool.and_eq_true_iff.mp hTakes).2
    rw [Bool.and_eq_false_iff]
    left
    rw [← Bool.not_eq_true, outValid_iff]
    omega
  constructor
  · rw [next, hClr, hNot, hTakes]
    rfl
  · rw [Unpacked.see, hClr, hNot, hTakes]
    rfl

theorem Carries.next (hw : x.w ∈ packWidths) (hCarries : s.Carries m) :
    (s.next x).Carries (m.see s x) := by
  have hWidth := width_bounds hw
  cases hClr : x.clr with
  | true =>
    rw [BitUnpack.next, Unpacked.see, if_pos hClr, if_pos hClr]
    exact Carries.reset
  | false =>
    obtain ⟨hHeld, hBits, hSmall⟩ := hCarries
    cases hGives : s.outValid x && x.outReady with
    | true =>
      have hFull := outValid_iff.mp (Bool.and_eq_true_iff.mp hGives).1
      obtain ⟨hNext, hSplit⟩ := held_pop hHeld hFull
      obtain ⟨hState, hSeen⟩ := @next_give s m x hClr hGives
      rw [hState, hSeen]
      constructor
      · exact hNext
      · dsimp only
        rw [coefBits_concat, toNat_outVal hw, bitsOf_mod, hBits, hSplit, List.append_assoc]
      · intro c hc
        obtain hOld | hNew := List.mem_append.mp hc
        · exact hSmall c hOld
        · rw [List.mem_singleton.mp hNew]
          dsimp only
          rw [toNat_outVal hw]
          exact Nat.mod_lt _ (Nat.two_pow_pos _)
    | false =>
      cases hTakes : x.inValid && s.inReady x with
      | true =>
        have hLow := inReady_iff.mp (Bool.and_eq_true_iff.mp hTakes).2
        have hByte : (x.inByte.setWidth 28).toNat = x.inByte.toNat := by
          rw [BitVec.toNat_setWidth]
          exact Nat.mod_eq_of_lt (Nat.lt_trans x.inByte.isLt (by decide))
        have hFits : (x.inByte.setWidth 28).toNat < 2 ^ (8 : BitVec 5).toNat := by
          rw [hByte]
          exact x.inByte.isLt
        have hEight : (8 : BitVec 5).toNat = 8 := rfl
        obtain ⟨hNext, hJoin⟩ := held_push hHeld hFits (by omega)
        obtain ⟨hState, hSeen⟩ := @next_take s m x hClr hTakes
        rw [hState, hSeen]
        constructor
        · exact hNext
        · dsimp only
          rw [byteBits_concat, hBits, hJoin, hByte, hEight, List.append_assoc]
        · exact hSmall
      | false =>
        obtain ⟨hState, hSeen⟩ := @next_rest s m x hClr hGives hTakes
        rw [hState, hSeen]
        exact ⟨hHeld, hBits, hSmall⟩

end BitUnpack

/-- What is left of a number of this width. -/
def lowBits (c : BitVec 5 × BitVec 20) : BitVec 5 × BitVec 20 := (c.1, c.2 &&& wMask c.1)

/-- From a clear on, numbers of one width are read from these bytes, with any gaps. -/
structure Feeds (w : BitVec 5) (bs : List (BitVec 8)) (n : Nat) (ins : Nat → UnpackIn) : Prop where
  start : n = 0 ∨ (ins (n - 1)).clr = true
  clr : ∀ k ≥ n, (ins k).clr = false
  width : ∀ k ≥ n, (ins k).w = w
  source : ∀ k ≥ n, (ins k).inValid = true →
    bs[(unpacked ins k).bytes.length]? = some (ins k).inByte

/-- The gaps end. -/
structure Fair (bs : List (BitVec 8)) (n : Nat) (ins : Nat → UnpackIn) : Prop where
  valid : ∀ k ≥ n, (unpacked ins k).bytes.length < bs.length → ∃ j ≥ k, (ins j).inValid = true
  ready : ∀ k ≥ n, ∃ j ≥ k, (ins j).outReady = true

section Unpacking

variable {w : BitVec 5} {bs : List (BitVec 8)} {n : Nat} {ins : Nat → UnpackIn}

theorem coefBits_of_width {cs : List (BitVec 5 × BitVec 20)} (hWidth : ∀ c ∈ cs, c.1 = w) :
    coefBits cs = stream w.toNat (cs.map fun c => c.2.toNat) := by
  rw [coefBits, stream, List.flatMap_map]
  apply List.flatMap_congr
  intro c hc
  rw [hWidth c hc]

theorem Feeds.cleared (hFeeds : Feeds w bs n ins) :
    bitUnpack.after ins n = .reset ∧ unpacked ins n = ⟨[], []⟩ := by
  obtain rfl | hClr := hFeeds.start
  · exact ⟨rfl, rfl⟩
  · cases n with
    | zero => exact ⟨rfl, rfl⟩
    | succ n => exact ⟨if_pos hClr, if_pos hClr⟩

/-- The bytes taken are the first ones, and the numbers given have the width. -/
structure Reads (w : BitVec 5) (bs : List (BitVec 8)) (s : BitUnpack) (m : Unpacked) : Prop where
  carries : s.Carries m
  taken : m.bytes <+: bs
  width : ∀ c ∈ m.coefs, c.1 = w

theorem Feeds.reads (hFeeds : Feeds w bs n ins) (hw : w ∈ packWidths) {k : Nat} (hk : n ≤ k) :
    Reads w bs (bitUnpack.after ins k) (unpacked ins k) := by
  induction k, hk using Nat.le_induction with
  | base =>
    obtain ⟨hState, hSeen⟩ := hFeeds.cleared
    rw [hState, hSeen]
    constructor
    · exact BitUnpack.Carries.reset
    · exact List.nil_prefix
    · intro c hc
      exact absurd hc List.not_mem_nil
  | succ k hk ih =>
    have hClr := hFeeds.clr k hk
    have hWidth := hFeeds.width k hk
    have hCarries := ih.carries.next (hWidth.symm ▸ hw : (ins k).w ∈ packWidths)
    change Reads w bs ((bitUnpack.after ins k).next (ins k))
      ((unpacked ins k).see (bitUnpack.after ins k) (ins k))
    constructor
    · exact hCarries
    · cases hTakes : (ins k).inValid && (bitUnpack.after ins k).inReady (ins k) with
      | false =>
        rw [Unpacked.see, hClr, hTakes]
        exact ih.taken
      | true =>
        rw [(BitUnpack.next_take hClr hTakes).2]
        obtain ⟨more, hMore⟩ := ih.taken
        have hNext := hFeeds.source k hk (Bool.and_eq_true_iff.mp hTakes).1
        rw [← hMore, List.getElem?_append_right (Nat.le_refl _), Nat.sub_self] at hNext
        cases more with
        | nil => exact absurd hNext (by simp)
        | cons b more =>
          have hByte : b = (ins k).inByte := Option.some.inj hNext
          refine ⟨more, ?_⟩
          rw [← hMore, ← hByte, List.append_assoc]
          rfl
    · intro c hc
      cases hGives : (bitUnpack.after ins k).outValid (ins k) && (ins k).outReady with
      | false =>
        rw [Unpacked.see, hClr, hGives] at hc
        exact ih.width c hc
      | true =>
        rw [(BitUnpack.next_give hClr hGives).2] at hc
        obtain hOld | hNew := List.mem_append.mp hc
        · exact ih.width c hOld
        · rw [List.mem_singleton.mp hNew]
          exact hWidth

/-- The numbers given are the first ones of those that were packed. -/
theorem Reads.coefs {s : BitUnpack} {m : Unpacked} (hReads : Reads w bs s m) (hw : w ∈ packWidths)
    {cs : List (BitVec 5 × BitVec 20)} (hWidth : ∀ c ∈ cs, c.1 = w) {more : List Bool}
    (hPacked : coefBits cs = byteBits bs ++ more) : m.coefs <+: cs.map lowBits := by
  obtain ⟨hCarries, ⟨later, hLater⟩, hGiven⟩ := hReads
  have hPos : 0 < w.toNat := Nat.lt_of_lt_of_le (by decide) (width_bounds hw).1
  have hSplit : byteBits bs = byteBits m.bytes ++ byteBits later := by
    rw [← hLater, byteBits, List.map_append, stream_append]
    rfl
  rw [coefBits_of_width hWidth, hSplit, hCarries.bits, coefBits_of_width hGiven, List.append_assoc,
    List.append_assoc] at hPacked
  have hAll := groups_stream hPos (cs.map fun c => c.2.toNat) []
  rw [List.append_nil, hPacked, groups_stream hPos, @groups_short _ [] hPos, List.append_nil,
    List.map_map, List.map_map] at hAll
  have hBack : m.coefs = (m.coefs.map fun c => c.2.toNat % 2 ^ w.toNat).map
      fun v => (w, BitVec.ofNat 20 v) := by
    rw [List.map_map]
    conv_lhs => rw [← List.map_id m.coefs]
    apply List.map_congr_left
    intro c hc
    have hSmall := hCarries.small c hc
    rw [hGiven c hc] at hSmall
    apply Prod.ext
    · exact hGiven c hc
    · exact (BitVec.ofNat_toNat 20 c.2).symm.trans
        (congrArg (BitVec.ofNat 20) (Nat.mod_eq_of_lt hSmall).symm)
  have hLow : cs.map lowBits = (cs.map fun c => c.2.toNat % 2 ^ w.toNat).map
      fun v => (w, BitVec.ofNat 20 v) := by
    rw [List.map_map]
    apply List.map_congr_left
    intro c hc
    apply Prod.ext
    · exact hWidth c hc
    · rw [lowBits, hWidth c hc]
      exact (BitVec.ofNat_toNat 20 _).symm.trans (congrArg (BitVec.ofNat 20) (toNat_masked hw c.2))
  rw [hBack, hLow]
  exact List.IsPrefix.map _ ⟨_, hAll⟩

/-- The bits of the bytes taken are those of the numbers given and those held. -/
theorem Reads.count {s : BitUnpack} {m : Unpacked} (hReads : Reads w bs s m) :
    8 * m.bytes.length = w.toNat * m.coefs.length + s.nbits.toNat := by
  have hLen := congrArg List.length hReads.carries.bits
  rwa [coefBits_of_width hReads.width, byteBits, heldBits, length_stream, List.length_append,
    length_stream, length_bitsOf, List.length_map, List.length_map] at hLen

/-- How many times the unpacker still takes a byte or gives a number. -/
def remaining (w : BitVec 5) (bs : List (BitVec 8)) (s : BitUnpack) (m : Unpacked) : Nat :=
  (bs.length - m.bytes.length) +
    (s.nbits.toNat + 8 * (bs.length - m.bytes.length)) / w.toNat

theorem Feeds.remaining_give (hFeeds : Feeds w bs n ins) (hw : w ∈ packWidths) {k : Nat}
    (hk : n ≤ k)
    (hGives : ((bitUnpack.after ins k).outValid (ins k) && (ins k).outReady) = true) :
    remaining w bs (bitUnpack.after ins (k + 1)) (unpacked ins (k + 1)) + 1 =
      remaining w bs (bitUnpack.after ins k) (unpacked ins k) := by
  have hFull := BitUnpack.outValid_iff.mp (Bool.and_eq_true_iff.mp hGives).1
  have hPos : 0 < w.toNat := Nat.lt_of_lt_of_le (by decide) (width_bounds hw).1
  have hWidth := w.isLt
  have hRegister := (bitUnpack.after ins k).nbits.isLt
  have hNext : bitUnpack.after ins (k + 1) =
      ⟨(bitUnpack.after ins k).acc >>> (ins k).w.toNat,
        (bitUnpack.after ins k).nbits - (ins k).w⟩ :=
    (@BitUnpack.next_give _ (unpacked ins k) _ (hFeeds.clr k hk) hGives).1
  have hSeen : (unpacked ins (k + 1)).bytes = (unpacked ins k).bytes :=
    (congrArg Unpacked.bytes
      (@BitUnpack.next_give _ (unpacked ins k) _ (hFeeds.clr k hk) hGives).2 :)
  rw [hFeeds.width k hk] at hFull hNext
  have hCount : (bitUnpack.after ins k).nbits.toNat =
      (bitUnpack.after ins (k + 1)).nbits.toNat + w.toNat := by
    rw [hNext, BitVec.toNat_sub]
    omega
  rw [remaining, remaining, hSeen, hCount, Nat.add_right_comm _ w.toNat, Nat.add_div_right _ hPos]
  rfl

theorem Feeds.remaining_take (hFeeds : Feeds w bs n ins) (hw : w ∈ packWidths) {k : Nat}
    (hk : n ≤ k)
    (hTakes : ((ins k).inValid && (bitUnpack.after ins k).inReady (ins k)) = true) :
    remaining w bs (bitUnpack.after ins (k + 1)) (unpacked ins (k + 1)) + 1 =
      remaining w bs (bitUnpack.after ins k) (unpacked ins k) := by
  have hLow := BitUnpack.inReady_iff.mp (Bool.and_eq_true_iff.mp hTakes).2
  rw [hFeeds.width k hk] at hLow
  have hWidth := width_bounds hw
  have hMore := (List.getElem?_eq_some_iff.mp
    (hFeeds.source k hk (Bool.and_eq_true_iff.mp hTakes).1)).1
  have hNext : (bitUnpack.after ins (k + 1)).nbits = (bitUnpack.after ins k).nbits + 8 :=
    congrArg BitUnpack.nbits
      (@BitUnpack.next_take _ (unpacked ins k) _ (hFeeds.clr k hk) hTakes).1
  have hSeen : (unpacked ins (k + 1)).bytes = (unpacked ins k).bytes ++ [(ins k).inByte] :=
    (congrArg Unpacked.bytes
      (@BitUnpack.next_take _ (unpacked ins k) _ (hFeeds.clr k hk) hTakes).2 :)
  have hEight : (8 : BitVec 5).toNat = 8 := rfl
  have hCount : (bitUnpack.after ins (k + 1)).nbits.toNat =
      (bitUnpack.after ins k).nbits.toNat + 8 := by
    rw [hNext]
    exact toNat_add_width (by omega)
  have hBits : (bitUnpack.after ins (k + 1)).nbits.toNat +
        8 * (bs.length - (unpacked ins (k + 1)).bytes.length) =
      (bitUnpack.after ins k).nbits.toNat + 8 * (bs.length - (unpacked ins k).bytes.length) := by
    rw [hCount, hSeen, List.length_append, List.length_singleton]
    omega
  rw [remaining, remaining, hBits, hSeen, List.length_append, List.length_singleton]
  omega

theorem Feeds.rest (hFeeds : Feeds w bs n ins) {k : Nat} (hk : n ≤ k)
    (hGives : ((bitUnpack.after ins k).outValid (ins k) && (ins k).outReady) = false)
    (hTakes : ((ins k).inValid && (bitUnpack.after ins k).inReady (ins k)) = false) :
    bitUnpack.after ins (k + 1) = bitUnpack.after ins k ∧
      unpacked ins (k + 1) = unpacked ins k :=
  BitUnpack.next_rest (hFeeds.clr k hk) hGives hTakes

/-- A step that does not bring the end nearer changes nothing. -/
theorem Feeds.still (hFeeds : Feeds w bs n ins) (hw : w ∈ packWidths) {k : Nat} (hk : n ≤ k)
    (hStill : ¬remaining w bs (bitUnpack.after ins (k + 1)) (unpacked ins (k + 1)) <
      remaining w bs (bitUnpack.after ins k) (unpacked ins k)) :
    ((bitUnpack.after ins k).outValid (ins k) && (ins k).outReady) = false ∧
      ((ins k).inValid && (bitUnpack.after ins k).inReady (ins k)) = false := by
  constructor
  · rw [← Bool.not_eq_true]
    intro hGives
    have hFall := hFeeds.remaining_give hw hk hGives
    omega
  · rw [← Bool.not_eq_true]
    intro hTakes
    have hFall := hFeeds.remaining_take hw hk hTakes
    omega

/-- Whatever the gaps, in the end all bytes are taken and no number is held back. -/
theorem Feeds.ends (hFeeds : Feeds w bs n ins) (hw : w ∈ packWidths) (hFair : Fair bs n ins) :
    ∃ K ≥ n, ∀ k ≥ K, remaining w bs (bitUnpack.after ins k) (unpacked ins k) = 0 := by
  have hPos : 0 < w.toNat := Nat.lt_of_lt_of_le (by decide) (width_bounds hw).1
  let f (k : Nat) := remaining w bs (bitUnpack.after ins (n + k)) (unpacked ins (n + k))
  have hLe (k : Nat) : f (k + 1) ≤ f k := by
    cases hGives : (bitUnpack.after ins (n + k)).outValid (ins (n + k)) &&
        (ins (n + k)).outReady with
    | true =>
      have hFall := hFeeds.remaining_give hw (Nat.le_add_right n k) hGives
      exact Nat.le_trans (Nat.le_succ _) (Nat.le_of_eq hFall)
    | false =>
      cases hTakes : (ins (n + k)).inValid &&
          (bitUnpack.after ins (n + k)).inReady (ins (n + k)) with
      | true =>
        have hFall := hFeeds.remaining_take hw (Nat.le_add_right n k) hTakes
        exact Nat.le_trans (Nat.le_succ _) (Nat.le_of_eq hFall)
      | false =>
        obtain ⟨hState, hSeen⟩ := hFeeds.rest (Nat.le_add_right n k) hGives hTakes
        exact Nat.le_of_eq (congrArg₂ (remaining w bs) hState hSeen)
  have hFalls (k : Nat) (hk : f k ≠ 0) : ∃ j ≥ k, f (j + 1) < f j := by
    by_contra hNever
    have hStill (j : Nat) (hj : n + k ≤ j) := by
      refine hFeeds.still hw (by omega : n ≤ j) ?_
      intro hFall
      apply hNever
      refine ⟨j - n, by omega, ?_⟩
      have hIndex : n + (j - n) = j := by omega
      have hIndex' : n + (j - n + 1) = j + 1 := by omega
      simp only [f, hIndex, hIndex']
      exact hFall
    have hSame (j : Nat) (hj : n + k ≤ j) : bitUnpack.after ins j = bitUnpack.after ins (n + k) ∧
        unpacked ins j = unpacked ins (n + k) := by
      induction j, hj using Nat.le_induction with
      | base => exact ⟨rfl, rfl⟩
      | succ j hj ih =>
        obtain ⟨hState, hSeen⟩ := hFeeds.rest (by omega) (hStill j hj).1 (hStill j hj).2
        exact ⟨hState.trans ih.1, hSeen.trans ih.2⟩
    by_cases hFull : w.toNat ≤ (bitUnpack.after ins (n + k)).nbits.toNat
    · obtain ⟨j, hj, hReady⟩ := hFair.ready (n + k) (Nat.le_add_right n k)
      have hGives := (hStill j hj).1
      rw [hReady, Bool.and_true, (hSame j hj).1, ← Bool.not_eq_true, BitUnpack.outValid_iff,
        hFeeds.width j (by omega)] at hGives
      exact hGives hFull
    · have hLow : (bitUnpack.after ins (n + k)).nbits.toNat < w.toNat := Nat.lt_of_not_le hFull
      have hMore : (unpacked ins (n + k)).bytes.length < bs.length := by
        by_contra hAll
        apply hk
        have hNone : bs.length - (unpacked ins (n + k)).bytes.length = 0 := by omega
        simp only [f, remaining, hNone]
        rw [Nat.mul_zero, Nat.add_zero, Nat.div_eq_of_lt hLow]
      obtain ⟨j, hj, hValid⟩ := hFair.valid (n + k) (Nat.le_add_right n k) hMore
      have hTakes := (hStill j hj).2
      rw [hValid, Bool.true_and, (hSame j hj).1, ← Bool.not_eq_true, BitUnpack.inReady_iff,
        hFeeds.width j (by omega)] at hTakes
      exact hTakes hLow
  obtain ⟨K, hK⟩ := Clocked.eventually_zero hLe hFalls
  refine ⟨n + K, Nat.le_add_right n K, ?_⟩
  intro k hk
  have hZero := hK (k - n) (by omega)
  have hIndex : n + (k - n) = k := by omega
  simpa only [f, hIndex] using hZero

end Unpacking

/-- The bytes that leave are the whole bytes of the numbers taken, all of them after a pause; read
again with any gaps, they give the same numbers back, as many as they hold. -/
theorem unpack_pack (ins : Nat → PackIn) (hWidths : ∀ k, (ins k).w ∈ packWidths) (n : Nat) :
    (Held (bitPack.after ins n).acc (bitPack.after ins n).nbits ∧
      (packed ins n).bytes <+: wholeBytes (coefBits (packed ins n).coefs) ∧
      (Paused ins n → (packed ins n).bytes = wholeBytes (coefBits (packed ins n).coefs))) ∧
    ∀ w ∈ packWidths, (∀ c ∈ (packed ins n).coefs, c.1 = w) →
      ∀ (feed : Nat → UnpackIn) (start : Nat), Feeds w (packed ins n).bytes start feed →
        (∀ k ≥ start, Held (bitUnpack.after feed k).acc (bitUnpack.after feed k).nbits ∧
          (unpacked feed k).coefs <+: (packed ins n).coefs.map lowBits) ∧
        (Fair (packed ins n).bytes start feed → ∃ K, ∀ k ≥ K,
          (unpacked feed k).coefs = ((packed ins n).coefs.map lowBits).take
            (8 * (packed ins n).bytes.length / w.toNat) ∧
          (Paused ins n → 8 ∣ w.toNat * (packed ins n).coefs.length →
            (unpacked feed k).coefs = (packed ins n).coefs.map lowBits)) := by
  have hCarries := carries_packed hWidths n
  constructor
  · refine ⟨hCarries.held, ?_, packed_paused hWidths⟩
    rw [wholeBytes_packed hWidths]
    exact List.prefix_append _ _
  · intro w hw hSame feed start hFeeds
    have hBits : coefBits (packed ins n).coefs = byteBits (packed ins n).bytes ++
        (byteBits (bitPack.after ins n).pending ++
          heldBits (bitPack.after ins n).acc (bitPack.after ins n).nbits) := by
      rw [hCarries.bits, byteBits, List.map_append, stream_append, List.append_assoc]
      rfl
    have hPrefix (k : Nat) (hk : k ≥ start) := (hFeeds.reads hw hk).coefs hw hSame hBits
    constructor
    · intro k hk
      exact ⟨(hFeeds.reads hw hk).carries.held, hPrefix k hk⟩
    · intro hFair
      have hPos : 0 < w.toNat := Nat.lt_of_lt_of_le (by decide) (width_bounds hw).1
      obtain ⟨K, hK, hEnds⟩ := hFeeds.ends hw hFair
      refine ⟨K, ?_⟩
      intro k hk
      have hReads := hFeeds.reads hw (Nat.le_trans hK hk)
      obtain ⟨hAll, hNone⟩ := Nat.add_eq_zero_iff.mp (hEnds k hk)
      rw [hAll, Nat.mul_zero, Nat.add_zero, Nat.div_eq_zero_iff_lt hPos] at hNone
      have hTaken : (unpacked feed k).bytes.length = (packed ins n).bytes.length := by
        have hLe := hReads.taken.length_le
        omega
      have hLength : (unpacked feed k).coefs.length =
          8 * (packed ins n).bytes.length / w.toNat := by
        rw [← hTaken, hReads.count, Nat.mul_add_div hPos, Nat.div_eq_of_lt hNone, Nat.add_zero]
      have hGiven := List.prefix_iff_eq_take.mp (hPrefix k (Nat.le_trans hK hk))
      constructor
      · rwa [hLength] at hGiven
      · intro hPaused hWhole
        have hBytes : (packed ins n).bytes.length = w.toNat * (packed ins n).coefs.length / 8 := by
          rw [packed_paused hWidths hPaused, wholeBytes, List.length_map, groups, List.length_map,
            List.length_range, coefBits_of_width hSame, length_stream, List.length_map]
        have hCount : 8 * (packed ins n).bytes.length / w.toNat = (packed ins n).coefs.length := by
          rw [hBytes, Nat.mul_div_cancel' hWhole, Nat.mul_div_cancel_left _ hPos]
        rw [hLength, hCount] at hGiven
        rw [hGiven]
        exact List.take_of_length_le (Nat.le_of_eq (List.length_map _))

/-- Two numbers of four bits, and a pause. -/
def twoNibbles (k : Nat) : PackIn := ⟨false, 4, 10, decide (k < 2)⟩

theorem unpack_pack_nibbles :
    (packed twoNibbles 6).bytes <+: wholeBytes (coefBits (packed twoNibbles 6).coefs) ∧
      (packed twoNibbles 6).bytes = [0xAA] ∧ (packed twoNibbles 6).coefs = [(4, 10), (4, 10)] := by
  have hWidths (k : Nat) : (twoNibbles k).w ∈ packWidths :=
    (by decide : (4 : BitVec 5) ∈ packWidths)
  refine ⟨(unpack_pack twoNibbles hWidths 6).1.2.1, ?_, ?_⟩
  · decide
  · decide

end PqcHsm
