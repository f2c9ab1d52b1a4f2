import PqcHsm.Rtl.KeyVault
import Mathlib.Data.Nat.ModEq
import Mathlib.Tactic.SplitIfs

/-!
# The FIFO

`sync_fifo` with `WIPE_ON_FLUSH` set, over `2 ^ aw` words: pointers of one bit more than an address,
and a sweep after a flush during which both ports are shut.
-/

namespace PqcHsm

structure SyncFifo (aw width : Nat) where
  mem : BitVec aw → BitVec width
  wptr : BitVec (aw + 1)
  rptr : BitVec (aw + 1)
  wipeRun : Bool
  wipeAddr : BitVec (aw + 1)

structure FifoIn (width : Nat) where
  flush : Bool
  wrEn : Bool
  wrData : BitVec width
  rdEn : Bool

namespace SyncFifo

variable {aw width : Nat} (f : SyncFifo aw width) (x : FifoIn width)

def reset : SyncFifo aw width := ⟨fun _ => 0, 0, 0, false, 0⟩

def full : Bool := f.wptr.msb ≠ f.rptr.msb && f.wptr.setWidth aw = f.rptr.setWidth aw

def empty : Bool := f.wptr = f.rptr

def wrReady : Bool := !f.full && !f.wipeRun

def rdValid : Bool := !f.empty && !f.wipeRun

def rdData : BitVec width := f.mem (f.rptr.setWidth aw)

def level : BitVec (aw + 1) := f.wptr - f.rptr

def next : SyncFifo aw width :=
  if x.flush then { f with wptr := 0, rptr := 0, wipeAddr := 0, wipeRun := true }
  else if f.wipeRun then
    let swept := { f with mem := setAt f.mem (f.wipeAddr.setWidth aw) 0 }
    if f.wipeAddr = BitVec.ofNat (aw + 1) (2 ^ aw) - 1 then { swept with wipeRun := false }
    else { swept with wipeAddr := f.wipeAddr + 1 }
  else
    let wr := x.wrEn && f.wrReady
    let rd := x.rdEn && f.rdValid
    { f with
      mem := if wr then setAt f.mem (f.wptr.setWidth aw) x.wrData else f.mem
      wptr := if wr then f.wptr + 1 else f.wptr
      rptr := if rd then f.rptr + 1 else f.rptr }

/-- The FIFO holds these words, the oldest first, from the address of the read pointer on. -/
structure HoldsAt (q : List (BitVec width)) (r : Nat) : Prop where
  rptr : f.rptr = BitVec.ofNat (aw + 1) r
  wptr : f.wptr = BitVec.ofNat (aw + 1) (r + q.length)
  fits : q.length ≤ 2 ^ aw
  words : ∀ i (h : i < q.length), f.mem (BitVec.ofNat aw (r + i)) = q[i]
  wiped : f.wipeRun = true → q = []

def Holds (q : List (BitVec width)) : Prop := ∃ r, f.HoldsAt q r

/-- What the two ports make of the words in a cycle without a flush. -/
def moved (q : List (BitVec width)) : List (BitVec width) :=
  (if x.rdEn && f.rdValid then q.tail else q) ++ if x.wrEn && f.wrReady then [x.wrData] else []

section Queue

variable {f x} {q : List (BitVec width)} {r : Nat}

theorem holds_reset : (reset : SyncFifo aw width).Holds [] :=
  ⟨0, rfl, rfl, Nat.zero_le _, fun i h => absurd h (Nat.not_lt_zero i), fun h => nomatch h⟩

theorem ofNat_eq_iff {w a b : Nat} (h : a ≤ b) (hLt : b < a + 2 ^ w) :
    BitVec.ofNat w b = BitVec.ofNat w a ↔ b = a := by
  rw [← BitVec.toNat_inj, BitVec.toNat_ofNat, BitVec.toNat_ofNat]
  constructor
  · intro hMod
    have hDvd : 2 ^ w ∣ b - a := (Nat.modEq_iff_dvd' h).mp (Eq.symm hMod)
    have hZero : b - a = 0 := Nat.eq_zero_of_dvd_of_lt hDvd (by omega)
    omega
  · intro hEq
    rw [hEq]

theorem HoldsAt.empty_eq (h : f.HoldsAt q r) : f.empty = decide (q = []) := by
  have hPow : 2 ^ (aw + 1) = 2 * 2 ^ aw := by rw [Nat.pow_succ, Nat.mul_comm]
  have hFits := h.fits
  have hPos : 0 < 2 ^ aw := Nat.two_pow_pos aw
  rw [empty, decide_eq_decide, h.wptr, h.rptr, ofNat_eq_iff (Nat.le_add_right _ _) (by omega),
    ← List.length_eq_zero_iff]
  omega

theorem msb_ofNat (n : Nat) : (BitVec.ofNat (aw + 1) n).msb = decide (n / 2 ^ aw % 2 = 1) := by
  have hLow : n % 2 ^ aw < 2 ^ aw := Nat.mod_lt _ (Nat.two_pow_pos aw)
  rw [BitVec.msb_eq_decide, decide_eq_decide, BitVec.toNat_ofNat, Nat.add_sub_cancel, Nat.pow_succ,
    Nat.mod_mul]
  rcases Nat.mod_two_eq_zero_or_one (n / 2 ^ aw) with hBit | hBit <;> rw [hBit] <;> omega

theorem setWidth_ofNat_succ (n : Nat) :
    (BitVec.ofNat (aw + 1) n).setWidth aw = BitVec.ofNat aw n :=
  BitVec.setWidth_ofNat_of_le (Nat.le_succ aw) n

/-- The highest bits of the pointers differ by a turn, and the others not at all. -/
theorem HoldsAt.full_eq (h : f.HoldsAt q r) : f.full = decide (q.length = 2 ^ aw) := by
  have hPos : 0 < 2 ^ aw := Nat.two_pow_pos aw
  have hFits := h.fits
  rw [full, h.wptr, h.rptr, msb_ofNat, msb_ofNat, setWidth_ofNat_succ, setWidth_ofNat_succ]
  by_cases hTurn : q.length = 2 ^ aw
  · have hBit : (r + 2 ^ aw) / 2 ^ aw = r / 2 ^ aw + 1 := Nat.add_div_right r hPos
    have hSame : BitVec.ofNat aw (r + 2 ^ aw) = BitVec.ofNat aw r := by
      rw [← BitVec.toNat_inj, BitVec.toNat_ofNat, BitVec.toNat_ofNat, Nat.add_mod_right]
    rw [hTurn, hBit, hSame]
    simp
    omega
  · have hIff : BitVec.ofNat aw (r + q.length) = BitVec.ofNat aw r ↔ r + q.length = r :=
      ofNat_eq_iff (Nat.le_add_right _ _) (by omega)
    rw [decide_eq_false hTurn]
    by_cases hNil : q.length = 0
    · rw [hNil]
      simp
    · have hNe : BitVec.ofNat aw (r + q.length) ≠ BitVec.ofNat aw r := by
        intro hEq
        have hNat := hIff.mp hEq
        omega
      rw [decide_eq_false hNe, Bool.and_false]

theorem Holds.rdValid_eq (h : f.Holds q) : f.rdValid = (!f.wipeRun && decide (q ≠ [])) := by
  obtain ⟨r, h⟩ := h
  rw [rdValid, h.empty_eq, Bool.and_comm, decide_not]

theorem Holds.wrReady_eq (h : f.Holds q) :
    f.wrReady = (!f.wipeRun && decide (q.length ≠ 2 ^ aw)) := by
  obtain ⟨r, h⟩ := h
  rw [wrReady, h.full_eq, Bool.and_comm, decide_not]

/-- A word that can be read is the oldest. -/
theorem Holds.rdData_eq (h : f.Holds q) (hValid : f.rdValid = true) :
    q = f.rdData :: q.tail := by
  rw [h.rdValid_eq, Bool.and_eq_true, decide_eq_true_eq] at hValid
  obtain ⟨r, h⟩ := h
  cases q with
  | nil => exact absurd rfl hValid.2
  | cons w q =>
    have hHead := h.words 0 (Nat.succ_pos _)
    rw [rdData, h.rptr, setWidth_ofNat_succ]
    exact congrArg (· :: q) hHead.symm

theorem holds_flush (hFlush : x.flush = true) : (f.next x).Holds [] := by
  unfold next
  rw [if_pos hFlush]
  exact ⟨0, rfl, rfl, Nat.zero_le _, fun i h => absurd h (Nat.not_lt_zero i), fun _ => rfl⟩

theorem HoldsAt.write (h : f.HoldsAt q r) (hOpen : f.wipeRun = false) (hRoom : q.length ≠ 2 ^ aw)
    (w : BitVec width) :
    HoldsAt { f with mem := setAt f.mem (f.wptr.setWidth aw) w, wptr := f.wptr + 1 } (q ++ [w]) r := by
  have hFits := h.fits
  have hAddr : f.wptr.setWidth aw = BitVec.ofNat aw (r + q.length) := by
    rw [h.wptr, setWidth_ofNat_succ]
  constructor
  · exact h.rptr
  · change f.wptr + 1 = _
    rw [h.wptr, List.length_append, List.length_singleton, ← Nat.add_assoc]
    exact (BitVec.ofNat_add _ 1).symm
  · rw [List.length_append, List.length_singleton]
    omega
  · intro i hi
    rw [List.length_append, List.length_singleton] at hi
    change setAt f.mem (f.wptr.setWidth aw) w (BitVec.ofNat aw (r + i)) = _
    rw [hAddr, setAt]
    by_cases hLast : i = q.length
    · subst hLast
      rw [if_pos rfl, List.getElem_concat_length rfl]
    · have hNe : BitVec.ofNat aw (r + i) ≠ BitVec.ofNat aw (r + q.length) := by
        intro hEq
        have hNat := (ofNat_eq_iff (by omega) (by omega)).mp hEq.symm
        omega
      rw [if_neg hNe, h.words i (by omega), List.getElem_append_left]
  · intro hWipes
    exact absurd (hOpen.symm.trans hWipes) Bool.false_ne_true

theorem HoldsAt.read (h : f.HoldsAt q r) (hOpen : f.wipeRun = false) (hSome : q ≠ []) :
    HoldsAt { f with rptr := f.rptr + 1 } q.tail (r + 1) := by
  have hFits := h.fits
  have hLen : q.length ≠ 0 := fun hZero => hSome (List.length_eq_zero_iff.mp hZero)
  constructor
  · change f.rptr + 1 = _
    rw [h.rptr]
    exact (BitVec.ofNat_add _ 1).symm
  · rw [List.length_tail]
    exact h.wptr.trans (congrArg _ (by omega))
  · rw [List.length_tail]
    omega
  · intro i hi
    rw [List.length_tail] at hi
    have hWord := h.words (i + 1) (by omega)
    rw [List.getElem_tail, ← hWord]
    exact congrArg (fun n => f.mem (BitVec.ofNat aw n)) (by omega)
  · intro hWipes
    exact absurd (hOpen.symm.trans hWipes) Bool.false_ne_true

/-- The ports of a FIFO that is being swept are shut. -/
theorem holds_wipe (h : f.Holds q) (hFlush : x.flush = false) (hWipes : f.wipeRun = true) :
    (f.next x).Holds [] ∧ q = [] := by
  obtain ⟨r, h⟩ := h
  have hNil := h.wiped hWipes
  subst hNil
  unfold next
  rw [hFlush, if_neg Bool.false_ne_true, if_pos hWipes]
  dsimp only
  refine ⟨⟨r, ?_⟩, rfl⟩
  split_ifs
  all_goals exact ⟨h.rptr, h.wptr, h.fits, fun i hi => absurd hi (Nat.not_lt_zero i), fun _ => rfl⟩

theorem Holds.next (h : f.Holds q) (hFlush : x.flush = false) : (f.next x).Holds (f.moved x q) := by
  cases hWipes : f.wipeRun with
  | true =>
    obtain ⟨hNext, hNil⟩ := holds_wipe h hFlush hWipes
    have hShut : f.moved x q = [] := by simp [moved, rdValid, wrReady, hWipes, hNil]
    rw [hShut]
    exact hNext
  | false =>
    have hRd := h.rdValid_eq
    have hWr := h.wrReady_eq
    obtain ⟨r, h⟩ := h
    unfold SyncFifo.next moved
    rw [hFlush, if_neg Bool.false_ne_true, if_neg (Bool.eq_false_iff.mp hWipes)]
    rw [hWipes, Bool.not_false, Bool.true_and] at hRd hWr
    dsimp only
    cases hW : x.wrEn && f.wrReady <;> cases hR : x.rdEn && f.rdValid
    · exact ⟨r, by simpa [hW, hR] using h⟩
    · have hSome : q ≠ [] := by simpa [hRd] using (Bool.and_eq_true_iff.mp hR).2
      exact ⟨r + 1, by simpa [hW, hR] using h.read hWipes hSome⟩
    · have hRoom : q.length ≠ 2 ^ aw := by simpa [hWr] using (Bool.and_eq_true_iff.mp hW).2
      exact ⟨r, by simpa [hW, hR] using h.write hWipes hRoom x.wrData⟩
    · have hSome : q ≠ [] := by simpa [hRd] using (Bool.and_eq_true_iff.mp hR).2
      have hRoom : q.length ≠ 2 ^ aw := by simpa [hWr] using (Bool.and_eq_true_iff.mp hW).2
      have hBoth := (h.write hWipes hRoom x.wrData).read hWipes (by simp)
      rw [List.tail_append_of_ne_nil hSome] at hBoth
      exact ⟨r + 1, by simpa [hW, hR] using hBoth⟩

/-! ### The sweep -/

/-- A sweep that is not over began at most `n` cycles ago, counted by its address. -/
def SweepsSince (f : SyncFifo aw width) (n : Nat) : Prop :=
  f.wipeRun = true → n ≤ f.wipeAddr.toNat ∧ f.wipeAddr.toNat < 2 ^ aw

theorem sweepsSince_flush (hFlush : x.flush = true) : (f.next x).SweepsSince 0 := by
  unfold next
  rw [if_pos hFlush]
  exact fun _ => ⟨Nat.zero_le _, Nat.two_pow_pos aw⟩

theorem wipeRun_flush (hFlush : x.flush = true) : (f.next x).wipeRun = true := by
  unfold next
  rw [if_pos hFlush]

theorem SweepsSince.mono {m n : Nat} (h : f.SweepsSince n) (hLe : m ≤ n) : f.SweepsSince m :=
  fun hWipes => ⟨Nat.le_trans hLe (h hWipes).1, (h hWipes).2⟩

theorem SweepsSince.next {n : Nat} (h : f.SweepsSince n) (hFlush : x.flush = false) :
    (f.next x).SweepsSince (n + 1) := by
  have hTwice : 2 ^ (aw + 1) = 2 * 2 ^ aw := by rw [Nat.pow_succ, Nat.mul_comm]
  have hPos : 0 < 2 ^ aw := Nat.two_pow_pos aw
  unfold SyncFifo.next
  rw [hFlush, if_neg Bool.false_ne_true]
  cases hWipes : f.wipeRun with
  | false =>
    rw [if_neg Bool.false_ne_true]
    exact fun hOn => absurd hOn Bool.false_ne_true
  | true =>
    obtain ⟨hSince, hIn⟩ := h hWipes
    rw [if_pos rfl]
    dsimp only
    split_ifs with hLast
    · exact fun hOn => nomatch hOn
    · intro _
      have hNe : f.wipeAddr.toNat ≠ 2 ^ aw - 1 := by
        intro hEq
        apply hLast
        apply BitVec.eq_of_toNat_eq
        rw [hEq, BitVec.toNat_sub, BitVec.toNat_ofNat, Nat.mod_eq_of_lt (a := 2 ^ aw) (by omega)]
        have hOne : (1 : BitVec (aw + 1)).toNat = 1 := by
          simp [BitVec.toNat_ofNat]
        rw [hOne, hTwice, show 2 * 2 ^ aw - 1 + 2 ^ aw = 2 ^ aw - 1 + 2 * 2 ^ aw by omega,
          Nat.add_mod_right, Nat.mod_eq_of_lt (by omega)]
      have hSucc : (f.wipeAddr + 1).toNat = f.wipeAddr.toNat + 1 := by
        rw [BitVec.toNat_add]
        have hOne : (1 : BitVec (aw + 1)).toNat = 1 := by
          simp [BitVec.toNat_ofNat]
        rw [hOne, Nat.mod_eq_of_lt (by omega)]
      dsimp only
      omega

end Queue

end SyncFifo

end PqcHsm
