import PqcHsm.Library.OneAtATime
import PqcHsm.Rtl.SlavePort

/-!
# What the bus side owes

The write channel answers a write in the cycle after it takes effect, and a packed write holds it up
for three cycles. The read channel answers at once, or when a packed read is done.
-/

namespace PqcHsm

namespace PackedWrite

variable {aw : Nat} {k : PackedWrite aw}

/-- For how many cycles it still runs. -/
def left (k : PackedWrite aw) : Nat := if k.run then (2 - k.i).toNat + 1 else 0

theorem left_le : k.left ≤ 4 := by
  have := (2 - k.i).isLt
  unfold left
  split <;> omega

theorem left_next (zeroizeAll : Bool) (hRun : k.run = true) :
    (k.next zeroizeAll none).left + 1 ≤ k.left := by
  have hStep (i : BitVec 2) (hi : i ≠ 2) : (2 - (i + 1)).toNat + 1 = (2 - i).toNat := by
    revert hi
    revert i
    decide
  simp only [next, left, hRun, if_true]
  cases zeroizeAll with
  | true => simp
  | false =>
    by_cases hi : k.i = 2
    · simp [hi]
    · have hLess := hStep k.i hi
      rw [if_pos (by simpa using hi)]
      omega

end PackedWrite

namespace WrPort

variable {w : WrPort} {x : AxiMaster 8} {k : PackedWrite aw}

/-- What the write channel owes to a master that hands over address and data together. -/
def owed (w : WrPort) (k : PackedWrite aw) : Option Nat :=
  if w.bvalid then some 0 else if w.awGot then some (k.left + 1) else none

/-- Address and data were taken together, and only while no answer was up. -/
structure Paired (w : WrPort) : Prop where
  got : w.wGot = w.awGot
  apart : w.bvalid = true → w.awGot = false

theorem paired_reset : reset.Paired := by
  constructor <;> simp [reset]

theorem owed_none_iff : w.owed k = none ↔ w.awready = true := by
  unfold owed awready
  cases w.bvalid <;> cases w.awGot <;> simp

/-- One cycle of the write channel. -/
theorem Paired.owes_next (h : w.Paired) (hPair : x.wvalid = x.awvalid) {resp : Option (BitVec 2)}
    (hResp : resp.isSome = (w.wrNow x k.run).isSome) (zeroizeAll : Bool)
    {start : Option (BitVec 24 × BitVec aw)} (hStart : resp = none → start = none) :
    (w.next x resp).Paired ∧
      Owes 4 (x.awvalid && w.awready) (w.bvalid && x.bready) (w.owed k)
        ((w.next x resp).owed (k.next zeroizeAll start)) := by
  obtain ⟨hGot, hApart⟩ := h
  have hReady : w.wready = w.awready := by rw [wready, awready, hGot]
  have hBoth : w.wHandshake x = w.awHandshake x := by rw [wHandshake, awHandshake, hPair, hReady]
  cases hUp : w.bvalid with
  | true =>
    have hNone : resp = none := by simpa [wrNow, hUp] using hResp
    have hAw := hApart hUp
    simp only [next, owed, hNone, hGot, hAw, awHandshake, wHandshake, awready, wready, hUp]
    cases x.bready with
    | true =>
      constructor
      · constructor <;> simp
      · simp [Owes]
    | false =>
      constructor
      · constructor <;> simp
      · simp [Owes]
  | false =>
    cases hAw : w.awGot with
    | true =>
      -- The write waits for the packed write before it.
      cases hRun : k.run with
      | true =>
        have hNone : resp = none := by simpa [wrNow, hRun] using hResp
        have hLess := k.left_next zeroizeAll hRun
        rw [hStart hNone]
        simp only [next, owed, hNone, hGot, hAw, hUp, awHandshake, wHandshake, awready, wready]
        constructor
        · constructor <;> simp
        · simp [Owes]
          omega
      | false =>
        have hSome : resp.isSome = true := by simpa [wrNow, hUp, hAw, hGot, hRun] using hResp
        simp only [next, owed, hSome, hGot, hAw, hUp, awHandshake, wHandshake, awready, wready]
        constructor
        · constructor <;> simp
        · simp [Owes]
    | false =>
      cases hValid : x.awvalid with
      | false =>
        have hNone : resp = none := by
          simpa [wrNow, hUp, hAw, hGot, hBoth, awHandshake, hValid] using hResp
        simp only [next, owed, hNone, hGot, hAw, hUp, hBoth, awHandshake, awready, hValid]
        constructor
        · constructor <;> simp
        · simp [Owes]
      | true =>
        cases hRun : k.run with
        | true =>
          have hNone : resp = none := by simpa [wrNow, hRun] using hResp
          have hLess := k.left_next zeroizeAll hRun
          have hMost := k.left_le
          rw [hStart hNone]
          simp only [next, owed, hNone, hGot, hAw, hUp, hBoth, awHandshake, awready, hValid]
          constructor
          · constructor <;> simp
          · simp [Owes]
            omega
        | false =>
          have hSome : resp.isSome = true := by
            simpa [wrNow, hUp, hAw, hGot, hRun, hBoth, awHandshake, awready, hValid] using hResp
          simp only [next, owed, hSome, hGot, hAw, hUp, hBoth, awHandshake, awready, hValid]
          constructor
          · constructor <;> simp
          · simp [Owes]

end WrPort

namespace RdPort

variable {r : RdPort} {x : AxiMaster 8} {bound : Nat} {p p' : Option Nat}

/-- What the read channel owes; `p` is what the packed read owes to it. -/
def owed (r : RdPort) (p : Option Nat) : Option Nat := if r.rvalid then some 0 else p.map (· + 1)

/-- One cycle of the read channel, with one of the packed read. -/
theorem owes_next (h : p.isSome = true → r.rvalid = false) {packed : Option (BitVec 32)}
    {taken : Option (BitVec 32 × Bool)}
    (hTaken : taken.isSome = (x.arvalid && (!r.rvalid && !p.isSome)))
    (hPacks : Owes bound (taken.any fun t => !t.2) packed.isSome p p')
    (hLast : p = some 0 → packed.isSome = true) :
    (p'.isSome = true → (r.next x packed taken).rvalid = false) ∧
      Owes (bound + 1) (x.arvalid && (!r.rvalid && !p.isSome)) (r.rvalid && x.rready) (r.owed p)
        ((r.next x packed taken).owed p') := by
  match p with
  | none =>
    obtain ⟨hDone, hStart⟩ := hPacks
    have hPacked : packed = none := by simpa using hDone
    cases hUp : r.rvalid with
    | true =>
      have hNone : taken = none := by simpa [hUp] using hTaken
      obtain rfl : p' = none := by simpa [hNone] using hStart
      cases hReady : x.rready <;> simp [next, owed, hUp, hReady, hNone, hPacked, Owes]
    | false =>
      cases hReq : x.arvalid with
      | false =>
        have hNone : taken = none := by simpa [hUp, hReq] using hTaken
        obtain rfl : p' = none := by simpa [hNone] using hStart
        simp [next, owed, hUp, hNone, hPacked, Owes]
      | true =>
        have hSome : taken.isSome = true := by simpa [hUp, hReq] using hTaken
        obtain ⟨⟨word, atOnce⟩, rfl⟩ := Option.isSome_iff_exists.mp hSome
        cases atOnce with
        | true =>
          obtain rfl : p' = none := by simpa using hStart
          simp [next, owed, hUp, Owes]
        | false =>
          obtain ⟨n, hn, rfl⟩ : ∃ n, n ≤ bound ∧ p' = some n := by simpa using hStart
          simp [next, owed, hUp, Owes, hn]
  | some 0 =>
    have hUp := h rfl
    have hDone := hLast rfl
    obtain ⟨-, hp⟩ := hPacks
    obtain rfl : p' = none := by simpa [hDone] using hp
    have hNone : taken = none := by simpa [hUp] using hTaken
    simp [next, owed, hUp, hNone, hDone, Owes]
  | some (n + 1) =>
    have hUp := h rfl
    obtain ⟨-, hDone, m, hm, rfl⟩ := hPacks
    have hNone : taken = none := by simpa [hUp] using hTaken
    have hPacked : packed = none := by simpa using hDone
    simp [next, owed, hUp, hNone, hPacked, Owes, hm]

end RdPort

end PqcHsm
