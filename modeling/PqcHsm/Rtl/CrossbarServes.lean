import PqcHsm.Rtl.Crossbar
import PqcHsm.Rtl.FirewallFilter

/-!
# What the decoder forwards

A monitor of each channel keeps the address that was taken last and the number of addresses taken
that hit nothing. A slave is only shown a request whose address is decoded completely, at the offset
of that address; a response to any other address is OKAY, reads 0 and has been counted.
-/

namespace PqcHsm

open Crossbar (offsetOf hitOf isSlave ofSlave)

variable {p : XbarParams}

/-- What a monitor of one channel keeps. -/
structure XbSeen (p : XbarParams) where
  last : Option (BitVec p.aw)
  missed : Nat

namespace XbSeen

def empty (p : XbarParams) : XbSeen p := ⟨none, 0⟩

def take (m : XbSeen p) (a : BitVec p.aw) : XbSeen p :=
  ⟨some a, m.missed + if hitOf p a then 0 else 1⟩

def seeWr (m : XbSeen p) (b : Crossbar p) (x : XbIn p) : XbSeen p :=
  if b.wr.awHandshake x then m.take x.s.awaddr else m

def seeRd (m : XbSeen p) (b : Crossbar p) (x : XbIn p) : XbSeen p :=
  if b.rd.arHandshake x then m.take x.s.araddr else m

end XbSeen

namespace XbWrite

variable {w : XbWrite p} {m : XbSeen p} {x : XbIn p}

/-- The registers hold the request for `a`. -/
def Holds (w : XbWrite p) (a : BitVec p.aw) : Prop :=
  w.awAddr = offsetOf a ∧ w.awSel = Crossbar.slotOf a ∧ w.awHit = hitOf p a

/-- Misses that are taken and not yet counted. -/
def pending (w : XbWrite p) : Nat := if (w.awGot || w.wst = .err) && !w.awHit then 1 else 0

structure Tracks (w : XbWrite p) (m : XbSeen p) : Prop where
  held : w.awGot = true ∨ w.wst ≠ .idle → ∃ a, m.last = some a ∧ w.Holds a
  got : w.awGot = true → w.wst = .idle
  hit : w.wst = .fwd ∨ w.wst = .waitb → w.awHit = true
  miss : w.wst = .err → w.awHit = false
  mAw : ∀ i, w.mAwvalid i = true → w.wst = .fwd ∧ w.awSent = false ∧ isSlave w.awSel i = true
  mW : ∀ i, w.mWvalid i = true → w.wst = .fwd ∧ w.wSent = false ∧ isSlave w.awSel i = true
  mB : ∀ i, w.mBready i = true → w.wst = .waitb ∧ isSlave w.awSel i = true
  valid : w.sBvalid = true ↔ w.wst = .resp
  okay : w.wst = .resp → w.awHit = false → w.sBresp = RESP_OKAY
  count : ∃ n, w.decodeViolWrCount.toNat = min n (2 ^ 16 - 1) ∧ m.missed = n + w.pending

theorem tracks_reset : (reset p).Tracks (.empty p) := by
  constructor <;> simp [reset, XbSeen.empty, pending]

section Idle

theorem latch_wst : (w.latch x).wst = w.wst := by
  unfold latch
  split <;> split <;> rfl

theorem latch_awGot : (w.latch x).awGot = (w.awGot || w.awHandshake x) := by
  unfold latch
  cases hA : w.awHandshake x <;> cases w.wHandshake x <;> simp

theorem latch_valids : (w.latch x).mAwvalid = w.mAwvalid ∧ (w.latch x).mWvalid = w.mWvalid ∧
    (w.latch x).mBready = w.mBready ∧ (w.latch x).sBvalid = w.sBvalid ∧
    (w.latch x).decodeViolWrCount = w.decodeViolWrCount := by
  unfold latch
  split <;> split <;> exact ⟨rfl, rfl, rfl, rfl, rfl⟩

theorem latch_taken (hA : w.awHandshake x = true) : (w.latch x).Holds x.s.awaddr := by
  unfold latch Holds
  cases hW : w.wHandshake x <;> simp [hA]

theorem latch_kept (hA : w.awHandshake x = false) : (w.latch x).awAddr = w.awAddr ∧
    (w.latch x).awSel = w.awSel ∧ (w.latch x).awHit = w.awHit := by
  unfold latch
  cases hW : w.wHandshake x <;> simp [hA]

/-- Taking a request keeps what is known; the address that is taken is the one that is held. -/
theorem Tracks.latch (h : w.Tracks m) (hIdle : w.wst = .idle) :
    (w.latch x).Tracks (if w.awHandshake x then m.take x.s.awaddr else m) := by
  obtain ⟨hAw, hW, hB, hValid, hCount⟩ := latch_valids (w := w) (x := x)
  have hHeld : (w.latch x).awGot = true →
      ∃ a, (if w.awHandshake x then m.take x.s.awaddr else m).last = some a ∧
        (w.latch x).Holds a := by
    intro hGot
    cases hA : w.awHandshake x with
    | true =>
      exact ⟨x.s.awaddr, rfl, latch_taken hA⟩
    | false =>
      rw [latch_awGot, hA, Bool.or_false] at hGot
      obtain ⟨a, hLast, hHolds⟩ := h.held (.inl hGot)
      obtain ⟨hAddr, hSel, hHit⟩ := latch_kept hA
      exact ⟨a, hLast, hAddr.trans hHolds.1, hSel.trans hHolds.2.1, hHit.trans hHolds.2.2⟩
  constructor
  · rintro (hGot | hNot)
    · exact hHeld hGot
    · exact absurd (latch_wst.trans hIdle) hNot
  · intro _
    exact latch_wst.trans hIdle
  · simp [latch_wst, hIdle]
  · simp [latch_wst, hIdle]
  · intro i hi
    rw [hAw] at hi
    have := (h.mAw i hi).1
    simp [hIdle] at this
  · intro i hi
    rw [hW] at hi
    have := (h.mW i hi).1
    simp [hIdle] at this
  · intro i hi
    rw [hB] at hi
    have := (h.mB i hi).1
    simp [hIdle] at this
  · rw [hValid, latch_wst]
    exact h.valid
  · simp [latch_wst, hIdle]
  · obtain ⟨n, hn, hMissed⟩ := h.count
    refine ⟨n, hCount ▸ hn, ?_⟩
    cases hA : w.awHandshake x with
    | false =>
      have hPending : (w.latch x).pending = w.pending := by
        unfold pending
        rw [latch_awGot, hA, Bool.or_false, latch_wst, (latch_kept hA).2.2]
      rw [hPending]
      exact hMissed
    | true =>
      -- Nothing was held, so nothing was pending.
      have hGot : w.awGot = false := by
        unfold awHandshake sAwready at hA
        simp at hA
        exact hA.2.2
      have hBefore : w.pending = 0 := by simp [pending, hGot, hIdle]
      have hPending : (w.latch x).pending = if hitOf p x.s.awaddr then 0 else 1 := by
        unfold pending
        rw [latch_awGot, hA, Bool.or_true, Bool.true_or, Bool.true_and, (latch_taken hA).2.2]
        cases hitOf p x.s.awaddr <;> rfl
      rw [hPending, if_pos rfl]
      show m.missed + _ = _
      rw [hMissed, hBefore]
      rfl

theorem Tracks.nextIdle (h : w.Tracks m) (hIdle : w.wst = .idle) :
    (w.nextIdle x).Tracks (if w.awHandshake x then m.take x.s.awaddr else m) := by
  have hl := h.latch (x := x) hIdle
  have hQuiet (i : Fin p.ns) :
      w.mAwvalid i = false ∧ w.mWvalid i = false ∧ w.mBready i = false := by
    constructor
    · rw [Bool.eq_false_iff]
      intro hi
      simpa [hIdle] using (h.mAw i hi).1
    · constructor
      · rw [Bool.eq_false_iff]
        intro hi
        simpa [hIdle] using (h.mW i hi).1
      · rw [Bool.eq_false_iff]
        intro hi
        simpa [hIdle] using (h.mB i hi).1
  have hValid : w.sBvalid = false := by
    rw [Bool.eq_false_iff]
    intro hv
    simpa [hIdle] using h.valid.mp hv
  obtain ⟨hAw, hW, hB, hV, -⟩ := latch_valids (w := w) (x := x)
  generalize (if w.awHandshake x then m.take x.s.awaddr else m) = m' at hl ⊢
  unfold XbWrite.nextIdle
  cases hC : w.complete x with
  | false => exact hl
  | true =>
    have hGot : (w.latch x).awGot = true := by
      unfold complete at hC
      rw [latch_awGot]
      exact (Bool.and_eq_true_iff.mp hC).1
    obtain ⟨a, hLast, hHolds⟩ := hl.held (.inl hGot)
    obtain ⟨n, hn, hMissed⟩ := hl.count
    simp only [if_true]
    obtain hHit | hHit := Bool.eq_false_or_eq_true (w.latch x).awHit
    · rw [if_pos hHit]
      have hPending : (w.latch x).pending = 0 := by simp [pending, hHit]
      constructor
      · exact fun _ => ⟨a, hLast, hHolds⟩
      · simp
      · exact fun _ => hHit
      · simp
      · intro i hi
        simpa [hQuiet i] using hi
      · intro i hi
        simpa [hQuiet i] using hi
      · intro i hi
        simp [hB, hQuiet i] at hi
      · simp [hV, hValid]
      · simp
      · exact ⟨n, hn, by simpa [pending, hHit, hPending] using hMissed⟩
    · rw [if_neg (by simp [hHit])]
      have hPending : (w.latch x).pending = 1 := by simp [pending, hHit, hGot]
      constructor
      · exact fun _ => ⟨a, hLast, hHolds⟩
      · simp
      · simp
      · exact fun _ => hHit
      · intro i hi
        simp [hAw, hQuiet i] at hi
      · intro i hi
        simp [hW, hQuiet i] at hi
      · intro i hi
        simp [hB, hQuiet i] at hi
      · simp [hV, hValid]
      · simp
      · exact ⟨n, hn, by simpa [pending, hHit] using hMissed.trans (congrArg _ hPending)⟩

end Idle

/-- Outside of `W_IDLE` no address is waiting for its data. -/
theorem Tracks.awGot_eq (h : w.Tracks m) (hState : w.wst ≠ .idle) : w.awGot = false := by
  rw [Bool.eq_false_iff]
  exact fun hGot => hState (h.got hGot)

theorem Tracks.sBvalid_eq (h : w.Tracks m) (hState : w.wst ≠ .resp) : w.sBvalid = false := by
  rw [Bool.eq_false_iff]
  exact fun hValid => hState (h.valid.mp hValid)

theorem Tracks.nextFwd (h : w.Tracks m) (hFwd : w.wst = .fwd) : (w.nextFwd x).Tracks m := by
  have hHit := h.hit (.inl hFwd)
  have hGot := h.awGot_eq (by simp [hFwd])
  have hHeld := h.held (.inr (by simp [hFwd]))
  have hValid := h.sBvalid_eq (by simp [hFwd])
  obtain ⟨n, hn, hMissed⟩ := h.count
  have hPending : w.pending = 0 := by simp [pending, hHit]
  rw [hPending] at hMissed
  unfold XbWrite.nextFwd
  generalize decide (∃ i, (w.mAwvalid i && (x.m i).awready) = true) = awDone
  generalize decide (∃ i, (w.mWvalid i && (x.m i).wready) = true) = wDone
  simp only
  split
  · rename_i hSent
    constructor
    · exact fun _ => hHeld
    · simp [hGot]
    · exact fun _ => hHit
    · simp
    · intro i hi
      cases awDone with
      | false => simp [(h.mAw i hi).2.1] at hSent
      | true => cases hi
    · intro i hi
      cases wDone with
      | false => simp [(h.mW i hi).2.1] at hSent
      | true => cases hi
    · intro i hi
      rw [Bool.or_eq_true] at hi
      obtain hOld | hNew := hi
      · have := (h.mB i hOld).1
        simp [hFwd] at this
      · exact ⟨rfl, hNew⟩
    · simp [hValid]
    · simp
    · exact ⟨n, hn, by simpa [pending, hHit] using hMissed⟩
  · constructor
    · exact fun _ => hHeld
    · simp [hGot]
    · exact fun _ => hHit
    · simp [hFwd]
    · intro i hi
      cases awDone with
      | false =>
        obtain ⟨hState, hSent, hSel⟩ := h.mAw i hi
        exact ⟨hState, by simp [hSent], hSel⟩
      | true => cases hi
    · intro i hi
      cases wDone with
      | false =>
        obtain ⟨hState, hSent, hSel⟩ := h.mW i hi
        exact ⟨hState, by simp [hSent], hSel⟩
      | true => cases hi
    · exact h.mB
    · simp [hValid, hFwd]
    · simp [hFwd]
    · exact ⟨n, hn, by simpa [pending, hHit] using hMissed⟩

theorem Tracks.nextWaitb (h : w.Tracks m) (hWait : w.wst = .waitb) : (w.nextWaitb x).Tracks m := by
  have hHit := h.hit (.inr hWait)
  have hHeld := h.held (.inr (by simp [hWait]))
  obtain ⟨n, hn, hMissed⟩ := h.count
  have hPending : w.pending = 0 := by simp [pending, hHit]
  rw [hPending] at hMissed
  unfold XbWrite.nextWaitb
  split
  · constructor
    · exact fun _ => hHeld
    · simp [h.awGot_eq (by simp [hWait])]
    · simp
    · simp
    · intro i hi
      have := (h.mAw i hi).1
      simp [hWait] at this
    · intro i hi
      have := (h.mW i hi).1
      simp [hWait] at this
    · nofun
    · simp
    · intro _ hMiss
      exact absurd (hHit.symm.trans hMiss) (by simp)
    · exact ⟨n, hn, by simpa [pending, hHit] using hMissed⟩
  · exact h

theorem Tracks.nextErr (h : w.Tracks m) (hErr : w.wst = .err) (hNext : w.next x =
    { w with sBresp := RESP_OKAY, decodeViolWrCount := satIncr w.decodeViolWrCount
             sBvalid := true, wst := .resp }) : (w.next x).Tracks m := by
  have hMiss := h.miss hErr
  have hGot := h.awGot_eq (by simp [hErr])
  obtain ⟨n, hn, hMissed⟩ := h.count
  have hPending : w.pending = 1 := by simp [pending, hMiss, hErr]
  rw [hNext]
  constructor
  · exact fun _ => h.held (.inr (by simp [hErr]))
  · simp [hGot]
  · simp
  · simp
  · intro i hi
    have := (h.mAw i hi).1
    simp [hErr] at this
  · intro i hi
    have := (h.mW i hi).1
    simp [hErr] at this
  · intro i hi
    have := (h.mB i hi).1
    simp [hErr] at this
  · simp
  · exact fun _ _ => rfl
  · refine ⟨n + 1, satIncr_counts hn, ?_⟩
    rw [hMissed, hPending]
    simp [pending, hGot]

theorem Tracks.nextResp (h : w.Tracks m) (hResp : w.wst = .resp) (hNext : w.next x =
    if w.sBvalid && x.s.bready then { w with sBvalid := false, wst := .idle } else w) :
    (w.next x).Tracks m := by
  have hGot := h.awGot_eq (by simp [hResp])
  obtain ⟨n, hn, hMissed⟩ := h.count
  have hPending : w.pending = 0 := by simp [pending, hGot, hResp]
  rw [hPending] at hMissed
  rw [hNext]
  split
  · constructor
    · simp [hGot]
    · simp [hGot]
    · simp
    · simp
    · intro i hi
      have := (h.mAw i hi).1
      simp [hResp] at this
    · intro i hi
      have := (h.mW i hi).1
      simp [hResp] at this
    · intro i hi
      have := (h.mB i hi).1
      simp [hResp] at this
    · simp
    · simp
    · exact ⟨n, hn, by simpa [pending, hGot] using hMissed⟩
  · exact h

theorem Tracks.next (h : w.Tracks m) :
    (w.next x).Tracks (if w.awHandshake x then m.take x.s.awaddr else m) := by
  have hBusy (hState : w.wst ≠ .idle) :
      (if w.awHandshake x then m.take x.s.awaddr else m) = m := by
    rw [if_neg]
    simp [awHandshake, sAwready, hState]
  cases hState : w.wst with
  | idle =>
    have hNext : w.next x = w.nextIdle x := by simp [XbWrite.next, hState]
    rw [hNext]
    exact h.nextIdle hState
  | fwd =>
    have hNext : w.next x = w.nextFwd x := by simp [XbWrite.next, hState]
    rw [hNext, hBusy (by simp [hState])]
    exact h.nextFwd hState
  | waitb =>
    have hNext : w.next x = w.nextWaitb x := by simp [XbWrite.next, hState]
    rw [hNext, hBusy (by simp [hState])]
    exact h.nextWaitb hState
  | err =>
    rw [hBusy (by simp [hState])]
    exact h.nextErr hState (by simp [XbWrite.next, hState])
  | resp =>
    rw [hBusy (by simp [hState])]
    exact h.nextResp hState (by simp [XbWrite.next, hState])

end XbWrite

namespace XbRead

variable {r : XbRead p} {m : XbSeen p} {x : XbIn p}

/-- The registers hold the request for `a`. -/
def Holds (r : XbRead p) (a : BitVec p.aw) : Prop :=
  r.arAddr = offsetOf a ∧ r.arSel = Crossbar.slotOf a ∧ r.arHit = hitOf p a

/-- Misses that are taken and not yet counted. -/
def pending (r : XbRead p) : Nat := if r.rst = .err then 1 else 0

structure Tracks (r : XbRead p) (m : XbSeen p) : Prop where
  held : r.rst ≠ .idle → ∃ a, m.last = some a ∧ r.Holds a
  hit : r.rst = .fwd ∨ r.rst = .waitr → r.arHit = true
  mAr : ∀ i, r.mArvalid i = true → r.rst = .fwd ∧ isSlave r.arSel i = true
  mR : ∀ i, r.mRready i = true → r.rst = .waitr ∧ isSlave r.arSel i = true
  valid : r.sRvalid = true ↔ r.rst = .resp
  okay : r.rst = .resp → r.arHit = false → r.sRresp = RESP_OKAY ∧ r.sRdata = 0
  count : ∃ n, r.decodeViolRdCount.toNat = min n (2 ^ 16 - 1) ∧ m.missed = n + r.pending

theorem tracks_reset : (reset p).Tracks (.empty p) := by
  constructor <;> simp [reset, XbSeen.empty, pending]

theorem Tracks.sRvalid_eq (h : r.Tracks m) (hState : r.rst ≠ .resp) : r.sRvalid = false := by
  rw [Bool.eq_false_iff]
  exact fun hValid => hState (h.valid.mp hValid)

theorem Tracks.nextIdle (h : r.Tracks m) (hIdle : r.rst = .idle) :
    (r.nextIdle x).Tracks (if r.arHandshake x then m.take x.s.araddr else m) := by
  have hAr (i : Fin p.ns) : r.mArvalid i = false := by
    rw [Bool.eq_false_iff]
    intro hi
    simpa [hIdle] using (h.mAr i hi).1
  have hR (i : Fin p.ns) : r.mRready i = false := by
    rw [Bool.eq_false_iff]
    intro hi
    simpa [hIdle] using (h.mR i hi).1
  have hValid := h.sRvalid_eq (by simp [hIdle])
  obtain ⟨n, hn, hMissed⟩ := h.count
  have hPending : r.pending = 0 := by simp [pending, hIdle]
  rw [hPending] at hMissed
  unfold XbRead.nextIdle
  split
  · cases hHit : hitOf p x.s.araddr with
    | true =>
      constructor
      · exact fun _ => ⟨x.s.araddr, rfl, rfl, rfl, hHit.symm⟩
      · exact fun _ => rfl
      · intro i hi
        exact ⟨rfl, by simpa [hAr i] using hi⟩
      · intro i hi
        simp [hR i] at hi
      · simp [hValid]
      · simp
      · exact ⟨n, hn, by simp [pending, XbSeen.take, hHit, hMissed]⟩
    | false =>
      constructor
      · exact fun _ => ⟨x.s.araddr, rfl, rfl, rfl, hHit.symm⟩
      · simp
      · intro i hi
        simp [hAr i] at hi
      · intro i hi
        simp [hR i] at hi
      · simp [hValid]
      · simp
      · exact ⟨n, hn, by simp [pending, XbSeen.take, hHit, hMissed]⟩
  · exact h

theorem Tracks.nextFwd (h : r.Tracks m) (hFwd : r.rst = .fwd) : (r.nextFwd x).Tracks m := by
  have hHit := h.hit (.inl hFwd)
  have hHeld := h.held (by simp [hFwd])
  have hValid := h.sRvalid_eq (by simp [hFwd])
  obtain ⟨n, hn, hMissed⟩ := h.count
  unfold XbRead.nextFwd
  split
  · constructor
    · exact fun _ => hHeld
    · exact fun _ => hHit
    · nofun
    · intro i hi
      rw [Bool.or_eq_true] at hi
      obtain hOld | hNew := hi
      · have := (h.mR i hOld).1
        simp [hFwd] at this
      · exact ⟨rfl, hNew⟩
    · simp [hValid]
    · simp
    · exact ⟨n, hn, by simpa [pending, hFwd] using hMissed⟩
  · exact h

theorem Tracks.nextWaitr (h : r.Tracks m) (hWait : r.rst = .waitr) : (r.nextWaitr x).Tracks m := by
  have hHit := h.hit (.inr hWait)
  have hHeld := h.held (by simp [hWait])
  obtain ⟨n, hn, hMissed⟩ := h.count
  unfold XbRead.nextWaitr
  split
  · constructor
    · exact fun _ => hHeld
    · simp
    · intro i hi
      have := (h.mAr i hi).1
      simp [hWait] at this
    · nofun
    · simp
    · intro _ hMiss
      exact absurd (hHit.symm.trans hMiss) (by simp)
    · exact ⟨n, hn, by simpa [pending, hWait] using hMissed⟩
  · exact h

theorem Tracks.nextErr (h : r.Tracks m) (hErr : r.rst = .err) (hNext : r.next x =
    { r with sRdata := 0, sRresp := RESP_OKAY
             decodeViolRdCount := satIncr r.decodeViolRdCount, sRvalid := true, rst := .resp }) :
    (r.next x).Tracks m := by
  obtain ⟨n, hn, hMissed⟩ := h.count
  have hPending : r.pending = 1 := by simp [pending, hErr]
  rw [hNext]
  constructor
  · exact fun _ => h.held (by simp [hErr])
  · simp
  · intro i hi
    have := (h.mAr i hi).1
    simp [hErr] at this
  · intro i hi
    have := (h.mR i hi).1
    simp [hErr] at this
  · simp
  · exact fun _ _ => ⟨rfl, rfl⟩
  · refine ⟨n + 1, satIncr_counts hn, ?_⟩
    rw [hMissed, hPending]
    simp [pending]

theorem Tracks.nextResp (h : r.Tracks m) (hResp : r.rst = .resp) (hNext : r.next x =
    if r.sRvalid && x.s.rready then { r with sRvalid := false, rst := .idle } else r) :
    (r.next x).Tracks m := by
  obtain ⟨n, hn, hMissed⟩ := h.count
  rw [hNext]
  split
  · constructor
    · simp
    · simp
    · intro i hi
      have := (h.mAr i hi).1
      simp [hResp] at this
    · intro i hi
      have := (h.mR i hi).1
      simp [hResp] at this
    · simp
    · simp
    · exact ⟨n, hn, by simpa [pending, hResp] using hMissed⟩
  · exact h

theorem Tracks.next (h : r.Tracks m) :
    (r.next x).Tracks (if r.arHandshake x then m.take x.s.araddr else m) := by
  have hBusy (hState : r.rst ≠ .idle) :
      (if r.arHandshake x then m.take x.s.araddr else m) = m := by
    rw [if_neg]
    simp [arHandshake, sArready, hState]
  cases hState : r.rst with
  | idle =>
    have hNext : r.next x = r.nextIdle x := by simp [XbRead.next, hState]
    rw [hNext]
    exact h.nextIdle hState
  | fwd =>
    have hNext : r.next x = r.nextFwd x := by simp [XbRead.next, hState]
    rw [hNext, hBusy (by simp [hState])]
    exact h.nextFwd hState
  | waitr =>
    have hNext : r.next x = r.nextWaitr x := by simp [XbRead.next, hState]
    rw [hNext, hBusy (by simp [hState])]
    exact h.nextWaitr hState
  | err =>
    rw [hBusy (by simp [hState])]
    exact h.nextErr hState (by simp [XbRead.next, hState])
  | resp =>
    rw [hBusy (by simp [hState])]
    exact h.nextResp hState (by simp [XbRead.next, hState])

end XbRead

end PqcHsm
