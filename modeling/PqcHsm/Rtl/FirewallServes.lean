import PqcHsm.Library.OneAtATime
import PqcHsm.Rtl.Firewall

/-!
# The firewall serves what its slave serves

If the slave behind it answers one request at a time and each within a bound, so does the firewall
with the slave. `o` is what the slave owes.
-/

namespace PqcHsm

variable {aw bound : Nat} {o o' : Option Nat} {x : FwIn aw}

namespace FwRead

variable {r : FwRead aw}

/-- The registers of the read channel, and the slave behind it. -/
structure Fits (r : FwRead aw) (o : Option Nat) : Prop where
  mArvalid : r.mArvalid = decide (r.rst = .fwd)
  mRready : r.mRready = decide (r.rst = .waitr)
  sRvalid : r.sRvalid = decide (r.rst = .resp)
  slave : o.isSome = decide (r.rst = .waitr)

/-- What is owed to the master. -/
def owed (r : FwRead aw) (bound : Nat) (o : Option Nat) : Option Nat :=
  match r.rst with
  | .idle => none
  | .fwd => some (bound + 2)
  | .waitr => o.map (· + 1)
  | .err => some 1
  | .resp => some 0

theorem fits_reset : (reset aw).Fits none := by
  constructor <;> rfl

theorem owed_none_iff (h : r.Fits o) : r.owed bound o = none ↔ r.rst = .idle := by
  have hSlave := h.slave
  unfold owed
  cases hSt : r.rst <;> cases o <;> simp_all

theorem owed_zero (h : r.Fits o) (hUp : r.owed bound o = some 0) : r.sRvalid = true := by
  rw [h.sRvalid]
  unfold owed at hUp
  cases hSt : r.rst <;> cases o <;> simp_all

/-- One cycle of the read channel, with one of the slave. -/
theorem owes_next (permitted : Bool) (h : r.Fits o) (hReady : o = none → x.m.arready = true)
    (hValid : x.m.rvalid = decide (o = some 0))
    (hSlave : Owes bound (r.mArvalid && x.m.arready) (x.m.rvalid && r.mRready) o o') :
    (r.next permitted x).Fits o' ∧
      Owes (bound + 2) (r.arHandshake x) (r.sRvalid && x.s.rready) (r.owed bound o)
        ((r.next permitted x).owed bound o') := by
  obtain ⟨hAr, hRr, hRv, hSome⟩ := h
  have hTakes : r.arHandshake x = (x.s.arvalid && decide (r.rst = .idle)) := rfl
  cases hSt : r.rst with
  | idle =>
    obtain rfl : o = none := by simpa [hSt] using hSome
    obtain ⟨-, ho⟩ := hSlave
    obtain rfl : o' = none := by simpa [hAr, hSt] using ho
    rw [hTakes]
    simp only [next, owed, hSt, Owes]
    cases hReq : x.s.arvalid with
    | false =>
      simp only [hTakes, hReq]
      constructor
      · constructor <;> simp [hAr, hRr, hRv, hSt]
      · simp [hRv, hSt]
    | true =>
      cases permitted with
      | true =>
        simp only [hTakes, hReq, hSt]
        constructor
        · constructor <;> simp [hRr, hRv, hSt]
        · simp [hRv, hSt]
      | false =>
        simp only [hTakes, hReq, hSt]
        constructor
        · constructor <;> simp [hAr, hRr, hRv, hSt]
        · simp [hRv, hSt]
  | fwd =>
    obtain rfl : o = none := by simpa [hSt] using hSome
    obtain ⟨-, ho⟩ := hSlave
    have hTaken : (r.mArvalid && x.m.arready) = true := by simp [hAr, hSt, hReady]
    rw [hTaken, if_pos rfl] at ho
    obtain ⟨n, hn, rfl⟩ := ho
    rw [hTakes]
    simp only [next, owed, hSt, Owes, hTaken]
    constructor
    · constructor <;> simp [hRv, hSt]
    · simp [hRv, hSt]
      omega
  | waitr =>
    obtain ⟨n, rfl⟩ : ∃ n, o = some n := Option.isSome_iff_exists.mp (by simp [hSome, hSt])
    rw [hTakes]
    simp only [next, owed, hSt, hValid]
    match n with
    | 0 =>
      obtain ⟨-, ho⟩ := hSlave
      obtain rfl : o' = none := by simpa [hValid, hRr, hSt] using ho
      constructor
      · constructor <;> simp [hAr, hSt]
      · simp [Owes, hRv, hSt]
    | n + 1 =>
      obtain ⟨-, -, m, hm, rfl⟩ := hSlave
      constructor
      · constructor <;> simp [hAr, hRr, hRv, hSt]
      · simp [Owes, hRv, hSt]
        omega
  | err =>
    obtain rfl : o = none := by simpa [hSt] using hSome
    obtain ⟨-, ho⟩ := hSlave
    obtain rfl : o' = none := by simpa [hAr, hSt] using ho
    rw [hTakes]
    simp only [next, owed, hSt]
    constructor
    · constructor <;> simp [hAr, hRr, hSt]
    · simp [Owes, hRv, hSt]
  | resp =>
    obtain rfl : o = none := by simpa [hSt] using hSome
    obtain ⟨-, ho⟩ := hSlave
    obtain rfl : o' = none := by simpa [hAr, hSt] using ho
    rw [hTakes]
    simp only [next, owed, hSt, hRv]
    cases hGiven : x.s.rready with
    | true =>
      constructor
      · constructor <;> simp [hAr, hRr, hSt]
      · simp [Owes]
    | false =>
      constructor
      · constructor <;> simp [hAr, hRr, hRv, hSt]
      · simp [Owes, hSt]

end FwRead

namespace FwWrite

variable {w : FwWrite aw}

/-- The registers of the write channel, and the slave behind it. -/
structure Fits (w : FwWrite aw) (o : Option Nat) : Prop where
  mAwvalid : w.mAwvalid = decide (w.wst = .fwd)
  mWvalid : w.mWvalid = decide (w.wst = .fwd)
  mBready : w.mBready = decide (w.wst = .waitb)
  sBvalid : w.sBvalid = decide (w.wst = .resp)
  slave : o.isSome = decide (w.wst = .waitb)
  sent : w.wst = .fwd → w.awSent = false ∧ w.wSent = false
  awGot : w.awGot = true → w.wst = .idle ∧ w.wGot = false
  wGot : w.wGot = true → w.wst = .idle ∧ w.awGot = false

/-- What is owed to the master, once address and data are both there. -/
def owed (w : FwWrite aw) (bound : Nat) (o : Option Nat) : Option Nat :=
  match w.wst with
  | .idle => none
  | .fwd => some (bound + 2)
  | .waitb => o.map (· + 1)
  | .err => some 1
  | .resp => some 0

/-- Address and data of a write are both there. -/
def takes (w : FwWrite aw) (x : FwIn aw) : Bool := w.wst = .idle && w.complete x

theorem fits_reset : (reset aw).Fits none := by
  constructor <;> simp [reset]

theorem owed_zero (h : w.Fits o) (hUp : w.owed bound o = some 0) : w.sBvalid = true := by
  rw [h.sBvalid]
  unfold owed at hUp
  cases hSt : w.wst <;> cases o <;> simp_all

/-- Nothing is collected while a write is under way. -/
theorem Fits.collects (h : w.Fits o) (hBusy : w.wst ≠ .idle) :
    w.awGot = false ∧ w.wGot = false := by
  constructor
  · rw [Bool.eq_false_iff]
    intro hGot
    exact hBusy (h.awGot hGot).1
  · rw [Bool.eq_false_iff]
    intro hGot
    exact hBusy (h.wGot hGot).1

/-- One cycle of the write channel, with one of the slave. -/
theorem owes_next (permitted : Bool) (h : w.Fits o)
    (hReady : o = none → x.m.awready = true ∧ x.m.wready = true)
    (hValid : x.m.bvalid = decide (o = some 0))
    (hSlave : Owes bound (w.mAwvalid && x.m.awready) (x.m.bvalid && w.mBready) o o') :
    (w.next permitted x).Fits o' ∧
      Owes (bound + 2) (w.takes x) (w.sBvalid && x.s.bready) (w.owed bound o)
        ((w.next permitted x).owed bound o') := by
  have hCollects := h.collects
  obtain ⟨hAw, hW, hB, hBv, hSome, hSent, -, -⟩ := h
  cases hSt : w.wst with
  | idle =>
    obtain rfl : o = none := by simpa [hSt] using hSome
    obtain ⟨-, ho⟩ := hSlave
    obtain rfl : o' = none := by simpa [hAw, hSt] using ho
    simp only [next, nextIdle, takes, owed, hSt, Owes]
    cases hReq : w.complete x with
    | false =>
      have hApart : (w.awGot || w.awHandshake x) = true → (w.wGot || w.wHandshake x) = false := by
        intro hA
        simpa [complete, hA] using hReq
      have hApart' : (w.wGot || w.wHandshake x) = true → (w.awGot || w.awHandshake x) = false := by
        intro hD
        simpa [complete, hD] using hReq
      constructor
      · constructor
        · simp [hAw, hSt]
        · simp [hW, hSt]
        · simp [hB, hSt]
        · simp [hBv, hSt]
        · rfl
        · simp
        · exact fun hA => ⟨rfl, hApart hA⟩
        · exact fun hD => ⟨rfl, hApart' hD⟩
      · simp [hBv, hSt]
    | true =>
      cases permitted with
      | true =>
        constructor
        · constructor <;> simp [hB, hBv, hSt]
        · simp [hBv, hSt]
      | false =>
        constructor
        · constructor <;> simp [hAw, hW, hB, hBv, hSt]
        · simp [hBv, hSt]
  | fwd =>
    obtain rfl : o = none := by simpa [hSt] using hSome
    obtain ⟨hAwready, hWready⟩ := hReady rfl
    obtain ⟨-, ho⟩ := hSlave
    rw [hAw, hSt, hAwready, if_pos (by rfl)] at ho
    obtain ⟨n, hn, rfl⟩ := ho
    obtain ⟨hAwSent, hWSent⟩ := hSent hSt
    obtain ⟨hAwIdle, hWIdle⟩ := hCollects (by simp [hSt])
    simp only [next, nextFwd, takes, owed, hSt, Owes, hAw, hW, hAwready, hWready]
    constructor
    · constructor <;> simp [hBv, hSt, hAwIdle, hWIdle]
    · simp [hBv, hSt]
      omega
  | waitb =>
    obtain ⟨hAwIdle, hWIdle⟩ := hCollects (by simp [hSt])
    obtain ⟨n, rfl⟩ : ∃ n, o = some n := Option.isSome_iff_exists.mp (by simp [hSome, hSt])
    simp only [next, takes, owed, hSt, hValid]
    match n with
    | 0 =>
      obtain ⟨-, ho⟩ := hSlave
      obtain rfl : o' = none := by simpa [hValid, hB, hSt] using ho
      constructor
      · constructor <;> simp [hAw, hW, hSt, hAwIdle, hWIdle]
      · simp [Owes, hBv, hSt]
    | n + 1 =>
      obtain ⟨-, -, m, hm, rfl⟩ := hSlave
      constructor
      · constructor <;> simp [hAw, hW, hB, hBv, hSt, hAwIdle, hWIdle]
      · simp [Owes, hBv, hSt]
        omega
  | err =>
    obtain rfl : o = none := by simpa [hSt] using hSome
    obtain ⟨-, ho⟩ := hSlave
    obtain rfl : o' = none := by simpa [hAw, hSt] using ho
    obtain ⟨hAwIdle, hWIdle⟩ := hCollects (by simp [hSt])
    simp only [next, takes, owed, hSt]
    constructor
    · constructor <;> simp [hAw, hW, hB, hSt, hAwIdle, hWIdle]
    · simp [Owes, hBv, hSt]
  | resp =>
    obtain rfl : o = none := by simpa [hSt] using hSome
    obtain ⟨-, ho⟩ := hSlave
    obtain rfl : o' = none := by simpa [hAw, hSt] using ho
    obtain ⟨hAwIdle, hWIdle⟩ := hCollects (by simp [hSt])
    simp only [next, takes, owed, hSt, hBv]
    cases hGiven : x.s.bready with
    | true =>
      constructor
      · constructor <;> simp [hAw, hW, hB, hSt, hAwIdle, hWIdle]
      · simp [Owes]
    | false =>
      constructor
      · constructor <;> simp [hAw, hW, hB, hBv, hSt, hAwIdle, hWIdle]
      · simp [Owes, hSt]

end FwWrite

end PqcHsm
