import Mathlib.Data.Vector.Basic

/-!
# Chaining of blocks and padding

Cipher block chaining over blocks of any kind, texts cut into blocks of a fixed length, and a
padding whose symbols all name its length.
-/

namespace BlockModes

section Chaining

variable {β : Type} (op : β → β → β) (E D : β → β)

def cbcEncrypt : β → List β → List β
  | _, [] => []
  | fb, b :: bs => E (op b fb) :: cbcEncrypt (E (op b fb)) bs

def cbcDecrypt : β → List β → List β
  | _, [] => []
  | fb, c :: cs => op (D c) fb :: cbcDecrypt c cs

/-- The feedback after blocks of ciphertext. -/
def feedback (fb : β) (cs : List β) : β := cs.getLastD fb

theorem feedback_cons (fb c : β) (cs : List β) : feedback fb (c :: cs) = feedback c cs := by
  cases cs <;> rfl

@[simp] theorem length_cbcEncrypt (fb : β) (bs : List β) :
    (cbcEncrypt op E fb bs).length = bs.length := by
  induction bs generalizing fb with
  | nil => rfl
  | cons b bs ih => simp only [cbcEncrypt, List.length_cons, ih]

@[simp] theorem length_cbcDecrypt (fb : β) (cs : List β) :
    (cbcDecrypt op D fb cs).length = cs.length := by
  induction cs generalizing fb with
  | nil => rfl
  | cons c cs ih => simp only [cbcDecrypt, List.length_cons, ih]

theorem cbcEncrypt_append (fb : β) (bs bs' : List β) :
    cbcEncrypt op E fb (bs ++ bs') = cbcEncrypt op E fb bs ++
      cbcEncrypt op E (feedback fb (cbcEncrypt op E fb bs)) bs' := by
  induction bs generalizing fb with
  | nil => rfl
  | cons b bs ih => simp only [List.cons_append, cbcEncrypt, ih, feedback_cons]

theorem cbcDecrypt_append (fb : β) (cs cs' : List β) :
    cbcDecrypt op D fb (cs ++ cs') = cbcDecrypt op D fb cs ++
      cbcDecrypt op D (feedback fb cs) cs' := by
  induction cs generalizing fb with
  | nil => rfl
  | cons c cs ih => simp only [List.cons_append, cbcDecrypt, ih, feedback_cons]

variable {op E D}

theorem cbcDecrypt_cbcEncrypt (hOp : ∀ a b, op (op a b) b = a) (hInv : ∀ b, D (E b) = b)
    (fb : β) (bs : List β) : cbcDecrypt op D fb (cbcEncrypt op E fb bs) = bs := by
  induction bs generalizing fb with
  | nil => rfl
  | cons b bs ih => simp only [cbcEncrypt, cbcDecrypt, hInv, hOp, ih]

end Chaining

section Blocks

variable {α : Type} {k : Nat}

/-- The text of blocks. -/
def ofBlocks (bs : List (List.Vector α k)) : List α := (bs.map List.Vector.toList).flatten

@[simp] theorem ofBlocks_nil : ofBlocks ([] : List (List.Vector α k)) = [] := rfl

@[simp] theorem ofBlocks_cons (b : List.Vector α k) (bs : List (List.Vector α k)) :
    ofBlocks (b :: bs) = b.toList ++ ofBlocks bs := rfl

@[simp] theorem ofBlocks_append (bs bs' : List (List.Vector α k)) :
    ofBlocks (bs ++ bs') = ofBlocks bs ++ ofBlocks bs' := by
  simp only [ofBlocks, List.map_append, List.flatten_append]

@[simp] theorem length_ofBlocks (bs : List (List.Vector α k)) :
    (ofBlocks bs).length = k * bs.length := by
  induction bs with
  | nil => rfl
  | cons b bs ih =>
    simp only [ofBlocks_cons, List.length_append, List.Vector.toList_length, ih, List.length_cons,
      Nat.mul_succ]
    omega

theorem take_ofBlocks (bs : List (List.Vector α k)) (n : Nat) :
    (ofBlocks bs).take (k * n) = ofBlocks (bs.take n) := by
  induction n generalizing bs with
  | zero => simp
  | succ n ih =>
    cases bs with
    | nil => simp
    | cons b bs =>
      have hLen : b.toList.length = k := b.toList_length
      rw [ofBlocks_cons, List.take_append, hLen, List.take_of_length_le (by rw [hLen]; grind),
        show k * (n + 1) - k = k * n by rw [Nat.mul_succ, Nat.add_sub_cancel], ih]
      rfl

theorem drop_ofBlocks (bs : List (List.Vector α k)) (n : Nat) :
    (ofBlocks bs).drop (k * n) = ofBlocks (bs.drop n) := by
  have h := List.take_append_drop (k * n) (ofBlocks bs)
  rw [take_ofBlocks] at h
  conv_rhs at h => rw [← List.take_append_drop n bs, ofBlocks_append]
  exact List.append_cancel_left h

theorem ofBlocks_inj {bs bs' : List (List.Vector α k)} (hk : 0 < k)
    (h : ofBlocks bs = ofBlocks bs') : bs = bs' := by
  induction bs generalizing bs' with
  | nil =>
    have hLen := congrArg List.length h
    rw [length_ofBlocks, length_ofBlocks] at hLen
    have hNil : bs'.length = 0 := by
      rcases Nat.mul_eq_zero.mp hLen.symm with h | h
      · omega
      · exact h
    exact (List.length_eq_zero_iff.mp hNil).symm
  | cons b bs ih =>
    cases bs' with
    | nil =>
      have hLen := congrArg List.length h
      rw [length_ofBlocks, length_ofBlocks, List.length_cons, List.length_nil, Nat.mul_zero] at hLen
      rcases Nat.mul_eq_zero.mp hLen with h | h <;> omega
    | cons b' bs' =>
      obtain ⟨hHead, hTail⟩ := List.append_inj h
        (b.toList_length.trans b'.toList_length.symm)
      rw [List.Vector.eq b b' hHead, ih hTail]

theorem exists_ofBlocks {n : Nat} {l : List α} (h : l.length = k * n) :
    ∃ bs : List (List.Vector α k), bs.length = n ∧ ofBlocks bs = l := by
  induction n generalizing l with
  | zero =>
    refine ⟨[], rfl, ?_⟩
    exact (List.length_eq_zero_iff.mp h).symm
  | succ n ih =>
    obtain ⟨bs, hLen, hEq⟩ := ih (l := l.drop k)
      (by rw [List.length_drop, h, Nat.mul_succ, Nat.add_sub_cancel])
    have hTake : (l.take k).length = k := by
      rw [List.length_take, h, Nat.mul_succ]
      omega
    let b : List.Vector α k := ⟨l.take k, hTake⟩
    refine ⟨b :: bs, by rw [List.length_cons, hLen], ?_⟩
    rw [ofBlocks_cons, hEq]
    exact List.take_append_drop k l

end Blocks

section Padding

/-- As many bytes as are missing to a whole number of blocks, each of them that number. -/
def pad (k : Nat) (m : List UInt8) : List UInt8 :=
  m ++ List.replicate (k - m.length % k) (UInt8.ofNat (k - m.length % k))

theorem length_pad (k : Nat) (m : List UInt8) :
    (pad k m).length = m.length + (k - m.length % k) := by
  rw [pad, List.length_append, List.length_replicate]

theorem dvd_length_pad {k : Nat} (hk : 0 < k) (m : List UInt8) : k ∣ (pad k m).length := by
  have hMod := Nat.mod_lt m.length hk
  have hDiv := Nat.div_add_mod m.length k
  refine ⟨m.length / k + 1, ?_⟩
  rw [length_pad, Nat.mul_succ]
  omega

/-- The length of the padding is the only one that a whole number of blocks leaves. -/
theorem eq_pad_iff {k : Nat} (hk : 0 < k) {d m : List UInt8} (hDvd : k ∣ d.length) :
    d = pad k m ↔ ∃ p, 0 < p ∧ p ≤ k ∧ d = m ++ List.replicate p (UInt8.ofNat p) := by
  have hMod := Nat.mod_lt m.length hk
  constructor
  · intro h
    exact ⟨k - m.length % k, by omega, Nat.sub_le .., h⟩
  · rintro ⟨p, hPos, hLe, h⟩
    have hLen : d.length = m.length + p := by
      rw [h, List.length_append, List.length_replicate]
    have hP : p = k - m.length % k := by
      obtain ⟨c, hc⟩ := hDvd
      have hSum : (m.length % k + p) % k = 0 := by
        rw [Nat.mod_add_mod, ← hLen, hc, Nat.mul_mod_right]
      obtain ⟨q, hq⟩ := Nat.dvd_of_mod_eq_zero hSum
      have hQ : q = 1 := by
        have hLow : 0 < q := by
          rcases Nat.eq_zero_or_pos q with h0 | h0
          · rw [h0, Nat.mul_zero] at hq
            omega
          · exact h0
        have hHigh : q < 2 := by
          by_contra hNot
          have := Nat.mul_le_mul_left k (Nat.not_lt.mp hNot)
          omega
        omega
      rw [hQ, Nat.mul_one] at hq
      omega
    rw [h, pad, hP]

end Padding

end BlockModes
