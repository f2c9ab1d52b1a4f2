import Mathlib.Logic.Basic

/-!
# UTF-8 texts

A byte string is a UTF-8 text if it is the encoding of a list of characters. At an ASCII byte it
can be cut: such a byte never is a part of a longer character.
-/

namespace Utf8

/-- The encoding of a list of characters. -/
def encode (cs : List Char) : List UInt8 := cs.flatMap String.utf8EncodeChar

def IsText (b : List UInt8) : Prop := ∃ cs, b = encode cs

def IsAscii (b : UInt8) : Prop := b.toNat < 128

instance (b : UInt8) : Decidable (IsAscii b) := inferInstanceAs (Decidable (b.toNat < 128))

@[simp] theorem isText_encode (cs : List Char) : IsText (encode cs) := ⟨cs, rfl⟩

@[simp] theorem isText_nil : IsText [] := ⟨[], rfl⟩

theorem IsText.append {a b : List UInt8} (ha : IsText a) (hb : IsText b) : IsText (a ++ b) := by
  obtain ⟨cs, rfl⟩ := ha
  obtain ⟨cs', rfl⟩ := hb
  exact ⟨cs ++ cs', List.flatMap_append.symm⟩

/-- The encoding of a character is one ASCII byte, or has none. -/
theorem encodeChar_cases (c : Char) :
    (∃ b, IsAscii b ∧ String.utf8EncodeChar c = [b]) ∨
      ∀ b ∈ String.utf8EncodeChar c, ¬IsAscii b := by
  have hHigh : ∀ n, 128 ≤ n → n < 256 → ¬IsAscii (UInt8.ofNat n) := by
    intro n hLow hLt h
    have hNat : (UInt8.ofNat n).toNat = n := UInt8.toNat_ofNat_of_lt hLt
    rw [IsAscii, hNat] at h
    omega
  rw [String.utf8EncodeChar]
  split
  · next h =>
    have hNat : (UInt8.ofNat c.val.toNat).toNat = c.val.toNat :=
      UInt8.toNat_ofNat_of_lt (show c.val.toNat < 256 by omega)
    refine .inl ⟨_, ?_, rfl⟩
    rw [IsAscii, hNat]
    omega
  · right
    split
    · simp only [List.mem_cons, List.not_mem_nil, or_false, forall_eq_or_imp, forall_eq]
      exact ⟨hHigh _ (by omega) (by omega), hHigh _ (by omega) (by omega)⟩
    · split
      · simp only [List.mem_cons, List.not_mem_nil, or_false, forall_eq_or_imp, forall_eq]
        exact ⟨hHigh _ (by omega) (by omega), hHigh _ (by omega) (by omega),
          hHigh _ (by omega) (by omega)⟩
      · simp only [List.mem_cons, List.not_mem_nil, or_false, forall_eq_or_imp, forall_eq]
        exact ⟨hHigh _ (by omega) (by omega), hHigh _ (by omega) (by omega),
          hHigh _ (by omega) (by omega), hHigh _ (by omega) (by omega)⟩

theorem isText_ascii {b : UInt8} (h : IsAscii b) : IsText [b] := by
  refine ⟨[Char.ofNat b.toNat], ?_⟩
  have hVal : (Char.ofNat b.toNat).val.toNat = b.toNat := by
    have hValid : b.toNat.isValidChar := .inl (Nat.lt_trans h (by decide))
    rw [Char.ofNat, dif_pos hValid]
    rfl
  have hLe : b.toNat ≤ 127 := Nat.le_of_lt_succ h
  simp only [encode, List.flatMap_cons, List.flatMap_nil, List.append_nil, String.utf8EncodeChar,
    hVal, if_pos hLe, UInt8.ofNat_toNat]

/-- A text can be cut before and behind an ASCII byte. -/
theorem isText_cut {a b : List UInt8} {x : UInt8} (hx : IsAscii x) :
    IsText (a ++ x :: b) ↔ IsText a ∧ IsText b := by
  constructor
  · rintro ⟨cs, h⟩
    induction cs generalizing a with
    | nil => simp [encode] at h
    | cons c cs ih =>
      rw [encode, List.flatMap_cons] at h
      rcases List.append_eq_append_iff.mp h with ⟨e, hc, hRest⟩ | ⟨a', ha, hRest⟩
      · cases e with
        | nil =>
          rw [List.append_nil] at hc
          obtain ⟨-, hb⟩ := ih (a := []) hRest
          refine ⟨⟨[c], ?_⟩, hb⟩
          rw [← hc, encode, List.flatMap_cons, List.flatMap_nil, List.append_nil]
        | cons y e =>
          -- the ASCII byte is in this character, and all of it
          obtain ⟨rfl, hb⟩ := List.cons.inj hRest
          rcases encodeChar_cases c with ⟨z, -, hz⟩ | hNone
          · rw [hz] at hc
            cases a with
            | nil =>
              obtain ⟨-, rfl⟩ := List.cons.inj hc
              exact ⟨isText_nil, cs, hb⟩
            | cons => simp at hc
          · exact absurd hx (hNone x (hc ▸ List.mem_append_right _ List.mem_cons_self))
      · obtain ⟨hText, hb⟩ := ih hRest.symm
        refine ⟨?_, hb⟩
        rw [ha]
        exact IsText.append ⟨[c], by simp [encode]⟩ hText
  · rintro ⟨ha, hb⟩
    exact ha.append ((isText_ascii hx).append hb)

theorem isText_cons {b : List UInt8} {x : UInt8} (hx : IsAscii x) : IsText (x :: b) ↔ IsText b := by
  have h := isText_cut (a := []) (b := b) hx
  exact h.trans (and_iff_right isText_nil)

/-- ASCII bytes before a text change nothing. -/
theorem isText_ascii_append {a b : List UInt8} (ha : ∀ x ∈ a, IsAscii x) :
    IsText (a ++ b) ↔ IsText b := by
  induction a with
  | nil => rfl
  | cons x a ih =>
    rw [List.cons_append, isText_cons (ha x List.mem_cons_self)]
    exact ih fun y hy => ha y (List.mem_cons_of_mem _ hy)

theorem isText_of_ascii {a : List UInt8} (ha : ∀ x ∈ a, IsAscii x) : IsText a := by
  have h := (isText_ascii_append (b := []) ha).mpr isText_nil
  rwa [List.append_nil] at h

end Utf8
