import Mathlib.Data.List.Infix
import PqcHsm.Library.JsonText

/-!
# Flat objects as they are written

The grammar of the objects whose values are strings, numbers and words: every way to write one, with
its whitespace, its escapes and the order of its members.
-/

namespace FlatJson

open JsonText

/-! ### Strings -/

/-- A byte of a string or an escape, with the text that it stands for. -/
inductive Piece where
  | byte (c : UInt8) (h : ¬c < 32 ∧ c ≠ 34 ∧ c ≠ 92)
  | escape (c d : UInt8) (h : escaped c = some d)
  | unit (a b c d : UInt8) (t : Text) (h : (codeUnit a b c d).bind unitText = some t)
  | pair (a b c d a' b' c' d' : UInt8) (t : Text)
    (h : ∃ u u',
      codeUnit a b c d = some u ∧ codeUnit a' b' c' d' = some u' ∧ pairText u u' = some t)

namespace Piece

def text : Piece → Text
  | byte c _ => [c]
  | escape c _ _ => [92, c]
  | unit a b c d _ _ => [92, 117, a, b, c, d]
  | pair a b c d a' b' c' d' _ _ => [92, 117, a, b, c, d, 92, 117, a', b', c', d']

def meaning : Piece → Text
  | byte c _ => [c]
  | escape _ d _ => [d]
  | unit _ _ _ _ t _ => t
  | pair _ _ _ _ _ _ _ _ t _ => t

end Piece

def text (s : List Piece) : Text := s.flatMap Piece.text

def meaning (s : List Piece) : Text := s.flatMap Piece.meaning

theorem unitText_surrogate {u u' : Nat} {t : Text} (h : pairText u u' = some t) :
    unitText u = none := by
  rw [pairText] at h
  split at h
  · next hPair => exact if_pos ⟨hPair.1.1, by omega⟩
  · cases h

/-- A piece is what the decoder reads. -/
theorem piece_text (p : Piece) (r : Text) : piece (p.text ++ r) = some (p.meaning, r) := by
  cases p with
  | byte c h =>
    change piece (c :: r) = some ([c], r)
    rw [piece.eq_def]
    simp only [if_neg h.2.2, if_neg h.1]
  | escape c d h =>
    change piece (92 :: c :: r) = some ([d], r)
    have hNe : c ≠ 117 := by
      rintro rfl
      cases h
    simp only [piece, if_true, if_neg hNe, h, Option.map_some]
  | unit a b c d t h =>
    change unicode (a :: b :: c :: d :: r) = some (t, r)
    obtain ⟨u, hUnit, hText⟩ := Option.bind_eq_some_iff.mp h
    simp only [unicode, hUnit, hText]
  | pair a b c d a' b' c' d' t h =>
    change unicode (a :: b :: c :: d :: 92 :: 117 :: a' :: b' :: c' :: d' :: r) = some (t, r)
    obtain ⟨u, u', hUnit, hUnit', hText⟩ := h
    simp only [unicode, hUnit, hUnit', unitText_surrogate hText, Option.bind_some, hText,
      Option.map_some]

theorem head_text (p : Piece) (r : Text) : (p.text ++ r).head? ≠ some 34 := by
  cases p with
  | byte c h => exact fun hHead => h.2.1 (Option.some.inj hHead)
  | escape | unit | pair => exact nofun

theorem length_text_pos (p : Piece) : 0 < p.text.length := by cases p <;> exact Nat.succ_pos _

/-- The text of a string decodes to its meaning. -/
theorem string_text {s : List Piece} {n : Nat} (h : (text s).length < n) (r : Text) :
    string n (text s ++ 34 :: r) = some (meaning s, r) := by
  induction s generalizing n with
  | nil =>
    obtain ⟨n, rfl⟩ := Nat.exists_eq_succ_of_ne_zero (Nat.ne_zero_of_lt h)
    rfl
  | cons p s ih =>
    obtain ⟨n, rfl⟩ := Nat.exists_eq_succ_of_ne_zero (Nat.ne_zero_of_lt h)
    have hSplit : text (p :: s) ++ 34 :: r = p.text ++ (text s ++ 34 :: r) := by
      rw [text, List.flatMap_cons, List.append_assoc]
      rfl
    have hLen : (text (p :: s)).length = p.text.length + (text s).length := by
      rw [text, List.flatMap_cons, List.length_append]
      rfl
    have hPos := length_text_pos p
    rw [hSplit, string, if_neg (head_text p _), piece_text]
    simp only [ih (show (text s).length < n by omega), Option.map_some]
    rfl

/-! ### Numbers -/

def digits (ds : List (Fin 10)) : Text := ds.map fun d => UInt8.ofNat (48 + d.val)

structure Number where
  minus : Bool
  int : List (Fin 10)
  frac : Option (List (Fin 10))
  /-- The letter, the sign and the digits. -/
  exp : Option (Bool × Option Bool × List (Fin 10))
  int_ne : int ≠ []
  int_lead : int.head? = some 0 → int = [0]
  frac_ne : frac ≠ some []
  exp_ne : ∀ e ∈ exp, e.2.2 ≠ []

namespace Number

def fracText (n : Number) : Text := n.frac.elim [] fun ds => 46 :: digits ds

def expText (n : Number) : Text :=
  n.exp.elim [] fun e =>
    (if e.1 then 69 else 101) :: (e.2.1.elim [] fun plus => [if plus then 43 else 45]) ++
      digits e.2.2

def text (n : Number) : Text :=
  (if n.minus then [45] else []) ++ digits n.int ++ n.fracText ++ n.expText

end Number

/-! ### Objects -/

abbrev Space := {b : Text // ∀ c ∈ b, isSpace c = true}

inductive Value where
  | str (s : List Piece)
  | num (n : Number)
  | bool (b : Bool)
  | null

namespace Value

def text : Value → Text
  | str s => 34 :: (FlatJson.text s ++ [34])
  | num n => n.text
  | bool b => if b then [116, 114, 117, 101] else [102, 97, 108, 115, 101]
  | null => [110, 117, 108, 108]

/-- What a field has where it asks for a text or a number. -/
def field : Value → Option Text
  | str s => some (meaning s)
  | num n => some n.text
  | bool _ | null => none

end Value

structure Member where
  before : Space
  name : List Piece
  colon : Space
  gap : Space
  value : Value
  after : Space

def Member.text (m : Member) : Text :=
  m.before.val ++ 34 :: (FlatJson.text m.name ++ 34 :: (m.colon.val ++ 58 :: (m.gap.val ++
    (m.value.text ++ m.after.val))))

def membersText : List Member → Text → Text
  | [], r => r
  | [m], r => m.text ++ r
  | m :: ms, r => m.text ++ 44 :: membersText ms r

structure Object where
  lead : Space
  inner : Space
  members : List Member
  trail : Space

namespace Object

def text (b : Object) : Text :=
  b.lead.val ++ 123 :: (b.inner.val ++ membersText b.members (125 :: b.trail.val))

/-- The first member with a name. -/
def member (b : Object) (key : Text) : Option Member :=
  b.members.find? fun m => meaning m.name = key

def field (b : Object) (key : Text) : Option Text := (b.member key).bind fun m => m.value.field

end Object

/-! ### Where quotation marks stand -/

theorem hex_of_codeUnit {a b c d : UInt8} {u : Nat} (h : codeUnit a b c d = some u) :
    ∀ x ∈ [a, b, c, d], x ≠ 34 ∧ x ≠ 92 := by
  obtain ⟨_, ha, h⟩ := Option.bind_eq_some_iff.mp h
  obtain ⟨_, hb, h⟩ := Option.bind_eq_some_iff.mp h
  obtain ⟨_, hc, h⟩ := Option.bind_eq_some_iff.mp h
  obtain ⟨_, hd, h⟩ := Option.bind_eq_some_iff.mp h
  have hHex {x : UInt8} {n : Nat} (hx : hexValue x = some n) : x ≠ 34 ∧ x ≠ 92 := by
    constructor <;> rintro rfl <;> cases hx
  intro x hx
  simp only [List.mem_cons, List.not_mem_nil, or_false] at hx
  obtain rfl | rfl | rfl | rfl := hx
  · exact hHex ha
  · exact hHex hb
  · exact hHex hc
  · exact hHex hd

theorem space_ne {c x : UInt8} (hc : isSpace c = true) (hx : isSpace x = false) : c ≠ x := by
  rintro rfl
  rw [hc] at hx
  cases hx

theorem digits_mem {ds : List (Fin 10)} {c : UInt8} (h : c ∈ digits ds) : isDigit c = true := by
  obtain ⟨d, -, rfl⟩ := List.mem_map.mp h
  exact (digit_of_lt d.isLt).1

/-- The bytes of a number. -/
theorem number_mem {n : Number} {c : UInt8} (h : c ∈ n.text) :
    isDigit c = true ∨ c = 45 ∨ c = 46 ∨ c = 69 ∨ c = 101 ∨ c = 43 := by
  simp only [Number.text, List.mem_append] at h
  obtain ((h | h) | h) | h := h
  · cases hMinus : n.minus with
    | false =>
      rw [hMinus] at h
      cases h
    | true =>
      rw [hMinus] at h
      exact .inr (.inl (List.mem_singleton.mp h))
  · exact .inl (digits_mem h)
  · rw [Number.fracText] at h
    cases hFrac : n.frac with
    | none =>
      rw [hFrac] at h
      cases h
    | some ds =>
      rw [hFrac] at h
      obtain rfl | h := List.mem_cons.mp h
      · exact .inr (.inr (.inl rfl))
      · exact .inl (digits_mem h)
  · rw [Number.expText] at h
    cases hExp : n.exp with
    | none =>
      rw [hExp] at h
      cases h
    | some e =>
      obtain ⟨big, sign, ds⟩ := e
      rw [hExp] at h
      obtain h | h := List.mem_cons.mp h
      · cases big with
        | false => exact .inr (.inr (.inr (.inr (.inl h))))
        | true => exact .inr (.inr (.inr (.inl h)))
      · obtain h | h := List.mem_append.mp h
        · cases sign with
          | none => cases h
          | some plus =>
            cases plus with
            | false => exact .inr (.inl (List.mem_singleton.mp h))
            | true => exact .inr (.inr (.inr (.inr (.inr (List.mem_singleton.mp h)))))
        · exact .inl (digits_mem h)

end FlatJson
