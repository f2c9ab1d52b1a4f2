import Mathlib.Data.List.TakeWhile
import PqcHsm.Library.Utf8

/-!
# JSON texts

Values, how they are written and a decoder of texts. Numbers are natural. What is written for a
value decodes to this value, if its strings are UTF-8 texts.
-/

namespace JsonText

open Utf8

abbrev Text := List UInt8

inductive Json where
  | str (s : Text)
  | num (n : Nat)
  | bool (b : Bool)
  | arr (vs : List Json)
  | obj (fs : List (Text × Json))

/-! ### Writing -/

def hexDigit (n : Nat) : UInt8 := UInt8.ofNat (if n < 10 then 48 + n else 87 + n)

def escapeByte (b : UInt8) : Text :=
  if b = 34 then [92, 34]
  else if b = 92 then [92, 92]
  else if b = 10 then [92, 110]
  else if b = 13 then [92, 114]
  else if b = 9 then [92, 116]
  else if b < 32 then [92, 117, 48, 48, hexDigit (b.toNat / 16), hexDigit (b.toNat % 16)]
  else [b]

def escape (s : Text) : Text := s.flatMap escapeByte

def quote (s : Text) : Text := 34 :: (escape s ++ [34])

def decimal (n : Nat) : Text :=
  if n < 10 then [UInt8.ofNat (48 + n)] else decimal (n / 10) ++ [UInt8.ofNat (48 + n % 10)]
termination_by n
decreasing_by omega

mutual

def render : Json → Text
  | .str s => quote s
  | .num n => decimal n
  | .bool b => if b then [116, 114, 117, 101] else [102, 97, 108, 115, 101]
  | .arr vs => 91 :: (elements vs ++ [93])
  | .obj fs => 123 :: (members fs ++ [125])

def elements : List Json → Text
  | [] => []
  | [v] => render v
  | v :: vs => render v ++ 44 :: elements vs

def members : List (Text × Json) → Text
  | [] => []
  | [(k, v)] => quote k ++ 58 :: render v
  | (k, v) :: fs => quote k ++ 58 :: (render v ++ 44 :: members fs)

end

/-! ### Decoding -/

def isSpace (b : UInt8) : Bool := b = 32 || b = 9 || b = 10 || b = 13

def skip (b : Text) : Text := b.dropWhile isSpace

def hexValue (b : UInt8) : Option Nat :=
  if 48 ≤ b ∧ b ≤ 57 then some (b.toNat - 48)
  else if 97 ≤ b ∧ b ≤ 102 then some (b.toNat - 87)
  else if 65 ≤ b ∧ b ≤ 70 then some (b.toNat - 55)
  else none

/-- The code unit of four hexadecimal digits. -/
def codeUnit (a b c d : UInt8) : Option Nat := do
  let a ← hexValue a
  let b ← hexValue b
  let c ← hexValue c
  let d ← hexValue d
  pure (((a * 16 + b) * 16 + c) * 16 + d)

/-- The encoding of a code unit that is a character of its own. -/
def unitText (u : Nat) : Option Text :=
  if 0xD800 ≤ u ∧ u < 0xE000 then none else some (String.utf8EncodeChar (Char.ofNat u))

/-- The encoding of a surrogate pair. -/
def pairText (u u' : Nat) : Option Text :=
  if (0xD800 ≤ u ∧ u < 0xDC00) ∧ 0xDC00 ≤ u' ∧ u' < 0xE000 then
    some (String.utf8EncodeChar (Char.ofNat (0x10000 + (u - 0xD800) * 1024 + (u' - 0xDC00))))
  else none

def escaped (b : UInt8) : Option UInt8 :=
  if b = 34 ∨ b = 92 ∨ b = 47 then some b
  else if b = 98 then some 8
  else if b = 102 then some 12
  else if b = 110 then some 10
  else if b = 114 then some 13
  else if b = 116 then some 9
  else none

/-- The escape of a code point, behind its `u`. -/
def unicode : Text → Option (Text × Text)
  | a :: b :: c :: d :: r =>
    match codeUnit a b c d with
    | none => none
    | some u =>
      match unitText u with
      | some t => some (t, r)
      | none =>
        match r with
        | 92 :: 117 :: a' :: b' :: c' :: d' :: r =>
          ((codeUnit a' b' c' d').bind (pairText u)).map fun t => (t, r)
        | _ => none
  | _ => none

/-- One byte of a string or one escape, and the rest. -/
def piece : Text → Option (Text × Text)
  | [] => none
  | c :: r =>
    if c = 92 then
      match r with
      | [] => none
      | e :: r => if e = 117 then unicode r else (escaped e).map fun c => ([c], r)
    else if c < 32 then none
    else some ([c], r)

/-- The rest of a string behind its opening quotation mark. -/
def string : Nat → Text → Option (Text × Text)
  | 0, _ => none
  | n + 1, b =>
    if b.head? = some 34 then some ([], b.tail)
    else
      match piece b with
      | none => none
      | some (t, r) => (string n r).map fun p => (t ++ p.1, p.2)

def isDigit (b : UInt8) : Bool := 48 ≤ b && b ≤ 57

def digitsValue (ds : Text) : Nat := ds.foldl (fun n d => n * 10 + (d.toNat - 48)) 0

/-- A natural number without leading zeros. -/
def number (b : Text) : Option (Nat × Text) :=
  match b.takeWhile isDigit with
  | [] => none
  | d :: ds => if d = 48 ∧ ds ≠ [] then none else some (digitsValue (d :: ds), b.dropWhile isDigit)

/-- A key and its colon. -/
def key (b : Text) : Option (Text × Text) :=
  match b with
  | [] => none
  | c :: r =>
    if c ≠ 34 then none
    else
      match string (r.length + 1) r with
      | none => none
      | some (k, r) =>
        match skip r with
        | [] => none
        | c :: r => if c = 58 then some (k, r) else none

mutual

def value : Nat → Text → Option (Json × Text)
  | 0, _ => none
  | n + 1, b =>
    match skip b with
    | [] => none
    | c :: r =>
      if c = 34 then (string (r.length + 1) r).map fun p => (.str p.1, p.2)
      else if c = 91 then
        if (skip r).head? = some 93 then some (.arr [], (skip r).tail)
        else (valueList n r).map fun p => (.arr p.1, p.2)
      else if c = 123 then
        if (skip r).head? = some 125 then some (.obj [], (skip r).tail)
        else (memberList n r).map fun p => (.obj p.1, p.2)
      else if (c :: r).take 4 = [116, 114, 117, 101] then some (.bool true, (c :: r).drop 4)
      else if (c :: r).take 5 = [102, 97, 108, 115, 101] then some (.bool false, (c :: r).drop 5)
      else (number (c :: r)).map fun p => (.num p.1, p.2)

def valueList : Nat → Text → Option (List Json × Text)
  | 0, _ => none
  | n + 1, b =>
    match value n b with
    | none => none
    | some (v, r) =>
      match skip r with
      | [] => none
      | c :: r =>
        if c = 93 then some ([v], r)
        else if c = 44 then (valueList n r).map fun p => (v :: p.1, p.2)
        else none

def memberList : Nat → Text → Option (List (Text × Json) × Text)
  | 0, _ => none
  | n + 1, b =>
    match key (skip b) with
    | none => none
    | some (k, r) =>
      match value n r with
      | none => none
      | some (v, r) =>
        match skip r with
        | [] => none
        | c :: r =>
          if c = 125 then some ([(k, v)], r)
          else if c = 44 then (memberList n r).map fun p => ((k, v) :: p.1, p.2)
          else none

end

/-- A text is one value in UTF-8. -/
def Decodes (b : Text) (v : Json) : Prop :=
  IsText b ∧ ∃ r, value (b.length + 1) b = some (v, r) ∧ skip r = []

/-! ### What is written decodes -/

section Strings

theorem codeUnit_control {b : UInt8} (h : b < 32) :
    ∃ u, codeUnit 48 48 (hexDigit (b.toNat / 16)) (hexDigit (b.toNat % 16)) = some u ∧
      unitText u = some [b] := by
  have hAll : ∀ n : Fin 32, codeUnit 48 48 (hexDigit (n / 16)) (hexDigit (n % 16)) = some n.val ∧
      unitText n = some [UInt8.ofNat n] := by
    decide
  have hNat : b.toNat < 32 := h
  obtain ⟨hUnit, hText⟩ := hAll ⟨b.toNat, hNat⟩
  exact ⟨b.toNat, hUnit, by rw [hText, UInt8.ofNat_toNat]⟩

theorem piece_escapeByte (b : UInt8) (r : Text) : piece (escapeByte b ++ r) = some ([b], r) := by
  unfold escapeByte
  split
  · next h => subst h; rfl
  · split
    · next h => subst h; rfl
    · next hSlash =>
      split
      · next h => subst h; rfl
      · split
        · next h => subst h; rfl
        · split
          · next h => subst h; rfl
          · split
            · next hControl =>
              obtain ⟨u, hUnit, hText⟩ := codeUnit_control hControl
              show unicode (48 :: 48 :: _ :: _ :: r) = _
              simp only [unicode, hUnit, hText]
            · next hPlain =>
              simp only [List.cons_append, List.nil_append, piece, if_neg hSlash, if_neg hPlain]

theorem head_escapeByte (b : UInt8) (r : Text) : (escapeByte b ++ r).head? ≠ some 34 := by
  unfold escapeByte
  split_ifs <;> simp_all

theorem length_escapeByte (b : UInt8) : 0 < (escapeByte b).length := by
  unfold escapeByte
  split_ifs <;> simp

theorem string_escape {s : Text} {n : Nat} (h : (escape s).length < n) (r : Text) :
    string n (escape s ++ 34 :: r) = some (s, r) := by
  induction s generalizing n with
  | nil =>
    obtain ⟨n, rfl⟩ : ∃ m, n = m + 1 := ⟨n - 1, by omega⟩
    rfl
  | cons b s ih =>
    obtain ⟨n, rfl⟩ : ∃ m, n = m + 1 := ⟨n - 1, by omega⟩
    have hSplit : escape (b :: s) ++ 34 :: r = escapeByte b ++ (escape s ++ 34 :: r) := by
      rw [escape, List.flatMap_cons, List.append_assoc]
      rfl
    have hLen : (escape (b :: s)).length = (escapeByte b).length + (escape s).length := by
      rw [escape, List.flatMap_cons, List.length_append]
      rfl
    have hPos := length_escapeByte b
    rw [hSplit, string, if_neg (head_escapeByte b _), piece_escapeByte]
    simp only [ih (show (escape s).length < n by omega), Option.map_some, List.singleton_append]

end Strings

section Numbers

theorem digit_of_lt {n : Nat} (h : n < 10) :
    isDigit (UInt8.ofNat (48 + n)) = true ∧ (UInt8.ofNat (48 + n)).toNat - 48 = n ∧
      (UInt8.ofNat (48 + n) = 48 → n = 0) := by
  have hAll : ∀ n : Fin 10, isDigit (UInt8.ofNat (48 + n)) = true ∧
      (UInt8.ofNat (48 + n)).toNat - 48 = n ∧ (UInt8.ofNat (48 + n) = 48 → n.val = 0) := by
    decide
  exact hAll ⟨n, h⟩

theorem isDigit_decimal (n : Nat) : ∀ d ∈ decimal n, isDigit d = true := by
  induction n using decimal.induct with
  | case1 n h =>
    intro d hd
    rw [decimal, if_pos h, List.mem_singleton] at hd
    rw [hd]
    exact (digit_of_lt h).1
  | case2 n h ih =>
    intro d hd
    rw [decimal, if_neg h, List.mem_append, List.mem_singleton] at hd
    rcases hd with hd | hd
    · exact ih d hd
    · rw [hd]
      exact (digit_of_lt (Nat.mod_lt _ (by decide))).1

theorem digitsValue_decimal (n : Nat) : digitsValue (decimal n) = n := by
  induction n using decimal.induct with
  | case1 n h =>
    rw [decimal, if_pos h, digitsValue, List.foldl_cons, List.foldl_nil, (digit_of_lt h).2.1]
    omega
  | case2 n h ih =>
    rw [decimal, if_neg h, digitsValue, List.foldl_append, ← digitsValue, ih, List.foldl_cons,
      List.foldl_nil, (digit_of_lt (Nat.mod_lt _ (by decide))).2.1]
    omega

/-- Only the number zero begins with the digit zero. -/
theorem decimal_head (n : Nat) : ∃ d ds, decimal n = d :: ds ∧ (d = 48 → n = 0) := by
  induction n using decimal.induct with
  | case1 n h =>
    refine ⟨_, [], ?_, (digit_of_lt h).2.2⟩
    rw [decimal, if_pos h]
  | case2 n h ih =>
    obtain ⟨d, ds, hEq, hZero⟩ := ih
    refine ⟨d, ds ++ [UInt8.ofNat (48 + n % 10)], ?_, fun hd => ?_⟩
    · rw [decimal, if_neg h, hEq, List.cons_append]
    · have := hZero hd
      omega

theorem number_decimal (n : Nat) {r : Text} (hr : ∀ d ∈ r.head?, isDigit d = false) :
    number (decimal n ++ r) = some (n, r) := by
  have hRest : r.takeWhile isDigit = [] ∧ r.dropWhile isDigit = r := by
    cases r with
    | nil => exact ⟨rfl, rfl⟩
    | cons d r =>
      have hd := hr d rfl
      simp [hd]
  have hTake : (decimal n ++ r).takeWhile isDigit = decimal n := by
    rw [List.takeWhile_append_of_pos (isDigit_decimal n), hRest.1, List.append_nil]
  have hDrop : (decimal n ++ r).dropWhile isDigit = r := by
    rw [List.dropWhile_append_of_pos (isDigit_decimal n), hRest.2]
  obtain ⟨d, ds, hEq, hZero⟩ := decimal_head n
  have hLead : ¬(d = 48 ∧ ds ≠ []) := by
    rintro ⟨hd, hNe⟩
    rw [hZero hd, decimal, if_pos (by decide)] at hEq
    exact hNe (List.cons.inj hEq).2.symm
  rw [number, hTake, hEq]
  simp only [if_neg hLead, ← hEq, hDrop, digitsValue_decimal]

end Numbers

section Values

/-- The first byte of a value is no space and ends nothing. -/
theorem render_head (v : Json) :
    ∃ c t, render v = c :: t ∧ isSpace c = false ∧ c ≠ 93 ∧ c ≠ 125 := by
  cases v with
  | str s => exact ⟨34, escape s ++ [34], by rw [render, quote], by decide, by decide, by decide⟩
  | num n =>
    obtain ⟨d, ds, hEq, -⟩ := decimal_head n
    have hDigit : isDigit d = true := isDigit_decimal n d (hEq ▸ List.mem_cons_self)
    refine ⟨d, ds, by rw [render, hEq], ?_⟩
    simp only [isDigit, Bool.and_eq_true, decide_eq_true_eq] at hDigit
    obtain ⟨hLow, hHigh⟩ := hDigit
    have hLow : 48 ≤ d.toNat := hLow
    have hHigh : d.toNat ≤ 57 := hHigh
    have hNe : ∀ c : UInt8, c.toNat < 48 ∨ 57 < c.toNat → d ≠ c := by
      rintro c hc rfl
      omega
    refine ⟨?_, hNe 93 (by decide), hNe 125 (by decide)⟩
    simp only [isSpace, Bool.or_eq_false_iff, decide_eq_false_iff_not]
    exact ⟨⟨⟨hNe 32 (by decide), hNe 9 (by decide)⟩, hNe 10 (by decide)⟩, hNe 13 (by decide)⟩
  | bool b => cases b <;> exact ⟨_, _, rfl, by decide, by decide, by decide⟩
  | arr vs => exact ⟨91, elements vs ++ [93], by rw [render], by decide, by decide, by decide⟩
  | obj fs => exact ⟨123, members fs ++ [125], by rw [render], by decide, by decide, by decide⟩

theorem skip_cons {c : UInt8} (h : isSpace c = false) (r : Text) : skip (c :: r) = c :: r := by
  rw [skip, List.dropWhile_cons_of_neg (by rw [h]; exact Bool.false_ne_true)]

theorem elements_cons (v w : Json) (vs : List Json) :
    elements (v :: w :: vs) = render v ++ 44 :: elements (w :: vs) := by
  rw [elements]
  exact List.cons_ne_nil _ _

/-- Every element but the first has a comma before it. -/
theorem elements_flatMap (v : Json) (vs : List Json) :
    elements (v :: vs) = render v ++ vs.flatMap fun w => 44 :: render w := by
  induction vs generalizing v with
  | nil => rw [elements, List.flatMap_nil, List.append_nil]
  | cons w vs ih => rw [elements_cons, ih, List.flatMap_cons, List.cons_append]

theorem members_cons (k : Text) (v : Json) (f : Text × Json) (fs : List (Text × Json)) :
    members ((k, v) :: f :: fs) = quote k ++ 58 :: (render v ++ 44 :: members (f :: fs)) := by
  rw [members]
  exact List.cons_ne_nil _ _

theorem skip_quote (k r : Text) : skip (quote k ++ r) = quote k ++ r := by
  rw [quote, List.cons_append, skip_cons (by decide)]

theorem key_quote (k r : Text) : key (quote k ++ 58 :: r) = some (k, r) := by
  have hText : quote k ++ 58 :: r = 34 :: (escape k ++ 34 :: 58 :: r) := by
    rw [quote, List.cons_append, List.append_assoc]
    rfl
  have hString := string_escape (s := k) (n := (escape k ++ 34 :: 58 :: r).length + 1)
    (by rw [List.length_append]; omega) (58 :: r)
  rw [hText, key]
  simp only [ne_eq, not_true_eq_false, if_false, hString]
  rfl

theorem value_num (m : Nat) {n : Nat} {r : Text} (hr : ∀ d ∈ r.head?, isDigit d = false) :
    value (n + 1) (decimal m ++ r) = some (.num m, r) := by
  obtain ⟨c, t, hText, hSpace, -⟩ := render_head (.num m)
  rw [render] at hText
  have hDigit : isDigit c = true := isDigit_decimal m c (hText ▸ List.mem_cons_self)
  have hNumber := number_decimal m hr
  have hNe : ∀ b, isDigit b = false → c ≠ b := by
    rintro b hb rfl
    rw [hb] at hDigit
    cases hDigit
  have hTrue : (c :: (t ++ r)).take 4 ≠ [116, 114, 117, 101] := by
    intro h
    exact hNe 116 (by decide) (List.cons.inj h).1
  have hFalse : (c :: (t ++ r)).take 5 ≠ [102, 97, 108, 115, 101] := by
    intro h
    exact hNe 102 (by decide) (List.cons.inj h).1
  rw [hText, List.cons_append] at hNumber
  rw [hText, List.cons_append, value, skip_cons hSpace]
  simp only [if_neg (hNe 34 (by decide)), if_neg (hNe 91 (by decide)), if_neg (hNe 123 (by decide)),
    if_neg hTrue, if_neg hFalse, hNumber, Option.map_some]

theorem value_str (s : Text) {n : Nat} (r : Text) :
    value (n + 1) (quote s ++ r) = some (.str s, r) := by
  have hText : quote s ++ r = 34 :: (escape s ++ 34 :: r) := by
    rw [quote, List.cons_append, List.append_assoc]
    rfl
  have hString := string_escape (s := s) (n := (escape s ++ 34 :: r).length + 1)
    (by rw [List.length_append]; omega) r
  rw [hText, value, skip_cons (by decide)]
  simp only [if_true, hString, Option.map_some]

theorem value_arr {n : Nat} {c : UInt8} {t r r' : Text} {vs : List Json} (hSpace : isSpace c = false)
    (hClose : c ≠ 93) (h : valueList n (c :: t ++ r) = some (vs, r')) :
    value (n + 1) (91 :: (c :: t ++ r)) = some (.arr vs, r') := by
  have hHead : (skip (c :: t ++ r)).head? ≠ some 93 := by
    rw [List.cons_append, skip_cons hSpace]
    exact fun hEq => hClose (Option.some.inj hEq)
  rw [value, skip_cons (by decide)]
  simp only [show ¬(91 : UInt8) = 34 by decide, if_false, if_true, if_neg hHead, h, Option.map_some]

theorem value_obj {n : Nat} {t r r' : Text} {fs : List (Text × Json)}
    (h : memberList n (34 :: t ++ r) = some (fs, r')) :
    value (n + 1) (123 :: (34 :: t ++ r)) = some (.obj fs, r') := by
  have hHead : (skip (34 :: t ++ r)).head? ≠ some 125 := by
    rw [List.cons_append, skip_cons (by decide)]
    exact fun hEq => absurd (Option.some.inj hEq) (by decide)
  rw [value, skip_cons (by decide)]
  simp only [show ¬(123 : UInt8) = 34 by decide, show ¬(123 : UInt8) = 91 by decide, if_false,
    if_true, if_neg hHead, h, Option.map_some]

theorem noDigit_cons {c : UInt8} (h : isDigit c = false) (r : Text) :
    ∀ d ∈ (c :: r).head?, isDigit d = false := by
  intro d hd
  cases hd
  exact h

mutual

theorem value_render : ∀ (v : Json) {n : Nat}, (render v).length ≤ n → ∀ {r : Text},
    (∀ d ∈ r.head?, isDigit d = false) → value n (render v ++ r) = some (v, r)
  | .str s, 0, h, _, _ => by simp [render, quote] at h
  | .str s, n + 1, _, r, _ => by
    rw [render]
    exact value_str s r
  | .num m, 0, h, _, _ => by
    obtain ⟨d, ds, hEq, -⟩ := decimal_head m
    simp [render, hEq] at h
  | .num m, n + 1, _, _, hr => by
    rw [render]
    exact value_num m hr
  | .bool b, 0, h, _, _ => by cases b <;> simp [render] at h
  | .bool b, n + 1, _, _, _ => by cases b <;> rfl
  | .arr _, 0, h, _, _ => by simp [render] at h
  | .arr [], n + 1, _, _, _ => rfl
  | .arr (w :: vs), n + 1, h, r, _ => by
    have hLen : (elements (w :: vs)).length < n := by
      rw [render, List.length_cons, List.length_append, List.length_singleton] at h
      omega
    have hList := valueList_elements w vs hLen r
    obtain ⟨c, t, hText, hSpace, hClose, -⟩ := render_head w
    obtain ⟨t', hElems⟩ : ∃ t', elements (w :: vs) = c :: t' := by
      cases vs with
      | nil => exact ⟨t, by rw [elements, hText]⟩
      | cons u vs => exact ⟨_, by rw [elements_cons, hText, List.cons_append]⟩
    rw [hElems] at hList
    rw [render, hElems, List.cons_append, List.append_assoc]
    exact value_arr hSpace hClose hList
  | .obj _, 0, h, _, _ => by simp [render] at h
  | .obj [], n + 1, _, _, _ => rfl
  | .obj ((k, w) :: fs), n + 1, h, r, _ => by
    have hLen : (members ((k, w) :: fs)).length < n := by
      rw [render, List.length_cons, List.length_append, List.length_singleton] at h
      omega
    have hList := memberList_members k w fs hLen r
    obtain ⟨t', hMembers⟩ : ∃ t', members ((k, w) :: fs) = 34 :: t' := by
      cases fs with
      | nil => exact ⟨_, by rw [members, quote, List.cons_append]⟩
      | cons f fs => exact ⟨_, by rw [members_cons, quote, List.cons_append]⟩
    rw [hMembers] at hList
    rw [render, hMembers, List.cons_append, List.append_assoc]
    exact value_obj hList
termination_by v => sizeOf v

theorem valueList_elements (v : Json) (vs : List Json) {n : Nat}
    (h : (elements (v :: vs)).length < n) (r : Text) :
    valueList n (elements (v :: vs) ++ 93 :: r) = some (v :: vs, r) := by
  obtain ⟨n, rfl⟩ : ∃ m, n = m + 1 := ⟨n - 1, by omega⟩
  cases vs with
  | nil =>
    rw [elements] at h ⊢
    rw [valueList, value_render v (by omega) (noDigit_cons (by decide) r)]
    simp only [skip_cons (show isSpace 93 = false by decide), if_true]
  | cons w vs =>
    rw [elements_cons, List.length_append, List.length_cons] at h
    rw [elements_cons, List.append_assoc, List.cons_append, valueList,
      value_render v (by omega) (noDigit_cons (by decide) _)]
    simp only [skip_cons (show isSpace 44 = false by decide), show ¬(44 : UInt8) = 93 by decide,
      if_false, if_true, valueList_elements w vs (show (elements (w :: vs)).length < n by omega) r,
      Option.map_some]
termination_by sizeOf (v :: vs)

theorem memberList_members : ∀ (k : Text) (v : Json) (fs : List (Text × Json)) {n : Nat},
    (members ((k, v) :: fs)).length < n → ∀ r : Text,
      memberList n (members ((k, v) :: fs) ++ 125 :: r) = some ((k, v) :: fs, r)
  | _, _, _, 0, h, _ => absurd h (Nat.not_lt_zero _)
  | k, v, [], n + 1, h, r => by
    rw [members, List.length_append, List.length_cons] at h
    rw [members, List.append_assoc, List.cons_append, memberList, skip_quote, key_quote]
    simp only [value_render v (show (render v).length ≤ n by omega)
        (noDigit_cons (show isDigit 125 = false by decide) r),
      skip_cons (show isSpace 125 = false by decide), if_true]
  | k, v, (k', w) :: fs, n + 1, h, r => by
    rw [members_cons, List.length_append, List.length_cons, List.length_append, List.length_cons] at h
    rw [members_cons, List.append_assoc, List.cons_append, List.append_assoc, List.cons_append,
      memberList, skip_quote, key_quote]
    simp only [value_render v (show (render v).length ≤ n by omega)
        (noDigit_cons (show isDigit 44 = false by decide) _),
      skip_cons (show isSpace 44 = false by decide), show ¬(44 : UInt8) = 125 by decide, if_false,
      if_true, memberList_members k' w fs (show (members ((k', w) :: fs)).length < n by omega) r,
      Option.map_some]
termination_by k v fs => sizeOf ((k, v) :: fs)

end

end Values

/-! ### UTF-8 -/

section Texts

theorem isAscii_hexDigit {n : Nat} (h : n < 16) : IsAscii (hexDigit n) := by
  have hAll : ∀ n : Fin 16, IsAscii (hexDigit n) := by decide
  exact hAll ⟨n, h⟩

/-- A byte is written as it is, or it is ASCII and so is its escape. -/
theorem escapeByte_cases (b : UInt8) :
    escapeByte b = [b] ∨ (IsAscii b ∧ ∀ x ∈ escapeByte b, IsAscii x) := by
  unfold escapeByte
  split
  · next h => exact .inr ⟨by rw [h]; decide, by simp [IsAscii]⟩
  · split
    · next h => exact .inr ⟨by rw [h]; decide, by simp [IsAscii]⟩
    · split
      · next h => exact .inr ⟨by rw [h]; decide, by simp [IsAscii]⟩
      · split
        · next h => exact .inr ⟨by rw [h]; decide, by simp [IsAscii]⟩
        · split
          · next h => exact .inr ⟨by rw [h]; decide, by simp [IsAscii]⟩
          · split
            · next h =>
              have hNat : b.toNat < 32 := h
              refine .inr ⟨Nat.lt_trans hNat (by decide), ?_⟩
              simp only [List.mem_cons, List.not_mem_nil, or_false, forall_eq_or_imp, forall_eq]
              exact ⟨by decide, by decide, by decide, by decide, isAscii_hexDigit (by omega),
                isAscii_hexDigit (by omega)⟩
            · exact .inl rfl

/-- Escaping does not change whether a string is a text. -/
theorem isText_escape (p s : Text) : IsText (p ++ escape s) ↔ IsText (p ++ s) := by
  induction s generalizing p with
  | nil => rfl
  | cons b s ih =>
    have hSplit : escape (b :: s) = escapeByte b ++ escape s := List.flatMap_cons
    rcases escapeByte_cases b with hSame | ⟨hb, hAscii⟩
    · have h := ih (p ++ [b])
      rwa [List.append_assoc, List.append_assoc, List.singleton_append, List.singleton_append,
        show b :: escape s = escape (b :: s) by rw [hSplit, hSame]; rfl] at h
    · obtain ⟨x, e, hx⟩ := List.exists_cons_of_length_pos (length_escapeByte b)
      rw [hx] at hAscii
      rw [hSplit, hx, List.cons_append, isText_cut (hAscii x List.mem_cons_self), isText_cut hb,
        isText_ascii_append fun y hy => hAscii y (List.mem_cons_of_mem _ hy)]
      exact and_congr_right fun _ => ih []

theorem isText_quote (s : Text) : IsText (quote s) ↔ IsText s := by
  have h := isText_escape [] s
  rw [quote, isText_cons (by decide), isText_cut (by decide)]
  exact (and_iff_left isText_nil).trans h

mutual

/-- The strings of a value. -/
def texts : Json → List Text
  | .str s => [s]
  | .num _ => []
  | .bool _ => []
  | .arr vs => textsOfList vs
  | .obj fs => textsOfMembers fs

def textsOfList : List Json → List Text
  | [] => []
  | v :: vs => texts v ++ textsOfList vs

def textsOfMembers : List (Text × Json) → List Text
  | [] => []
  | (k, v) :: fs => k :: (texts v ++ textsOfMembers fs)

end

theorem isAscii_of_isDigit {d : UInt8} (h : isDigit d = true) : IsAscii d := by
  simp only [isDigit, Bool.and_eq_true, decide_eq_true_eq] at h
  have hHigh : d.toNat ≤ 57 := h.2
  exact Nat.lt_of_le_of_lt hHigh (by decide)

mutual

theorem isText_render : ∀ v : Json, IsText (render v) ↔ ∀ s ∈ texts v, IsText s
  | .str s => by
    rw [render, texts, isText_quote, List.forall_mem_singleton]
  | .num n => by
    rw [render, texts]
    exact iff_of_true (isText_of_ascii fun d hd => isAscii_of_isDigit (isDigit_decimal n d hd))
      (List.forall_mem_nil _)
  | .bool b => by
    rw [texts]
    exact iff_of_true (by cases b <;> exact isText_of_ascii (by simp [render, IsAscii])) (List.forall_mem_nil _)
  | .arr vs => by
    rw [render, texts, isText_cons (by decide), isText_cut (by decide)]
    exact (and_iff_left isText_nil).trans (isText_elements vs)
  | .obj fs => by
    rw [render, texts, isText_cons (by decide), isText_cut (by decide)]
    exact (and_iff_left isText_nil).trans (isText_members fs)
termination_by v => sizeOf v

theorem isText_elements : ∀ vs : List Json,
    IsText (elements vs) ↔ ∀ s ∈ textsOfList vs, IsText s
  | [] => by
    rw [elements, textsOfList]
    exact iff_of_true isText_nil (List.forall_mem_nil _)
  | [v] => by
    rw [elements, textsOfList, textsOfList, List.append_nil]
    exact isText_render v
  | v :: w :: vs => by
    rw [elements_cons, textsOfList, isText_cut (by decide), List.forall_mem_append]
    exact and_congr (isText_render v) (isText_elements (w :: vs))
termination_by vs => sizeOf vs

theorem isText_members : ∀ fs : List (Text × Json),
    IsText (members fs) ↔ ∀ s ∈ textsOfMembers fs, IsText s
  | [] => by
    rw [members, textsOfMembers]
    exact iff_of_true isText_nil (List.forall_mem_nil _)
  | [(k, v)] => by
    rw [members, textsOfMembers, textsOfMembers, isText_cut (by decide), List.append_nil,
      List.forall_mem_cons]
    exact and_congr (isText_quote k) (isText_render v)
  | (k, v) :: f :: fs => by
    rw [members_cons, textsOfMembers, isText_cut (by decide), isText_cut (by decide),
      List.forall_mem_cons, List.forall_mem_append]
    exact and_congr (isText_quote k) (and_congr (isText_render v) (isText_members (f :: fs)))
termination_by fs => sizeOf fs

end

/-- What is written for a value, with space behind it, decodes to the value exactly if its strings are
UTF-8 texts. -/
theorem decodes_render {v : Json} {r : Text} (hr : skip r = []) (hAscii : ∀ b ∈ r, IsAscii b)
    (hEnd : ∀ d ∈ r.head?, isDigit d = false) :
    Decodes (render v ++ r) v ↔ ∀ s ∈ texts v, IsText s := by
  have hText : IsText (render v ++ r) ↔ IsText (render v) := by
    cases r with
    | nil => rw [List.append_nil]
    | cons b r =>
      rw [isText_cut (hAscii b List.mem_cons_self)]
      exact and_iff_left (isText_of_ascii fun y hy => hAscii y (List.mem_cons_of_mem _ hy))
  rw [Decodes, hText, isText_render]
  refine and_iff_left ⟨r, value_render v ?_ hEnd, hr⟩
  rw [List.length_append]
  omega

end Texts

end JsonText
