import PqcHsm.Library.FlatJson
import PqcHsm.Service.Httpd

/-!
# Fields of a request

`jget` looks for the name of a field between quotation marks, wherever they stand: in a name, in a
value, or behind an escaped quotation mark. Of the escapes in a string it knows three.
-/

namespace PqcHsm

open ByteCodec JsonText FlatJson

/-- What `jget` does behind the colon. -/
def jgetValue (p : Bytes) : Option Bytes :=
  match p.dropWhile jsonSpace with
  | 34 :: p => jgetString p
  | p =>
    let digits := p.takeWhile fun c => (48 ≤ c && c ≤ 57) || c = 45
    if digits = [] then none else some digits

/-- What `jget` does behind the place it found. -/
def jgetAfter (p : Bytes) : Option Bytes :=
  match p.dropWhile jsonSpace with
  | 58 :: p => jgetValue p
  | _ => none

/-- The names that the gateway asks for. -/
def FieldName (key : Bytes) : Prop :=
  key.length ≤ 77 ∧ ∀ c ∈ key, c ≠ 34 ∧ c ≠ 92 ∧ c ≠ 58 ∧ c ≠ 44

theorem jget_eq {body key : Bytes} (hKey : FieldName key) :
    jget body key = (strstrAfter (34 :: (key ++ [34])) body).bind jgetAfter := by
  have hTake : ([34] ++ key ++ [34]).take 79 = 34 :: (key ++ [34]) := by
    apply List.take_of_length_le
    have hLen := hKey.1
    simp only [List.length_append, List.length_singleton]
    omega
  rw [jget, hTake]
  cases strstrAfter (34 :: (key ++ [34])) body <;> rfl

/-- Every name in `route`, with the ones that `jbytes` makes. -/
theorem asked_names : ∀ key ∈ [lit "length", lit "data", lit "data_b64", lit "name", lit "alg",
    lit "plaintext", lit "plaintext_b64", lit "ciphertext", lit "ciphertext_b64", lit "message",
    lit "message_b64", lit "signature_b64"], FieldName key := by
  unfold FieldName
  decide +kernel

/-! ### What is read as it is written -/

namespace Written

def piece : Piece → Bytes
  | .byte c _ => [c]
  | .escape c _ _ => [unescape c]
  | .unit a b c d _ _ => [117, a, b, c, d]
  | .pair a b c d a' b' c' d' _ _ => [117, a, b, c, d, 117, a', b', c', d']

def value : Value → Option Bytes
  | .str s => some (s.flatMap piece)
  | .num n => some (n.text.takeWhile fun c => (48 ≤ c && c ≤ 57) || c = 45)
  | .bool _ | .null => none

end Written

/-- Not `\b`, `\f` or `\u`. -/
def PlainPiece : Piece → Prop
  | .byte _ _ => True
  | .escape c _ _ => c ≠ 98 ∧ c ≠ 102
  | .unit .. | .pair .. => False

/-- A string of plain pieces; an integer. -/
def Plain : Value → Prop
  | .str s => ∀ p ∈ s, PlainPiece p
  | .num n => n.frac = none ∧ n.exp = none
  | .bool _ | .null => True

theorem jgetString_byte {c : UInt8} (r : Bytes) (hQuote : c ≠ 34) (hSlash : c ≠ 92) :
    jgetString (c :: r) = (jgetString r).map (c :: ·) := by
  rw [jgetString.eq_def]
  split
  · next h => cases h
  · next h => exact absurd (List.cons.inj h).1 hQuote
  · next h => exact absurd (List.cons.inj h).1 hSlash
  · next h =>
    obtain ⟨rfl, rfl⟩ := List.cons.inj h
    rfl

theorem jgetString_escape (c : UInt8) (r : Bytes) :
    jgetString (92 :: c :: r) = (jgetString r).map (unescape c :: ·) := by
  rw [jgetString.eq_def]
  rfl

theorem jgetString_plain {bs : Bytes} (r : Bytes) (h : ∀ c ∈ bs, c ≠ 34 ∧ c ≠ 92) :
    jgetString (bs ++ r) = (jgetString r).map (bs ++ ·) := by
  induction bs with
  | nil => exact Option.map_id'.symm
  | cons c bs ih =>
    obtain ⟨hFirst, hRest⟩ := List.forall_mem_cons.mp h
    rw [List.cons_append, jgetString_byte _ hFirst.1 hFirst.2, ih hRest, Option.map_map]
    rfl

theorem jgetString_piece (p : Piece) (r : Bytes) :
    jgetString (p.text ++ r) = (jgetString r).map (Written.piece p ++ ·) := by
  cases p with
  | byte c h => exact jgetString_byte r h.2.1 h.2.2
  | escape c d h => exact jgetString_escape c r
  | unit a b c d t h =>
    obtain ⟨u, hUnit, -⟩ := Option.bind_eq_some_iff.mp h
    have hHex := hex_of_codeUnit hUnit
    change jgetString (92 :: 117 :: ([a, b, c, d] ++ r)) = _
    rw [jgetString_escape, jgetString_plain r hHex, Option.map_map]
    rfl
  | pair a b c d a' b' c' d' t h =>
    obtain ⟨u, u', hUnit, hUnit', -⟩ := h
    have hHex := hex_of_codeUnit hUnit
    have hHex' := hex_of_codeUnit hUnit'
    change jgetString (92 :: 117 :: ([a, b, c, d] ++ 92 :: 117 :: ([a', b', c', d'] ++ r))) = _
    rw [jgetString_escape, jgetString_plain _ hHex, jgetString_escape, jgetString_plain r hHex',
      Option.map_map, Option.map_map, Option.map_map]
    rfl

theorem jgetString_text (s : List Piece) (r : Bytes) :
    jgetString (text s ++ 34 :: r) = some (s.flatMap Written.piece) := by
  induction s with
  | nil =>
    change jgetString (34 :: r) = some []
    rw [jgetString.eq_def]
    rfl
  | cons p s ih =>
    have hSplit : text (p :: s) ++ 34 :: r = p.text ++ (text s ++ 34 :: r) := by
      rw [text, List.flatMap_cons, List.append_assoc]
      rfl
    rw [hSplit, jgetString_piece, ih]
    rfl

/-! ### What is read and what was meant -/

theorem length_meaning (p : Piece) :
    p.meaning.length ≤ (Written.piece p).length ∧
      ((Written.piece p).length ≤ p.meaning.length →
        (Written.piece p = p.meaning ↔ PlainPiece p)) := by
  have hChar (c : Char) : (String.utf8EncodeChar c).length ≤ 4 := by
    rw [String.length_utf8EncodeChar]
    exact c.utf8Size_le_four
  cases p with
  | byte => exact ⟨Nat.le_refl _, fun _ => iff_of_true rfl trivial⟩
  | escape c d h =>
    refine ⟨Nat.le_refl _, fun _ => ?_⟩
    change [unescape c] = [d] ↔ c ≠ 98 ∧ c ≠ 102
    rw [List.cons.injEq, and_iff_left rfl]
    rw [escaped] at h
    unfold unescape
    split_ifs at h with hSelf
    · obtain rfl := Option.some.inj h
      obtain rfl | rfl | rfl := hSelf <;> decide
    all_goals
      cases h
      simp_all
  | unit a b c d t h =>
    obtain ⟨u, -, hText⟩ := Option.bind_eq_some_iff.mp h
    have hLen : t.length ≤ 4 := by
      rw [unitText] at hText
      split at hText
      · cases hText
      · obtain rfl := Option.some.inj hText
        exact hChar _
    refine ⟨hLen.trans (by decide : 4 ≤ 5), fun hLe => ?_⟩
    change 5 ≤ t.length at hLe
    omega
  | pair a b c d a' b' c' d' t h =>
    obtain ⟨u, u', -, -, hText⟩ := h
    have hLen : t.length ≤ 4 := by
      rw [pairText] at hText
      split at hText
      · obtain rfl := Option.some.inj hText
        exact hChar _
      · cases hText
    refine ⟨hLen.trans (by decide : 4 ≤ 10), fun hLe => ?_⟩
    change 10 ≤ t.length at hLe
    omega

theorem length_written (s : List Piece) :
    (meaning s).length ≤ (s.flatMap Written.piece).length := by
  induction s with
  | nil => exact Nat.le_refl _
  | cons p s ih =>
    have hFirst := (length_meaning p).1
    rw [meaning, List.flatMap_cons, List.flatMap_cons, List.length_append, List.length_append]
    exact Nat.add_le_add hFirst ih

theorem written_str {s : List Piece} :
    s.flatMap Written.piece = meaning s ↔ ∀ p ∈ s, PlainPiece p := by
  induction s with
  | nil => exact iff_of_true rfl nofun
  | cons p s ih =>
    have hFirst := length_meaning p
    have hRest := length_written s
    rw [meaning, List.flatMap_cons, List.flatMap_cons, List.forall_mem_cons, ← ih]
    constructor
    · intro h
      have hLen := congrArg List.length h
      rw [List.length_append, List.length_append] at hLen
      change _ = _ + (meaning s).length at hLen
      have hEq : (Written.piece p).length = p.meaning.length := by omega
      obtain ⟨hPiece, hText⟩ := List.append_inj h hEq
      exact ⟨(hFirst.2 hEq.le).mp hPiece, hText⟩
    · rintro ⟨hPlain, hText⟩
      have hPiece : Written.piece p = p.meaning := by
        cases p with
        | byte => rfl
        | escape => exact (hFirst.2 (Nat.le_refl _)).mpr hPlain
        | unit | pair => exact hPlain.elim
      rw [hPiece, hText]
      rfl

theorem number_class {c : UInt8} :
    ((48 ≤ c && c ≤ 57) || c = 45) = true ↔ isDigit c = true ∨ c = 45 := by
  rw [Bool.or_eq_true, decide_eq_true_eq]
  rfl

theorem written_num {n : Number} :
    n.text.takeWhile (fun c => (48 ≤ c && c ≤ 57) || c = 45) = n.text ↔
      n.frac = none ∧ n.exp = none := by
  rw [List.takeWhile_eq_self_iff]
  constructor
  · intro h
    constructor
    · cases hFrac : n.frac with
      | none => rfl
      | some ds =>
        have hDot : (46 : UInt8) ∈ n.text := by
          simp [Number.text, Number.fracText, hFrac]
        exact absurd (h 46 hDot) (by decide +kernel)
    · cases hExp : n.exp with
      | none => rfl
      | some e =>
        have hLetter : (if e.1 then 69 else 101 : UInt8) ∈ n.text := by
          simp [Number.text, Number.expText, hExp]
        have hBad := h _ hLetter
        cases hBig : e.1 <;> rw [hBig] at hBad <;> cases hBad
  · rintro ⟨hFrac, hExp⟩ c hc
    rw [number_class]
    simp only [Number.text, Number.fracText, Number.expText, hFrac, hExp, Option.elim_none,
      List.append_nil, List.mem_append] at hc
    obtain hc | hc := hc
    · cases hMinus : n.minus with
      | false =>
        rw [hMinus] at hc
        cases hc
      | true =>
        rw [hMinus] at hc
        exact .inr (List.mem_singleton.mp hc)
    · exact .inl (digits_mem hc)

theorem asWritten_iff (v : Value) : Written.value v = v.field ↔ Plain v := by
  cases v with
  | str s => exact Option.some_inj.trans written_str
  | num n => exact Option.some_inj.trans written_num
  | bool | null => exact iff_of_true rfl trivial

/-! ### Where the pattern stands -/

section Search

variable {key : Bytes}

/-- The pattern ends where the string ends. -/
def LooksLike (s : List Piece) (key : Bytes) : Prop := 34 :: key <:+ 34 :: text s

instance (s : List Piece) (key : Bytes) : Decidable (LooksLike s key) :=
  inferInstanceAs (Decidable (_ <:+ _))

theorem strstrAfter_skip {x : Bytes} (k r : Bytes) (h : ∀ c ∈ x, c ≠ 34) :
    strstrAfter (34 :: k) (x ++ r) = strstrAfter (34 :: k) r := by
  induction x with
  | nil => rfl
  | cons c x ih =>
    obtain ⟨hFirst, hRest⟩ := List.forall_mem_cons.mp h
    have hNot : ¬(34 :: k).isPrefixOf (c :: (x ++ r)) = true := by
      rw [List.isPrefixOf_iff_prefix]
      exact fun hPre => hFirst (List.cons_prefix_cons.mp hPre).1.symm
    rw [List.cons_append, strstrAfter, if_neg hNot, ih hRest]

theorem strstrAfter_none {x : Bytes} (k : Bytes) (h : ∀ c ∈ x, c ≠ 34) :
    strstrAfter (34 :: k) x = none := by
  have hSkip := strstrAfter_skip k [] h
  rw [List.append_nil] at hSkip
  exact hSkip

theorem strstrAfter_quote (r : Bytes) :
    strstrAfter (34 :: (key ++ [34])) (34 :: r) =
      if key ++ [34] <+: r then some (r.drop (key.length + 1))
      else strstrAfter (34 :: (key ++ [34])) r := by
  have hPre : (34 :: (key ++ [34])).isPrefixOf (34 :: r) = true ↔ key ++ [34] <+: r := by
    rw [List.isPrefixOf_iff_prefix, List.cons_prefix_cons, and_iff_right rfl]
  have hLen : (34 :: (key ++ [34])).length = key.length + 1 + 1 := by
    rw [List.length_cons, List.length_append]
    rfl
  rw [strstrAfter, hLen]
  simp only [hPre, List.drop_succ_cons]

/-- What stands between two strings is not the name. -/
theorem strstrAfter_gap {x : Bytes} (r : Bytes) (hx : ∀ c ∈ x, c ≠ 34) {b : UInt8} (hb : b ∈ x)
    (hKey : b ∉ key) :
    strstrAfter (34 :: (key ++ [34])) (34 :: (x ++ r)) = strstrAfter (34 :: (key ++ [34])) r := by
  have hNot : ¬key ++ [34] <+: x ++ r := by
    induction x generalizing key with
    | nil => cases hb
    | cons c x ih =>
      obtain ⟨hFirst, hRest⟩ := List.forall_mem_cons.mp hx
      cases key with
      | nil => exact fun hPre => hFirst (List.cons_prefix_cons.mp hPre).1.symm
      | cons k key =>
        intro hPre
        obtain ⟨rfl, hTail⟩ := List.cons_prefix_cons.mp hPre
        obtain ⟨hNe, hKey⟩ := not_or.mp (List.mem_cons.not.mp hKey)
        have hb := (List.mem_cons.mp hb).resolve_left hNe
        exact ih hRest hb hKey hTail
  rw [strstrAfter_quote, if_neg hNot, strstrAfter_skip _ _ hx]

theorem prefix_text (hKey : ∀ c ∈ key, c ≠ 34 ∧ c ≠ 92) (s : List Piece) (r : Bytes) :
    key ++ [34] <+: text s ++ 34 :: r ↔ key = text s := by
  induction s generalizing key with
  | nil =>
    change key ++ [34] <+: 34 :: r ↔ key = []
    cases key with
    | nil => exact iff_of_true (List.cons_prefix_cons.mpr ⟨rfl, List.nil_prefix⟩) rfl
    | cons k key =>
      refine iff_of_false (fun hPre => ?_) nofun
      exact (List.forall_mem_cons.mp hKey).1.1 (List.cons_prefix_cons.mp hPre).1
  | cons p s ih =>
    have hSplit : text (p :: s) = p.text ++ text s := List.flatMap_cons ..
    rw [hSplit]
    have hSlash (t : Bytes) : ¬key ++ [34] <+: 92 :: t ∧ key ≠ 92 :: t := by
      cases key with
      | nil => exact ⟨fun hPre => absurd (List.cons_prefix_cons.mp hPre).1 (by decide +kernel), nofun⟩
      | cons k key =>
        have hNe := (List.forall_mem_cons.mp hKey).1.2
        exact ⟨fun hPre => hNe (List.cons_prefix_cons.mp hPre).1,
          fun hEq => hNe (List.cons.inj hEq).1⟩
    cases p with
    | byte c h =>
      cases key with
      | nil => exact iff_of_false (fun hPre => h.2.1 (List.cons_prefix_cons.mp hPre).1.symm) nofun
      | cons k key =>
        change k :: (key ++ [34]) <+: c :: (text s ++ 34 :: r) ↔ k :: key = c :: text s
        rw [List.cons_prefix_cons, ih (List.forall_mem_cons.mp hKey).2, List.cons.injEq]
    | escape | unit | pair => exact iff_of_false (hSlash _).1 (hSlash _).2

theorem suffix_skip {x y : Bytes} (h : ∀ c ∈ x, c ≠ 34) :
    34 :: key <:+ x ++ y ↔ 34 :: key <:+ y := by
  induction x with
  | nil => exact Iff.rfl
  | cons c x ih =>
    obtain ⟨hFirst, hRest⟩ := List.forall_mem_cons.mp h
    rw [List.cons_append, List.suffix_cons_iff, ih hRest]
    exact or_iff_right fun hEq => hFirst (List.cons.inj hEq).1.symm

/-- The bytes of a piece; only one of them has a quotation mark. -/
theorem no_quote (p : Piece) : (∃ d h, p = .escape 34 d h) ∨ ∀ c ∈ p.text, c ≠ 34 := by
  cases p with
  | byte c h => exact .inr (List.forall_mem_singleton.mpr h.2.1)
  | escape c d h =>
    by_cases hQuote : c = 34
    · subst hQuote
      exact .inl ⟨d, h, rfl⟩
    · exact .inr (List.forall_mem_cons.mpr ⟨by decide +kernel, List.forall_mem_singleton.mpr hQuote⟩)
  | unit a b c d t h =>
    obtain ⟨u, hUnit, -⟩ := Option.bind_eq_some_iff.mp h
    have hHex := hex_of_codeUnit hUnit
    refine .inr (List.forall_mem_cons.mpr ⟨by decide +kernel, List.forall_mem_cons.mpr ⟨by decide +kernel, ?_⟩⟩)
    exact fun x hx => (hHex x hx).1
  | pair a b c d a' b' c' d' t h =>
    obtain ⟨u, u', hUnit, hUnit', -⟩ := h
    have hHex := hex_of_codeUnit hUnit
    have hHex' := hex_of_codeUnit hUnit'
    refine .inr (List.forall_mem_cons.mpr ⟨by decide +kernel, List.forall_mem_cons.mpr ⟨by decide +kernel, ?_⟩⟩)
    have hBoth : ∀ x ∈ [a, b, c, d] ++ 92 :: 117 :: [a', b', c', d'], x ≠ 34 := by
      refine List.forall_mem_append.mpr ⟨fun x hx => (hHex x hx).1, ?_⟩
      refine List.forall_mem_cons.mpr ⟨by decide +kernel, List.forall_mem_cons.mpr ⟨by decide +kernel, ?_⟩⟩
      exact fun x hx => (hHex' x hx).1
    exact hBoth

/-- From the opening quotation mark of a string on, where it is known what is found behind it. -/
theorem strstrAfter_open (hKey : ∀ c ∈ key, c ≠ 34 ∧ c ≠ 92) {s : List Piece} {r : Bytes}
    (hInside : strstrAfter (34 :: (key ++ [34])) (text s ++ 34 :: r) =
      if 34 :: key <:+ text s then some r else strstrAfter (34 :: (key ++ [34])) (34 :: r)) :
    strstrAfter (34 :: (key ++ [34])) (34 :: (text s ++ 34 :: r)) =
      if LooksLike s key then some r else strstrAfter (34 :: (key ++ [34])) (34 :: r) := by
  simp only [strstrAfter_quote (text s ++ 34 :: r), prefix_text hKey, LooksLike,
    List.suffix_cons_iff, hInside, List.cons.injEq, true_and]
  split
  · next h =>
    subst h
    have hDrop : (text s ++ 34 :: r).drop ((text s).length + 1) = r := by
      rw [← List.drop_drop, List.drop_left]
      rfl
    rw [hDrop]
    simp only [true_or, if_true]
  · next h => simp only [h, false_or]

theorem strstrAfter_inside (hKey : ∀ c ∈ key, c ≠ 34 ∧ c ≠ 92) (s : List Piece) (r : Bytes) :
    strstrAfter (34 :: (key ++ [34])) (text s ++ 34 :: r) =
      if 34 :: key <:+ text s then some r else strstrAfter (34 :: (key ++ [34])) (34 :: r) := by
  induction s with
  | nil =>
    have hNil : ¬34 :: key <:+ text [] := fun h => List.cons_ne_nil _ _ (List.suffix_nil.mp h)
    rw [if_neg hNil]
    rfl
  | cons p s ih =>
    have hSplit : text (p :: s) = p.text ++ text s := List.flatMap_cons ..
    rw [hSplit, List.append_assoc]
    obtain ⟨d, h, rfl⟩ | hp := no_quote p
    · -- behind the escape the rest of the string looks like a string of its own
      have hOne : ∀ c ∈ [(92 : UInt8)], c ≠ 34 := by decide +kernel
      have hCut := strstrAfter_skip (key ++ [34]) (34 :: (text s ++ 34 :: r)) hOne
      have hSame : LooksLike s key ↔ 34 :: key <:+ [92] ++ 34 :: text s := (suffix_skip hOne).symm
      refine hCut.trans ((strstrAfter_open hKey ih).trans ?_)
      simp only [hSame]
      rfl
    · rw [strstrAfter_skip _ _ hp, ih]
      simp only [suffix_skip hp]

theorem strstrAfter_string (hKey : ∀ c ∈ key, c ≠ 34 ∧ c ≠ 92) (s : List Piece) (r : Bytes) :
    strstrAfter (34 :: (key ++ [34])) (34 :: (text s ++ 34 :: r)) =
      if LooksLike s key then some r else strstrAfter (34 :: (key ++ [34])) (34 :: r) :=
  strstrAfter_open hKey (strstrAfter_inside hKey s r)

end Search

/-! ### The members of a body -/

/-- Where the pattern stands first: at the end of a name or of a value. -/
inductive Place where
  | name (m : Member)
  | value

def placeIn (key : Bytes) (m : Member) : Option Place :=
  if LooksLike m.name key then some (.name m)
  else
    match m.value with
    | .str s => if LooksLike s key then some .value else none
    | _ => none

def place (b : Object) (key : Bytes) : Option Place := b.members.findSome? (placeIn key)

/-- What is read there. -/
def Place.read : Place → Option Bytes
  | .name m => Written.value m.value
  | .value => none

section Members

variable {key : Bytes}

theorem space_quote (a : Space) : ∀ c ∈ a.val, c ≠ 34 := fun c hc => space_ne (a.property c hc) rfl

theorem dropWhile_space (a : Space) {c : UInt8} (hc : jsonSpace c = false) (r : Bytes) :
    (a.val ++ c :: r).dropWhile jsonSpace = c :: r := by
  have hAll : ∀ x ∈ a.val, jsonSpace x = true := a.property
  rw [List.dropWhile_append_of_pos hAll,
    List.dropWhile_cons_of_neg (by rw [hc]; exact Bool.false_ne_true)]

/-- A value that is no string has no quotation mark. -/
theorem value_quote {v : Value} (h : ∀ s, v ≠ .str s) : ∀ c ∈ v.text, c ≠ 34 := by
  cases v with
  | str s => exact absurd rfl (h s)
  | num n =>
    rintro c hc rfl
    obtain h | h | h | h | h | h := number_mem hc <;> cases h
  | bool b => cases b <;> decide +kernel
  | null => decide +kernel

/-- What stands behind a member. -/
def Follows (r : Bytes) : Prop := ∃ c t, r = c :: t ∧ (c = 44 ∨ c = 125)

theorem jgetAfter_value {r : Bytes} (h : Follows r) (a : Space) :
    jgetAfter (a.val ++ r) = none := by
  obtain ⟨c, t, rfl, hc⟩ := h
  have hSpace : jsonSpace c = false := by obtain rfl | rfl := hc <;> rfl
  rw [jgetAfter, dropWhile_space a hSpace]
  obtain rfl | rfl := hc <;> rfl

theorem number_head (n : Number) : ∃ c t, n.text = c :: t ∧ (isDigit c = true ∨ c = 45) := by
  cases hMinus : n.minus with
  | true =>
    refine ⟨45, digits n.int ++ n.fracText ++ n.expText, ?_, .inr rfl⟩
    rw [Number.text, hMinus]
    rfl
  | false =>
    obtain ⟨d, ds, hInt⟩ := List.exists_cons_of_ne_nil n.int_ne
    refine ⟨UInt8.ofNat (48 + d.val), digits ds ++ n.fracText ++ n.expText, ?_,
      .inl (digit_of_lt d.isLt).1⟩
    rw [Number.text, hMinus, hInt]
    rfl

/-- What stands behind a number is no part of it. -/
theorem takeWhile_follows {r : Bytes} (h : Follows r) (a : Space) :
    (a.val ++ r).takeWhile (fun c => (48 ≤ c && c ≤ 57) || c = 45) = [] := by
  have hHead : ∃ c t, a.val ++ r = c :: t ∧ ((48 ≤ c && c ≤ 57) || c = 45) = false := by
    obtain ⟨c, t, rfl, hc⟩ := h
    obtain ⟨b, hb⟩ := a
    cases b with
    | nil => exact ⟨c, t, rfl, by obtain rfl | rfl := hc <;> rfl⟩
    | cons x b =>
      refine ⟨x, b ++ c :: t, rfl, ?_⟩
      have hx := hb x List.mem_cons_self
      simp only [isSpace, Bool.or_eq_true, decide_eq_true_eq] at hx
      obtain ((rfl | rfl) | rfl) | rfl := hx <;> rfl
  obtain ⟨c, t, hEq, hc⟩ := hHead
  rw [hEq, List.takeWhile_cons_of_neg (by rw [hc]; exact Bool.false_ne_true)]

theorem jgetValue_other (a : Space) {c : UInt8} (hQuote : c ≠ 34) (hSpace : jsonSpace c = false)
    (t : Bytes) :
    jgetValue (a.val ++ c :: t) =
      let digits := (c :: t).takeWhile fun c => (48 ≤ c && c ≤ 57) || c = 45
      if digits = [] then none else some digits := by
  rw [jgetValue, dropWhile_space a hSpace]
  split
  · next h => exact absurd (List.cons.inj h).1 hQuote
  · rfl

theorem jgetValue_text {r : Bytes} (h : Follows r) (a a' : Space) (v : Value) :
    jgetValue (a.val ++ (v.text ++ (a'.val ++ r))) = Written.value v := by
  cases v with
  | str s =>
    have hText : a.val ++ ((Value.str s).text ++ (a'.val ++ r)) =
        a.val ++ 34 :: (text s ++ 34 :: (a'.val ++ r)) := by
      rw [Value.text, List.cons_append, List.append_assoc]
      rfl
    rw [hText, jgetValue, dropWhile_space a rfl]
    exact jgetString_text s _
  | num n =>
    obtain ⟨c, t, hText, hHead⟩ := number_head n
    have hClass := number_class.mpr hHead
    have hOther : c ≠ 34 ∧ jsonSpace c = false := by
      obtain hDigit | rfl := hHead
      · constructor
        · rintro rfl
          cases hDigit
        · cases hSpace : jsonSpace c with
          | false => rfl
          | true =>
            simp only [jsonSpace, Bool.or_eq_true, decide_eq_true_eq] at hSpace
            obtain ((rfl | rfl) | rfl) | rfl := hSpace <;> cases hDigit
      · exact ⟨by decide +kernel, rfl⟩
    have hTake : (n.text ++ (a'.val ++ r)).takeWhile (fun c => (48 ≤ c && c ≤ 57) || c = 45) =
        n.text.takeWhile fun c => (48 ≤ c && c ≤ 57) || c = 45 := by
      rw [List.takeWhile_append, takeWhile_follows h a', List.append_nil]
      split
      · next hAll => exact ((List.takeWhile_prefix _).eq_of_length hAll).symm
      · rfl
    have hNe : n.text.takeWhile (fun c => (48 ≤ c && c ≤ 57) || c = 45) ≠ [] := by
      rw [hText, List.takeWhile_cons, if_pos hClass]
      exact List.cons_ne_nil _ _
    have hSplit : (Value.num n).text ++ (a'.val ++ r) = c :: (t ++ (a'.val ++ r)) := by
      rw [Value.text, hText]
      rfl
    rw [hSplit, jgetValue_other a hOther.1 hOther.2]
    have hBack : c :: (t ++ (a'.val ++ r)) = n.text ++ (a'.val ++ r) := hSplit.symm
    dsimp only
    rw [hBack, hTake, if_neg hNe]
    rfl
  | bool b => cases b <;> exact (jgetValue_other a (by decide +kernel) rfl _).trans rfl
  | null => exact (jgetValue_other a (by decide +kernel) rfl _).trans rfl

theorem jgetAfter_name {r : Bytes} (h : Follows r) (m : Member) :
    jgetAfter (m.colon.val ++ 58 :: (m.gap.val ++ (m.value.text ++ (m.after.val ++ r)))) =
      Written.value m.value := by
  rw [jgetAfter, dropWhile_space m.colon rfl]
  exact jgetValue_text h m.gap m.after m.value

/-- A member and what stands behind it. -/
theorem jget_member (hKey : ∀ c ∈ key, c ≠ 34 ∧ c ≠ 92 ∧ c ≠ 58 ∧ c ≠ 44) (m : Member) {r : Bytes}
    (h : Follows r) (hNext : ∀ a : Space, strstrAfter (34 :: (key ++ [34])) (34 :: (a.val ++ r)) =
      strstrAfter (34 :: (key ++ [34])) r) :
    (strstrAfter (34 :: (key ++ [34])) (m.text ++ r)).bind jgetAfter =
      match placeIn key m with
      | some p => p.read
      | none => (strstrAfter (34 :: (key ++ [34])) r).bind jgetAfter := by
  have hPlain : ∀ c ∈ key, c ≠ 34 ∧ c ≠ 92 := fun c hc => ⟨(hKey c hc).1, (hKey c hc).2.1⟩
  have hColon : (58 : UInt8) ∉ key := fun hIn => (hKey 58 hIn).2.2.1 rfl
  have hText : m.text ++ r = m.before.val ++ 34 :: (text m.name ++ 34 :: (m.colon.val ++ 58 ::
      (m.gap.val ++ (m.value.text ++ (m.after.val ++ r))))) := by
    simp only [Member.text, List.append_assoc, List.cons_append]
  rw [hText, strstrAfter_skip _ _ (space_quote m.before), strstrAfter_string hPlain, placeIn]
  split
  · exact jgetAfter_name h m
  · have hGap : ∀ c ∈ m.colon.val ++ 58 :: m.gap.val, c ≠ 34 :=
      List.forall_mem_append.mpr ⟨space_quote m.colon,
        List.forall_mem_cons.mpr ⟨by decide +kernel, space_quote m.gap⟩⟩
    have hIn : (58 : UInt8) ∈ m.colon.val ++ 58 :: m.gap.val :=
      List.mem_append_right _ List.mem_cons_self
    have hAt := strstrAfter_gap (m.value.text ++ (m.after.val ++ r)) hGap hIn hColon
    rw [List.append_assoc, List.cons_append] at hAt
    rw [hAt]
    have hOther (hv : ∀ s, m.value ≠ .str s) :
        strstrAfter (34 :: (key ++ [34])) (m.value.text ++ (m.after.val ++ r)) =
          strstrAfter (34 :: (key ++ [34])) r := by
      rw [strstrAfter_skip _ _ (value_quote hv), strstrAfter_skip _ _ (space_quote m.after)]
    cases hValue : m.value with
    | str s =>
      have hSplit : (Value.str s).text ++ (m.after.val ++ r) =
          34 :: (text s ++ 34 :: (m.after.val ++ r)) := by
        rw [Value.text, List.cons_append, List.append_assoc]
        rfl
      rw [hSplit, strstrAfter_string hPlain]
      dsimp only
      split
      · exact jgetAfter_value h m.after
      · rw [hNext]
    | num | bool | null =>
      rw [hValue] at hOther
      exact congrArg (Option.bind · jgetAfter) (hOther nofun)

theorem jget_members (hKey : ∀ c ∈ key, c ≠ 34 ∧ c ≠ 92 ∧ c ≠ 58 ∧ c ≠ 44) (ms : List Member)
    (trail : Space) :
    (strstrAfter (34 :: (key ++ [34])) (membersText ms (125 :: trail.val))).bind jgetAfter =
      (ms.findSome? (placeIn key)).bind Place.read := by
  have hEnd : ∀ a : Space, ∀ c ∈ a.val ++ 125 :: trail.val, c ≠ 34 := by
    intro a
    exact List.forall_mem_append.mpr ⟨space_quote a,
      List.forall_mem_cons.mpr ⟨by decide +kernel, space_quote trail⟩⟩
  have hNone : strstrAfter (34 :: (key ++ [34])) (125 :: trail.val) = none :=
    strstrAfter_none _ (hEnd ⟨[], nofun⟩)
  induction ms with
  | nil =>
    change (strstrAfter (34 :: (key ++ [34])) (125 :: trail.val)).bind jgetAfter = none
    rw [hNone]
    rfl
  | cons m ms ih =>
    cases ms with
    | nil =>
      rw [membersText, jget_member hKey m ⟨125, trail.val, rfl, .inr rfl⟩, hNone,
        List.findSome?_cons, List.findSome?_nil]
      · cases placeIn key m <;> rfl
      · intro a
        -- no quotation mark is left
        rw [strstrAfter_quote, strstrAfter_none _ (hEnd a), hNone]
        apply if_neg
        intro hPre
        have hMark := hPre.subset (List.mem_append_right key (List.mem_singleton.mpr rfl))
        exact hEnd a 34 hMark rfl
    | cons m' ms =>
      have hComma : (44 : UInt8) ∉ key := fun hIn => (hKey 44 hIn).2.2.2 rfl
      have hSkip : ∀ c ∈ [(44 : UInt8)], c ≠ 34 := by decide +kernel
      have hRest := strstrAfter_skip (key ++ [34]) (membersText (m' :: ms) (125 :: trail.val)) hSkip
      rw [membersText, jget_member hKey m ⟨44, _, rfl, .inl rfl⟩, List.findSome?_cons]
      · have hTail : (strstrAfter (34 :: (key ++ [34]))
            (44 :: membersText (m' :: ms) (125 :: trail.val))).bind jgetAfter = _ :=
          (congrArg (Option.bind · jgetAfter) hRest).trans ih
        rw [hTail]
        cases placeIn key m <;> rfl
      · intro a
        have hGap : ∀ c ∈ a.val ++ [44], c ≠ 34 :=
          List.forall_mem_append.mpr ⟨space_quote a, hSkip⟩
        have hAt := strstrAfter_gap (membersText (m' :: ms) (125 :: trail.val)) hGap
          (List.mem_append_right _ (List.mem_singleton.mpr rfl)) hComma
        rw [List.append_assoc] at hAt
        exact hAt.trans hRest.symm
      · exact nofun

/-- The field lookup is the reading of the first place. -/
theorem jget_place (hKey : FieldName key) (b : Object) :
    jget b.text key = (place b key).bind Place.read := by
  have hLead : ∀ c ∈ b.lead.val ++ 123 :: b.inner.val, c ≠ 34 :=
    List.forall_mem_append.mpr ⟨space_quote b.lead,
      List.forall_mem_cons.mpr ⟨by decide +kernel, space_quote b.inner⟩⟩
  have hText : b.text =
      (b.lead.val ++ 123 :: b.inner.val) ++ membersText b.members (125 :: b.trail.val) := by
    rw [Object.text, List.append_assoc, List.cons_append]
  rw [jget_eq hKey, hText, strstrAfter_skip _ _ hLead, jget_members hKey.2]
  rfl

end Members

/-! ### When the lookup agrees with the object -/

/-- The first place of the name is the name of its own member and the value is plain; or the name of
another member whose value happens to be what is asked for; or nothing is asked for. -/
def Told (b : Object) (key : Bytes) : Prop :=
  match place b key with
  | some (.name m) => (b.member key = some m ∧ Plain m.value) ∨
      b.member key ≠ some m ∧ Written.value m.value = b.field key
  | _ => b.field key = none

theorem jget_field_iff (b : Object) {key : Bytes} (hKey : FieldName key) :
    jget b.text key = b.field key ↔ Told b key := by
  rw [jget_place hKey, Told]
  cases place b key with
  | none => exact eq_comm
  | some p =>
    cases p with
    | value => exact eq_comm
    | name m =>
      change Written.value m.value = b.field key ↔ _
      by_cases hOwn : b.member key = some m
      · have hField : b.field key = m.value.field := by
          rw [Object.field, hOwn]
          rfl
        rw [hField, asWritten_iff]
        change Plain m.value ↔ b.member key = some m ∧ Plain m.value ∨
          b.member key ≠ some m ∧ Written.value m.value = m.value.field
        rw [and_iff_right hOwn]
        exact (or_iff_left fun h => h.1 hOwn).symm
      · exact (and_iff_right hOwn).symm.trans (or_iff_right fun h => hOwn h.1).symm

def noSpace : Space := ⟨[], nofun⟩

def plainString (s : Bytes) (h : ∀ c ∈ s, ¬c < 32 ∧ c ≠ 34 ∧ c ≠ 92) : List Piece := s.pmap .byte h

def plainMember (name : Bytes) (value : Bytes) (h : ∀ c ∈ name, ¬c < 32 ∧ c ≠ 34 ∧ c ≠ 92)
    (h' : ∀ c ∈ value, ¬c < 32 ∧ c ≠ 34 ∧ c ≠ 92) : Member :=
  ⟨noSpace, plainString name h, noSpace, noSpace, .str (plainString value h'), noSpace⟩

/-- The value of the first member is the name of the second one. -/
def nameTwice : Object :=
  ⟨noSpace, noSpace, [plainMember (lit "data") (lit "name") (by decide +kernel) (by decide +kernel),
    plainMember (lit "name") (lit "k") (by decide +kernel) (by decide +kernel)], noSpace⟩

theorem jget_data_iff :
    jget nameTwice.text (lit "data") = nameTwice.field (lit "data") ↔ Told nameTwice (lit "data") :=
  jget_field_iff nameTwice (by unfold FieldName; decide +kernel)

/-- The value of one field is the name of another one. -/
theorem value_hides_name :
    ¬∀ (b : Object) (key : Bytes), FieldName key → jget b.text key = b.field key := by
  intro h
  have hName := h nameTwice (lit "name") (by unfold FieldName; decide +kernel)
  revert hName
  decide +kernel

end PqcHsm
