import PqcHsm.Library.ByteCodec

/-!
# Tagged fields

A message of the daemon's protocol is a list of fields: a tag of two bytes, the length of the value
in four bytes, the value. The writer fills a buffer from the front and stops at the first field that
does not fit; the reader walks over the fields by their lengths, which come from the other side.

A `size_t` has 64 bits, and an object of C has fewer than `2 ^ 63` bytes.
-/

namespace PqcHsm

open ByteCodec

/-- The bytes of an object of C. -/
abbrev CObject := {p : Bytes // p.length < 2 ^ 63}

structure TlvWriter where
  buf : CObject
  len : Nat
  err : Bool
  len_le : len ≤ buf.val.length

namespace TlvWriter

def cap (w : TlvWriter) : Nat := w.buf.val.length

theorem cap_lt (w : TlvWriter) : w.cap < 2 ^ 63 := w.buf.property

/-- What has been written. -/
def written (w : TlvWriter) : Bytes := w.buf.val.take w.len

@[simp] theorem length_written (w : TlvWriter) : w.written.length = w.len :=
  List.length_take_of_le w.len_le

/-- What a reader of the message is given. -/
def message (w : TlvWriter) : CObject :=
  ⟨w.written, by
    have := w.len_le
    have := w.buf.property
    rw [length_written]
    omega⟩

end TlvWriter

def tlvInit (buf : CObject) : TlvWriter := ⟨buf, 0, false, Nat.zero_le _⟩

/-- The bytes of a field. -/
def tlvField (tag : UInt16) (val : Bytes) : Bytes :=
  putU16 tag ++ (putU32 (UInt32.ofNat val.length) ++ val)

@[simp] theorem length_tlvField (tag : UInt16) (val : Bytes) :
    (tlvField tag val).length = 6 + val.length := by
  simp [tlvField, length_putU16]
  omega

/-- `memcpy(buf + off, bytes, len)` -/
def copyTo (buf : Bytes) (off : Nat) (bytes : Bytes) : Bytes :=
  buf.take off ++ bytes ++ buf.drop (off + bytes.length)

theorem length_copyTo {buf bytes : Bytes} {off : Nat} (h : off + bytes.length ≤ buf.length) :
    (copyTo buf off bytes).length = buf.length := by
  simp [copyTo]
  omega

theorem take_copyTo {buf bytes : Bytes} {off : Nat} (h : off + bytes.length ≤ buf.length) :
    (copyTo buf off bytes).take (off + bytes.length) = buf.take off ++ bytes := by
  apply List.take_left'
  simp
  omega

/-- The test of `tlv_put`: the sum is taken in a `size_t`. -/
def TlvWriter.overflows (w : TlvWriter) (len : Nat) : Prop :=
  len > 0xffffffff ∨ (w.len + 6 + len) % 2 ^ 64 > w.cap

instance (w : TlvWriter) (len : Nat) : Decidable (w.overflows len) :=
  inferInstanceAs (Decidable (_ ∨ _))

theorem TlvWriter.overflows_iff (w : TlvWriter) (len : Nat) :
    w.overflows len ↔ 0xffffffff < len ∨ w.cap < w.len + 6 + len := by
  have hLen : w.len ≤ w.cap := w.len_le
  have hCap := w.cap_lt
  rw [TlvWriter.overflows]
  omega

theorem TlvWriter.fits {w : TlvWriter} {tag : UInt16} {val : Bytes} (h : ¬w.overflows val.length) :
    w.len + (tlvField tag val).length ≤ w.buf.val.length := by
  rw [TlvWriter.overflows_iff] at h
  rw [length_tlvField]
  change ¬(_ ∨ w.buf.val.length < _) at h
  omega

def tlvPut (w : TlvWriter) (tag : UInt16) (val : Bytes) : TlvWriter :=
  if w.err then w
  else if h : w.overflows val.length then { w with err := true }
  else
    { buf := ⟨copyTo w.buf.val w.len (tlvField tag val), by
        rw [length_copyTo (TlvWriter.fits h)]
        exact w.buf.property⟩
      len := w.len + 6 + val.length
      err := false
      len_le := by
        have hFits := @TlvWriter.fits _ tag _ h
        rw [length_copyTo hFits]
        rw [length_tlvField] at hFits
        omega }

def tlvPutU32 (w : TlvWriter) (tag : UInt16) (v : UInt32) : TlvWriter := tlvPut w tag (putU32 v)

def tlvPutU64 (w : TlvWriter) (tag : UInt16) (v : UInt64) : TlvWriter := tlvPut w tag (putU64 v)

/-- The walk of `tlv_find` from an offset: where the value lies and how long it is. -/
def tlvFindFrom (p : CObject) (tag : UInt16) (off : Nat) (hOff : off ≤ p.val.length) :
    Option (Nat × Nat) :=
  if h : (off + 6) % 2 ^ 64 ≤ p.val.length then
    let t := (getU16 (p.val.drop off)).1
    let l := (getU32 (p.val.drop (off + 2))).1.toNat
    if hl : l > p.val.length - off - 6 then none
    else if t = tag then some (off + 6, l)
    else tlvFindFrom p tag ((off + (6 + l)) % 2 ^ 64) (by have := p.property; omega)
  else none
termination_by p.val.length - off
decreasing_by
  have := p.property
  omega

def tlvFind (p : CObject) (tag : UInt16) : Option (Nat × Nat) := tlvFindFrom p tag 0 (Nat.zero_le _)

/-- The range of an object that `tlv_find` returns. -/
def rangeOf (p : CObject) (r : Nat × Nat) : Bytes := (p.val.drop r.1).take r.2

def tlvGetU32 (p : CObject) (tag : UInt16) : Option UInt32 :=
  match tlvFind p tag with
  | none => none
  | some r => if r.2 ≠ 4 then none else some (getU32 (p.val.drop r.1)).1

def tlvGetU64 (p : CObject) (tag : UInt16) : Option UInt64 :=
  match tlvFind p tag with
  | none => none
  | some r => if r.2 ≠ 8 then none else some (getU64 (p.val.drop r.1)).1

section Writing

variable {w : TlvWriter} {tag : UInt16} {val : Bytes}

theorem tlvPut_of_err (h : w.err = true) (tag : UInt16) (val : Bytes) : tlvPut w tag val = w := by
  rw [tlvPut, if_pos h]

theorem tlvPut_overflow (hErr : w.err = false) (h : w.overflows val.length) :
    tlvPut w tag val = { w with err := true } := by
  rw [tlvPut, if_neg (by simp [hErr]), dif_pos h]

/-- A field that fits is added to what has been written. -/
theorem tlvPut_fits (hErr : w.err = false) (h : ¬w.overflows val.length) :
    (tlvPut w tag val).err = false ∧ (tlvPut w tag val).cap = w.cap ∧
      (tlvPut w tag val).written = w.written ++ tlvField tag val := by
  have hFits := @TlvWriter.fits _ tag _ h
  rw [tlvPut, if_neg (by simp [hErr]), dif_neg h]
  refine ⟨rfl, length_copyTo hFits, ?_⟩
  have hLen : w.len + 6 + val.length = w.len + (tlvField tag val).length := by
    rw [length_tlvField, Nat.add_assoc]
  change (copyTo w.buf.val w.len (tlvField tag val)).take (w.len + 6 + val.length) = _
  rw [hLen, take_copyTo hFits]
  rfl

end Writing

/-- The fields written by a list of puts. -/
def tlvFields (puts : List (UInt16 × Bytes)) : Bytes := puts.flatMap fun x => tlvField x.1 x.2

def tlvPuts (w : TlvWriter) (puts : List (UInt16 × Bytes)) : TlvWriter :=
  puts.foldl (fun w x => tlvPut w x.1 x.2) w

/-- Each value has a length of four bytes, and all fields together fit into the buffer. -/
def AllFit (cap : Nat) (puts : List (UInt16 × Bytes)) : Prop :=
  (∀ x ∈ puts, x.2.length ≤ 0xffffffff) ∧ (tlvFields puts).length ≤ cap

instance (cap : Nat) (puts : List (UInt16 × Bytes)) : Decidable (AllFit cap puts) :=
  inferInstanceAs (Decidable (_ ∧ _))

@[simp] theorem tlvFields_nil : tlvFields [] = [] := rfl

@[simp] theorem tlvFields_cons (x : UInt16 × Bytes) (puts : List (UInt16 × Bytes)) :
    tlvFields (x :: puts) = tlvField x.1 x.2 ++ tlvFields puts := rfl

theorem tlvFields_append (puts more : List (UInt16 × Bytes)) :
    tlvFields (puts ++ more) = tlvFields puts ++ tlvFields more := List.flatMap_append

@[simp] theorem tlvPuts_nil (w : TlvWriter) : tlvPuts w [] = w := rfl

@[simp] theorem tlvPuts_cons (w : TlvWriter) (x : UInt16 × Bytes) (puts : List (UInt16 × Bytes)) :
    tlvPuts w (x :: puts) = tlvPuts (tlvPut w x.1 x.2) puts := rfl

theorem tlvPuts_append (w : TlvWriter) (puts more : List (UInt16 × Bytes)) :
    tlvPuts w (puts ++ more) = tlvPuts (tlvPuts w puts) more := List.foldl_append

/-- After the first put that does not fit nothing changes. -/
theorem tlvPuts_of_err {w : TlvWriter} (h : w.err = true) (puts : List (UInt16 × Bytes)) :
    tlvPuts w puts = w := by
  induction puts with
  | nil => rfl
  | cons x puts ih => rw [tlvPuts_cons, tlvPut_of_err h, ih]

theorem tlvPuts_fit {w : TlvWriter} {puts : List (UInt16 × Bytes)} (hErr : w.err = false)
    (hLen : ∀ x ∈ puts, x.2.length ≤ 0xffffffff)
    (hCap : w.len + (tlvFields puts).length ≤ w.cap) :
    (tlvPuts w puts).err = false ∧ (tlvPuts w puts).cap = w.cap ∧
      (tlvPuts w puts).written = w.written ++ tlvFields puts := by
  induction puts generalizing w with
  | nil => exact ⟨hErr, rfl, by simp⟩
  | cons x puts ih =>
    rw [tlvFields_cons, List.length_append, length_tlvField] at hCap
    have hFits : ¬w.overflows x.2.length := by
      have hOne := hLen x List.mem_cons_self
      rw [TlvWriter.overflows_iff]
      omega
    obtain ⟨hErr', hCap', hWritten⟩ := @tlvPut_fits _ x.1 _ hErr hFits
    have hLen' : (tlvPut w x.1 x.2).len = w.len + (6 + x.2.length) := by
      have hCount := congrArg List.length hWritten
      simpa using hCount
    have hRest := ih hErr' (fun y hy => hLen y (List.mem_cons_of_mem x hy)) (by omega)
    rw [tlvPuts_cons, tlvFields_cons, hRest.2.1, hRest.2.2, hWritten, List.append_assoc]
    exact ⟨hRest.1, hCap', rfl⟩

/-- What has been written stays, whatever is put after it. -/
theorem tlvPuts_keeps (w : TlvWriter) (puts : List (UInt16 × Bytes)) :
    ∃ rest, (tlvPuts w puts).written = w.written ++ rest := by
  induction puts generalizing w with
  | nil => exact ⟨[], by simp⟩
  | cons x puts ih =>
    rw [tlvPuts_cons]
    cases hErr : w.err with
    | true =>
      rw [tlvPut_of_err hErr]
      exact ih w
    | false =>
      by_cases hOver : w.overflows x.2.length
      · rw [tlvPut_overflow hErr hOver]
        exact ih { w with err := true }
      · obtain ⟨rest, hRest⟩ := ih (tlvPut w x.1 x.2)
        refine ⟨tlvField x.1 x.2 ++ rest, ?_⟩
        rw [hRest, (tlvPut_fits hErr hOver).2.2, List.append_assoc]

section Reading

variable {p : CObject} {tag : UInt16} {off : Nat}

theorem length_of_drop {bs more : Bytes} (hOff : off ≤ p.val.length) (h : p.val.drop off = bs ++ more) :
    p.val.length = off + (bs.length + more.length) := by
  have hLen := congrArg List.length h
  rw [List.length_drop, List.length_append] at hLen
  omega

/-- The walk at a field that was written. -/
theorem tlvFindFrom_field {t : UInt16} {val rest : Bytes} (hOff : off ≤ p.val.length)
    (hVal : val.length ≤ 0xffffffff) (h : p.val.drop off = tlvField t val ++ rest)
    (hNext : off + (6 + val.length) ≤ p.val.length) :
    tlvFindFrom p tag off hOff =
      if t = tag then some (off + 6, val.length)
      else tlvFindFrom p tag (off + (6 + val.length)) hNext := by
  have hMax := p.property
  have hSize : val.length < UInt32.size := Nat.lt_succ_of_le hVal
  have hTag : (getU16 (p.val.drop off)).1 = t := by
    rw [h, tlvField, List.append_assoc, getU16_putU16]
  have hLen : (getU32 (p.val.drop (off + 2))).1.toNat = val.length := by
    rw [← List.drop_drop, h, tlvField, List.append_assoc, List.drop_left' (length_putU16 t),
      List.append_assoc, getU32_putU32, UInt32.toNat_ofNat_of_lt' hSize]
  have hMod : (off + (6 + val.length)) % 2 ^ 64 = off + (6 + val.length) :=
    Nat.mod_eq_of_lt (by omega)
  rw [tlvFindFrom, dif_pos (by omega)]
  simp only [hTag, hLen, hMod]
  rw [dif_neg (by omega)]

theorem tlvFindFrom_end (hOff : off ≤ p.val.length) (h : p.val.length < off + 6) :
    tlvFindFrom p tag off hOff = none := by
  have hMax := p.property
  rw [tlvFindFrom, dif_neg (by omega)]

/-- The walk passes the fields under other tags and stops at the first one under its own. -/
theorem tlvFindFrom_first {pre : List (UInt16 × Bytes)} {val rest : Bytes} (hOff : off ≤ p.val.length)
    (hOther : ∀ x ∈ pre, x.1 ≠ tag) (hPre : ∀ x ∈ pre, x.2.length ≤ 0xffffffff)
    (hVal : val.length ≤ 0xffffffff)
    (h : p.val.drop off = tlvFields pre ++ (tlvField tag val ++ rest)) :
    ∃ o, tlvFindFrom p tag off hOff = some (o, val.length) ∧ p.val.drop o = val ++ rest := by
  induction pre generalizing off with
  | nil =>
    rw [tlvFields_nil, List.nil_append] at h
    have hLen := length_of_drop hOff h
    rw [length_tlvField] at hLen
    refine ⟨off + 6, ?_, ?_⟩
    · rw [tlvFindFrom_field hOff hVal h (by omega), if_pos rfl]
    · rw [← List.drop_drop, h, tlvField, ← List.append_assoc, List.append_assoc,
        List.drop_left' (by simp [length_putU16])]
  | cons x pre ih =>
    rw [tlvFields_cons, List.append_assoc] at h
    have hLen := length_of_drop hOff h
    rw [length_tlvField] at hLen
    have hNext : off + (6 + x.2.length) ≤ p.val.length := by omega
    rw [tlvFindFrom_field hOff (hPre x List.mem_cons_self) h hNext,
      if_neg (hOther x List.mem_cons_self)]
    apply ih hNext
    · intro y hy
      exact hOther y (List.mem_cons_of_mem x hy)
    · intro y hy
      exact hPre y (List.mem_cons_of_mem x hy)
    · rw [← List.drop_drop, h, List.drop_left' (length_tlvField x.1 x.2)]

/-- A message without a field under the tag is walked over to its end. -/
theorem tlvFindFrom_none {puts : List (UInt16 × Bytes)} (hOff : off ≤ p.val.length)
    (hOther : ∀ x ∈ puts, x.1 ≠ tag) (hPuts : ∀ x ∈ puts, x.2.length ≤ 0xffffffff)
    (h : p.val.drop off = tlvFields puts) : tlvFindFrom p tag off hOff = none := by
  induction puts generalizing off with
  | nil =>
    have hLen := congrArg List.length h
    rw [List.length_drop, tlvFields_nil, List.length_nil] at hLen
    exact tlvFindFrom_end hOff (by omega)
  | cons x puts ih =>
    rw [tlvFields_cons] at h
    have hLen := length_of_drop hOff h
    rw [length_tlvField] at hLen
    have hNext : off + (6 + x.2.length) ≤ p.val.length := by omega
    rw [tlvFindFrom_field hOff (hPuts x List.mem_cons_self) h hNext,
      if_neg (hOther x List.mem_cons_self)]
    apply ih hNext
    · intro y hy
      exact hOther y (List.mem_cons_of_mem x hy)
    · intro y hy
      exact hPuts y (List.mem_cons_of_mem x hy)
    · rw [← List.drop_drop, h, List.drop_left' (length_tlvField x.1 x.2)]

/-- Whatever the bytes are, what the walk returns lies inside them. -/
theorem tlvFindFrom_inside {r : Nat × Nat} (hOff : off ≤ p.val.length)
    (h : tlvFindFrom p tag off hOff = some r) : r.1 + r.2 ≤ p.val.length := by
  have hMax := p.property
  fun_induction tlvFindFrom p tag off hOff with
  | case1 => cases h
  | case2 =>
    obtain rfl := Option.some.inj h
    dsimp only
    omega
  | case3 _ _ _ _ _ _ _ ih => exact ih h
  | case4 => cases h

end Reading

section Agreement

variable (buf : CObject) (puts : List (UInt16 × Bytes))

theorem tlvInit_fit (h : AllFit buf.val.length puts) :
    (tlvPuts (tlvInit buf) puts).err = false ∧
      (tlvPuts (tlvInit buf) puts).written = tlvFields puts := by
  have hFit := tlvPuts_fit (w := tlvInit buf) rfl h.1 (by
    have := h.2
    change 0 + _ ≤ buf.val.length
    omega)
  rw [hFit.2.2]
  exact ⟨hFit.1, rfl⟩

theorem AllFit.of_append {cap : Nat} {pre post : List (UInt16 × Bytes)} (h : AllFit cap (pre ++ post)) :
    AllFit cap pre := by
  constructor
  · intro x hx
    exact h.1 x (List.mem_append_left post hx)
  · have := h.2
    rw [tlvFields_append, List.length_append] at this
    omega

end Agreement

end PqcHsm
