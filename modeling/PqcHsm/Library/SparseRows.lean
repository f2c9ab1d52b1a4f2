import Mathlib.Data.List.GetD
import Mathlib.Data.List.Sort

/-!
# Rows of bits as lists of positions

A few ones in `k` rows of `n` bits, written as their positions row by row, zeros up to a fixed
length, and for each row the number of positions up to its end. The encodings are exactly the
strings whose counts grow, whose positions increase in each row and whose padding is zero.
-/

namespace SparseRows

section Encoding

variable (n : Nat) (h : Nat → Nat → Bool)

/-- The positions of the ones of row `i`. -/
def rowOnes (i : Nat) : List Nat := (List.range n).filter (h i)

/-- Those of the rows before row `i`. -/
def onesBefore : Nat → List Nat
  | 0 => []
  | i + 1 => onesBefore i ++ rowOnes n h i

def weight (k : Nat) : Nat := (onesBefore n h k).length

/-- Positions, padding, counts. -/
def pack (room k : Nat) : List Nat :=
  onesBefore n h k ++ List.replicate (room - weight n h k) 0 ++
    (List.range k).map fun i => weight n h (i + 1)

end Encoding

/-- Where the positions of row `i` start, by the counts of a string. -/
def start (room : Nat) (y : Nat → Nat) : Nat → Nat
  | 0 => 0
  | i + 1 => y (room + i)

structure Canonical (room k : Nat) (y : Nat → Nat) : Prop where
  mono : ∀ i < k, start room y i ≤ start room y (i + 1)
  bound : ∀ i < k, start room y (i + 1) ≤ room
  incr : ∀ i < k, ∀ j, start room y i < j → j < start room y (i + 1) → y (j - 1) < y j
  zero : ∀ j, start room y k ≤ j → j < room → y j = 0

/-- The string names position `b` in row `i`. -/
def Names (room : Nat) (y : Nat → Nat) (i b : Nat) : Prop :=
  ∃ j, start room y i ≤ j ∧ j < start room y (i + 1) ∧ y j = b

section Rows

variable {n : Nat} {h : Nat → Nat → Bool} {i k room : Nat} {y : Nat → Nat}

theorem mem_rowOnes {b : Nat} : b ∈ rowOnes n h i ↔ b < n ∧ h i b = true := by
  simp [rowOnes]

theorem rowOnes_pairwise : (rowOnes n h i).Pairwise (· < ·) :=
  List.pairwise_lt_range.filter _

theorem length_rowOnes_le : (rowOnes n h i).length ≤ n := by
  simpa [rowOnes] using List.length_filter_le (h i) (List.range n)

theorem weight_succ : weight n h (i + 1) = weight n h i + (rowOnes n h i).length :=
  List.length_append

theorem weight_mono (hik : i ≤ k) : weight n h i ≤ weight n h k := by
  induction hik with
  | refl => exact Nat.le_refl _
  | step _ ih =>
    rw [weight_succ]
    omega

theorem weight_le : weight n h k ≤ k * n := by
  induction k with
  | zero => exact Nat.zero_le _
  | succ k ih =>
    have hRow := length_rowOnes_le (n := n) (h := h) (i := k)
    rw [weight_succ, Nat.succ_mul]
    omega

/-- The weight is largest when all the bits are ones, and only then. -/
theorem weight_eq_iff : weight n h k = k * n ↔ ∀ i < k, ∀ b < n, h i b = true := by
  have hFull (i : Nat) : (rowOnes n h i).length = n ↔ ∀ b < n, h i b = true := by
    have hLen := List.length_filter_eq_length_iff (p := h i) (l := List.range n)
    rw [List.length_range] at hLen
    rw [rowOnes, hLen]
    constructor
    · exact fun hAll b hb => hAll b (List.mem_range.mpr hb)
    · exact fun hAll b hb => hAll b (List.mem_range.mp hb)
  induction k with
  | zero =>
    constructor
    · intro _ i hi
      omega
    · intro _
      simp [weight, onesBefore]
  | succ k ih =>
    have hRow := length_rowOnes_le (n := n) (h := h) (i := k)
    have hRest := weight_le (n := n) (h := h) (k := k)
    rw [weight_succ, Nat.succ_mul]
    constructor
    · intro hSum i hi
      obtain hLast | hBefore := Nat.eq_or_lt_of_le (Nat.le_of_lt_succ hi)
      · rw [hLast]
        exact (hFull k).mp (by omega)
      · exact ih.mp (by omega) i hBefore
    · intro hAll
      have hLast := (hFull k).mpr (hAll k (Nat.lt_succ_self k))
      have hBefore := ih.mpr fun i hi => hAll i (Nat.lt_succ_of_lt hi)
      omega

/-- Row `i` stands in the list of all the positions after the rows before it. -/
theorem onesBefore_get (hik : i < k) {j : Nat} (hj : j < (rowOnes n h i).length) :
    (onesBefore n h k)[weight n h i + j]? = (rowOnes n h i)[j]? := by
  induction k with
  | zero => omega
  | succ k ih =>
    rw [onesBefore]
    obtain hLast | hBefore := Nat.eq_or_lt_of_le (Nat.le_of_lt_succ hik)
    · subst hLast
      have hPast : (onesBefore n h i).length ≤ weight n h i + j := Nat.le_add_right _ _
      rw [List.getElem?_append_right hPast]
      congr 1
      exact Nat.add_sub_cancel_left _ _
    · have hLt : weight n h i + j < (onesBefore n h k).length := by
        have := weight_mono (n := n) (h := h) (Nat.succ_le_of_lt hBefore)
        rw [weight_succ] at this
        exact Nat.lt_of_lt_of_le (Nat.add_lt_add_left hj _) this
      rw [List.getElem?_append_left hLt]
      exact ih hBefore

theorem length_pack (hw : weight n h k ≤ room) : (pack n h room k).length = room + k := by
  unfold weight at hw
  simp [pack, weight]
  omega

/-- A string is the encoding if its counts and its positions with the padding are. -/
theorem eq_pack_iff (hw : weight n h k ≤ room) :
    (List.range (room + k)).map y = pack n h room k ↔
      (∀ j < room, y j = (onesBefore n h k).getD j 0) ∧
        ∀ i < k, y (room + i) = weight n h (i + 1) := by
  have hLen : (onesBefore n h k ++ List.replicate (room - weight n h k) 0).length = room := by
    rw [List.length_append, List.length_replicate]
    exact Nat.add_sub_cancel' hw
  have hLow (j : Nat) (hj : j < room) :
      (pack n h room k)[j]? = some ((onesBefore n h k).getD j 0) := by
    unfold pack
    rw [List.getElem?_append_left (hLen.symm ▸ hj)]
    obtain hIn | hOut := Nat.lt_or_ge j (onesBefore n h k).length
    · rw [List.getElem?_append_left hIn, List.getD_eq_getElem _ _ hIn, List.getElem?_eq_getElem hIn]
    · rw [List.getElem?_append_right hOut, List.getD_eq_default _ _ hOut, List.getElem?_replicate,
        if_pos]
      unfold weight
      omega
  have hHigh (i : Nat) (hi : i < k) : (pack n h room k)[room + i]? = some (weight n h (i + 1)) := by
    unfold pack
    rw [List.getElem?_append_right (by omega), hLen, Nat.add_sub_cancel_left]
    simp [hi]
  constructor
  · intro hEq
    constructor
    · intro j hj
      have hAt := congrArg (·[j]?) hEq
      simp only [hLow j hj, List.getElem?_map] at hAt
      simpa [show j < room + k by omega] using hAt
    · intro i hi
      have hAt := congrArg (·[room + i]?) hEq
      simp only [hHigh i hi, List.getElem?_map] at hAt
      simpa [hi] using hAt
  · rintro ⟨hPos, hCount⟩
    apply List.ext_getElem?
    intro j
    obtain hj | hj := Nat.lt_or_ge j room
    · rw [hLow j hj, ← hPos j hj]
      simp [show j < room + k by omega]
    · obtain hjk | hjk := Nat.lt_or_ge j (room + k)
      · have hHere := hHigh (j - room) (by omega)
        rw [Nat.add_sub_cancel' hj] at hHere
        rw [hHere, ← hCount (j - room) (by omega), Nat.add_sub_cancel' hj]
        simp [hjk]
      · rw [List.getElem?_eq_none (by simpa using hjk),
          List.getElem?_eq_none (by rw [length_pack hw]; exact hjk)]

theorem start_of_pack (hCount : ∀ i < k, y (room + i) = weight n h (i + 1)) (hik : i ≤ k) :
    start room y i = weight n h i := by
  cases i with
  | zero => rfl
  | succ i => exact hCount i hik

/-- The positions of row `i` in the encoding. -/
theorem row_of_pack (hw : weight n h k ≤ room)
    (hPos : ∀ j < room, y j = (onesBefore n h k).getD j 0) (hik : i < k) {j : Nat}
    (hj : j < (rowOnes n h i).length) :
    y (weight n h i + j) = (rowOnes n h i)[j] := by
  have hEnd := weight_mono (n := n) (h := h) (Nat.succ_le_of_lt hik)
  rw [weight_succ] at hEnd
  rw [hPos _ (by omega), List.getD_eq_getElem?_getD, onesBefore_get hik hj,
    List.getElem?_eq_getElem hj]
  rfl

theorem canonical_of_pack (hw : weight n h k ≤ room)
    (hEq : (List.range (room + k)).map y = pack n h room k) : Canonical room k y := by
  obtain ⟨hPos, hCount⟩ := (eq_pack_iff hw).mp hEq
  constructor
  · intro i hi
    rw [start_of_pack hCount (Nat.le_of_lt hi), start_of_pack hCount hi]
    exact weight_mono (Nat.le_succ i)
  · intro i hi
    rw [start_of_pack hCount hi]
    exact Nat.le_trans (weight_mono hi) hw
  · intro i hi j hFirst hLast
    rw [start_of_pack hCount (Nat.le_of_lt hi)] at hFirst
    rw [start_of_pack hCount hi, weight_succ] at hLast
    obtain ⟨d, rfl⟩ := Nat.exists_eq_add_of_lt hFirst
    have hPrev := row_of_pack hw hPos hi (j := d) (by omega)
    have hHere := row_of_pack hw hPos hi (j := d + 1) (by omega)
    rw [Nat.add_sub_cancel, hPrev, Nat.add_assoc, hHere]
    exact List.pairwise_iff_getElem.mp rowOnes_pairwise d (d + 1) _ _ (Nat.lt_succ_self d)
  · intro j hLast hj
    rw [start_of_pack hCount (Nat.le_refl k)] at hLast
    rw [hPos j hj, List.getD_eq_default _ _ hLast]

/-- The encoding of a vector names the ones of the vector. -/
theorem names_iff_of_pack (hw : weight n h k ≤ room)
    (hEq : (List.range (room + k)).map y = pack n h room k) (hi : i < k) {b : Nat} (hb : b < n) :
    Names room y i b ↔ h i b = true := by
  obtain ⟨hPos, hCount⟩ := (eq_pack_iff hw).mp hEq
  unfold Names
  rw [start_of_pack hCount (Nat.le_of_lt hi), start_of_pack hCount hi, weight_succ]
  constructor
  · rintro ⟨j, hFirst, hLast, rfl⟩
    obtain ⟨d, rfl⟩ := Nat.exists_eq_add_of_le hFirst
    have hd : d < (rowOnes n h i).length := by omega
    have hMem := List.getElem_mem hd
    rw [← row_of_pack hw hPos hi hd] at hMem
    exact (mem_rowOnes.mp hMem).2
  · intro hOne
    obtain ⟨d, hd, hAt⟩ := List.mem_iff_getElem.mp (mem_rowOnes.mpr ⟨hb, hOne⟩)
    exact ⟨weight n h i + d, by omega, by omega, (row_of_pack hw hPos hi hd).trans hAt⟩

/-- The positions that a canonical string has for a row increase. -/
theorem Canonical.lt (hy : Canonical room k y) (hi : i < k) {a b : Nat} (ha : start room y i ≤ a)
    (hab : a < b) (hb : b < start room y (i + 1)) : y a < y b := by
  induction b with
  | zero => omega
  | succ b ih =>
    have hStep := hy.incr i hi (b + 1) (by omega) hb
    rw [Nat.add_sub_cancel] at hStep
    obtain hEq | hLt := Nat.eq_or_lt_of_le (Nat.le_of_lt_succ hab)
    · exact hEq ▸ hStep
    · exact Nat.lt_trans (ih hLt (by omega)) hStep

/-- The vector of what a string names. -/
theorem Canonical.onesBefore_eq (hy : Canonical room k y) (hBytes : ∀ j < room, y j < n)
    (hNames : ∀ i < k, ∀ b, h i b = true ↔ Names room y i b) (hik : i ≤ k) :
    onesBefore n h i = (List.range (start room y i)).map y := by
  induction i with
  | zero => rfl
  | succ i ih =>
    have hMono := hy.mono i hik
    have hBound := hy.bound i hik
    have hRow : rowOnes n h i =
        (List.range' (start room y i) (start room y (i + 1) - start room y i)).map y := by
      apply rowOnes_pairwise.eq_of_mem_iff
      · rw [List.pairwise_map]
        apply List.Pairwise.imp_of_mem _ List.pairwise_lt_range'
        intro a b ha hb hab
        rw [List.mem_range'_1] at ha hb
        exact hy.lt hik ha.1 hab (by omega)
      · intro b
        rw [mem_rowOnes, hNames i hik, List.mem_map]
        constructor
        · rintro ⟨-, j, hFirst, hLast, hj⟩
          exact ⟨j, List.mem_range'_1.mpr ⟨hFirst, by omega⟩, hj⟩
        · rintro ⟨j, hj, rfl⟩
          rw [List.mem_range'_1] at hj
          exact ⟨hBytes j (by omega), j, hj.1, by omega, rfl⟩
    rw [onesBefore, ih (Nat.le_of_succ_le hik), hRow, ← List.map_append, List.range_eq_range',
      List.range_eq_range']
    congr 1
    have hJoin := List.range'_append_1 (s := 0) (m := start room y i)
      (n := start room y (i + 1) - start room y i)
    rw [Nat.zero_add, Nat.add_sub_cancel' hMono] at hJoin
    exact hJoin

/-- A canonical string is the encoding of what it names. -/
theorem Canonical.eq_pack (hy : Canonical room k y) (hBytes : ∀ j < room, y j < n)
    (hNames : ∀ i < k, ∀ b, h i b = true ↔ Names room y i b) :
    weight n h k ≤ room ∧ (List.range (room + k)).map y = pack n h room k := by
  have hWeight (i : Nat) (hi : i ≤ k) : weight n h i = start room y i := by
    unfold weight
    rw [hy.onesBefore_eq hBytes hNames hi, List.length_map, List.length_range]
  have hw : weight n h k ≤ room := by
    rw [hWeight k (Nat.le_refl k)]
    cases k with
    | zero => exact Nat.zero_le _
    | succ k => exact hy.bound k (Nat.lt_succ_self k)
  constructor
  · exact hw
  · rw [eq_pack_iff hw]
    constructor
    · intro j hj
      rw [hy.onesBefore_eq hBytes hNames (Nat.le_refl k)]
      obtain hIn | hOut := Nat.lt_or_ge j (start room y k)
      · rw [List.getD_eq_getElem _ _ (by simpa using hIn)]
        simp
      · rw [List.getD_eq_default _ _ (by simpa using hOut), hy.zero j hOut hj]
    · intro i hi
      exact (hWeight (i + 1) hi).symm

/-- The strings that encode some vector with at most `room` ones are the canonical ones. -/
theorem canonical_iff (hBytes : ∀ j < room, y j < n) : Canonical room k y ↔
    ∃ h, weight n h k ≤ room ∧ (List.range (room + k)).map y = pack n h room k := by
  constructor
  · intro hy
    classical
    exact ⟨fun i b => decide (Names room y i b), hy.eq_pack hBytes fun i _ b => by simp⟩
  · rintro ⟨h, hw, hEq⟩
    exact canonical_of_pack hw hEq

end Rows

end SparseRows
