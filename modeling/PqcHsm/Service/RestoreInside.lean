import PqcHsm.Service.Restore

/-!
# Where the parser of a bundle reads

Both passes over a bundle follow offsets of 32 bits that are sums of lengths out of the bundle. The accesses
of the passes are listed here one by one, to the bundle and to the buffer for the name; the list goes on
behind an access that is out of bounds, with zeros for what lies there.
-/

namespace PqcHsm

open ByteCodec

/-- An access to a range of the bundle or to a byte of the buffer for the name. -/
inductive ParserAccess where
  | bundle (start len : Nat)
  | name (i : Nat)
  deriving DecidableEq

def ParserAccess.Inside (b : Bytes) : ParserAccess → Prop
  | .bundle start len => start + len ≤ b.length
  | .name i => i < 256

/-- What the run of `restore` depends on, and what the buffers for the names hold before anything is
written there. -/
structure ParserEnv extends RestoreEnv where
  stale : Nat → Nat → UInt8

section Passes

variable (env : ParserEnv) (b : Bytes)

/-- The accesses to the data of an entry and its digest, and those to the entries behind it. -/
def dataReads (n : UInt32) (i : Nat) (o dl : UInt32) (rest : List ParserAccess) : List ParserAccess :=
  if o + dl + 32 > n then []
  -- `hsm_sm3` looks at the length before it looks at the data
  else if dl > 16384 then []
  else .bundle o.toNat dl.toNat ::
    match env.sm3 i ((b.drop o.toNat).take dl.toNat) with
    | none => []
    | some dg => .bundle (o.toNat + dl.toNat) 32 ::
      if dg ≠ (b.drop (o.toNat + dl.toNat)).take 32 then [] else rest

/-- The accesses of the first pass. -/
def checkReads (n : UInt32) : Nat → Nat → UInt32 → List ParserAccess
  | 0, _, _ => []
  | left + 1, i, o =>
    if o + 4 > n then []
    else
      let nl := (read32At b o).getD 0
      let o' := o + (4 + nl)
      .bundle o.toNat 4 :: if o' + 4 > n then [] else
        let dl := (read32At b o').getD 0
        let o'' := o' + 4
        .bundle o'.toNat 4 ::
          dataReads env b n i o'' dl (checkReads n left (i + 1) (o'' + (dl + 32)))

/-- The precision of `"%.*s"`; a negative one counts as none. -/
def precision (nl : UInt32) (rest : Bytes) : Nat :=
  if nl.toNat < 2 ^ 31 then nl.toNat else rest.length + 1

/-- What is printed into a buffer of 256 bytes. -/
def printed (nl : UInt32) (rest : Bytes) : Bytes :=
  ((rest.take (precision nl rest)).takeWhile (· ≠ 0)).take 255

/-- How many bytes are looked at: those up to a NUL, or up to the precision. -/
def printReads (nl : UInt32) (rest : Bytes) : Nat :=
  min (((rest.take (precision nl rest)).takeWhile (· ≠ 0)).length + 1) (precision nl rest)

/-- The buffer after the printing. -/
def nameBuf (stale : Nat → UInt8) (s : Bytes) (i : Nat) : UInt8 :=
  if i < s.length then s.getD i 0 else if i = s.length then 0 else stale i

/-- `strcmp` reads up to the first difference. -/
def compareReads (buf : Nat → UInt8) : Nat → Bytes → List ParserAccess
  | _, [] => []
  | i, c :: cs => .name i :: if buf i = c then compareReads buf (i + 1) cs else []

def compareEqual (buf : Nat → UInt8) : Nat → Bytes → Bool
  | _, [] => true
  | i, c :: cs => buf i = c && compareEqual buf (i + 1) cs

/-- `".key"` with its end. -/
def dotKeyNul : Bytes := dotKey ++ [0]

/-- The accesses to what was printed, and those behind a good name. -/
def endingReads (stale : Nat → UInt8) (nl : UInt32) (s : Bytes) (rest : List ParserAccess) :
    List ParserAccess :=
  let buf := nameBuf stale s
  let base := s.take (nl.toNat - 4)
  if nl < 5 then []
  else compareReads buf (nl.toNat - 4) dotKeyNul ++
    if !compareEqual buf (nl.toNat - 4) dotKeyNul then []
    else .name (nl.toNat - 4) :: ((List.range (base.length + 1)).map .name ++
      if !hsmNameOk base then [] else rest)

/-- The accesses of the second pass. -/
def writeReads : Nat → Nat → UInt32 → List ParserAccess
  | 0, _, _ => []
  | left + 1, i, o =>
    let nl := (read32At b o).getD 0
    let rest := b.drop (o + 4).toNat
    let s := printed nl rest
    let o' := o + 4 + nl
    let dl := (read32At b o').getD 0
    let o'' := o' + 4
    .bundle o.toNat 4 :: .bundle (o + 4).toNat (printReads nl rest) ::
      ((List.range (s.length + 1)).map .name ++ .bundle o'.toNat 4 ::
        endingReads (env.stale i) nl s (.bundle o''.toNat dl.toNat ::
          if env.spill i = .written then writeReads left (i + 1) (o'' + (dl + 32)) else []))

def restoreReads : List ParserAccess :=
  let n := UInt32.ofNat b.length
  if n > 1048576 then []
  else if n < 8 then []
  else .bundle 0 4 :: if b.take 4 ≠ [80, 81, 66, 49] then [] else
    let cnt := (getU32 (b.drop 4)).1.toNat
    .bundle 4 4 :: (checkReads env b n cnt 0 8 ++
      match checkEntries env.toRestoreEnv b n cnt 0 8 with
      | .error _ => []
      | .ok () => writeReads env b cnt 0 8)

/-- Every index that the parser uses is inside the bundle or inside the buffer for the name. -/
def StaysInBundle : Prop := ∀ a ∈ restoreReads env b, a.Inside b

end Passes

/-! ### The bundles that are read inside their bounds -/

namespace BundleEntry

variable (stale : Nat → UInt8) (x : BundleEntry)

def printed : Bytes := PqcHsm.printed x.nl x.rest

/-- The place of the ending lies in the buffer, and the comparison does not run over the end of it: where
it begins in the last four bytes, these were written or do not look like the ending. -/
def EndsInside : Prop :=
  x.nl < 5 ∨ x.nl < 256 ∨ (x.nl < 260 ∧ (x.nl.toNat - 4 ≤ x.printed.length ∨
    ∃ j < 260 - x.nl.toNat, stale (x.nl.toNat - 4 + j) ≠ dotKey.getD j 0))

/-- The second pass goes on behind the name. -/
def Accepted : Prop :=
  5 ≤ x.nl ∧ compareEqual (nameBuf stale x.printed) (x.nl.toNat - 4) dotKeyNul = true ∧
    hsmNameOk (x.printed.take (x.nl.toNat - 4)) = true

end BundleEntry

/-- The names that the second pass comes to. -/
def NamesInside (env : ParserEnv) : Nat → List BundleEntry → Prop
  | _, [] => True
  | i, x :: xs => x.EndsInside (env.stale i) ∧
    (x.Accepted (env.stale i) → env.spill i = .written → NamesInside env (i + 1) xs)

/-- No length of a name leads to the last places of the 32-bit numbers, and where all entries check, the
ends of the names lie in their buffers. -/
def Contained (env : ParserEnv) (b : Bytes) : Prop :=
  let n := UInt32.ofNat b.length
  let cnt := (getU32 (b.drop 4)).1.toNat
  Marked b → StaysInside env.toRestoreEnv b n cnt 0 8 ∧
    (AllCheck env.toRestoreEnv b n cnt 0 8 → NamesInside env 0 (bundleEntries b))

/-! ### The first pass -/

section FirstPass

variable {env : ParserEnv} {b : Bytes} {n : UInt32}

theorem forall_inside_cons {a : ParserAccess} {as : List ParserAccess} :
    (∀ x ∈ a :: as, x.Inside b) ↔ a.Inside b ∧ ∀ x ∈ as, x.Inside b :=
  List.forall_mem_cons

theorem dataReads_inside {i : Nat} {o : UInt32} {rest : List ParserAccess} (hN : n ≤ 1048576)
    (hB : n.toNat ≤ b.length) (hName : o + 4 ≤ n) (hLen : dataAt b o ≤ n) :
    (∀ a ∈ dataReads env b n i (dataAt b o) (dataLen b o) rest, a.Inside b) ↔
      (EntryChecks env.toRestoreEnv b n i o → ∀ a ∈ rest, a.Inside b) := by
  rw [dataReads]
  by_cases hEnd : dataAt b o + dataLen b o + 32 ≤ n
  · by_cases hShort : dataLen b o ≤ 16384
    · have hData : (dataAt b o).toNat + (dataLen b o).toNat + 32 ≤ b.length :=
        (data_le hN hLen hEnd hShort).trans hB
      rw [if_neg (UInt32.not_lt.mpr hEnd), if_neg (UInt32.not_lt.mpr hShort), forall_inside_cons]
      have hIn : (ParserAccess.bundle (dataAt b o).toNat (dataLen b o).toNat).Inside b := by
        change _ ≤ _
        omega
      cases hSm3 : env.sm3 i ((b.drop (dataAt b o).toNat).take (dataLen b o).toNat) with
      | none =>
        constructor
        · intro _ hCheck
          exact nomatch hSm3.symm.trans hCheck.2.2.2.2
        · intro _
          exact ⟨hIn, nofun⟩
      | some dg =>
        have hDigest : (ParserAccess.bundle ((dataAt b o).toNat + (dataLen b o).toNat) 32).Inside b :=
          hData
        dsimp only
        rw [forall_inside_cons]
        by_cases hSame : dg = entryDigest b o
        · have hCheck : EntryChecks env.toRestoreEnv b n i o :=
            ⟨hName, hLen, hEnd, hShort, by rw [← hSame]; exact hSm3⟩
          rw [if_neg (show ¬dg ≠ (b.drop _).take 32 from not_not.mpr hSame)]
          constructor
          · rintro ⟨-, -, hRest⟩ _
            exact hRest
          · intro hRest
            exact ⟨hIn, hDigest, hRest hCheck⟩
        · rw [if_pos (show dg ≠ (b.drop _).take 32 from hSame)]
          constructor
          · intro _ hCheck
            exact absurd (Option.some.inj (hSm3.symm.trans hCheck.2.2.2.2)) hSame
          · intro _
            exact ⟨hIn, hDigest, nofun⟩
    · rw [if_neg (UInt32.not_lt.mpr hEnd), if_pos (UInt32.not_le.mp hShort)]
      exact ⟨fun _ hCheck => absurd hCheck.2.2.2.1 hShort, fun _ => nofun⟩
  · rw [if_pos (UInt32.not_le.mp hEnd)]
    exact ⟨fun _ hCheck => absurd hCheck.2.2.1 hEnd, fun _ => nofun⟩

/-- The accesses to one entry, and what comes behind it if it checks. -/
theorem checkReads_inside_succ {left i : Nat} {o : UInt32} (hN : n ≤ 1048576) (hB : n.toNat ≤ b.length)
    (hO : o ≤ n) :
    (∀ a ∈ checkReads env b n (left + 1) i o, a.Inside b) ↔
      (o + 4 ≤ n → dataAt b o ≤ n → (dataLenAt b o).toNat + 4 ≤ b.length) ∧
        (EntryChecks env.toRestoreEnv b n i o →
          ∀ a ∈ checkReads env b n left (i + 1) (nextEntry b o), a.Inside b) := by
  rw [checkReads]
  change (∀ a ∈ (if o + 4 > n then [] else ParserAccess.bundle o.toNat 4 ::
    if dataAt b o > n then [] else ParserAccess.bundle (dataLenAt b o).toNat 4 ::
      dataReads env b n i (dataAt b o) (dataLen b o) _), a.Inside b) ↔ _
  by_cases hName : o + 4 ≤ n
  · have hFirst : o.toNat + 4 ≤ b.length := (toNat_add_le hO hN (by decide) hName).trans hB
    rw [if_neg (UInt32.not_lt.mpr hName), forall_inside_cons]
    by_cases hLen : dataAt b o ≤ n
    · rw [if_neg (UInt32.not_lt.mpr hLen), forall_inside_cons, dataReads_inside hN hB hName hLen]
      constructor
      · rintro ⟨-, hStay, hRest⟩
        exact ⟨fun _ _ => hStay, hRest⟩
      · rintro ⟨hStay, hRest⟩
        exact ⟨hFirst, hStay hName hLen, hRest⟩
    · rw [if_pos (UInt32.not_le.mp hLen)]
      constructor
      · intro _
        exact ⟨fun _ h => absurd h hLen, fun h => absurd h.2.1 hLen⟩
      · intro _
        exact ⟨hFirst, nofun⟩
  · rw [if_pos (UInt32.not_le.mp hName)]
    constructor
    · intro _
      exact ⟨fun h => absurd h hName, fun h => absurd h.1 hName⟩
    · intro _
      exact nofun

theorem checkReads_inside {left i : Nat} {o : UInt32} (hN : n ≤ 1048576) (hB : n.toNat ≤ b.length)
    (hO : o ≤ n) :
    (∀ a ∈ checkReads env b n left i o, a.Inside b) ↔ StaysInside env.toRestoreEnv b n left i o := by
  induction left generalizing i o with
  | zero => exact ⟨fun _ => trivial, fun _ => nofun⟩
  | succ left ih =>
    rw [checkReads_inside_succ hN hB hO, StaysInside]
    apply and_congr_right
    intro _
    apply forall_congr'
    intro hCheck
    exact ih (nextEntry_le hCheck)

end FirstPass

/-! ### Names -/

section Comparing

variable {b : Bytes} {buf : Nat → UInt8}

theorem compareReads_inside (i : Nat) (cs : Bytes) :
    (∀ a ∈ compareReads buf i cs, a.Inside b) ↔
      ∀ j < cs.length, (∀ k < j, buf (i + k) = cs.getD k 0) → i + j < 256 := by
  induction cs generalizing i with
  | nil => exact ⟨fun _ => nofun, fun _ => nofun⟩
  | cons c cs ih =>
    rw [compareReads, forall_inside_cons]
    by_cases hEq : buf i = c
    · rw [if_pos hEq, ih]
      constructor
      · rintro ⟨hHere, hRest⟩ (_ | j) hj hSame
        · exact hHere
        · have hNext := hRest j (Nat.lt_of_succ_lt_succ hj) fun k hk => by
            have hk' := hSame (k + 1) (Nat.succ_lt_succ hk)
            rwa [← Nat.add_assoc, Nat.add_right_comm] at hk'
          omega
      · intro h
        refine ⟨h 0 (Nat.succ_pos _) nofun, fun j hj hSame => ?_⟩
        have hNext := h (j + 1) (Nat.succ_lt_succ hj) fun k hk => by
          cases k with
          | zero => exact hEq
          | succ k =>
            have hk' := hSame k (Nat.lt_of_succ_lt_succ hk)
            rwa [Nat.add_right_comm] at hk'
        omega
    · rw [if_neg hEq]
      constructor
      · rintro ⟨hHere, -⟩ (_ | j) hj hSame
        · exact hHere
        · exact absurd (hSame 0 (Nat.succ_pos _)) hEq
      · intro h
        exact ⟨h 0 (Nat.succ_pos _) nofun, nofun⟩

theorem compareReads_head {i : Nat} {c : UInt8} {cs : Bytes}
    (h : ∀ a ∈ compareReads buf i (c :: cs), a.Inside b) : i < 256 :=
  (forall_inside_cons.mp h).1

theorem length_printed (nl : UInt32) (rest : Bytes) : (printed nl rest).length ≤ 255 :=
  List.length_take_le _ _

/-- The comparison with the ending stays in the buffer. -/
theorem ending_inside {stale : Nat → UInt8} {x : BundleEntry} (hFive : ¬x.nl < 5) :
    (∀ a ∈ compareReads (nameBuf stale x.printed) (x.nl.toNat - 4) dotKeyNul, a.Inside b) ↔
      x.EndsInside stale := by
  have hL := length_printed x.nl x.rest
  change x.printed.length ≤ 255 at hL
  rw [UInt32.lt_iff_toNat_lt] at hFive
  have hFive : 5 ≤ x.nl.toNat := Nat.le_of_not_lt hFive
  rw [compareReads_inside, BundleEntry.EndsInside, UInt32.lt_iff_toNat_lt, UInt32.lt_iff_toNat_lt,
    UInt32.lt_iff_toNat_lt]
  change (∀ j < 5, _) ↔ x.nl.toNat < 5 ∨ x.nl.toNat < 256 ∨ x.nl.toNat < 260 ∧ _
  -- the ending that is compared has four characters before its own end
  have hDot : ∀ k < 4, dotKeyNul.getD k 0 = dotKey.getD k 0 := by decide
  constructor
  · intro h
    by_cases hShort : x.nl.toNat < 256
    · exact .inr (.inl hShort)
    · have hPlace : x.nl.toNat < 260 := by
        have := h 0 (by decide) nofun
        omega
      refine .inr (.inr ⟨hPlace, ?_⟩)
      by_contra hRuns
      rw [not_or] at hRuns
      obtain ⟨hBeyond, hMatch⟩ := hRuns
      have hLast := h (260 - x.nl.toNat) (by omega) fun k hk => by
        rw [nameBuf, if_neg (by omega), if_neg (by omega), hDot k (by omega)]
        by_contra hNe
        exact hMatch ⟨k, hk, hNe⟩
      omega
  · rintro (h | h | ⟨hPlace, h⟩) j hj hSame
    · omega
    · omega
    · by_contra hOut
      by_cases hBefore : x.nl.toNat - 4 ≤ x.printed.length
      · have hNul := hSame (x.printed.length - (x.nl.toNat - 4)) (by omega)
        rw [Nat.add_sub_cancel' hBefore, nameBuf, if_neg (Nat.lt_irrefl _), if_pos rfl] at hNul
        have hNot : ∀ k < 4, (0 : UInt8) ≠ dotKeyNul.getD k 0 := by decide
        exact hNot _ (by omega) hNul
      · obtain ⟨k, hk, hNe⟩ := h.resolve_left hBefore
        have hMatch := hSame k (by omega)
        rw [nameBuf, if_neg (by omega), if_neg (by omega), hDot k (by omega)] at hMatch
        exact hNe hMatch

end Comparing

/-! ### The second pass -/

section SecondPass

variable {env : ParserEnv} {b : Bytes} {n : UInt32}

theorem printReads_le (nl : UInt32) (rest : Bytes) (h : nl.toNat < 2 ^ 31) :
    printReads nl rest ≤ nl.toNat := by
  rw [printReads, precision, if_pos h]
  exact Nat.min_le_right _ _

theorem names_inside {m : Nat} (h : m ≤ 255) :
    ∀ a ∈ (List.range (m + 1)).map ParserAccess.name, a.Inside b := by
  intro a ha
  obtain ⟨i, hi, rfl⟩ := List.mem_map.mp ha
  change i < 256
  have := List.mem_range.mp hi
  omega

theorem forall_inside_append {as as' : List ParserAccess} :
    (∀ x ∈ as ++ as', x.Inside b) ↔ (∀ x ∈ as, x.Inside b) ∧ ∀ x ∈ as', x.Inside b :=
  List.forall_mem_append

/-- The entry at an offset. -/
def entryAt (b : Bytes) (o : UInt32) : BundleEntry :=
  ⟨(read32At b o).getD 0, b.drop (o + 4).toNat, entryData b o⟩

theorem entriesAt_succ (left : Nat) (o : UInt32) :
    entriesAt b (left + 1) o = entryAt b o :: entriesAt b left (nextEntry b o) := rfl

theorem endingReads_inside {stale : Nat → UInt8} {x : BundleEntry} {rest : List ParserAccess} :
    (∀ a ∈ endingReads stale x.nl x.printed rest, a.Inside b) ↔
      x.EndsInside stale ∧ (x.Accepted stale → ∀ a ∈ rest, a.Inside b) := by
  have hL := length_printed x.nl x.rest
  change x.printed.length ≤ 255 at hL
  rw [endingReads]
  by_cases hFive : x.nl < 5
  · rw [if_pos hFive]
    constructor
    · intro _
      exact ⟨.inl hFive, fun hAcc => absurd hAcc.1 (UInt32.not_le.mpr hFive)⟩
    · intro _
      exact fun a ha => absurd ha List.not_mem_nil
  · rw [if_neg hFive, forall_inside_append, ending_inside hFive]
    apply and_congr_right
    intro hEnds
    cases hEq : compareEqual (nameBuf stale x.printed) (x.nl.toNat - 4) dotKeyNul with
    | false =>
      rw [if_pos (by simp)]
      exact ⟨fun _ hAcc => absurd (hEq.symm.trans hAcc.2.1) Bool.false_ne_true,
        fun _ a ha => absurd ha List.not_mem_nil⟩
    | true =>
      have hPlace : (ParserAccess.name (x.nl.toNat - 4)).Inside b :=
        @compareReads_head b _ _ _ _ ((ending_inside hFive).mpr hEnds)
      have hBase : (x.printed.take (x.nl.toNat - 4)).length ≤ 255 :=
        (List.length_take_le' _ _).trans hL
      rw [if_neg (by simp), forall_inside_cons, forall_inside_append]
      cases hOk : hsmNameOk (x.printed.take (x.nl.toNat - 4)) with
      | false =>
        rw [if_pos (by simp)]
        exact ⟨fun _ hAcc => absurd (hOk.symm.trans hAcc.2.2) Bool.false_ne_true,
          fun _ => ⟨hPlace, names_inside hBase,
            fun a ha => absurd ha List.not_mem_nil⟩⟩
      | true =>
        rw [if_neg (by simp)]
        exact ⟨fun h _ => h.2.2,
          fun h => ⟨hPlace, names_inside hBase, h ⟨UInt32.not_lt.mp hFive, hEq, hOk⟩⟩⟩

theorem EndsInside_short {stale : Nat → UInt8} {x : BundleEntry} (h : x.EndsInside stale) :
    x.nl.toNat < 260 := by
  rw [BundleEntry.EndsInside, UInt32.lt_iff_toNat_lt, UInt32.lt_iff_toNat_lt,
    UInt32.lt_iff_toNat_lt] at h
  change x.nl.toNat < 5 ∨ x.nl.toNat < 256 ∨ x.nl.toNat < 260 ∧ _ at h
  omega

/-- The accesses of the second pass to one entry. -/
theorem writeReads_inside_succ {left i : Nat} {o : UInt32} (hN : n ≤ 1048576)
    (hB : n.toNat ≤ b.length) (hO : o ≤ n) (hStay : (dataLenAt b o).toNat + 4 ≤ b.length)
    (hCheck : EntryChecks env.toRestoreEnv b n i o) :
    (∀ a ∈ writeReads env b (left + 1) i o, a.Inside b) ↔
      (entryAt b o).EndsInside (env.stale i) ∧
        ((entryAt b o).Accepted (env.stale i) → env.spill i = .written →
          ∀ a ∈ writeReads env b left (i + 1) (nextEntry b o), a.Inside b) := by
  obtain ⟨hName, hLen, hEnd, hShort, -⟩ := hCheck
  have hFirst : o.toNat + 4 ≤ b.length := (toNat_add_le hO hN (by decide) hName).trans hB
  have hData : (ParserAccess.bundle (dataAt b o).toNat (dataLen b o).toNat).Inside b := by
    have hEnds := (data_le hN hLen hEnd hShort).trans hB
    change _ ≤ _
    omega
  have hPrint : (entryAt b o).EndsInside (env.stale i) →
      (o + 4).toNat + printReads (entryAt b o).nl (entryAt b o).rest ≤ b.length := by
    intro h
    have hNl := EndsInside_short h
    have hReads := printReads_le (entryAt b o).nl (entryAt b o).rest (by omega)
    have hBig : n.toNat ≤ 1048576 := UInt32.le_iff_toNat_le.mp hN
    have hON := UInt32.le_iff_toNat_le.mp hO
    have hAt := UInt32.le_iff_toNat_le.mp hLen
    change (o + (4 + (entryAt b o).nl) + 4).toNat ≤ n.toNat at hAt
    have h4 : UInt32.toNat 4 = 4 := rfl
    rw [UInt32.toNat_add, UInt32.toNat_add, UInt32.toNat_add] at hAt
    rw [UInt32.toNat_add]
    omega
  have hAt : o + 4 + (read32At b o).getD 0 = dataLenAt b o := UInt32.add_assoc _ _ _
  rw [writeReads, hAt]
  change (∀ a ∈ ParserAccess.bundle o.toNat 4 ::
    ParserAccess.bundle (o + 4).toNat (printReads (entryAt b o).nl (entryAt b o).rest) ::
      (List.map ParserAccess.name (List.range ((entryAt b o).printed.length + 1)) ++
        ParserAccess.bundle (dataLenAt b o).toNat 4 ::
          endingReads (env.stale i) (entryAt b o).nl (entryAt b o).printed
            (ParserAccess.bundle (dataAt b o).toNat (dataLen b o).toNat ::
              if env.spill i = .written then writeReads env b left (i + 1) (nextEntry b o) else [])),
      a.Inside b) ↔ _
  rw [forall_inside_cons, forall_inside_cons, forall_inside_append, forall_inside_cons,
    endingReads_inside, forall_inside_cons]
  constructor
  · rintro ⟨-, -, -, -, hEnds, hRest⟩
    refine ⟨hEnds, fun hAcc hSpill => ?_⟩
    have hLater := (hRest hAcc).2
    rwa [if_pos hSpill] at hLater
  · rintro ⟨hEnds, hRest⟩
    refine ⟨hFirst, hPrint hEnds, names_inside (length_printed _ _), hStay, hEnds, fun hAcc => ?_⟩
    refine ⟨hData, ?_⟩
    by_cases hSpill : env.spill i = .written
    · rw [if_pos hSpill]
      exact hRest hAcc hSpill
    · rw [if_neg hSpill]
      exact nofun

theorem writeReads_inside {left i : Nat} {o : UInt32} (hN : n ≤ 1048576) (hB : n.toNat ≤ b.length)
    (hO : o ≤ n) (hStay : StaysInside env.toRestoreEnv b n left i o)
    (hAll : AllCheck env.toRestoreEnv b n left i o) :
    (∀ a ∈ writeReads env b left i o, a.Inside b) ↔ NamesInside env i (entriesAt b left o) := by
  induction left generalizing i o with
  | zero => exact ⟨fun _ => trivial, fun _ => nofun⟩
  | succ left ih =>
    obtain ⟨hCheck, hLater⟩ := hAll
    rw [writeReads_inside_succ hN hB hO (hStay.1 hCheck.1 hCheck.2.1) hCheck, entriesAt_succ,
      NamesInside, ih (nextEntry_le hCheck) (hStay.2 hCheck) hLater]

end SecondPass

theorem checkEntries_ok {env : RestoreEnv} {b : Bytes} {n : UInt32} {left i : Nat} {o : UInt32}
    (hN : n ≤ 1048576) (hB : n.toNat ≤ b.length) (hO : o ≤ n) (hStay : StaysInside env b n left i o)
    (hAll : AllCheck env b n left i o) : checkEntries env b n left i o = .ok () := by
  rcases @checkEntries_spec env b n left i o hN hB hO with
    ⟨hOut, -⟩ | ⟨-, ⟨-, hRun⟩ | ⟨hSome, -⟩⟩
  · exact absurd hStay hOut
  · exact hRun
  · exact absurd hAll hSome

/-- The parser stays inside the bundle and its buffer for exactly these bundles. -/
theorem staysInBundle_iff (env : ParserEnv) (b : Bytes) : StaysInBundle env b ↔ Contained env b := by
  rw [StaysInBundle, restoreReads, Contained]
  by_cases hSize : UInt32.ofNat b.length ≤ 1048576
  · by_cases hEight : 8 ≤ UInt32.ofNat b.length
    · have hB : (UInt32.ofNat b.length).toNat ≤ b.length := by
        rw [UInt32.toNat_ofNat']
        exact Nat.mod_le _ _
      have hLen : 8 ≤ b.length := (UInt32.le_iff_toNat_le.mp hEight).trans hB
      have hMagic : (ParserAccess.bundle 0 4).Inside b := by
        change 0 + 4 ≤ b.length
        omega
      have hCount : (ParserAccess.bundle 4 4).Inside b := hLen
      rw [if_neg (UInt32.not_lt.mpr hSize), if_neg (UInt32.not_lt.mpr hEight), forall_inside_cons]
      by_cases hMark : b.take 4 = [80, 81, 66, 49]
      · have hMarked : Marked b := ⟨hSize, hEight, hMark⟩
        rw [if_neg (not_not.mpr hMark), forall_inside_cons, forall_inside_append,
          checkReads_inside hSize hB hEight]
        constructor
        · rintro ⟨-, -, hStay, hLater⟩ _
          refine ⟨hStay, fun hAll => ?_⟩
          rw [checkEntries_ok hSize hB hEight hStay hAll] at hLater
          exact (writeReads_inside hSize hB hEight hStay hAll).mp hLater
        · intro h
          obtain ⟨hStay, hNames⟩ := h hMarked
          refine ⟨hMagic, hCount, hStay, ?_⟩
          rcases @checkEntries_spec env.toRestoreEnv b _ (getU32 (b.drop 4)).1.toNat 0 8 hSize hB hEight
            with ⟨hOut, -⟩ | ⟨-, ⟨hAll, hRun⟩ | ⟨-, r, -, hRun⟩⟩
          · exact absurd hStay hOut
          · rw [hRun]
            exact (writeReads_inside hSize hB hEight hStay hAll).mpr (hNames hAll)
          · rw [hRun]
            exact nofun
      · rw [if_pos hMark]
        constructor
        · intro _ h
          exact absurd h.2.2 hMark
        · intro _
          exact ⟨hMagic, nofun⟩
    · rw [if_neg (UInt32.not_lt.mpr hSize), if_pos (UInt32.not_le.mp hEight)]
      exact ⟨fun _ h => absurd h.2.1 hEight, fun _ => nofun⟩
  · rw [if_pos (UInt32.not_le.mp hSize)]
    exact ⟨fun _ h => absurd h.1 hSize, fun _ => nofun⟩

def plainParser : ParserEnv := { plainEnv with stale := fun _ _ => 0 }

/-- One entry, whose name has the length `2 ^ 32 - 16`: it ends where the 32-bit numbers do. -/
def wrappingBundle : Bytes := [80, 81, 66, 49, 1, 0, 0, 0, 240, 255, 255, 255]

theorem wrapping_bundle_leads_out :
    ¬∀ (env : ParserEnv) (b : Bytes), b.length ≤ 1048576 → StaysInBundle env b := by
  intro h
  have hReads : ParserAccess.bundle 4294967292 4 ∈ restoreReads plainParser wrappingBundle := by decide
  have hOut := h plainParser wrappingBundle (by decide) _ hReads
  exact absurd hOut (by decide : ¬4294967292 + 4 ≤ 12)

end PqcHsm
