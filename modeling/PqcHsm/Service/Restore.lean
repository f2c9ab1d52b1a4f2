import Mathlib.Data.List.TakeWhile
import PqcHsm.Library.ByteCodec

/-!
# Restoring a key store from a bundle

A bundle is a list of entries, each with its name, its data and their digest. One pass over the bundle
checks the lengths and the digests, a second one checks the names and writes the files. Offsets
are 32-bit numbers.
-/

namespace PqcHsm

open ByteCodec

/-- How a run of `restore` ends; `undefined` is where it reads what is not its own or what was never
written. -/
inductive RestoreEnd where
  | ok
  | tooLarge
  | notBundle
  | truncated
  | sm3Failed
  | mismatch (i : Nat)
  | badName
  | writeFailed
  | undefined
  deriving DecidableEq

/-- The run fails for what is in the bundle. -/
def RestoreEnd.ByContents (r : RestoreEnd) : Prop :=
  r ≠ .ok ∧ r ≠ .writeFailed ∧ r ≠ .undefined

/-- What becomes of a file that is to be written. -/
inductive SpillEnd where
  | written
  | notOpened
  | cut (k : Nat)
  deriving DecidableEq

/-- The directory of the key store, the digests that the device computes for the entries (or not), and
what becomes of the files. -/
structure RestoreEnv where
  keystore : Bytes
  sm3 : Nat → Bytes → Option Bytes
  spill : Nat → SpillEnd

abbrev Writes := List (Bytes × Bytes)

def read32At (b : Bytes) (o : UInt32) : Option UInt32 :=
  if o.toNat + 4 ≤ b.length then some (getU32 (b.drop o.toNat)).1 else none

def dotKey : Bytes := [46, 107, 101, 121]

def slash : Bytes := [47]

/-! ### The first pass -/

def checkEntries (env : RestoreEnv) (b : Bytes) (n : UInt32) :
    Nat → Nat → UInt32 → Except RestoreEnd Unit
  | 0, _, _ => .ok ()
  | left + 1, i, o =>
    if o + 4 > n then .error .truncated
    else match read32At b o with
    | none => .error .undefined
    | some nl =>
      let o := o + (4 + nl)
      if o + 4 > n then .error .truncated
      else match read32At b o with
      | none => .error .undefined
      | some dl =>
        let o := o + 4
        if o + dl + 32 > n then .error .truncated
        -- `hsm_sm3` takes no more than 16384 bytes
        else if dl > 16384 then .error .sm3Failed
        else if o.toNat + dl.toNat + 32 > b.length then .error .undefined
        else match env.sm3 i ((b.drop o.toNat).take dl.toNat) with
        | none => .error .sm3Failed
        | some dg =>
          if dg ≠ (b.drop (o.toNat + dl.toNat)).take 32 then .error (.mismatch i)
          else checkEntries env b n left (i + 1) (o + (dl + 32))

/-! ### Names -/

/-- `snprintf(name, 256, "%.*s", (int)nl, p)`: a negative precision counts as none. The bytes are read up
to a NUL or to the precision. -/
def printName (nl : UInt32) (rest : Bytes) : Option Bytes :=
  let limit := if nl.toNat < 2 ^ 31 then nl.toNat else rest.length + 1
  let s := (rest.take limit).takeWhile (· ≠ 0)
  if s.length = rest.length ∧ rest.length < limit then none
  else some (s.take 255)

def nameChar (c : UInt8) : Bool :=
  (97 ≤ c && c ≤ 122) || (65 ≤ c && c ≤ 90) || (48 ≤ c && c ≤ 57) || c == 95 || c == 45

def hsmNameOk (name : Bytes) : Bool :=
  !(name.length == 0 || name.length > 32) && name.all nameChar

/-- The name without its ending. The place of the ending may lie behind the end of what was printed. -/
def keyName (nl : UInt32) (name : Bytes) : Except RestoreEnd Bytes :=
  if nl < 5 then .error .badName
  else if nl.toNat - 4 > name.length then .error .undefined
  else if name.drop (nl.toNat - 4) ≠ dotKey then .error .badName
  else if !hsmNameOk (name.take (nl.toNat - 4)) then .error .badName
  else .ok (name.take (nl.toNat - 4))

/-- `snprintf(p, 512, "%s/%s.key", keystore, name)` -/
def keyPath (keystore name : Bytes) : Bytes := (keystore ++ slash ++ name ++ dotKey).take 511

/-! ### The second pass -/

def writeEntries (env : RestoreEnv) (b : Bytes) : Nat → Nat → UInt32 → RestoreEnd × Writes
  | 0, _, _ => (.ok, [])
  | left + 1, i, o =>
    match read32At b o with
    | none => (.undefined, [])
    | some nl =>
      let o := o + 4
      match printName nl (b.drop o.toNat) with
      | none => (.undefined, [])
      | some name =>
        let o := o + nl
        match read32At b o with
        | none => (.undefined, [])
        | some dl =>
          let o := o + 4
          match keyName nl name with
          | .error e => (e, [])
          | .ok base =>
            let data := (b.drop o.toNat).take dl.toNat
            if o.toNat + dl.toNat > b.length then (.undefined, [])
            else match env.spill i with
            | .notOpened => (.writeFailed, [])
            | .cut k => (.writeFailed, [(keyPath env.keystore base, data.take k)])
            | .written =>
              let r := writeEntries env b left (i + 1) (o + (dl + 32))
              (r.1, (keyPath env.keystore base, data) :: r.2)

/-- `c_restore` -/
def cRestore (env : RestoreEnv) (b : Bytes) : RestoreEnd × Writes :=
  let n := UInt32.ofNat b.length
  if n > 1048576 then (.tooLarge, [])
  else if n < 8 ∨ b.take 4 ≠ [80, 81, 66, 49] then (.notBundle, [])
  else
    let cnt := (getU32 (b.drop 4)).1
    match checkEntries env b n cnt.toNat 0 8 with
    | .error e => (e, [])
    | .ok () => writeEntries env b cnt.toNat 0 8

/-! ### The entries of a bundle -/

section Places

variable (b : Bytes) (o : UInt32)

/-- Where the length of the data of the entry at `o` stands. -/
def dataLenAt : UInt32 := o + (4 + (read32At b o).getD 0)

def dataAt : UInt32 := dataLenAt b o + 4

def dataLen : UInt32 := (read32At b (dataLenAt b o)).getD 0

def entryData : Bytes := (b.drop (dataAt b o).toNat).take (dataLen b o).toNat

def entryDigest : Bytes := (b.drop ((dataAt b o).toNat + (dataLen b o).toNat)).take 32

def nextEntry : UInt32 := dataAt b o + (dataLen b o + 32)

end Places

/-- The length of the name, the bundle from the name on, and the data. -/
structure BundleEntry where
  nl : UInt32
  rest : Bytes
  data : Bytes

def entriesAt (b : Bytes) : Nat → UInt32 → List BundleEntry
  | 0, _ => []
  | left + 1, o =>
    ⟨(read32At b o).getD 0, b.drop (o + 4).toNat, entryData b o⟩ ::
      entriesAt b left (nextEntry b o)

def bundleEntries (b : Bytes) : List BundleEntry := entriesAt b (getU32 (b.drop 4)).1.toNat 8

def BundleEntry.name (x : BundleEntry) : Bytes := x.rest.take x.nl.toNat

/-- The name is whole, it ends as the name of a key file does, and what is before the ending is the name
of a key. -/
def BundleEntry.Fits (x : BundleEntry) : Prop :=
  x.name.length = x.nl.toNat ∧ ∃ base, x.name = base ++ dotKey ∧ hsmNameOk base = true

/-- What the second pass makes of the name. -/
def BundleEntry.keyName (x : BundleEntry) : Except RestoreEnd Bytes :=
  match printName x.nl x.rest with
  | none => .error .undefined
  | some name => PqcHsm.keyName x.nl name

/-- The file that the entry names. -/
def BundleEntry.ownPath (keystore : Bytes) (x : BundleEntry) : Bytes := keystore ++ slash ++ x.name

/-- The run reads nothing that is not its own. If it fails for the contents, it has written nothing; if it
reports success, it has written every entry under its own name with its own data. -/
def Whole (keystore : Bytes) (xs : List BundleEntry) (r : RestoreEnd × Writes) : Prop :=
  r.1 ≠ .undefined ∧ (r.1.ByContents → r.2 = []) ∧
    (r.1 = .ok → r.2 = xs.map fun x => (x.ownPath keystore, x.data))

def RestoresWhole (env : RestoreEnv) (b : Bytes) : Prop :=
  Whole env.keystore (bundleEntries b) (cRestore env b)

/-! ### The bundles for which it does -/

section Condition

variable (env : RestoreEnv) (b : Bytes) (n : UInt32)

/-- The entry ends in the bundle, and its digest is right. -/
def EntryChecks (i : Nat) (o : UInt32) : Prop :=
  o + 4 ≤ n ∧ dataAt b o ≤ n ∧ dataAt b o + dataLen b o + 32 ≤ n ∧ dataLen b o ≤ 16384 ∧
    env.sm3 i (entryData b o) = some (entryDigest b o)

def AllCheck : Nat → Nat → UInt32 → Prop
  | 0, _, _ => True
  | left + 1, i, o => EntryChecks env b n i o ∧ AllCheck left (i + 1) (nextEntry b o)

/-- No length of a name leads, up to the first entry that does not check, to the last places of the 32-bit
numbers. -/
def StaysInside : Nat → Nat → UInt32 → Prop
  | 0, _, _ => True
  | left + 1, i, o =>
    (o + 4 ≤ n → dataAt b o ≤ n → (dataLenAt b o).toNat + 4 ≤ b.length) ∧
      (EntryChecks env b n i o → StaysInside left (i + 1) (nextEntry b o))

end Condition

/-- It has the size and the mark of a bundle. -/
def Marked (b : Bytes) : Prop :=
  UInt32.ofNat b.length ≤ 1048576 ∧ 8 ≤ UInt32.ofNat b.length ∧ b.take 4 = [80, 81, 66, 49]

/-- The first bad name, if there is one, belongs to the first entry of all, and if all names are good, all
paths fit in the buffer; unless a file before cannot be written. -/
def NamesFit (env : RestoreEnv) (xs : List BundleEntry) : Prop :=
  (∀ pre x post, xs = pre ++ x :: post → (∀ y ∈ pre, y.Fits) → ¬x.Fits →
    pre = [] ∧ x.keyName = .error .badName ∨ ∃ i < pre.length, env.spill i ≠ .written) ∧
  ((∀ x ∈ xs, x.Fits) →
    (∀ x ∈ xs, (x.ownPath env.keystore).length ≤ 511) ∨ ∃ i < xs.length, env.spill i ≠ .written)

def Restorable (env : RestoreEnv) (b : Bytes) : Prop :=
  let n := UInt32.ofNat b.length
  let cnt := (getU32 (b.drop 4)).1.toNat
  Marked b → StaysInside env b n cnt 0 8 ∧
    (AllCheck env b n cnt 0 8 → NamesFit env (bundleEntries b))

/-! ### The first pass on the entries -/

section FirstPass

variable {env : RestoreEnv} {b : Bytes} {n : UInt32}

theorem read32At_eq {o : UInt32} (h : o.toNat + 4 ≤ b.length) :
    read32At b o = some ((read32At b o).getD 0) := by
  unfold read32At
  rw [if_pos h]
  rfl

theorem toNat_add_le {o k : UInt32} (hO : o ≤ n) (hN : n ≤ 1048576) (hK : k.toNat ≤ 20000)
    (h : o + k ≤ n) : o.toNat + k.toNat ≤ n.toNat := by
  have hBig : n.toNat ≤ 1048576 := UInt32.le_iff_toNat_le.mp hN
  have hOn := UInt32.le_iff_toNat_le.mp hO
  have hSum := UInt32.le_iff_toNat_le.mp h
  rw [UInt32.toNat_add] at hSum
  omega

theorem data_le {o : UInt32} (hN : n ≤ 1048576) (hLen : dataAt b o ≤ n)
    (hEnd : dataAt b o + dataLen b o + 32 ≤ n) (hShort : dataLen b o ≤ 16384) :
    (dataAt b o).toNat + (dataLen b o).toNat + 32 ≤ n.toNat := by
  have hBig : n.toNat ≤ 1048576 := UInt32.le_iff_toNat_le.mp hN
  have hDl : (dataLen b o).toNat ≤ 16384 := UInt32.le_iff_toNat_le.mp hShort
  have hSum := UInt32.le_iff_toNat_le.mp hEnd
  have hAt := UInt32.le_iff_toNat_le.mp hLen
  rw [UInt32.toNat_add, UInt32.toNat_add] at hSum
  have h32 : UInt32.toNat 32 = 32 := rfl
  omega

theorem nextEntry_le {i : Nat} {o : UInt32} (h : EntryChecks env b n i o) : nextEntry b o ≤ n := by
  have hAssoc : nextEntry b o = dataAt b o + dataLen b o + 32 := (UInt32.add_assoc _ _ _).symm
  rw [hAssoc]
  exact h.2.2.1

theorem checkEntries_of_name {left i : Nat} {o : UInt32} (hName : o + 4 ≤ n)
    (hIn : o.toNat + 4 ≤ b.length) :
    checkEntries env b n (left + 1) i o =
      if dataAt b o > n then .error .truncated
      else match read32At b (dataLenAt b o) with
      | none => .error .undefined
      | some dl =>
        if dataAt b o + dl + 32 > n then .error .truncated
        else if dl > 16384 then .error .sm3Failed
        else if (dataAt b o).toNat + dl.toNat + 32 > b.length then .error .undefined
        else match env.sm3 i ((b.drop (dataAt b o).toNat).take dl.toNat) with
        | none => .error .sm3Failed
        | some dg =>
          if dg ≠ (b.drop ((dataAt b o).toNat + dl.toNat)).take 32 then .error (.mismatch i)
          else checkEntries env b n left (i + 1) (dataAt b o + (dl + 32)) := by
  rw [checkEntries, if_neg (UInt32.not_lt.mpr hName), read32At_eq hIn]
  rfl

theorem checkEntries_of_len {left i : Nat} {o : UInt32} (hName : o + 4 ≤ n)
    (hIn : o.toNat + 4 ≤ b.length) (hLen : dataAt b o ≤ n)
    (hStay : (dataLenAt b o).toNat + 4 ≤ b.length) :
    checkEntries env b n (left + 1) i o =
      if dataAt b o + dataLen b o + 32 > n then .error .truncated
      else if dataLen b o > 16384 then .error .sm3Failed
      else if (dataAt b o).toNat + (dataLen b o).toNat + 32 > b.length then .error .undefined
      else match env.sm3 i (entryData b o) with
      | none => .error .sm3Failed
      | some dg =>
        if dg ≠ entryDigest b o then .error (.mismatch i)
        else checkEntries env b n left (i + 1) (nextEntry b o) := by
  rw [checkEntries_of_name hName hIn, if_neg (UInt32.not_lt.mpr hLen), read32At_eq hStay]
  rfl

/-- One entry: it leads out of the bundle, or it checks and the others are looked at, or the run ends for
what it holds. -/
theorem checkEntries_succ {left i : Nat} {o : UInt32} (hN : n ≤ 1048576) (hB : n.toNat ≤ b.length)
    (hO : o ≤ n) :
    (o + 4 ≤ n ∧ dataAt b o ≤ n ∧ ¬(dataLenAt b o).toNat + 4 ≤ b.length ∧
      checkEntries env b n (left + 1) i o = .error .undefined) ∨
    ((o + 4 ≤ n → dataAt b o ≤ n → (dataLenAt b o).toNat + 4 ≤ b.length) ∧
      (EntryChecks env b n i o ∧
        checkEntries env b n (left + 1) i o = checkEntries env b n left (i + 1) (nextEntry b o) ∨
      ¬EntryChecks env b n i o ∧
        ∃ r, RestoreEnd.ByContents r ∧ checkEntries env b n (left + 1) i o = .error r)) := by
  have hTruncated : RestoreEnd.ByContents .truncated := ⟨nofun, nofun, nofun⟩
  have hSm3 : RestoreEnd.ByContents .sm3Failed := ⟨nofun, nofun, nofun⟩
  have hMismatch : RestoreEnd.ByContents (.mismatch i) := ⟨nofun, nofun, nofun⟩
  by_cases hName : o + 4 ≤ n
  · have hFirst := (toNat_add_le hO hN (by decide) hName).trans hB
    by_cases hLen : dataAt b o ≤ n
    · by_cases hStay : (dataLenAt b o).toNat + 4 ≤ b.length
      · refine .inr ⟨fun _ _ => hStay, ?_⟩
        rw [checkEntries_of_len hName hFirst hLen hStay]
        by_cases hEnd : dataAt b o + dataLen b o + 32 ≤ n
        · rw [if_neg (UInt32.not_lt.mpr hEnd)]
          by_cases hShort : dataLen b o ≤ 16384
          · have hDl : (dataLen b o).toNat ≤ 16384 := UInt32.le_iff_toNat_le.mp hShort
            have hData : (dataAt b o).toNat + (dataLen b o).toNat + 32 ≤ b.length :=
              (data_le hN hLen hEnd hShort).trans hB
            rw [if_neg (UInt32.not_lt.mpr hShort), if_neg (by omega)]
            split
            · rename_i hNone
              refine .inr ⟨fun h => ?_, _, hSm3, rfl⟩
              exact nomatch hNone.symm.trans h.2.2.2.2
            · rename_i dg hDg
              by_cases hSame : dg = entryDigest b o
              · rw [if_neg (not_not.mpr hSame)]
                exact .inl ⟨⟨hName, hLen, hEnd, hShort, by rw [hDg, hSame]⟩, rfl⟩
              · rw [if_pos hSame]
                refine .inr ⟨fun h => ?_, _, hMismatch, rfl⟩
                exact hSame (Option.some.inj (hDg.symm.trans h.2.2.2.2))
          · rw [if_pos (UInt32.not_le.mp hShort)]
            exact .inr ⟨fun h => hShort h.2.2.2.1, _, hSm3, rfl⟩
        · rw [if_pos (UInt32.not_le.mp hEnd)]
          exact .inr ⟨fun h => hEnd h.2.2.1, _, hTruncated, rfl⟩
      · refine .inl ⟨hName, hLen, hStay, ?_⟩
        rw [checkEntries_of_name hName hFirst, if_neg (UInt32.not_lt.mpr hLen)]
        rw [read32At, if_neg hStay]
    · refine .inr ⟨fun _ h => absurd h hLen, .inr ⟨fun h => hLen h.2.1, _, hTruncated, ?_⟩⟩
      rw [checkEntries_of_name hName hFirst, if_pos (UInt32.not_le.mp hLen)]
  · refine .inr ⟨fun h => absurd h hName, .inr ⟨fun h => hName h.1, .truncated, hTruncated, ?_⟩⟩
    rw [checkEntries, if_pos (UInt32.not_le.mp hName)]

/-- The first pass reads nothing that is not its own where the places stay inside, it lets through what
checks, and it refuses the rest for what it holds. -/
theorem checkEntries_spec {left i : Nat} {o : UInt32} (hN : n ≤ 1048576) (hB : n.toNat ≤ b.length)
    (hO : o ≤ n) :
    (¬StaysInside env b n left i o ∧ checkEntries env b n left i o = .error .undefined) ∨
    (StaysInside env b n left i o ∧
      (AllCheck env b n left i o ∧ checkEntries env b n left i o = .ok () ∨
      ¬AllCheck env b n left i o ∧
        ∃ r, RestoreEnd.ByContents r ∧ checkEntries env b n left i o = .error r)) := by
  induction left generalizing i o with
  | zero => exact .inr ⟨trivial, .inl ⟨trivial, rfl⟩⟩
  | succ left ih =>
    rcases @checkEntries_succ env b n left i o hN hB hO with
      ⟨hName, hLen, hOut, hRun⟩ | ⟨hIn, ⟨hCheck, hRun⟩ | ⟨hBad, r, hKind, hRun⟩⟩
    · exact .inl ⟨fun h => hOut (h.1 hName hLen), hRun⟩
    · rw [hRun]
      rcases @ih (i + 1) _ (nextEntry_le hCheck) with
        ⟨hOut, hRest⟩ | ⟨hStay, ⟨hAll, hRest⟩ | ⟨hSome, r, hKind, hRest⟩⟩
      · exact .inl ⟨fun h => hOut (h.2 hCheck), hRest⟩
      · exact .inr ⟨⟨hIn, fun _ => hStay⟩, .inl ⟨⟨hCheck, hAll⟩, hRest⟩⟩
      · exact .inr ⟨⟨hIn, fun _ => hStay⟩, .inr ⟨fun h => hSome h.2, r, hKind, hRest⟩⟩
    · exact .inr ⟨⟨hIn, fun h => absurd h hBad⟩, .inr ⟨fun h => hBad h.1, r, hKind, hRun⟩⟩

end FirstPass

/-! ### Good names -/

section Names

variable {x : BundleEntry} {base : Bytes}

theorem ne_zero_of_nameChar {c : UInt8} (h : nameChar c = true) : c ≠ 0 := by
  rintro rfl
  exact absurd h (by decide)

theorem keyName_ok {nl : UInt32} {name : Bytes} (h : keyName nl name = .ok base) :
    name = base ++ dotKey ∧ name.length = nl.toNat ∧ hsmNameOk base = true := by
  unfold keyName at h
  split at h
  · cases h
  · rename_i hLong
    split at h
    · cases h
    · split at h
      · cases h
      · rename_i hIn hEnds
        split at h
        · cases h
        · rename_i hChars
          cases h
          have hKey := not_not.mp hEnds
          have hLen := congrArg List.length hKey
          have hNl : ¬nl.toNat < 5 := fun hLt => hLong (UInt32.lt_iff_toNat_lt.mpr hLt)
          rw [List.length_drop] at hLen
          refine ⟨?_, ?_, by simpa using hChars⟩
          · rw [← hKey, List.take_append_drop]
          · simp only [dotKey, List.length_cons, List.length_nil] at hLen
            omega

theorem keyName_of_fits {nl : UInt32} {name : Bytes} (hName : name = base ++ dotKey)
    (hLen : name.length = nl.toNat) (hOk : hsmNameOk base = true) : keyName nl name = .ok base := by
  have hPos : 0 < base.length := by
    simp only [hsmNameOk, Bool.and_eq_true, Bool.not_eq_true', Bool.or_eq_false_iff,
      beq_eq_false_iff_ne] at hOk
    omega
  have hBase : nl.toNat - 4 = base.length := by
    rw [← hLen, hName, List.length_append]
    simp [dotKey]
  have hFive : ¬nl < 5 := by
    rw [UInt32.lt_iff_toNat_lt]
    show ¬nl.toNat < 5
    omega
  unfold keyName
  rw [if_neg hFive, hBase, hName]
  simp [hOk]

theorem printName_length {nl : UInt32} {rest name : Bytes} (h : printName nl rest = some name) :
    name.length ≤ 255 := by
  unfold printName at h
  dsimp only at h
  generalize (if nl.toNat < 2 ^ 31 then nl.toNat else rest.length + 1) = limit at h
  split at h
  · cases h
  · cases h
    exact List.length_take_le _ _

theorem printName_prefix {nl : UInt32} {rest name : Bytes} (h : printName nl rest = some name)
    (hShort : nl.toNat < 2 ^ 31) : name <+: rest.take nl.toNat := by
  unfold printName at h
  dsimp only at h
  rw [if_pos hShort] at h
  split at h
  · cases h
  · cases h
    exact (List.take_prefix _ _).trans (List.takeWhile_prefix _)

theorem BundleEntry.keyName_ok_iff : x.keyName = .ok base ↔
    x.name.length = x.nl.toNat ∧ x.name = base ++ dotKey ∧ hsmNameOk base = true := by
  constructor
  · intro h
    unfold BundleEntry.keyName at h
    split at h
    · cases h
    · rename_i name hPrint
      obtain ⟨hName, hLen, hOk⟩ := keyName_ok h
      have hShort : x.nl.toNat < 2 ^ 31 := by
        have hLe := printName_length hPrint
        omega
      have hPrefix := printName_prefix hPrint hShort
      have hWhole : name = x.name :=
        hPrefix.eq_of_length_le (by rw [hLen]; exact List.length_take_le _ _)
      subst hWhole
      exact ⟨hLen, hName, hOk⟩
  · rintro ⟨hLen, hName, hOk⟩
    have hChars : ∀ c ∈ x.name, (decide (c ≠ 0)) = true := by
      have hAll : base.all nameChar = true := (Bool.and_eq_true_iff.mp hOk).2
      intro c hc
      rw [hName] at hc
      rcases List.mem_append.mp hc with hBase | hDot
      · exact decide_eq_true (ne_zero_of_nameChar (List.all_eq_true.mp hAll c hBase))
      · simp only [dotKey, List.mem_cons, List.not_mem_nil, or_false] at hDot
        rcases hDot with rfl | rfl | rfl | rfl <;> decide
    have hSmall : x.nl.toNat ≤ 36 := by
      have hBase : base.length ≤ 32 := by
        simp only [hsmNameOk, Bool.and_eq_true, Bool.not_eq_true', Bool.or_eq_false_iff,
          decide_eq_false_iff_not] at hOk
        omega
      rw [← hLen, hName, List.length_append]
      simp only [dotKey, List.length_cons, List.length_nil]
      omega
    have hAll : (x.rest.take x.nl.toNat).takeWhile (· ≠ 0) = x.name :=
      List.takeWhile_eq_self_iff.mpr hChars
    have hPrint : printName x.nl x.rest = some x.name := by
      unfold printName
      rw [if_pos (show x.nl.toNat < 2 ^ 31 by omega)]
      dsimp only
      rw [hAll, if_neg (by omega), List.take_of_length_le (by omega)]
    unfold BundleEntry.keyName
    rw [hPrint]
    exact keyName_of_fits hName hLen hOk

theorem BundleEntry.fits_iff : x.Fits ↔ ∃ base, x.keyName = .ok base := by
  constructor
  · rintro ⟨hLen, base, hName, hOk⟩
    exact ⟨base, keyName_ok_iff.mpr ⟨hLen, hName, hOk⟩⟩
  · rintro ⟨base, hKey⟩
    obtain ⟨hLen, hName, hOk⟩ := keyName_ok_iff.mp hKey
    exact ⟨hLen, base, hName, hOk⟩

/-- A bad name is reported as such, or it was never printed. -/
theorem BundleEntry.keyName_error {r : RestoreEnd} (h : x.keyName = .error r) :
    r = .badName ∨ r = .undefined := by
  unfold BundleEntry.keyName at h
  split at h
  · cases h
    exact .inr rfl
  · unfold PqcHsm.keyName at h
    split at h
    · cases h
      exact .inl rfl
    · split at h
      · cases h
        exact .inr rfl
      · split at h
        · cases h
          exact .inl rfl
        · split at h
          · cases h
            exact .inl rfl
          · cases h

end Names

/-! ### The second pass on the entries -/

/-- The file that the second pass writes for an entry. -/
def BundleEntry.written (keystore : Bytes) (x : BundleEntry) : Bytes × Bytes :=
  ((x.ownPath keystore).take 511, x.data)

def runEntries (env : RestoreEnv) : Nat → List BundleEntry → RestoreEnd × Writes
  | _, [] => (.ok, [])
  | i, x :: xs => match x.keyName with
    | .error e => (e, [])
    | .ok base => match env.spill i with
      | .notOpened => (.writeFailed, [])
      | .cut k => (.writeFailed, [(keyPath env.keystore base, x.data.take k)])
      | .written =>
        let r := runEntries env (i + 1) xs
        (r.1, (keyPath env.keystore base, x.data) :: r.2)

/-- Behind the first pass the second one reads what the entries hold. -/
theorem writeEntries_eq {env : RestoreEnv} {b : Bytes} {n : UInt32} {left i : Nat} {o : UInt32}
    (hN : n ≤ 1048576) (hB : n.toNat ≤ b.length) (hO : o ≤ n)
    (hStay : StaysInside env b n left i o) (hAll : AllCheck env b n left i o) :
    writeEntries env b left i o = runEntries env i (entriesAt b left o) := by
  induction left generalizing i o with
  | zero => rfl
  | succ left ih =>
    obtain ⟨hCheck, hLater⟩ := hAll
    have hRest := @ih (i + 1) _ (nextEntry_le hCheck) (hStay.2 hCheck) hLater
    have hName : read32At b o = some ((read32At b o).getD 0) :=
      read32At_eq ((toNat_add_le hO hN (by decide) hCheck.1).trans hB)
    have hLen : read32At b (dataLenAt b o) = some (dataLen b o) :=
      read32At_eq (hStay.1 hCheck.1 hCheck.2.1)
    have hData : (dataAt b o).toNat + (dataLen b o).toNat + 32 ≤ b.length :=
      (data_le hN hCheck.2.1 hCheck.2.2.1 hCheck.2.2.2.1).trans hB
    have hAt : o + 4 + (read32At b o).getD 0 = dataLenAt b o := UInt32.add_assoc _ _ _
    rw [writeEntries, hName]
    dsimp only
    rw [hAt, hLen]
    unfold entriesAt runEntries BundleEntry.keyName
    dsimp only
    cases hPrint : printName ((read32At b o).getD 0) (b.drop (o + 4).toNat) with
    | none => rfl
    | some name =>
      dsimp only
      cases hKey : keyName ((read32At b o).getD 0) name with
      | error r => rfl
      | ok base =>
        dsimp only
        have hAt' : dataLenAt b o + 4 = dataAt b o := rfl
        rw [hAt', if_neg (by omega)]
        cases hSpill : env.spill i with
        | notOpened => rfl
        | cut k => rfl
        | written =>
          dsimp only
          rw [← hRest]
          rfl

section Run

variable {env : RestoreEnv} {b : Bytes}

/-- A list goes on behind another one, or it stops in the first. -/
theorem runEntries_append (i : Nat) (xs ys : List BundleEntry) :
    ((runEntries env i xs).1 = .ok ∧
      runEntries env i (xs ++ ys) = ((runEntries env (i + xs.length) ys).1,
        (runEntries env i xs).2 ++ (runEntries env (i + xs.length) ys).2)) ∨
    ((runEntries env i xs).1 ≠ .ok ∧ runEntries env i (xs ++ ys) = runEntries env i xs) := by
  induction xs generalizing i with
  | nil => exact .inl ⟨rfl, rfl⟩
  | cons x xs ih =>
    simp only [List.cons_append, runEntries]
    cases hKey : x.keyName with
    | error r =>
      refine .inr ⟨?_, rfl⟩
      rintro rfl
      rcases BundleEntry.keyName_error hKey with hEq | hEq <;> cases hEq
    | ok base =>
      cases hSpill : env.spill i with
      | notOpened => exact .inr ⟨nofun, rfl⟩
      | cut k => exact .inr ⟨nofun, rfl⟩
      | written =>
        dsimp only
        have hIndex : i + (xs.length + 1) = i + 1 + xs.length := by omega
        rw [List.length_cons, hIndex]
        rcases ih (i + 1) with ⟨hOk, hRun⟩ | ⟨hNot, hRun⟩
        · exact .inl ⟨hOk, by rw [hRun]; rfl⟩
        · exact .inr ⟨hNot, by rw [hRun]⟩

theorem keyPath_eq {x : BundleEntry} {base keystore : Bytes} (h : x.keyName = .ok base) :
    keyPath keystore base = (x.ownPath keystore).take 511 := by
  unfold keyPath BundleEntry.ownPath
  rw [(BundleEntry.keyName_ok_iff.mp h).2.1, List.append_assoc]

/-- Good names: every entry is written, or a file cannot be. -/
theorem runEntries_of_fits (i : Nat) {xs : List BundleEntry} (h : ∀ x ∈ xs, x.Fits) :
    ((∀ j < xs.length, env.spill (i + j) = .written) ∧
      runEntries env i xs = (.ok, xs.map fun x => x.written env.keystore)) ∨
    ((∃ j < xs.length, env.spill (i + j) ≠ .written) ∧ (runEntries env i xs).1 = .writeFailed) := by
  induction xs generalizing i with
  | nil => exact .inl ⟨nofun, rfl⟩
  | cons x xs ih =>
    obtain ⟨base, hKey⟩ := BundleEntry.fits_iff.mp (h x List.mem_cons_self)
    simp only [runEntries, hKey]
    cases hSpill : env.spill i with
    | notOpened => exact .inr ⟨⟨0, Nat.succ_pos _, fun hEq => nomatch hSpill.symm.trans hEq⟩, rfl⟩
    | cut k => exact .inr ⟨⟨0, Nat.succ_pos _, fun hEq => nomatch hSpill.symm.trans hEq⟩, rfl⟩
    | written =>
      rcases ih (i + 1) fun y hy => h y (List.mem_cons_of_mem _ hy) with
        ⟨hAll, hRun⟩ | ⟨⟨j, hLt, hNot⟩, hRun⟩
      · left
        constructor
        · rintro (_ | j) hLt
          · exact hSpill
          · have hRest := hAll j (Nat.lt_of_succ_lt_succ hLt)
            rwa [Nat.add_right_comm] at hRest
        · rw [hRun, keyPath_eq hKey]
          rfl
      · refine .inr ⟨⟨j + 1, Nat.succ_lt_succ hLt, ?_⟩, hRun⟩
        rwa [Nat.add_right_comm] at hNot

theorem fits_or_first_bad (xs : List BundleEntry) :
    (∀ x ∈ xs, x.Fits) ∨ ∃ pre x post, xs = pre ++ x :: post ∧ (∀ y ∈ pre, y.Fits) ∧ ¬x.Fits := by
  induction xs with
  | nil => exact .inl nofun
  | cons x xs ih =>
    by_cases hFits : x.Fits
    · rcases ih with hAll | ⟨pre, y, post, rfl, hPre, hBad⟩
      · exact .inl (List.forall_mem_cons.mpr ⟨hFits, hAll⟩)
      · exact .inr ⟨x :: pre, y, post, rfl, List.forall_mem_cons.mpr ⟨hFits, hPre⟩, hBad⟩
    · exact .inr ⟨[], x, xs, rfl, nofun, hFits⟩

/-- A bad name behind good ones: the files before it are written, or one of them cannot be. -/
theorem runEntries_of_bad {pre post : List BundleEntry} {x : BundleEntry} (h : ∀ y ∈ pre, y.Fits)
    (hBad : ¬x.Fits) :
    ((∀ j < pre.length, env.spill j = .written) ∧ ∃ r, x.keyName = .error r ∧
      runEntries env 0 (pre ++ x :: post) = (r, pre.map fun y => y.written env.keystore)) ∨
    ((∃ j < pre.length, env.spill j ≠ .written) ∧
      (runEntries env 0 (pre ++ x :: post)).1 = .writeFailed) := by
  have hGood := @runEntries_of_fits env 0 pre h
  simp only [Nat.zero_add] at hGood
  rcases @runEntries_append env 0 pre (x :: post) with ⟨hOk, hRun⟩ | ⟨hNot, hRun⟩
  · rcases hGood with ⟨hAll, hPre⟩ | ⟨-, hFailed⟩
    · refine .inl ⟨hAll, ?_⟩
      cases hKey : x.keyName with
      | ok base => exact absurd (BundleEntry.fits_iff.mpr ⟨base, hKey⟩) hBad
      | error r => exact ⟨r, rfl, by simp [hRun, hPre, runEntries, hKey]⟩
    · exact nomatch hOk.symm.trans hFailed
  · rcases hGood with ⟨-, hPre⟩ | ⟨hSome, hFailed⟩
    · exact absurd (congrArg Prod.fst hPre) hNot
    · exact .inr ⟨hSome, by rw [hRun, hFailed]⟩

theorem whole_of_byContents {keystore : Bytes} {xs : List BundleEntry} {r : RestoreEnd}
    (h : r.ByContents) : Whole keystore xs (r, []) :=
  ⟨h.2.2, fun _ => rfl, fun hOk => absurd hOk h.1⟩

theorem whole_of_writeFailed {keystore : Bytes} {xs : List BundleEntry} {r : RestoreEnd × Writes}
    (h : r.1 = .writeFailed) : Whole keystore xs r := by
  unfold Whole
  rw [h]
  exact ⟨nofun, fun hKind => absurd rfl hKind.2.1, nofun⟩

theorem written_eq_iff {keystore : Bytes} {xs : List BundleEntry} :
    (xs.map fun x => x.written keystore) = (xs.map fun x => (x.ownPath keystore, x.data)) ↔
      ∀ x ∈ xs, (x.ownPath keystore).length ≤ 511 := by
  rw [List.map_inj_left]
  refine forall₂_congr fun x _ => ?_
  unfold BundleEntry.written
  rw [Prod.mk.injEq, List.take_eq_self_iff]
  exact and_iff_left rfl

theorem runEntries_whole (xs : List BundleEntry) :
    Whole env.keystore xs (runEntries env 0 xs) ↔ NamesFit env xs := by
  have hBadName : RestoreEnd.ByContents .badName := ⟨nofun, nofun, nofun⟩
  constructor
  · rintro ⟨hInside, hNothing, hAll⟩
    constructor
    · rintro pre x post rfl hPre hBad
      rcases @runEntries_of_bad env pre post x hPre hBad with ⟨-, r, hKey, hRun⟩ | ⟨hSome, -⟩
      · rw [hRun] at hInside hNothing
        rcases BundleEntry.keyName_error hKey with rfl | rfl
        · exact .inl ⟨List.map_eq_nil_iff.mp (hNothing hBadName), hKey⟩
        · exact absurd rfl hInside
      · exact .inr hSome
    · intro hFits
      have hGood := @runEntries_of_fits env 0 xs hFits
      simp only [Nat.zero_add] at hGood
      rcases hGood with ⟨-, hRun⟩ | ⟨hSome, -⟩
      · rw [hRun] at hAll
        exact .inl (written_eq_iff.mp (hAll rfl))
      · exact .inr hSome
  · rintro ⟨hFirst, hPaths⟩
    rcases fits_or_first_bad xs with hFits | ⟨pre, x, post, rfl, hPre, hBad⟩
    · have hGood := @runEntries_of_fits env 0 xs hFits
      simp only [Nat.zero_add] at hGood
      rcases hGood with ⟨hAll, hRun⟩ | ⟨-, hRun⟩
      · rcases hPaths hFits with hShort | ⟨j, hLt, hNot⟩
        · rw [hRun]
          exact ⟨nofun, fun hKind => absurd rfl hKind.1, fun _ => written_eq_iff.mpr hShort⟩
        · exact absurd (hAll j hLt) hNot
      · exact whole_of_writeFailed hRun
    · rcases @runEntries_of_bad env pre post x hPre hBad with ⟨hAll, r, hKey, hRun⟩ | ⟨-, hRun⟩
      · rcases hFirst pre x post rfl hPre hBad with ⟨rfl, hName⟩ | ⟨j, hLt, hNot⟩
        · cases hKey.symm.trans hName
          rw [hRun]
          exact whole_of_byContents hBadName
        · exact absurd (hAll j hLt) hNot
      · exact whole_of_writeFailed hRun

theorem cRestore_of_not_marked (h : ¬Marked b) :
    ∃ r, RestoreEnd.ByContents r ∧ cRestore env b = (r, []) := by
  unfold cRestore
  dsimp only
  split
  · exact ⟨.tooLarge, ⟨nofun, nofun, nofun⟩, rfl⟩
  · rename_i hSize
    split
    · exact ⟨.notBundle, ⟨nofun, nofun, nofun⟩, rfl⟩
    · rename_i hMark
      rw [not_or, not_not] at hMark
      exact absurd ⟨UInt32.not_lt.mp hSize, UInt32.not_lt.mp hMark.1, hMark.2⟩ h

theorem cRestore_of_marked (h : Marked b) :
    cRestore env b =
      match checkEntries env b (UInt32.ofNat b.length) (getU32 (b.drop 4)).1.toNat 0 8 with
      | .error e => (e, [])
      | .ok () => writeEntries env b (getU32 (b.drop 4)).1.toNat 0 8 := by
  obtain ⟨hSize, hEight, hMark⟩ := h
  unfold cRestore
  dsimp only
  rw [if_neg (UInt32.not_lt.mpr hSize), if_neg]
  rw [not_or, not_not]
  exact ⟨UInt32.not_lt.mpr hEight, hMark⟩

/-- A device that answers with one digest, and files that can all be written. -/
def plainEnv : RestoreEnv where
  keystore := [107]
  sm3 _ _ := some (List.replicate 32 0)
  spill _ := .written

/-- `a.key` and `b.txt`, with the digests that the device computes. -/
def mixedBundle : Bytes :=
  [80, 81, 66, 49, 2, 0, 0, 0] ++
    ([5, 0, 0, 0, 97, 46, 107, 101, 121, 1, 0, 0, 0, 7] ++ List.replicate 32 0) ++
    ([5, 0, 0, 0, 98, 46, 116, 120, 116, 1, 0, 0, 0, 8] ++ List.replicate 32 0)

end Run

end PqcHsm
