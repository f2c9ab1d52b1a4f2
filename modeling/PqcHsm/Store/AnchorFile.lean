import PqcHsm.Library.JsonText
import PqcHsm.Store.LoadAtomic

/-!
# The file of the rollback anchor

The anchor of a key store is a decimal number in a file of its own. A read takes every failure for
a first boot. The counter of the key store model is the number that the file shows.
-/

namespace PqcHsm

open ByteCodec Sections JsonText

/-- What the calls of one read or one bump do. -/
structure AnchorIo where
  /-- `fopen` of the anchor file, if there is one. -/
  readOpens : Bool
  /-- The number of bytes that reach `fscanf`. -/
  readBytes : Nat
  /-- `fopen` of the temporary file. -/
  tmpOpens : Bool
  prints : Bool
  /-- The number of bytes that reach the temporary file; nobody looks at `fflush` and `fclose`. -/
  flushed : Nat
  renames : Bool
  removes : Bool

structure AnchorDisk where
  file : Option Bytes
  tmp : Option Bytes
  deriving DecidableEq

def isBlank (b : UInt8) : Bool := b = 32 || (9 ≤ b && b ≤ 13)

/-- `fscanf` with `%llu`: blanks, a sign, digits. A number that does not fit counts as the largest. -/
def scanU64 (text : Bytes) : Option UInt64 :=
  let body := text.dropWhile isBlank
  let minus := body.head? = some 45
  let signed := minus ∨ body.head? = some 43
  let digits := (if signed then body.tail else body).takeWhile isDigit
  if digits = [] then none
  else
    let v := digitsValue digits
    if 2 ^ 64 ≤ v then some (UInt64.ofNat (2 ^ 64 - 1))
    else some (if minus then 0 - UInt64.ofNat v else UInt64.ofNat v)

/-- What `fprintf` writes. -/
def epochText (v : UInt64) : Bytes := decimal v.toNat ++ [10]

/-- `file_read`. It never fails: a file that cannot be opened or scanned reads as 0. -/
def fileRead (io : AnchorIo) (disk : AnchorDisk) : Option UInt64 :=
  match disk.file with
  | none => some 0
  | some content =>
    if !io.readOpens then some 0
    else
      match scanU64 (content.take io.readBytes) with
      | none => some 0
      | some v => some v

/-- `file_write`. -/
def fileWrite (io : AnchorIo) (v : UInt64) (disk : AnchorDisk) : Bool × AnchorDisk :=
  if !io.tmpOpens then (false, disk)
  else
    let written := (epochText v).take io.flushed
    let removed := { disk with tmp := if io.removes then none else some written }
    if !io.prints then (false, removed)
    else if io.renames then (true, ⟨some written, none⟩)
    else (false, removed)

/-- `file_bump`. -/
def fileBump (io : AnchorIo) (disk : AnchorDisk) : Option UInt64 × AnchorDisk :=
  match fileRead io disk with
  | none => (none, disk)
  | some cur =>
    match fileWrite io (cur + 1) disk with
    | (true, disk) => (some (cur + 1), disk)
    | (false, disk) => (none, disk)

/-- The number that the file shows, 0 without a file or a number in it. -/
def AnchorDisk.value (disk : AnchorDisk) : UInt64 := (disk.file.bind scanU64).getD 0

theorem scanU64_decimal {n : Nat} (hn : n < 2 ^ 64) {r : Bytes} (hr : ∀ d ∈ r.head?, isDigit d = false) :
    scanU64 (decimal n ++ r) = some (UInt64.ofNat n) := by
  obtain ⟨d, ds, hEq, -⟩ := decimal_head n
  have hDigit : isDigit d = true := isDigit_decimal n d (hEq ▸ List.mem_cons_self)
  have hRange : 48 ≤ d.toNat ∧ d.toNat ≤ 57 := by
    simp only [isDigit, Bool.and_eq_true, decide_eq_true_eq] at hDigit
    exact ⟨hDigit.1, hDigit.2⟩
  have hNe : ∀ c : UInt8, c.toNat < 48 ∨ 57 < c.toNat → d ≠ c := by
    rintro c hc rfl
    omega
  have hBlank : isBlank d = false := by
    have hHigh : ¬ d ≤ 13 := by
      intro h
      have hNat : d.toNat ≤ 13 := h
      omega
    simp [isBlank, hNe 32 (by decide), hHigh]
  have hDrop : (decimal n ++ r).dropWhile isBlank = decimal n ++ r := by
    rw [hEq, List.cons_append, List.dropWhile_cons_of_neg (by simp [hBlank])]
  have hHead : (decimal n ++ r).head? = some d := by
    rw [hEq]
    rfl
  have hTake : (decimal n ++ r).takeWhile isDigit = decimal n := by
    have hRest : r.takeWhile isDigit = [] := by
      cases r with
      | nil => rfl
      | cons c r =>
        have hc := hr c rfl
        simp [hc]
    rw [List.takeWhile_append_of_pos (isDigit_decimal n), hRest, List.append_nil]
  have hCons : decimal n ≠ [] := by
    rw [hEq]
    exact List.cons_ne_nil d ds
  have hMinus : ¬ d = 45 := hNe 45 (by decide)
  have hPlus : ¬ d = 43 := hNe 43 (by decide)
  simp only [scanU64, hDrop, hHead, Option.some.injEq, hMinus, hPlus, or_self, if_false, hTake, hCons,
    digitsValue_decimal, Nat.not_le.mpr hn]

/-- The number is back as soon as its digits are on the disk. -/
theorem scanU64_epochText (v : UInt64) {k : Nat} (hk : (decimal v.toNat).length ≤ k) :
    scanU64 ((epochText v).take k) = some v := by
  have hLt : v.toNat < 2 ^ 64 := v.toNat_lt
  have hText : (epochText v).take k = decimal v.toNat ++ [10].take (k - (decimal v.toNat).length) := by
    rw [epochText, List.take_append, List.take_of_length_le hk]
  rw [hText, scanU64_decimal hLt, UInt64.ofNat_toNat]
  intro d hd
  cases hRest : k - (decimal v.toNat).length with
  | zero =>
    rw [hRest] at hd
    cases hd
  | succ j =>
    rw [hRest] at hd
    cases hd
    rfl

section Steps

variable {io : AnchorIo} {disk disk' : AnchorDisk}

/-- The file, if there is one, opens, is read to its end and holds a number. -/
def AnchorIo.Readable (io : AnchorIo) (disk : AnchorDisk) : Prop :=
  ∀ content, disk.file = some content →
    io.readOpens = true ∧ content.length ≤ io.readBytes ∧ (scanU64 content).isSome = true

/-- The counter has room, and a number that is put in place has reached the disk. -/
def AnchorIo.Writable (io : AnchorIo) (disk : AnchorDisk) : Prop :=
  disk.value.toNat + 1 < 2 ^ 64 ∧
    (io.tmpOpens = true → io.prints = true → io.renames = true →
      (decimal (disk.value + 1).toNat).length ≤ io.flushed)

theorem fileRead_of_readable (h : io.Readable disk) : fileRead io disk = some disk.value := by
  unfold fileRead AnchorDisk.value
  cases hFile : disk.file with
  | none => rfl
  | some content =>
    obtain ⟨hOpens, hLen, hSome⟩ := h content hFile
    obtain ⟨v, hScan⟩ := Option.isSome_iff_exists.mp hSome
    simp [hOpens, List.take_of_length_le hLen, hScan]

theorem fileWrite_cases (io : AnchorIo) (v : UInt64) (disk : AnchorDisk) :
    (fileWrite io v disk).1 = false ∧ (fileWrite io v disk).2.file = disk.file ∨
      io.tmpOpens = true ∧ io.prints = true ∧ io.renames = true ∧
        fileWrite io v disk = (true, ⟨some ((epochText v).take io.flushed), none⟩) := by
  unfold fileWrite
  cases hOpens : io.tmpOpens with
  | false => exact .inl ⟨rfl, rfl⟩
  | true =>
    cases hPrints : io.prints with
    | false => exact .inl ⟨rfl, rfl⟩
    | true =>
      cases hRenames : io.renames with
      | false => exact .inl ⟨rfl, rfl⟩
      | true => exact .inr ⟨rfl, rfl, rfl, rfl⟩

theorem value_congr (h : disk'.file = disk.file) : disk'.value = disk.value := by
  rw [AnchorDisk.value, AnchorDisk.value, h]

/-- A bump fails and leaves the number, or puts its successor in place. -/
theorem fileBump_cases (hRead : io.Readable disk) (hWrite : io.Writable disk) :
    (fileBump io disk).1 = none ∧ (fileBump io disk).2.file = disk.file ∨
      (fileBump io disk).1 = some (disk.value + 1) ∧ (fileBump io disk).2.value = disk.value + 1 := by
  simp only [fileBump, fileRead_of_readable hRead]
  rcases fileWrite_cases io (disk.value + 1) disk with ⟨hFails, hFile⟩ | ⟨hOpens, hPrints, hRenames, hEq⟩
  · left
    generalize fileWrite io (disk.value + 1) disk = r at hFails hFile
    obtain ⟨done, after⟩ := r
    cases hFails
    exact ⟨rfl, hFile⟩
  · right
    rw [hEq]
    refine ⟨rfl, ?_⟩
    simp only [AnchorDisk.value, Option.bind_some]
    rw [← AnchorDisk.value, scanU64_epochText _ (hWrite.2 hOpens hPrints hRenames)]
    rfl

end Steps

section Runs

inductive AnchorAct where
  | read (io : AnchorIo)
  | bump (io : AnchorIo)

/-- The disk, and the last value that a bump has returned. -/
structure AnchorHist where
  disk : AnchorDisk
  last : UInt64

namespace AnchorHist

def start (disk : AnchorDisk) : AnchorHist := ⟨disk, 0⟩

def next (h : AnchorHist) : AnchorAct → AnchorHist
  | .read _ => h
  | .bump io => ⟨(fileBump io h.disk).2, (fileBump io h.disk).1.getD h.last⟩

def run (h : AnchorHist) (acts : List AnchorAct) : AnchorHist := acts.foldl next h

/-- What an act needs of the file system. -/
def Allows (h : AnchorHist) : AnchorAct → Prop
  | .read io => io.Readable h.disk
  | .bump io => io.Readable h.disk ∧ io.Writable h.disk

/-- Every act of the run finds what it needs. -/
def AllowsAll : AnchorHist → List AnchorAct → Prop
  | _, [] => True
  | h, a :: acts => h.Allows a ∧ (h.next a).AllowsAll acts

theorem allowsAll_append {h : AnchorHist} {acts acts' : List AnchorAct} :
    h.AllowsAll (acts ++ acts') ↔ h.AllowsAll acts ∧ (h.run acts).AllowsAll acts' := by
  induction acts generalizing h with
  | nil => simp [AllowsAll, run]
  | cons a acts ih =>
    simp only [List.cons_append, AllowsAll, ih, and_assoc]
    rfl

/-- The number on the disk is at least the last one returned. -/
def Current (h : AnchorHist) : Prop := h.last.toNat ≤ h.disk.value.toNat

theorem next_grows {h : AnchorHist} {a : AnchorAct} (hAllows : h.Allows a) (hCurrent : h.Current) :
    h.disk.value.toNat ≤ (h.next a).disk.value.toNat ∧ (h.next a).Current := by
  cases a with
  | read io => exact ⟨le_refl _, hCurrent⟩
  | bump io =>
    obtain ⟨hRead, hWrite⟩ := hAllows
    have hRoom : (h.disk.value + 1).toNat = h.disk.value.toNat + 1 := by
      rw [UInt64.toNat_add, UInt64.toNat_one, Nat.mod_eq_of_lt hWrite.1]
    simp only [next, Current]
    rcases fileBump_cases hRead hWrite with ⟨hFails, hFile⟩ | ⟨hDone, hValue⟩
    · rw [hFails, value_congr hFile]
      exact ⟨le_refl _, hCurrent⟩
    · rw [hDone, hValue, hRoom]
      constructor
      · omega
      · rw [Option.getD_some, hRoom]

theorem run_grows {h : AnchorHist} {acts : List AnchorAct} (hAllows : h.AllowsAll acts)
    (hCurrent : h.Current) :
    h.disk.value.toNat ≤ (h.run acts).disk.value.toNat ∧ (h.run acts).Current := by
  induction acts generalizing h with
  | nil => exact ⟨le_refl _, hCurrent⟩
  | cons a acts ih =>
    obtain ⟨hFirst, hRest⟩ := hAllows
    obtain ⟨hGrows, hNext⟩ := next_grows hFirst hCurrent
    obtain ⟨hMore, hLast⟩ := ih hRest hNext
    exact ⟨hGrows.trans hMore, hLast⟩

end AnchorHist

end Runs

section Load

variable {n : Nat} {S : Setup} {d : Device n} {env : Nat → Env}

/-- A provider that reports a failure keeps the key store closed. -/
theorem run_hsmKeystoreLoad_unread (h : anchorSeen S (env 2) d.fs = none) :
    ((hsmKeystoreLoad S).run env d).1 ≠ .ok ∧ ((hsmKeystoreLoad S).run env d).2.1 = d := by
  have hErr : ((readFile : DevProg n _).run env d).1 ≠ .error .ok := by
    simp only [readFile, fileSection, Prog.run_atomic]
    cases d.fs.file with
    | none => simp
    | some buf =>
      dsimp only
      repeat' split
      all_goals simp
  have hRest : (readFile : DevProg n _).run env d =
      (((readFile : DevProg n _).run env d).1, d, fun k => env (k + 1)) := rfl
  simp only [hsmKeystoreLoad, Prog.bind_eq_bind, Prog.run_bind]
  rw [hRest]
  generalize ((readFile : DevProg n _).run env d).1 = r at hErr
  cases r with
  | error st => exact ⟨fun hOk => hErr (congrArg Except.error hOk), rfl⟩
  | ok buf =>
    simp only []
    cases keystoreParse n buf with
    | none => exact ⟨HsmStatus.noConfusion, rfl⟩
    | some parts =>
      simp only [Prog.run_bind, Prog.run_ask, rbanchorRead, fileSection]
      by_cases hKeys : (env 1).cryptoOk = true
      · by_cases hAuthentic : parts.authentic S.crypto = true
        · simp only [hKeys, hAuthentic, Bool.not_true, Bool.false_eq_true, if_false, Prog.run_bind,
            Prog.run_atomic, h]
          exact ⟨HsmStatus.noConfusion, rfl⟩
        · simp only [hKeys, hAuthentic, Bool.not_true, Bool.false_eq_true, Bool.not_false, if_false, if_true]
          exact ⟨HsmStatus.noConfusion, rfl⟩
      · simp only [hKeys, Bool.not_false, if_true]
        exact ⟨HsmStatus.noConfusion, rfl⟩

end Load

section Refinement

variable {n : Nat} {S : Setup} {d : Device n} {env : Nat → Env} {io : AnchorIo} {disk : AnchorDisk}

/-- The calls of a bump come out as in the sections of the key store model, where a file is read whole
and a text reaches the disk whole or not at all. -/
structure AnchorIo.Matches (io : AnchorIo) (disk : AnchorDisk) (env : Nat → Env) : Prop where
  readOpens : io.readOpens = (env 0).ioOk
  readBytes : ∀ content, disk.file = some content → content.length ≤ io.readBytes
  tmpOpens : io.tmpOpens = (env 1).ioOk
  prints : io.prints = (env 2).allocOk
  flushed : if (env 2).ioOk then ∀ v : UInt64, (decimal v.toNat).length ≤ io.flushed else io.flushed = 0
  renames : io.renames = (env 4).ioOk

theorem fileRead_matches (hProvider : S.anchorProvider = .file) (hValue : d.fs.anchor = disk.value)
    (hIo : io.Matches disk env) : fileRead io disk = anchorSeen S (env 0) d.fs := by
  simp only [anchorSeen, hProvider, hValue, fileRead, AnchorDisk.value, ← hIo.readOpens]
  cases hFile : disk.file with
  | none => cases io.readOpens <;> rfl
  | some content =>
    simp only [List.take_of_length_le (hIo.readBytes content hFile)]
    cases io.readOpens with
    | false => rfl
    | true =>
      simp only [Bool.not_true, Bool.false_eq_true, if_false, if_true, Option.bind_some]
      cases scanU64 content <;> rfl

/-- The counter of the key store model is the number that the file shows. -/
theorem run_anchorFileBump (hProvider : S.anchorProvider = .file) (hValue : d.fs.anchor = disk.value)
    (hIo : io.Matches disk env) :
    ((anchorFileBump S).run env d).1 = (fileBump io disk).1 ∧
      ((anchorFileBump S).run env d).2.1.fs.anchor = (fileBump io disk).2.value := by
  have hSeen := fileRead_matches hProvider hValue hIo
  obtain ⟨cur, hCur⟩ : ∃ cur, fileRead io disk = some cur := by
    rw [hSeen, anchorSeen, hProvider]
    exact ⟨_, rfl⟩
  rw [hCur] at hSeen
  have hWritten : ((if (env 2).ioOk then cur + 1 else 0 : UInt64)) =
      AnchorDisk.value ⟨some ((epochText (cur + 1)).take io.flushed), none⟩ := by
    have hFlushed := hIo.flushed
    cases hOk : (env 2).ioOk with
    | false =>
      rw [hOk, if_neg Bool.false_ne_true] at hFlushed
      rw [hFlushed]
      rfl
    | true =>
      rw [hOk, if_pos rfl] at hFlushed
      simp only [AnchorDisk.value, Option.bind_some, scanU64_epochText _ (hFlushed (cur + 1))]
      rfl
  simp only [fileBump, hCur, fileWrite, hIo.tmpOpens, hIo.prints, hIo.renames]
  cases hTmp : (env 1).ioOk with
  | false =>
    simp [anchorFileBump, rbanchorRead, anchorFileWrite, openAnchorTmp, fileSection, ← hSeen, hTmp, hValue]
  | true =>
    cases hPrints : (env 2).allocOk with
    | false =>
      cases hRemoves : (env 3).ioOk <;>
        simp [anchorFileBump, rbanchorRead, anchorFileWrite, openAnchorTmp, writeAnchorTmp, removeAnchorTmp,
          fileSection, ← hSeen, hTmp, hPrints, hRemoves, hValue, AnchorDisk.value]
    | true =>
      cases hRenames : (env 4).ioOk with
      | false =>
        cases hFlushed : (env 2).ioOk <;> cases hRemoves : (env 5).ioOk <;>
          simp [anchorFileBump, rbanchorRead, anchorFileWrite, openAnchorTmp, writeAnchorTmp, fsyncAnchorTmp,
            renameAnchorTmp, removeAnchorTmp, fileSection, ← hSeen, hTmp, hPrints, hRenames, hFlushed,
            hRemoves, hValue, AnchorDisk.value]
      | true =>
        cases hFlushed : (env 2).ioOk <;>
          simp [anchorFileBump, rbanchorRead, anchorFileWrite, openAnchorTmp, writeAnchorTmp, fsyncAnchorTmp,
            renameAnchorTmp, removeAnchorTmp, fileSection, ← hSeen, hTmp, hPrints, hRenames, ← hWritten,
            hFlushed]

end Refinement

/-- The anchor fails closed where every act finds what it needs: the file, if there is one, opens, is
read to its end and holds a number, and what a bump puts in place has reached the disk. -/
theorem anchor_fails_closed (disk : AnchorDisk) {acts : List AnchorAct}
    (hAllows : (AnchorHist.start disk).AllowsAll acts) :
    (∀ past rest, acts = past ++ rest → ((AnchorHist.start disk).run past).disk.value.toNat ≤
      ((AnchorHist.start disk).run acts).disk.value.toNat) ∧
    (∀ io, io.Readable ((AnchorHist.start disk).run acts).disk →
      ∃ v, fileRead io ((AnchorHist.start disk).run acts).disk = some v ∧
        ((AnchorHist.start disk).run acts).last.toNat ≤ v.toNat) ∧
    ∀ n (S : Setup) (d : Device n) env, anchorSeen S (env 2) d.fs = none →
      ((hsmKeystoreLoad S).run env d).1 ≠ .ok ∧ ((hsmKeystoreLoad S).run env d).2.1 = d := by
  have hStart : (AnchorHist.start disk).Current := Nat.zero_le _
  refine ⟨?_, ?_, fun n S d env => run_hsmKeystoreLoad_unread⟩
  · rintro past rest rfl
    obtain ⟨hPast, hRest⟩ := AnchorHist.allowsAll_append.mp hAllows
    have hCurrent := (AnchorHist.run_grows hPast hStart).2
    have hGrows := (AnchorHist.run_grows hRest hCurrent).1
    have hSplit : (AnchorHist.start disk).run (past ++ rest) =
        ((AnchorHist.start disk).run past).run rest := List.foldl_append
    rw [hSplit]
    exact hGrows
  · intro io hReadable
    exact ⟨_, fileRead_of_readable hReadable, (AnchorHist.run_grows hAllows hStart).2⟩

section Concrete

/-- Every call succeeds. -/
def AnchorIo.sound : AnchorIo := ⟨true, 64, true, true, 64, true, true⟩

/-- Two bumps after a first boot. -/
def bumpedTwice : AnchorHist := (AnchorHist.start ⟨none, none⟩).run [.bump .sound, .bump .sound]

/-- The anchor file cannot be opened for reading. -/
def AnchorIo.unreadable : AnchorIo := { AnchorIo.sound with readOpens := false }

theorem epochText_one : epochText 1 = [49, 10] := by
  simp [epochText, decimal]

theorem bumpedOnce_eq : (AnchorHist.start ⟨none, none⟩).next (.bump .sound) = ⟨⟨some [49, 10], none⟩, 1⟩ := by
  simp [AnchorHist.next, AnchorHist.start, fileBump, fileRead, fileWrite, AnchorIo.sound, epochText_one]

theorem bumpedTwice_eq : bumpedTwice = ⟨⟨some [50, 10], none⟩, 2⟩ := by
  have hScan : scanU64 [49, 10] = some 1 := by decide
  have hText : epochText 2 = [50, 10] := by simp [epochText, decimal]
  rw [bumpedTwice, AnchorHist.run, List.foldl_cons, bumpedOnce_eq]
  simp [AnchorHist.next, fileBump, fileRead, fileWrite, AnchorIo.sound, hScan, hText]

/-- The anchor is kept in its file. -/
def fileAnchored : Setup := { Setup.clear with anchorProvider := .file }

/-- An older key store file lies in place of the current one. -/
def replayedDevice : Device 1 :=
  let save := fun (d : Device 1) => ((hsmKeystoreSave fileAnchored).run (fun _ => .calm 7) d).2.1
  let first := save ⟨hsmTokenNew fileAnchored.crypto 1 true, fun _ _ => none, ⟨none, none, 0, none⟩⟩
  let second := save first
  { second with fs := { second.fs with file := first.fs.file } }

/-- The section that reads the anchor cannot open its file. -/
def anchorUnreadable (k : Nat) : Env := { Env.calm 7 with ioOk := k ≠ 2 }

/-- A file that cannot be opened, or holds no number, reads as 0; a bump on top of it lowers the
number; and a load then takes the older key store that it refuses otherwise. -/
theorem unreadable_anchor_fails_open :
    bumpedTwice.last = 2 ∧ bumpedTwice.disk.value = 2 ∧
    fileRead .unreadable bumpedTwice.disk = some 0 ∧ fileRead .sound ⟨some [120], none⟩ = some 0 ∧
    (bumpedTwice.next (.bump .unreadable)).disk.value = 1 ∧
    ((hsmKeystoreLoad fileAnchored).run (fun _ => .calm 7) replayedDevice).1 = .errIntegrity ∧
    ((hsmKeystoreLoad fileAnchored).run anchorUnreadable replayedDevice).1 = .ok := by
  have hLowered : (fileBump .unreadable ⟨some [50, 10], none⟩).2 = ⟨some [49, 10], none⟩ := by
    simp [fileBump, fileRead, fileWrite, AnchorIo.unreadable, AnchorIo.sound, epochText_one]
  rw [bumpedTwice_eq]
  refine ⟨rfl, by decide, rfl, by decide, ?_, ?_, ?_⟩
  · simp only [AnchorHist.next, hLowered]
    decide
  · decide +kernel
  · decide +kernel

/-- Two bumps from a first boot. -/
theorem anchor_counts_from_first_boot :
    ∃ v, fileRead .sound bumpedTwice.disk = some v ∧ bumpedTwice.last.toNat ≤ v.toNat := by
  have hAllows : (AnchorHist.start ⟨none, none⟩).AllowsAll [.bump .sound, .bump .sound] := by
    refine ⟨⟨?_, ?_⟩, ?_, trivial⟩
    · rintro content hFile
      cases hFile
    · exact ⟨by decide, fun _ _ _ => by simp [AnchorDisk.value, AnchorHist.start, decimal, AnchorIo.sound]⟩
    · rw [bumpedOnce_eq]
      have hValue : AnchorDisk.value ⟨some [49, 10], none⟩ = 1 := by decide
      refine ⟨?_, ?_⟩
      · rintro content hFile
        cases hFile
        decide
      · simp [AnchorIo.Writable, hValue, decimal, AnchorIo.sound]
  refine (anchor_fails_closed ⟨none, none⟩ hAllows).2.1 .sound ?_
  have hDisk : ((AnchorHist.start ⟨none, none⟩).run [.bump .sound, .bump .sound]).disk =
      ⟨some [50, 10], none⟩ := congrArg AnchorHist.disk bumpedTwice_eq
  rw [hDisk]
  rintro content hFile
  cases hFile
  decide

end Concrete

end PqcHsm
