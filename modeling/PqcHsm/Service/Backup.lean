import Mathlib.Algebra.GroupWithZero.Nat
import PqcHsm.Service.KeyFile
import PqcHsm.Service.RestoreInside

/-!
# Backing up a key store

A bundle is built in a buffer of fixed size, one entry for each key that the listing of the key store
reports. Restored into an empty directory it gives the same keys.
-/

namespace PqcHsm

open ByteCodec

/-- A directory in the order in which it is listed, and the files by their paths. -/
structure KeyDir where
  path : Bytes
  entries : List Bytes
  disk : KeyDisk
  unique : entries.Nodup

/-- `hsm_key_list`: the names of the keys with the files that they were loaded from. -/
def KeyDir.key (dir : KeyDir) (e : Bytes) : Option (Bytes × Bytes) :=
  let l := e.length
  if l < 5 ∨ 36 < l ∨ e.drop (l - 4) ≠ dotKey then none
  else
    let name := e.take (l - 4)
    let file := dir.disk (keyPath dir.path name)
    match keyLoad name file with
    | .error _ => none
    | .ok _ => file.map (name, ·)

def KeyDir.keys (dir : KeyDir) : List (Bytes × Bytes) := dir.entries.filterMap dir.key

/-- The size of the buffer for the bundle. -/
def BUNDLE_MAX : Nat := 1048576

inductive BackupEnd where
  | ok (bundle : Bytes)
  | empty
  | tooLarge
  | sm3Failed
  | spillFailed
  /-- The bundle is written beyond its buffer. -/
  | overrun
  deriving DecidableEq

/-- The digest that the device computes, for which entries it answers, and whether the bundle is
written. -/
structure BackupEnv where
  digest : Bytes → ByteVec 32
  answers : Nat → Bool
  spills : Bool

/-- The bytes of an entry. -/
def bundleEntry (name d : Bytes) (dg : ByteVec 32) : Bytes :=
  putU32 (UInt32.ofNat (name.length + 4)) ++ (name ++ dotKey ++
    (putU32 (UInt32.ofNat d.length) ++ (d ++ dg.toList)))

/-- `backup_cb` for one key after the other; `out` is what lies behind the count in the buffer. -/
def addEntries (env : BackupEnv) : Nat → List (Bytes × Bytes) → Bytes → Except BackupEnd Bytes
  | _, [], out => .ok out
  | i, (name, d) :: rest, out =>
    if 8192 < d.length then .error .tooLarge
    else if !env.answers i then .error .sm3Failed
    else
      let e := bundleEntry name d (env.digest d)
      if BUNDLE_MAX < 8 + (out ++ e).length then .error .overrun
      else addEntries env (i + 1) rest (out ++ e)

/-- `c_backup` -/
def cBackup (env : BackupEnv) (dir : KeyDir) : BackupEnd :=
  match addEntries env 0 dir.keys [] with
  | .error e => e
  | .ok out =>
    if dir.keys = [] then .empty
    else if env.spills then
      .ok ([80, 81, 66, 49] ++ (putU32 (UInt32.ofNat dir.keys.length) ++ out))
    else .spillFailed

/-- The files of a directory that was empty before. -/
def filesAfter (ws : Writes) : KeyDisk :=
  ws.foldl (fun disk w => Function.update disk w.1 (some w.2)) fun _ => none

/-- The device answers, the files are written, and the path of the directory leaves room for the names
of keys in the buffer for a path. -/
structure RestoreEnv.Ready (H : Bytes → ByteVec 32) (renv : RestoreEnv) : Prop where
  sm3 : ∀ i d, renv.sm3 i d = some (H d).toList
  spill : ∀ i, renv.spill i = .written
  path : renv.keystore.length + 37 ≤ 511

/-- The bundle stays in its buffer, and what is written of it restores to the same names and files. -/
def BacksUp (env : BackupEnv) (dir : KeyDir) : Prop :=
  cBackup env dir ≠ .overrun ∧
    ∀ bundle, cBackup env dir = .ok bundle → ∀ renv : RestoreEnv, renv.Ready env.digest →
      (cRestore renv bundle).1 = .ok ∧
        ∀ p d, filesAfter (cRestore renv bundle).2 p = some d ↔
          ∃ name, (name, d) ∈ dir.keys ∧ p = keyPath renv.keystore name

/-- The room that an entry takes. -/
def entryRoom (x : Bytes × Bytes) : Nat := 44 + x.1.length + x.2.length

def bundleRoom (xs : List (Bytes × Bytes)) : Nat := (xs.map entryRoom).sum

/-- As long as the device answers, the entries fit. -/
def EntriesFit (env : BackupEnv) (dir : KeyDir) : Prop :=
  ∀ pre post, dir.keys = pre ++ post → (∀ i < pre.length, env.answers i = true) →
    8 + bundleRoom pre ≤ BUNDLE_MAX

/-! ### Building -/

section Building

variable {env : BackupEnv} {dir : KeyDir}

theorem mem_keys {name d : Bytes} (h : (name, d) ∈ dir.keys) :
    hsmNameOk name = true ∧ (∃ k : KeyRecord, d = keyFile k) ∧
      dir.disk (keyPath dir.path name) = some d ∧ name ++ dotKey ∈ dir.entries := by
  obtain ⟨e, he, hKey⟩ := List.mem_filterMap.mp h
  simp only [KeyDir.key] at hKey
  split at hKey
  · cases hKey
  rename_i hShape
  cases hFile : dir.disk (keyPath dir.path (e.take (e.length - 4))) with
  | none =>
    rw [hFile] at hKey
    split at hKey <;> cases hKey
  | some f =>
    cases hLoad : keyLoad (e.take (e.length - 4)) (some f) with
    | error r =>
      rw [hFile, hLoad] at hKey
      cases hKey
    | ok k =>
      rw [hFile, hLoad] at hKey
      obtain ⟨hName, hImage⟩ := keyLoad_ok_iff.mp hLoad
      obtain ⟨rfl, rfl⟩ := Prod.mk.inj (Option.some.inj hKey)
      refine ⟨hName, ⟨k, hImage⟩, hFile, ?_⟩
      have hEnds : e.drop (e.length - 4) = dotKey := by
        by_contra hNe
        exact hShape (.inr (.inr hNe))
      rwa [← hEnds, List.take_append_drop]

theorem length_name {name : Bytes} (h : hsmNameOk name = true) : name.length ≤ 32 := by
  simp only [hsmNameOk, Bool.and_eq_true, Bool.not_eq_true', Bool.or_eq_false_iff,
    decide_eq_false_iff_not] at h
  exact Nat.le_of_not_lt h.1.2

theorem length_bundleEntry (x : Bytes × Bytes) (dg : ByteVec 32) :
    (bundleEntry x.1 x.2 dg).length = entryRoom x := by
  simp only [bundleEntry, entryRoom, dotKey, List.length_append, length_putU32, List.length_cons,
    List.length_nil, List.Vector.toList_length]
  omega

/-- A key that the listing reports has a short name and a short file. -/
theorem short_keys {x : Bytes × Bytes} (h : x ∈ dir.keys) :
    x.1.length ≤ 32 ∧ x.2.length ≤ 2868 := by
  obtain ⟨hName, ⟨k, hImage⟩, -, -⟩ := mem_keys h
  rw [hImage]
  exact ⟨length_name hName, length_keyFile_le k⟩

def bundleBody (env : BackupEnv) (xs : List (Bytes × Bytes)) : Bytes :=
  xs.flatMap fun x => bundleEntry x.1 x.2 (env.digest x.2)

theorem addEntries_cons {i : Nat} {x : Bytes × Bytes} {xs : List (Bytes × Bytes)} {out : Bytes}
    (hShort : x.2.length ≤ 2868) :
    addEntries env i (x :: xs) out =
      if !env.answers i then .error .sm3Failed
      else if BUNDLE_MAX < 8 + out.length + entryRoom x then .error .overrun
      else addEntries env (i + 1) xs (out ++ bundleEntry x.1 x.2 (env.digest x.2)) := by
  rw [addEntries, if_neg (by omega)]
  simp only [List.length_append, length_bundleEntry, ← Nat.add_assoc]

/-- What has been written when no entry was refused. -/
theorem addEntries_ok {i : Nat} {xs : List (Bytes × Bytes)} {out out' : Bytes}
    (hShort : ∀ x ∈ xs, x.2.length ≤ 2868) (hRoom : 8 + out.length ≤ BUNDLE_MAX)
    (h : addEntries env i xs out = .ok out') :
    out' = out ++ bundleBody env xs ∧ 8 + out'.length ≤ BUNDLE_MAX := by
  induction xs generalizing i out with
  | nil =>
    obtain rfl : out = out' := Except.ok.inj h
    exact ⟨(List.append_nil _).symm, hRoom⟩
  | cons x xs ih =>
    rw [addEntries_cons (hShort x List.mem_cons_self)] at h
    split at h
    · cases h
    · split at h
      · cases h
      · rename_i hFits
        have hRoom' : 8 + (out ++ bundleEntry x.1 x.2 (env.digest x.2)).length ≤ BUNDLE_MAX := by
          rw [List.length_append, length_bundleEntry]
          omega
        obtain ⟨rfl, hEnd⟩ := ih (fun y hy => hShort y (List.mem_cons_of_mem x hy)) hRoom' h
        refine ⟨?_, hEnd⟩
        rw [List.append_assoc]
        rfl

/-- The buffer is overrun where the first entries, for all of which the device answers, do not fit. -/
theorem addEntries_overrun {i : Nat} {xs : List (Bytes × Bytes)} {out : Bytes}
    (hShort : ∀ x ∈ xs, x.2.length ≤ 2868) (hRoom : 8 + out.length ≤ BUNDLE_MAX) :
    addEntries env i xs out = .error .overrun ↔
      ∃ pre post, xs = pre ++ post ∧ (∀ j < pre.length, env.answers (i + j) = true) ∧
        BUNDLE_MAX < 8 + out.length + bundleRoom pre := by
  induction xs generalizing i out with
  | nil =>
    constructor
    · intro h
      cases h
    · rintro ⟨pre, post, hSplit, -, hOver⟩
      obtain ⟨rfl, -⟩ := List.append_eq_nil_iff.mp hSplit.symm
      change BUNDLE_MAX < 8 + out.length + 0 at hOver
      omega
  | cons x xs ih =>
    rw [addEntries_cons (hShort x List.mem_cons_self)]
    cases hAnswer : env.answers i with
    | false =>
      rw [if_pos (by simp)]
      constructor
      · intro h
        cases h
      · rintro ⟨_ | ⟨y, pre⟩, post, hSplit, hAll, hOver⟩
        · change BUNDLE_MAX < 8 + out.length + 0 at hOver
          omega
        · have hFirst := hAll 0 (Nat.succ_pos _)
          rw [Nat.add_zero, hAnswer] at hFirst
          cases hFirst
    | true =>
      rw [if_neg (by simp)]
      by_cases hOver : BUNDLE_MAX < 8 + out.length + entryRoom x
      · rw [if_pos hOver]
        refine ⟨fun _ => ⟨[x], xs, rfl, ?_, by simpa [bundleRoom] using hOver⟩, fun _ => rfl⟩
        intro j hj
        obtain rfl : j = 0 := by simpa using hj
        exact hAnswer
      · have hRoom' : 8 + (out ++ bundleEntry x.1 x.2 (env.digest x.2)).length ≤ BUNDLE_MAX := by
          rw [List.length_append, length_bundleEntry]
          omega
        rw [if_neg hOver, ih (fun y hy => hShort y (List.mem_cons_of_mem x hy)) hRoom',
          List.length_append, length_bundleEntry]
        constructor
        · rintro ⟨pre, post, rfl, hAll, hMore⟩
          refine ⟨x :: pre, post, rfl, ?_, ?_⟩
          · rintro (_ | j) hj
            · exact hAnswer
            · have hNext := hAll j (Nat.lt_of_succ_lt_succ hj)
              rwa [Nat.add_right_comm] at hNext
          · change BUNDLE_MAX < 8 + out.length + (entryRoom x + bundleRoom pre)
            omega
        · rintro ⟨_ | ⟨y, pre⟩, post, hSplit, hAll, hMore⟩
          · change BUNDLE_MAX < 8 + out.length + 0 at hMore
            omega
          · obtain ⟨rfl, rfl⟩ := List.cons.inj hSplit
            refine ⟨pre, post, rfl, ?_, ?_⟩
            · intro j hj
              have hNext := hAll (j + 1) (Nat.succ_lt_succ hj)
              rwa [← Nat.add_assoc, Nat.add_right_comm] at hNext
            · change BUNDLE_MAX < 8 + out.length + (entryRoom x + bundleRoom pre) at hMore
              omega

theorem cBackup_overrun : cBackup env dir ≠ .overrun ↔ EntriesFit env dir := by
  have hShort : ∀ x ∈ dir.keys, x.2.length ≤ 2868 := fun x hx => (short_keys hx).2
  have hOver := @addEntries_overrun env 0 dir.keys [] hShort (by decide)
  have hEnd : cBackup env dir = .overrun ↔ addEntries env 0 dir.keys [] = .error .overrun := by
    rw [cBackup]
    cases addEntries env 0 dir.keys [] with
    | error e => simp
    | ok out =>
      dsimp only
      split
      · simp
      · split <;> simp
  rw [Ne, hEnd, hOver, EntriesFit]
  constructor
  · intro h pre post hSplit hAll
    by_contra hMore
    refine h ⟨pre, post, hSplit, fun j hj => ?_, ?_⟩
    · rw [Nat.zero_add]
      exact hAll j hj
    · change BUNDLE_MAX < 8 + 0 + bundleRoom pre
      omega
  · rintro h ⟨pre, post, hSplit, hAll, hMore⟩
    have hFits := h pre post hSplit fun j hj => by
      have hj' := hAll j hj
      rwa [Nat.zero_add] at hj'
    change BUNDLE_MAX < 8 + 0 + bundleRoom pre at hMore
    omega

end Building

/-! ### Reading it back -/

section Entry

variable {b more : Bytes} {o : UInt32} {x : Bytes × Bytes} {dg : ByteVec 32}

theorem entry_inside (hAt : b.drop o.toNat = bundleEntry x.1 x.2 dg ++ more) :
    o.toNat + entryRoom x ≤ b.length := by
  have hLen := congrArg List.length hAt
  have hRoom : 44 ≤ entryRoom x := by
    rw [entryRoom]
    omega
  rw [List.length_drop, List.length_append, length_bundleEntry] at hLen
  omega

theorem drop_further {p rest : Bytes} {j k : Nat} (hAt : b.drop j = p ++ rest)
    (hk : j + p.length = k) : b.drop k = rest := by
  rw [← hk, ← List.drop_drop, hAt, List.drop_left]

theorem read32At_put {v : UInt32} {rest : Bytes} (hAt : b.drop o.toNat = putU32 v ++ rest)
    (hIn : o.toNat + 4 ≤ b.length) : (read32At b o).getD 0 = v := by
  rw [read32At, if_pos hIn, hAt, getU32_putU32]
  rfl

/-- The places of an entry that lies at an offset. -/
theorem entry_places (hB : b.length ≤ BUNDLE_MAX) (hName : x.1.length ≤ 32) (hData : x.2.length ≤ 2868)
    (hAt : b.drop o.toNat = bundleEntry x.1 x.2 dg ++ more) :
    (read32At b o).getD 0 = UInt32.ofNat (x.1.length + 4) ∧
      b.drop (o + 4).toNat = x.1 ++ dotKey ++ (putU32 (UInt32.ofNat x.2.length) ++
        (x.2 ++ dg.toList) ++ more) ∧
      (dataLenAt b o).toNat = o.toNat + x.1.length + 8 ∧
      (dataAt b o).toNat = o.toNat + x.1.length + 12 ∧
      dataLen b o = UInt32.ofNat x.2.length ∧
      entryData b o = x.2 ∧ entryDigest b o = dg.toList ∧
      (nextEntry b o).toNat = o.toNat + entryRoom x ∧ b.drop (nextEntry b o).toNat = more := by
  have hIn := entry_inside hAt
  have hMax : b.length ≤ 1048576 := hB
  rw [entryRoom] at hIn
  rw [bundleEntry, List.append_assoc, List.append_assoc] at hAt
  have hNl : (UInt32.ofNat (x.1.length + 4)).toNat = x.1.length + 4 :=
    UInt32.toNat_ofNat_of_lt' (Nat.lt_of_le_of_lt (Nat.add_le_add_right hName 4) (by decide))
  have hDl : (UInt32.ofNat x.2.length).toNat = x.2.length :=
    UInt32.toNat_ofNat_of_lt' (Nat.lt_of_le_of_lt hData (by decide))
  have h4 : UInt32.toNat 4 = 4 := rfl
  have h32 : UInt32.toNat 32 = 32 := rfl
  have hRead : (read32At b o).getD 0 = UInt32.ofNat (x.1.length + 4) :=
    read32At_put hAt (by omega)
  have hNameAt : (o + 4).toNat = o.toNat + 4 := by
    rw [UInt32.toNat_add, h4]
    omega
  have hRest := drop_further hAt (k := (o + 4).toNat) (by rw [length_putU32, hNameAt])
  have hLenAt : (dataLenAt b o).toNat = o.toNat + x.1.length + 8 := by
    rw [dataLenAt, hRead, UInt32.toNat_add, UInt32.toNat_add, hNl, h4]
    omega
  have hLen := drop_further hRest (k := (dataLenAt b o).toNat) (by
    rw [hLenAt, hNameAt, List.length_append]
    change _ + (_ + 4) = _
    omega)
  rw [List.append_assoc] at hLen
  have hDataLen : dataLen b o = UInt32.ofNat x.2.length := read32At_put hLen (by omega)
  have hDataAt : (dataAt b o).toNat = o.toNat + x.1.length + 12 := by
    rw [dataAt, UInt32.toNat_add, hLenAt, h4]
    omega
  have hBytes := drop_further hLen (k := (dataAt b o).toNat) (by
    rw [hLenAt, hDataAt, length_putU32])
  rw [List.append_assoc] at hBytes
  have hSum := drop_further hBytes (k := (dataAt b o).toNat + (dataLen b o).toNat) (by
    rw [hDataLen, hDl])
  have hNext : (nextEntry b o).toNat = o.toNat + entryRoom x := by
    rw [nextEntry, UInt32.toNat_add, UInt32.toNat_add, hDataAt, hDataLen, hDl, h32, entryRoom]
    omega
  have hMore := drop_further hSum (k := (nextEntry b o).toNat) (by
    rw [hNext, hDataAt, hDataLen, hDl, List.Vector.toList_length, entryRoom]
    omega)
  refine ⟨hRead, ?_, hLenAt, hDataAt, hDataLen, ?_, ?_, hNext, hMore⟩
  · rw [hRest, List.append_assoc, List.append_assoc]
  · rw [entryData, hBytes, hDataLen, hDl, List.take_left]
  · rw [entryDigest, hSum, List.take_left' dg.toList_length]

/-- An entry that was written passes the checks, and its name and data are the ones that were written. -/
theorem entry_reads {renv : RestoreEnv} {i : Nat} (hB : b.length ≤ BUNDLE_MAX)
    (hName : hsmNameOk x.1 = true) (hData : x.2.length ≤ 2868)
    (hSm3 : renv.sm3 i x.2 = some dg.toList)
    (hAt : b.drop o.toNat = bundleEntry x.1 x.2 dg ++ more) :
    (dataLenAt b o).toNat + 4 ≤ b.length ∧ EntryChecks renv b (UInt32.ofNat b.length) i o ∧
      (entryAt b o).name = x.1 ++ dotKey ∧ (entryAt b o).Fits := by
  have hShort := length_name hName
  have hMax : b.length ≤ 1048576 := hB
  obtain ⟨hRead, hRest, hLenAt, hDataAt, hDataLen, hEntry, hDigest, -, -⟩ :=
    entry_places hB hShort hData hAt
  have hIn := entry_inside hAt
  rw [entryRoom] at hIn
  have hN : (UInt32.ofNat b.length).toNat = b.length :=
    UInt32.toNat_ofNat_of_lt' (Nat.lt_of_le_of_lt hMax (by decide))
  have hNl : (UInt32.ofNat (x.1.length + 4)).toNat = x.1.length + 4 :=
    UInt32.toNat_ofNat_of_lt' (Nat.lt_of_le_of_lt (Nat.add_le_add_right hShort 4) (by decide))
  have hDl : (UInt32.ofNat x.2.length).toNat = x.2.length :=
    UInt32.toNat_ofNat_of_lt' (Nat.lt_of_le_of_lt hData (by decide))
  have h4 : UInt32.toNat 4 = 4 := rfl
  have h32 : UInt32.toNat 32 = 32 := rfl
  have hWhole : (entryAt b o).name = x.1 ++ dotKey := by
    change (b.drop (o + 4).toNat).take ((read32At b o).getD 0).toNat = _
    rw [hRead, hRest, hNl, List.take_left' (by rw [List.length_append]; rfl)]
  refine ⟨by omega, ⟨?_, ?_, ?_, ?_, ?_⟩, hWhole, ?_, x.1, hWhole, hName⟩
  · rw [UInt32.le_iff_toNat_le, UInt32.toNat_add, hN, h4]
    omega
  · rw [UInt32.le_iff_toNat_le, hDataAt, hN]
    omega
  · rw [UInt32.le_iff_toNat_le, UInt32.toNat_add, UInt32.toNat_add, hDataAt, hDataLen, hDl, h32, hN]
    omega
  · rw [UInt32.le_iff_toNat_le, hDataLen, hDl]
    exact Nat.le_trans hData (by decide)
  · rw [hEntry, hDigest, hSm3]
  · change _ = ((read32At b o).getD 0).toNat
    rw [hWhole, hRead, hNl, List.length_append]
    rfl

/-- All the entries that were written. -/
theorem entries_read {env : BackupEnv} {renv : RestoreEnv} (hReady : renv.Ready env.digest)
    (hB : b.length ≤ BUNDLE_MAX) {xs : List (Bytes × Bytes)}
    (hKeys : ∀ x ∈ xs, hsmNameOk x.1 = true ∧ x.2.length ≤ 2868) {i : Nat} {o : UInt32}
    (hAt : b.drop o.toNat = bundleBody env xs) :
    StaysInside renv b (UInt32.ofNat b.length) xs.length i o ∧
      AllCheck renv b (UInt32.ofNat b.length) xs.length i o ∧
      (∀ e ∈ entriesAt b xs.length o, e.Fits) ∧
      (entriesAt b xs.length o).map (fun e => (e.name, e.data)) =
        xs.map fun x => (x.1 ++ dotKey, x.2) := by
  induction xs generalizing i o with
  | nil => exact ⟨trivial, trivial, nofun, rfl⟩
  | cons x xs ih =>
    obtain ⟨hName, hData⟩ := hKeys x List.mem_cons_self
    rw [bundleBody, List.flatMap_cons] at hAt
    obtain ⟨hStay, hCheck, hWhole, hFits⟩ :=
      entry_reads hB hName hData (hReady.sm3 i x.2) hAt
    obtain ⟨-, -, -, -, -, hEntry, -, -, hMore⟩ := entry_places hB (length_name hName) hData hAt
    obtain ⟨hStays, hChecks, hAllFit, hAll⟩ :=
      @ih (fun y hy => hKeys y (List.mem_cons_of_mem x hy)) (i + 1) (nextEntry b o) hMore
    rw [List.length_cons, entriesAt_succ]
    refine ⟨⟨fun _ _ => hStay, fun _ => hStays⟩, ⟨hCheck, hChecks⟩,
      List.forall_mem_cons.mpr ⟨hFits, hAllFit⟩, ?_⟩
    rw [List.map_cons, List.map_cons, hAll, hWhole]
    change (_, entryData b o) :: _ = _
    rw [hEntry]

end Entry

/-! ### The same key store -/

section Same

variable {env : BackupEnv} {dir : KeyDir}

/-- The names in a list of results, as long as each shows what it comes from. -/
theorem sublist_of_filterMap {α β : Type} {f : α → Option β} {g : β → α}
    (h : ∀ a b, f a = some b → g b = a) (l : List α) : ((l.filterMap f).map g).Sublist l := by
  induction l with
  | nil => exact .slnil
  | cons a l ih =>
    cases hf : f a with
    | none =>
      rw [List.filterMap_cons_none hf]
      exact ih.cons a
    | some b =>
      rw [List.filterMap_cons_some hf, List.map_cons, h a b hf]
      exact ih.cons_cons a

theorem key_some {e : Bytes} {x : Bytes × Bytes} (h : dir.key e = some x) : x.1 ++ dotKey = e := by
  simp only [KeyDir.key] at h
  split at h
  · cases h
  rename_i hShape
  split at h
  · cases h
  obtain ⟨d, -, rfl⟩ := Option.map_eq_some_iff.mp h
  have hEnds : e.drop (e.length - 4) = dotKey := by
    by_contra hNe
    exact hShape (.inr (.inr hNe))
  rw [← hEnds, List.take_append_drop]

theorem nodup_names : (dir.keys.map fun x => x.1 ++ dotKey).Nodup :=
  (sublist_of_filterMap (fun _ _ => key_some) dir.entries).nodup dir.unique

/-- Files that are written to different paths are all there. -/
theorem filesAfter_eq {ws : Writes} (h : (ws.map Prod.fst).Nodup) {p d : Bytes} :
    filesAfter ws p = some d ↔ (p, d) ∈ ws := by
  have hRun : ∀ disk : KeyDisk,
      ws.foldl (fun (disk : KeyDisk) w => Function.update disk w.1 (some w.2)) disk p = some d ↔
        (p, d) ∈ ws ∨ p ∉ ws.map Prod.fst ∧ disk p = some d := by
    induction ws with
    | nil => simp
    | cons w ws ih =>
      intro disk
      obtain ⟨hNew, hRest⟩ := List.nodup_cons.mp h
      rw [List.foldl_cons, ih hRest, List.map_cons, List.mem_cons, List.mem_cons]
      by_cases hp : p = w.1
      · subst hp
        rw [Function.update_self]
        constructor
        · rintro (hIn | ⟨-, hEq⟩)
          · exact .inl (.inr hIn)
          · exact .inl (.inl (Prod.ext rfl (Option.some.inj hEq).symm))
        · rintro ((hEq | hIn) | ⟨hNot, -⟩)
          · exact .inr ⟨hNew, congrArg some (congrArg Prod.snd hEq).symm⟩
          · exact .inl hIn
          · exact absurd (.inl rfl) hNot
      · rw [Function.update_of_ne hp]
        constructor
        · rintro (hIn | ⟨hNot, hEq⟩)
          · exact .inl (.inr hIn)
          · exact .inr ⟨not_or.mpr ⟨hp, hNot⟩, hEq⟩
        · rintro ((hEq | hIn) | ⟨hNot, hEq⟩)
          · exact absurd (congrArg Prod.fst hEq) hp
          · exact .inl hIn
          · exact .inr ⟨(not_or.mp hNot).2, hEq⟩
  rw [filesAfter, hRun]
  simp

theorem keyPath_whole {keystore name : Bytes} (hPath : keystore.length + 37 ≤ 511)
    (hName : name.length ≤ 32) : keyPath keystore name = keystore ++ slash ++ (name ++ dotKey) := by
  rw [keyPath, List.append_assoc]
  apply List.take_of_length_le
  simp only [slash, dotKey, List.length_append, List.length_cons, List.length_nil]
  omega

theorem mul_le_bundleRoom (xs : List (Bytes × Bytes)) : 44 * xs.length ≤ bundleRoom xs := by
  induction xs with
  | nil => exact Nat.le_refl 0
  | cons x xs ih =>
    change 44 * (xs.length + 1) ≤ entryRoom x + bundleRoom xs
    rw [entryRoom]
    omega

theorem length_bundleBody (xs : List (Bytes × Bytes)) :
    (bundleBody env xs).length = bundleRoom xs := by
  induction xs with
  | nil => rfl
  | cons x xs ih =>
    rw [bundleBody, List.flatMap_cons, List.length_append, length_bundleEntry]
    exact congrArg _ ih

theorem addEntries_error {i : Nat} {xs : List (Bytes × Bytes)} {out : Bytes} {e : BackupEnd}
    (h : addEntries env i xs out = .error e) : e = .tooLarge ∨ e = .sm3Failed ∨ e = .overrun := by
  induction xs generalizing i out with
  | nil => cases h
  | cons x xs ih =>
    simp only [addEntries] at h
    split at h
    · exact .inl (Except.error.inj h).symm
    · split at h
      · exact .inr (.inl (Except.error.inj h).symm)
      · split at h
        · exact .inr (.inr (Except.error.inj h).symm)
        · exact ih h

theorem cBackup_ok {bundle : Bytes} (h : cBackup env dir = .ok bundle) :
    bundle = [80, 81, 66, 49] ++ (putU32 (UInt32.ofNat dir.keys.length) ++ bundleBody env dir.keys) ∧
      bundle.length ≤ BUNDLE_MAX := by
  rw [cBackup] at h
  cases hOut : addEntries env 0 dir.keys [] with
  | error e =>
    rw [hOut] at h
    rcases addEntries_error hOut with rfl | rfl | rfl <;> cases h
  | ok out =>
    rw [hOut] at h
    obtain ⟨rfl, hRoom⟩ := addEntries_ok (fun x hx => (short_keys hx).2) (by decide) hOut
    dsimp only at h
    split at h
    · cases h
    · split at h
      · obtain rfl := BackupEnd.ok.inj h
        refine ⟨rfl, ?_⟩
        rw [List.length_append, List.length_append, length_putU32, ← Nat.add_assoc]
        exact hRoom
      · cases h

/-- The files that are written for the entries. -/
theorem written_entries {renv : RestoreEnv} {xs : List (Bytes × Bytes)} {es : List BundleEntry}
    (h : es.map (fun e => (e.name, e.data)) = xs.map fun x => (x.1 ++ dotKey, x.2)) :
    es.map (fun e => e.written renv.keystore) = xs.map fun x => (keyPath renv.keystore x.1, x.2) := by
  have hWritten : es.map (fun e => e.written renv.keystore) =
      (es.map fun e => (e.name, e.data)).map fun y => ((renv.keystore ++ slash ++ y.1).take 511, y.2) := by
    rw [List.map_map]
    rfl
  rw [hWritten, h, List.map_map]
  apply List.map_congr_left
  intro x hx
  change ((renv.keystore ++ slash ++ (x.1 ++ dotKey)).take 511, x.2) = _
  rw [keyPath, List.append_assoc (renv.keystore ++ slash)]

/-- A bundle that was written restores every key that it was made of. -/
theorem restore_of_backup {bundle : Bytes} (h : cBackup env dir = .ok bundle) {renv : RestoreEnv}
    (hReady : renv.Ready env.digest) :
    cRestore renv bundle = (.ok, dir.keys.map fun x => (keyPath renv.keystore x.1, x.2)) := by
  obtain ⟨hBundle, hMax⟩ := cBackup_ok h
  have hSize : bundle.length ≤ 1048576 := hMax
  have hLen : bundle.length = 8 + bundleRoom dir.keys := by
    rw [hBundle, List.length_append, List.length_append, length_putU32, length_bundleBody,
      ← Nat.add_assoc]
    rfl
  have hFew := mul_le_bundleRoom dir.keys
  have hN : (UInt32.ofNat bundle.length).toNat = bundle.length :=
    UInt32.toNat_ofNat_of_lt' (Nat.lt_of_le_of_lt hSize (by decide))
  have hMarked : Marked bundle := by
    refine ⟨?_, ?_, ?_⟩
    · rw [UInt32.le_iff_toNat_le, hN]
      exact hSize
    · rw [UInt32.le_iff_toNat_le, hN, hLen]
      exact Nat.le_add_right 8 _
    · rw [hBundle]
      rfl
  have hCount : (getU32 (bundle.drop 4)).1.toNat = dir.keys.length := by
    have hDrop : bundle.drop 4 = putU32 (UInt32.ofNat dir.keys.length) ++ bundleBody env dir.keys := by
      rw [hBundle]
      exact List.drop_left' rfl
    rw [hDrop, getU32_putU32]
    exact UInt32.toNat_ofNat_of_lt' (Nat.lt_of_le_of_lt (m := 1048576) (by omega) (by decide))
  have hAt : bundle.drop (8 : UInt32).toNat = bundleBody env dir.keys := by
    rw [hBundle, ← List.append_assoc]
    apply List.drop_left'
    rw [List.length_append, length_putU32]
    rfl
  obtain ⟨hStay, hCheck, hFits, hAll⟩ := @entries_read bundle env renv hReady hMax dir.keys
    (fun x hx => ⟨(mem_keys hx).1, (short_keys hx).2⟩) 0 8 hAt
  have hEight : (8 : UInt32) ≤ UInt32.ofNat bundle.length := hMarked.2.1
  rw [cRestore_of_marked hMarked, hCount,
    checkEntries_ok hMarked.1 (Nat.le_of_eq hN) hEight hStay hCheck]
  dsimp only
  rw [writeEntries_eq hMarked.1 (Nat.le_of_eq hN) hEight hStay hCheck]
  rcases @runEntries_of_fits renv 0 _ hFits with ⟨-, hRun⟩ | ⟨⟨j, -, hNot⟩, -⟩
  · rw [hRun, written_entries hAll]
  · exact absurd (hReady.spill _) hNot

end Same

/-- A key of the largest size. -/
def largeKey : KeyRecord where
  kind := 1
  param := 2
  created := 0
  pk := List.replicate 2592 0
  blob := ⟨List.replicate (Wrap.taWrapBlobLen 32) 0, by rw [List.length_replicate]; decide⟩
  symLen := 0
  pk_le := (List.length_replicate).le
  blob_le := by
    rw [List.length_replicate]
    decide

theorem length_largeKey : (keyFile largeKey).length = 2688 := by
  rw [length_keyFile, largeKey]
  dsimp only
  rw [List.length_replicate, List.length_replicate]
  rfl

def numberName (i : Nat) : Bytes := [UInt8.ofNat (97 + i / 20), UInt8.ofNat (97 + i % 20)]

theorem numberName_inj {i j : Nat} (hi : i < 400) (hj : j < 400) (h : numberName i = numberName j) :
    i = j := by
  obtain ⟨hHigh, hLow⟩ := List.cons.inj h
  have hHigh := congrArg UInt8.toNat hHigh
  have hLow := congrArg UInt8.toNat (List.cons.inj hLow).1
  rw [UInt8.toNat_ofNat', UInt8.toNat_ofNat'] at hHigh hLow
  omega

/-- A directory of 400 keys. -/
def largeDir : KeyDir where
  path := [107]
  entries := (List.range 400).map fun i => numberName i ++ dotKey
  disk _ := some (keyFile largeKey)
  unique := by
    apply List.Nodup.map_on _ List.nodup_range
    intro i hi j hj hEq
    exact numberName_inj (List.mem_range.mp hi) (List.mem_range.mp hj) (List.append_cancel_right hEq)

theorem key_largeDir {i : Nat} (h : i < 400) :
    largeDir.key (numberName i ++ dotKey) = some (numberName i, keyFile largeKey) := by
  have hNames : ∀ i < 400, hsmNameOk (numberName i) = true := by decide +kernel
  have hLoad : keyLoad (numberName i) (some (keyFile largeKey)) = .ok largeKey :=
    keyLoad_ok_iff.mpr ⟨hNames i h, rfl⟩
  change (match keyLoad (numberName i) (some (keyFile largeKey)) with
    | .error _ => none
    | .ok _ => (some (keyFile largeKey)).map (numberName i, ·)) = _
  rw [hLoad]
  rfl

theorem keys_largeDir :
    largeDir.keys = (List.range 400).map fun i => (numberName i, keyFile largeKey) := by
  change ((List.range 400).map fun i => numberName i ++ dotKey).filterMap largeDir.key = _
  rw [List.filterMap_map, ← List.filterMap_eq_map]
  apply List.filterMap_congr
  intro i hi
  exact key_largeDir (List.mem_range.mp hi)

/-- A device that always answers. -/
def answeringEnv : BackupEnv where
  digest _ := zeros 32
  answers _ := true
  spills := true

end PqcHsm
