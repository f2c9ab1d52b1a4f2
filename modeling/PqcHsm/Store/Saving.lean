import PqcHsm.Store.KeystoreFile

/-!
# What a save leaves on the disk

The file a save builds, and what the sections of the save do to the files: until the
rename the key store and the anchor are what they were, from the rename on the key store is
the complete new file.
-/

namespace PqcHsm

open ByteCodec Sections

variable {n : Nat} {S : Setup}

/-- The complete file of a save: one good blob for each slot of the device. -/
structure SavedFile (S : Setup) (d : Device n) (salt : ByteVec KS_SALT_LEN)
    (blob : Fin n → Bytes) : Prop where
  sealed : ∀ i, (d.tok.slots i).Sealed S.crypto
  written : ∀ i, ∃ e, slotSerializeLocked S.crypto e (pqcKekDerive S.crypto salt) hsmSlotBlobMax
    (d.tok.slots i) = .ok (blob i)

/-- The bytes of the file. -/
def savedBytes (C : Crypto) (salt : ByteVec KS_SALT_LEN) (epoch : UInt64) (blob : Fin n → Bytes) :
    Bytes :=
  keystoreFile C n salt epoch ((List.finRange n).map blob)

/-- The part of a save that follows the read of the anchor. -/
def saveFrom (S : Setup) (salt : ByteVec KS_SALT_LEN) (seen : UInt64) : DevProg n HsmStatus := do
  match ← serializeSlots S (pqcKekDerive S.crypto salt) (List.range n) with
  | .error st => pure st
  | .ok blobs =>
    let header := keystoreHeader n salt (seen + 1)
    let records := blobs.map keystoreRecord
    let macOk ← Prog.ask fun e => e.cryptoOk
    if macOk then
      commitFile S (header :: (records ++
        [(keystoreTag S.crypto salt (header ++ records.flatten)).toList]))
    else pure .errCrypto

/-- Only temporary files differ. -/
inductive SameButTmp (d : Device n) : Device n → Prop where
  | mk (tmp : Option Bytes) (anchorTmp : Option UInt64) :
      SameButTmp d { d with fs := { d.fs with tmp, anchorTmp } }

/-- The values an anchor may have after a bump that was carried out, cut short or lost: a file
that could not be read counted as 0, a text that did not reach the file reads as 0. -/
def AnchorMoved (old v : UInt64) : Prop := v = old ∨ v = old + 1 ∨ v = 0 ∨ v = 1

/-- The new file is in place. -/
inductive SavedState (S : Setup) (d : Device n) (salt : ByteVec KS_SALT_LEN) (seen : UInt64) :
    Device n → Prop where
  | mk (blob : Fin n → Bytes) (tmp : Option Bytes) (anchor : UInt64) (anchorTmp : Option UInt64) :
      SavedFile S d salt blob → AnchorMoved d.fs.anchor anchor →
      SavedState S d salt seen { d with fs :=
        ⟨some (savedBytes S.crypto salt (seen + 1) blob), tmp, anchor, anchorTmp⟩ }

/-- What a crash may find. -/
def CrashState (S : Setup) (d : Device n) (salt : ByteVec KS_SALT_LEN) (seen : UInt64)
    (d' : Device n) : Prop :=
  SameButTmp d d' ∨ SavedState S d salt seen d'

theorem SameButTmp.refl (d : Device n) : SameButTmp d d := .mk d.fs.tmp d.fs.anchorTmp

section Steps

variable {d : Device n} {salt : ByteVec KS_SALT_LEN} {seen : UInt64}

theorem along_writeTmp {d₁ : Device n} {tmp : Bytes} (h : SameButTmp d d₁)
    (hTmp : d₁.fs.tmp = some tmp) (buf : Bytes) (hBuf : buf ≠ []) :
    (writeTmp buf).Along (SameButTmp d) (fun w d₂ => w = 0 ∨
      (0 < w ∧ w ≤ buf.length ∧ d₂.fs.tmp = some (tmp ++ buf.take w))) d₁ := by
  cases h with
  | mk t a =>
    obtain rfl : t = some tmp := hTmp
    refine Prog.along_atomic (.mk _ _) fun e => ?_
    dsimp only
    by_cases hIo : e.ioOk = true
    · rw [if_pos hIo]
      have hPos : 0 < buf.length := List.length_pos_iff.mpr hBuf
      refine ⟨.mk _ _, .inr ⟨?_, ?_, rfl⟩⟩
      · exact Nat.lt_of_lt_of_le Nat.one_pos (Nat.le_max_left ..)
      · exact Nat.max_le.mpr ⟨hPos, Nat.min_le_right ..⟩
    · rw [if_neg hIo]
      exact ⟨.mk _ _, .inl rfl⟩

theorem along_ksWrite (fuel : Nat) {d₁ : Device n} {tmp buf : Bytes} (h : SameButTmp d d₁)
    (hTmp : d₁.fs.tmp = some tmp) (hFuel : buf.length ≤ fuel) :
    (ksWrite fuel buf).Along (SameButTmp d)
      (fun good d₂ => good = true → d₂.fs.tmp = some (tmp ++ buf)) d₁ := by
  induction fuel generalizing d₁ tmp buf with
  | zero =>
    obtain rfl : buf = [] := List.eq_nil_of_length_eq_zero (Nat.le_zero.mp hFuel)
    exact Prog.along_ret h fun _ => by rw [hTmp, List.append_nil]
  | succ fuel ih =>
    unfold ksWrite
    by_cases hBuf : buf = []
    · rw [if_pos hBuf]
      exact Prog.along_ret h fun _ => by rw [hTmp, hBuf, List.append_nil]
    · rw [if_neg hBuf]
      apply Prog.along_bind
      refine (along_writeTmp h hTmp buf hBuf).inv.mono fun w d₂ hWrote => ?_
      obtain ⟨hSame, rfl | ⟨hPos, hLe, hTmp'⟩⟩ := hWrote
      · rw [if_pos rfl]
        exact Prog.along_ret hSame fun hGood => Bool.noConfusion hGood
      · rw [if_neg hPos.ne']
        have hRest : (buf.drop w).length ≤ fuel := by
          rw [List.length_drop]
          omega
        refine (ih hSame hTmp' hRest).mono fun good d₃ hDone hGood => ?_
        rw [hDone hGood, List.append_assoc, List.take_append_drop]

theorem along_ksWriteAll (chunks : List Bytes) {d₁ : Device n} {tmp : Bytes}
    (h : SameButTmp d d₁) (hTmp : d₁.fs.tmp = some tmp) :
    (ksWriteAll chunks).Along (SameButTmp d)
      (fun good d₂ => good = true → d₂.fs.tmp = some (tmp ++ chunks.flatten)) d₁ := by
  induction chunks generalizing d₁ tmp with
  | nil => exact Prog.along_ret h fun _ => by rw [hTmp, List.flatten_nil, List.append_nil]
  | cons chunk chunks ih =>
    apply Prog.along_bind
    refine (along_ksWrite chunk.length h hTmp (Nat.le_refl _)).inv.mono fun good d₂ hWrote => ?_
    obtain ⟨hSame, hGood⟩ := hWrote
    cases good with
    | false => exact Prog.along_ret hSame fun hNot => Bool.noConfusion hNot
    | true =>
      refine (ih hSame (hGood rfl)).mono fun good d₃ hDone hGood' => ?_
      rw [hDone hGood', List.flatten_cons, List.append_assoc]

theorem along_hsmSlotSerialize {kek : ByteVec 32} (i : Fin n) :
    (hsmSlotSerialize S i.val kek hsmSlotBlobMax).Along (· = d) (fun r d₁ => d₁ = d ∧
      (∀ st, r = .error st → st ≠ .ok) ∧
      ∀ blob, r = .ok blob → (d.tok.slots i).Sealed S.crypto ∧
        ∃ e, slotSerializeLocked S.crypto e kek hsmSlotBlobMax (d.tok.slots i) = .ok blob) d := by
  rw [hsmSlotSerialize, slotAt_fin]
  refine Prog.along_atomic rfl fun e => ?_
  have hSelf := setSlot_self d i
  dsimp only
  cases hInt : slotCheckIntegrity S.crypto e 0 (d.tok.slots i) with
  | ok =>
    cases hBlob : slotSerializeLocked S.crypto e kek hsmSlotBlobMax (d.tok.slots i) with
    | ok blob =>
      refine ⟨hSelf, hSelf, fun st hSt => (nomatch hSt), fun blob' hBlob' => ?_⟩
      cases hBlob'
      exact ⟨sealed_of_slotCheckIntegrity hInt, e, hBlob⟩
    | error st =>
      refine ⟨hSelf, hSelf, fun st' hSt => ?_, fun blob' hBlob' => (nomatch hBlob')⟩
      cases hSt
      exact slotSerializeLocked_eq_error hBlob
  | _ =>
    refine ⟨hSelf, hSelf, fun st hSt => ?_, fun blob' hBlob' => (nomatch hBlob')⟩
    cases hSt
    exact HsmStatus.noConfusion

/-- The blobs of a serialization loop are those of the slots. -/
theorem along_serializeSlots (kek : ByteVec 32) (ids : List (Fin n)) (hNodup : ids.Nodup) :
    (serializeSlots S kek (ids.map Fin.val)).Along (· = d) (fun r _ =>
      (∀ st, r = .error st → st ≠ .ok) ∧
      ∀ blobs, r = .ok blobs → ∃ blob : Fin n → Bytes, blobs = ids.map blob ∧
        ∀ i ∈ ids, (d.tok.slots i).Sealed S.crypto ∧
          ∃ e, slotSerializeLocked S.crypto e kek hsmSlotBlobMax (d.tok.slots i) = .ok (blob i))
      d := by
  induction ids with
  | nil =>
    refine Prog.along_ret rfl ⟨fun st hSt => (nomatch hSt), fun blobs hBlobs => ?_⟩
    cases hBlobs
    exact ⟨fun _ => [], rfl, nofun⟩
  | cons i ids ih =>
    obtain ⟨hNot, hNodup⟩ := List.nodup_cons.mp hNodup
    rw [List.map_cons, serializeSlots]
    apply Prog.along_bind
    refine (along_hsmSlotSerialize i).mono fun r d₁ hSerialized => ?_
    obtain ⟨rfl, hError, hSerialized⟩ := hSerialized
    cases r with
    | error st =>
      refine Prog.along_ret rfl ⟨fun st' hSt => ?_, fun blobs hBlobs => (nomatch hBlobs)⟩
      cases hSt
      exact hError st rfl
    | ok b =>
      apply Prog.along_bind
      refine (ih hNodup).inv.mono fun r d₂ hRest => ?_
      obtain ⟨rfl, hError, hRest⟩ := hRest
      cases r with
      | error st =>
        refine Prog.along_ret rfl ⟨fun st' hSt => ?_, fun blobs hBlobs => (nomatch hBlobs)⟩
        cases hSt
        exact hError st rfl
      | ok bs =>
        refine Prog.along_ret rfl ⟨fun st hSt => (nomatch hSt), fun blobs hBlobs => ?_⟩
        cases hBlobs
        obtain ⟨blob, rfl, hWritten⟩ := hRest bs rfl
        refine ⟨Function.update blob i b, ?_, fun j hj => ?_⟩
        · rw [List.map_cons, Function.update_self]
          congr 1
          refine List.map_congr_left fun j hj => ?_
          rw [Function.update_of_ne]
          rintro rfl
          exact hNot hj
        · rcases List.mem_cons.mp hj with rfl | hMem
          · rw [Function.update_self]
            exact hSerialized b rfl
          · have hNe : j ≠ i := fun hEq => hNot (hEq ▸ hMem)
            rw [Function.update_of_ne hNe]
            exact hWritten j hMem

theorem along_unlinkTmp {d₁ : Device n} (h : SameButTmp d d₁) :
    (unlinkTmp : DevProg n Unit).Along (SameButTmp d) (fun _ _ => True) d₁ := by
  cases h with
  | mk t a =>
    refine Prog.along_atomic (.mk _ _) fun e => ⟨?_, trivial⟩
    dsimp only
    split
    · exact .mk none a
    · exact .mk t a

theorem along_fsync {J : Device n → Prop} {d₁ : Device n} (h : J d₁) :
    (fsyncTmp : DevProg n Bool).Along J (fun _ _ => True) d₁ :=
  Prog.along_atomic h fun _ => ⟨h, trivial⟩

theorem along_fsyncDir {J : Device n → Prop} {d₁ : Device n} (h : J d₁) :
    (fsyncDir : DevProg n Unit).Along J (fun _ d₂ => d₂ = d₁) d₁ :=
  Prog.along_atomic h fun _ => ⟨h, rfl⟩

theorem along_openTmp {d₁ : Device n} (h : SameButTmp d d₁) :
    (openTmp : DevProg n Bool).Along (SameButTmp d)
      (fun good d₂ => good = true → d₂.fs.tmp = some []) d₁ := by
  cases h with
  | mk t a =>
    refine Prog.along_atomic (.mk _ _) fun e => ?_
    dsimp only
    split
    · exact ⟨.mk _ _, fun _ => rfl⟩
    · exact ⟨.mk _ _, fun hGood => Bool.noConfusion hGood⟩

/-- The rename puts exactly what was written in place. -/
theorem along_renameTmp {d₁ : Device n} (h : SameButTmp d d₁) {blob : Fin n → Bytes}
    (hFile : SavedFile S d salt blob)
    (hTmp : d₁.fs.tmp = some (savedBytes S.crypto salt (seen + 1) blob)) :
    (renameTmp : DevProg n Bool).Along (CrashState S d salt seen) (fun good d₂ =>
      if good then ∃ tmp anchorTmp, d₂ = { d with fs :=
        ⟨some (savedBytes S.crypto salt (seen + 1) blob), tmp, d.fs.anchor, anchorTmp⟩ }
      else SameButTmp d d₂) d₁ := by
  cases h with
  | mk t a =>
    obtain rfl : t = _ := hTmp
    refine Prog.along_atomic (.inl (.mk _ _)) fun e => ?_
    dsimp only
    split
    · exact ⟨.inr (.mk blob none d.fs.anchor a hFile (.inl rfl)), none, a, rfl⟩
    · exact ⟨.inl (.mk _ _), .mk _ _⟩

section Anchor

variable {blob : Fin n → Bytes} {tmp : Option Bytes}

/-- The device with the new file in place and the given anchor. -/
def savedWith (S : Setup) (d : Device n) (salt : ByteVec KS_SALT_LEN) (seen : UInt64)
    (blob : Fin n → Bytes) (tmp : Option Bytes) (v : UInt64) (a : Option UInt64) : Device n :=
  { d with fs := ⟨some (savedBytes S.crypto salt (seen + 1) blob), tmp, v, a⟩ }

theorem along_removeAnchorTmp (hFile : SavedFile S d salt blob) {v : UInt64}
    (hv : AnchorMoved d.fs.anchor v) (a : Option UInt64) :
    (removeAnchorTmp.bind fun _ => .ret false : DevProg n Bool).Along (SavedState S d salt seen)
      (fun _ _ => True) (savedWith S d salt seen blob tmp v a) := by
  have hHere : ∀ a, SavedState S d salt seen (savedWith S d salt seen blob tmp v a) :=
    fun a => .mk blob tmp v a hFile hv
  apply Prog.along_bind
  refine Prog.along_atomic (hHere a) fun e => ?_
  dsimp only [savedWith]
  split
  · exact ⟨hHere none, Prog.along_ret (hHere none) trivial⟩
  · exact ⟨hHere a, Prog.along_ret (hHere a) trivial⟩

theorem along_anchorFileWrite (hFile : SavedFile S d salt blob) {v : UInt64}
    (hv : AnchorMoved d.fs.anchor v) (a : Option UInt64) :
    (anchorFileWrite v : DevProg n Bool).Along (SavedState S d salt seen) (fun _ _ => True)
      (savedWith S d salt seen blob tmp d.fs.anchor a) := by
  have hOld : AnchorMoved d.fs.anchor d.fs.anchor := .inl rfl
  have hHere : ∀ {w : UInt64} (a), AnchorMoved d.fs.anchor w →
      SavedState S d salt seen (savedWith S d salt seen blob tmp w a) :=
    fun {w} a hw => .mk blob tmp w a hFile hw
  apply Prog.along_bind
  refine Prog.along_atomic (hHere a hOld) fun e => ?_
  dsimp only [savedWith]
  by_cases hOpen : e.ioOk = true
  · rw [if_pos hOpen]
    refine ⟨hHere (some 0) hOld, ?_⟩
    rw [if_pos rfl]
    apply Prog.along_bind
    refine Prog.along_atomic (hHere (some 0) hOld) fun e => ?_
    dsimp only
    by_cases hAlloc : e.allocOk = true
    · have hAlloc' : ¬ (!e.allocOk) = true := by simp [hAlloc]
      rw [if_neg hAlloc']
      -- what the temporary file reads as: the number, or 0 when it did not get there
      obtain ⟨w, hw, hTmp⟩ : ∃ w, AnchorMoved d.fs.anchor w ∧
          (if e.ioOk then { (savedWith S d salt seen blob tmp d.fs.anchor (some 0)).fs with
            anchorTmp := some v } else (savedWith S d salt seen blob tmp d.fs.anchor (some 0)).fs) =
          (savedWith S d salt seen blob tmp d.fs.anchor (some w)).fs := by
        by_cases hWrite : e.ioOk = true
        · exact ⟨v, hv, if_pos hWrite⟩
        · exact ⟨0, .inr (.inr (.inl rfl)), if_neg hWrite⟩
      dsimp only [savedWith] at hTmp
      rw [hTmp]
      refine ⟨hHere (some w) hOld, ?_⟩
      rw [if_pos rfl]
      apply Prog.along_bind
      refine Prog.along_atomic (hHere (some w) hOld) fun e => ⟨hHere (some w) hOld, ?_⟩
      apply Prog.along_bind
      refine Prog.along_atomic (hHere (some w) hOld) fun e => ?_
      dsimp only
      by_cases hRename : e.ioOk = true
      · rw [if_pos hRename]
        exact ⟨hHere none hw, Prog.along_ret (hHere none hw) trivial⟩
      · rw [if_neg hRename]
        exact ⟨hHere (some w) hOld, along_removeAnchorTmp hFile hOld (some w)⟩
    · have hAlloc' : (!e.allocOk) = true := by simp [hAlloc]
      rw [if_pos hAlloc']
      exact ⟨hHere (some 0) hOld, along_removeAnchorTmp hFile hOld (some 0)⟩
  · rw [if_neg hOpen]
    exact ⟨hHere a hOld, Prog.along_ret (hHere a hOld) trivial⟩

/-- Whatever becomes of the bump, the new file stays in place. -/
theorem along_rbanchorBump (hFile : SavedFile S d salt blob) (a : Option UInt64) :
    (rbanchorBump S).Along (SavedState S d salt seen) (fun _ _ => True)
      (savedWith S d salt seen blob tmp d.fs.anchor a) := by
  have hHere : SavedState S d salt seen (savedWith S d salt seen blob tmp d.fs.anchor a) :=
    .mk blob tmp d.fs.anchor a hFile (.inl rfl)
  unfold rbanchorBump
  split
  · rename_i hProvider
    apply Prog.along_bind
    refine Prog.along_atomic hHere fun e => ⟨hHere, ?_⟩
    have hCur : ∃ cur, anchorSeen S e (savedWith S d salt seen blob tmp d.fs.anchor a).fs = some cur ∧
        AnchorMoved d.fs.anchor (cur + 1) := by
      unfold anchorSeen
      rw [hProvider]
      dsimp only
      by_cases hRead : e.ioOk = true
      · rw [if_pos hRead]
        exact ⟨_, rfl, .inr (.inl rfl)⟩
      · rw [if_neg hRead]
        exact ⟨_, rfl, .inr (.inr (.inr rfl))⟩
    obtain ⟨cur, hSeen, hMoved⟩ := hCur
    dsimp only
    rw [hSeen]
    apply Prog.along_bind
    refine (along_anchorFileWrite hFile hMoved a).inv.mono fun written d₂ hSaved => ?_
    exact Prog.along_ret hSaved.1 trivial
  · refine Prog.along_atomic hHere fun e => ?_
    dsimp only [savedWith]
    split
    · exact ⟨.mk blob tmp _ a hFile (.inr (.inl rfl)), trivial⟩
    · exact ⟨hHere, trivial⟩

end Anchor

/-- A save that has its blobs: what a crash may find, and how it returns. -/
theorem along_commitFile {blob : Fin n → Bytes} (hFile : SavedFile S d salt blob)
    {chunks : List Bytes} (hChunks : chunks.flatten = savedBytes S.crypto salt (seen + 1) blob) :
    (commitFile S chunks).Along (CrashState S d salt seen) (fun st d₁ =>
      (st = .ok → SavedState S d salt seen d₁) ∧ (st ≠ .ok → SameButTmp d d₁)) d := by
  have hOld : ∀ d₁, SameButTmp d d₁ → CrashState S d salt seen d₁ := fun _ h => .inl h
  have hNew : ∀ d₁, SavedState S d salt seen d₁ → CrashState S d salt seen d₁ := fun _ h => .inr h
  -- leaving without a rename
  have hLeave : ∀ (st : HsmStatus) {d₁ : Device n}, st ≠ .ok → SameButTmp d d₁ →
      (unlinkTmp.bind fun _ => .ret st : DevProg n HsmStatus).Along (CrashState S d salt seen)
        (fun st d₁ => (st = .ok → SavedState S d salt seen d₁) ∧ (st ≠ .ok → SameButTmp d d₁))
        d₁ := by
    intro st d₁ hSt hSame
    apply Prog.along_bind
    refine ((along_unlinkTmp hSame).inv.mono fun _ d₂ hDone => ?_).weaken hOld
    exact Prog.along_ret (hOld _ hDone.1) ⟨fun hOk => absurd hOk hSt, fun _ => hDone.1⟩
  unfold commitFile
  apply Prog.along_bind
  refine ((along_openTmp (.mk d.fs.tmp d.fs.anchorTmp)).inv.mono fun opened d₁ hOpen => ?_).weaken hOld
  obtain ⟨hSame, hTmp⟩ := hOpen
  cases opened with
  | false => exact hLeave .errBadArg HsmStatus.noConfusion hSame
  | true =>
    rw [if_pos rfl]
    apply Prog.along_bind
    refine ((along_ksWriteAll chunks hSame (hTmp rfl)).inv.mono fun written d₂ hWrite => ?_).weaken
      hOld
    obtain ⟨hSame, hWritten⟩ := hWrite
    rw [List.nil_append, hChunks] at hWritten
    apply Prog.along_bind
    have hSync : (if written then fsyncTmp else pure false : DevProg n Bool).Along
        (CrashState S d salt seen) (fun synced d₃ => SameButTmp d d₃ ∧ (synced = true →
          d₃.fs.tmp = some (savedBytes S.crypto salt (seen + 1) blob))) d₂ := by
      cases written with
      | false => exact Prog.along_ret (hOld _ hSame) ⟨hSame, fun h => Bool.noConfusion h⟩
      | true => exact Prog.along_atomic (hOld _ hSame) fun e => ⟨hOld _ hSame, hSame, fun _ => hWritten rfl⟩
    refine hSync.mono fun synced d₃ hSynced => ?_
    obtain ⟨hSame, hTmp⟩ := hSynced
    apply Prog.along_bind
    have hRename : (if synced then renameTmp else pure false : DevProg n Bool).Along
        (CrashState S d salt seen) (fun renamed d₄ =>
          if renamed then ∃ tmp anchorTmp, d₄ = savedWith S d salt seen blob tmp d.fs.anchor anchorTmp
          else SameButTmp d d₄) d₃ := by
      cases synced with
      | false => exact Prog.along_ret (hOld _ hSame) hSame
      | true => exact along_renameTmp hSame hFile (hTmp rfl)
    refine hRename.mono fun renamed d₄ hRenamed => ?_
    cases renamed with
    | false => exact hLeave .errCrypto HsmStatus.noConfusion hRenamed
    | true =>
      obtain ⟨tmp, anchorTmp, rfl⟩ := hRenamed
      have hHere : SavedState S d salt seen (savedWith S d salt seen blob tmp d.fs.anchor anchorTmp) :=
        .mk blob tmp d.fs.anchor anchorTmp hFile (.inl rfl)
      rw [if_pos rfl]
      apply Prog.along_bind
      refine (along_fsyncDir (hNew _ hHere)).mono fun _ d₅ hSame => ?_
      subst hSame
      apply Prog.along_bind
      refine ((along_rbanchorBump hFile anchorTmp).inv.mono fun _ d₆ hBumped => ?_).weaken hNew
      exact Prog.along_ret (hNew _ hBumped.1) ⟨fun _ => hBumped.1, fun h => absurd rfl h⟩

theorem flatten_chunks (C : Crypto) (salt : ByteVec KS_SALT_LEN) (epoch : UInt64)
    (blob : Fin n → Bytes) :
    (keystoreHeader n salt epoch :: (((List.finRange n).map blob).map keystoreRecord ++
      [(keystoreTag C salt (keystoreHeader n salt epoch ++
        (((List.finRange n).map blob).map keystoreRecord).flatten)).toList])).flatten =
      savedBytes C salt epoch blob := by
  rw [List.flatten_cons, List.flatten_append, List.flatten_singleton, ← List.append_assoc]
  rfl

/-- A save from the read of the anchor on. -/
theorem along_saveFrom : (saveFrom S salt seen).Along (CrashState S d salt seen) (fun st d₁ =>
    (st = .ok → SavedState S d salt seen d₁) ∧ (st ≠ .ok → SameButTmp d d₁)) d := by
  have hSame : SameButTmp d d := .mk d.fs.tmp d.fs.anchorTmp
  have hHere : CrashState S d salt seen d := .inl hSame
  have hStop : ∀ st : HsmStatus, st ≠ .ok → (.ret st : DevProg n HsmStatus).Along
      (CrashState S d salt seen) (fun st d₁ =>
        (st = .ok → SavedState S d salt seen d₁) ∧ (st ≠ .ok → SameButTmp d d₁)) d :=
    fun st hSt => Prog.along_ret hHere ⟨fun hOk => absurd hOk hSt, fun _ => hSame⟩
  unfold saveFrom
  apply Prog.along_bind
  rw [← List.map_coe_finRange_eq_range]
  refine ((along_serializeSlots _ _ (List.nodup_finRange n)).inv.mono fun r d₁ hBlobs => ?_).weaken
    fun d₁ hd => hd ▸ hHere
  obtain ⟨rfl, hError, hBlobs⟩ := hBlobs
  cases r with
  | error st => exact hStop st (hError st rfl)
  | ok blobs =>
    obtain ⟨blob, rfl, hWritten⟩ := hBlobs blobs rfl
    have hFile : SavedFile S d₁ salt blob :=
      ⟨fun i => (hWritten i (List.mem_finRange i)).1, fun i => (hWritten i (List.mem_finRange i)).2⟩
    apply Prog.along_bind
    refine Prog.along_ask hHere fun e => ?_
    split
    · exact along_commitFile hFile (flatten_chunks S.crypto salt (seen + 1) blob)
    · exact hStop .errCrypto HsmStatus.noConfusion

end Steps

section Start

variable (S : Setup) (env : Nat → Env) (d : Device n)

theorem hsmKeystoreSave_eq : (hsmKeystoreSave S : DevProg n HsmStatus) =
    (Prog.ask fun e => (e.bytes 0 KS_SALT_LEN, e.cryptoOk, e.allocOk)).bind fun entry =>
      match entry with
      | (none, _, _) => .ret .errCrypto
      | (some _, false, _) => .ret .errCrypto
      | (some _, true, false) => .ret .errNomem
      | (some salt, true, true) => (rbanchorRead S).bind fun seen =>
        match seen with
        | none => .ret .errCrypto
        | some seen => saveFrom S salt seen := rfl

/-- Up to the read of the anchor a save changes nothing. -/
theorem after_hsmKeystoreSave (k : Nat) : (hsmKeystoreSave S).after k env d = d ∨
    ∃ salt seen m env', anchorSeen S (env 1) d.fs = some seen ∧
      (hsmKeystoreSave S).after k env d = (saveFrom S salt seen).after m env' d := by
  rw [hsmKeystoreSave_eq]
  cases k with
  | zero => exact .inl (Prog.after_zero ..)
  | succ k =>
    rw [Prog.ask, Prog.after_atomic_bind]
    rcases hEntry : (((env 0).bytes 0 KS_SALT_LEN, (env 0).cryptoOk, (env 0).allocOk) :
      Option (ByteVec KS_SALT_LEN) × Bool × Bool) with ⟨_ | salt, _ | _, _ | _⟩
    case some.true.true =>
      cases k with
      | zero => exact .inl (Prog.after_zero ..)
      | succ k =>
        dsimp only
        rw [rbanchorRead, fileSection, Prog.after_atomic_bind]
        dsimp only
        cases hSeen : anchorSeen S (env (0 + 1)) d.fs with
        | none => exact .inl (Prog.after_ret ..)
        | some seen => exact .inr ⟨salt, seen, k, _, rfl, rfl⟩
    all_goals exact .inl (Prog.after_ret ..)

/-- A save that gets as far as reading the anchor goes on from there. -/
theorem run_hsmKeystoreSave :
    (((hsmKeystoreSave S).run env d).1 ≠ .ok ∧ ((hsmKeystoreSave S).run env d).2.1 = d) ∨
      ∃ salt seen env', anchorSeen S (env 1) d.fs = some seen ∧
        (hsmKeystoreSave S).run env d = (saveFrom S salt seen).run env' d := by
  rw [hsmKeystoreSave_eq, Prog.run_bind, Prog.run_ask]
  rcases hEntry : (((env 0).bytes 0 KS_SALT_LEN, (env 0).cryptoOk, (env 0).allocOk) :
    Option (ByteVec KS_SALT_LEN) × Bool × Bool) with ⟨_ | salt, _ | _, _ | _⟩
  case some.true.true =>
    dsimp only
    rw [Prog.run_bind, run_rbanchorRead]
    dsimp only
    cases hSeen : anchorSeen S (env (0 + 1)) d.fs with
    | none => exact .inl ⟨HsmStatus.noConfusion, rfl⟩
    | some seen => exact .inr ⟨salt, seen, _, rfl, rfl⟩
  all_goals exact .inl ⟨HsmStatus.noConfusion, rfl⟩

/-- A save that returns OK has put the complete new file in place. -/
theorem saved_of_run {env : Nat → Env} {d : Device n}
    (h : ((hsmKeystoreSave S).run env d).1 = .ok) : ∃ salt seen,
      anchorSeen S (env 1) d.fs = some seen ∧
      SavedState S d salt seen ((hsmKeystoreSave S).run env d).2.1 := by
  obtain ⟨hNot, -⟩ | ⟨salt, seen, env', hSeen, hRun⟩ := run_hsmKeystoreSave S env d
  · exact absurd h hNot
  · rw [hRun] at h ⊢
    exact ⟨salt, seen, hSeen, (along_saveFrom.run env').1 h⟩

end Start

end PqcHsm
