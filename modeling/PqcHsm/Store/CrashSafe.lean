import PqcHsm.Store.Written

/-!
# A crash during a save

A crash leaves the previous file with the previous anchor, or the complete new file with an
anchor that may or may not have moved. Leftover temporary files change nothing. What is left
can be loaded unless the epoch wraps around.
-/

namespace PqcHsm

open ByteCodec Sections

variable {n : Nat} {S : Setup}

/-- The two runs report the same and leave the same token, key store and anchor. -/
structure SameOutcome {β : Type} (p : DevProg n β) (env : Nat → Env) (d d' : Device n) : Prop where
  result : (p.run env d).1 = (p.run env d').1
  tok : (p.run env d).2.1.tok = (p.run env d').2.1.tok
  file : (p.run env d).2.1.fs.file = (p.run env d').2.1.fs.file
  anchor : (p.run env d).2.1.fs.anchor = (p.run env d').2.1.fs.anchor

/-- The complete file a save of the device writes, when its read of the anchor is right. -/
def NewFile (S : Setup) (d : Device n) (fs : FileSys) : Prop :=
  ∃ salt blob, SavedFile S d salt blob ∧
    fs.file = some (savedBytes S.crypto salt (d.fs.anchor + 1) blob)

/-- What a crash in a save of `d` may leave. The process that comes after is any device with the
files the crash left and slots that carry their numbers, as every new token has. -/
structure SurvivesCrash (S : Setup) (d d' : Device n) : Prop where
  file : (d'.fs.file = d.fs.file ∧ d'.fs.anchor = d.fs.anchor) ∨ NewFile S d d'.fs
  previous : d'.fs.file = d.fs.file → d'.fs.anchor = d.fs.anchor → ∀ (d₂ : Device n) env,
    SameOutcome (hsmKeystoreLoad S) env { d₂ with fs := d.fs } { d₂ with fs := d'.fs }
  new : NewFile S d d'.fs → ∀ (d₂ : Device n) env, d₂.fs = d'.fs → d₂.Numbered →
    (∀ k, (env k).Works (d'.fs.file.getD []).length) →
    ((hsmKeystoreLoad S).run env d₂).1 = .ok ∧ ((hsmKeystoreLoad S).run env d₂).2.1 =
      d₂.withSlots fun i => restoredSlot S.crypto (d.tok.slots i)
  leftovers : ∀ (d₂ : Device n) tmp anchorTmp env, d₂.fs = d'.fs →
    SameOutcome (hsmKeystoreLoad S) env d₂ { d₂ with fs := { d₂.fs with tmp, anchorTmp } } ∧
      SameOutcome (hsmKeystoreSave S) env d₂ { d₂ with fs := { d₂.fs with tmp, anchorTmp } }

/-- The anchor value the save works with, when it gets one, is that of the anchor. -/
def AnchorReads (S : Setup) (env : Nat → Env) (fs : FileSys) : Prop :=
  ∀ seen, anchorSeen S (env 1) fs = some seen → seen = fs.anchor

/-- After every number of completed steps of a save, in every course it can take, the device
survives a crash. -/
def CrashConsistent (S : Setup) (d : Device n) : Prop :=
  ∀ env k, AnchorReads S env d.fs → SurvivesCrash S d ((hsmKeystoreSave S).after k env d)

section Leftovers

/-! ### Leftover temporary files -/

variable {d d' : Device n}

theorem together_slotSection {β : Type} (h : SameButTmp d d') (i : Fin n)
    (body : Env → Slot → β × Slot × List Event) :
    (slotSection i body).Together (fun _ => SameButTmp) d d' := by
  cases h with
  | mk tmp a => exact Prog.together_atomic fun e => ⟨rfl, .mk tmp a⟩

/-- A step that does not look at the temporary files and leaves the files alone. -/
theorem together_read {β : Type} (h : SameButTmp d d') (read : Env → FileSys → β)
    (hRead : ∀ e (fs : FileSys) tmp a, read e { fs with tmp, anchorTmp := a } = read e fs) :
    (fileSection fun e fs => (read e fs, fs, []) : DevProg n β).Together (fun _ => SameButTmp)
      d d' := by
  cases h with
  | mk tmp a => exact Prog.together_atomic fun e => ⟨(hRead e d.fs tmp a).symm, .mk tmp a⟩

theorem together_ask {β : Type} (h : SameButTmp d d') (read : Env → β) :
    (Prog.ask read : DevProg n β).Together (fun _ => SameButTmp) d d' :=
  Prog.together_atomic fun _ => ⟨rfl, h⟩

theorem together_rbanchorRead (h : SameButTmp d d') :
    (rbanchorRead S : DevProg n _).Together (fun _ => SameButTmp) d d' := by
  refine together_read h (fun e fs => anchorSeen S e fs) fun e fs tmp a => ?_
  unfold anchorSeen
  cases S.anchorProvider <;> rfl

theorem together_readFile (h : SameButTmp d d') :
    (readFile : DevProg n _).Together (fun _ => SameButTmp) d d' :=
  together_read h _ fun _ _ _ _ => rfl

theorem together_hsmSlotSerialize (h : SameButTmp d d') (id : Nat) (kek : ByteVec 32) (cap : Nat) :
    (hsmSlotSerialize S id kek cap : DevProg n _).Together (fun _ => SameButTmp) d d' := by
  unfold hsmSlotSerialize
  cases slotAt n id with
  | none => exact h
  | some i => exact together_slotSection h i _

theorem together_hsmSlotDeserialize (h : SameButTmp d d') (id : Nat) (kek : ByteVec 32)
    (blob : Bytes) :
    (hsmSlotDeserialize S id kek blob : DevProg n _).Together (fun _ => SameButTmp) d d' := by
  unfold hsmSlotDeserialize
  cases slotAt n id with
  | none => exact h
  | some i => exact together_slotSection h i _

theorem together_serializeSlots (h : SameButTmp d d') (kek : ByteVec 32) (ids : List Nat) :
    (serializeSlots S kek ids : DevProg n _).Together (fun _ => SameButTmp) d d' := by
  induction ids generalizing d d' with
  | nil => exact h
  | cons id ids ih =>
    apply Prog.together_bind
    refine (together_hsmSlotSerialize h id kek _).mono fun r d₁ d₁' h₁ => ?_
    cases r with
    | error st => exact h₁
    | ok blob =>
      apply Prog.together_bind
      refine (ih h₁).mono fun r d₂ d₂' h₂ => ?_
      cases r <;> exact h₂

theorem together_deserializeSlots (h : SameButTmp d d') (kek : ByteVec 32) (st : HsmStatus)
    (ids : List Nat) (rest : Bytes) :
    (deserializeSlots S kek st ids rest : DevProg n _).Together (fun _ => SameButTmp) d d' := by
  induction ids generalizing d d' st rest with
  | nil => exact h
  | cons id ids ih =>
    unfold deserializeSlots
    split
    · exact h
    · dsimp only
      split
      · exact h
      · apply Prog.together_bind
        refine (together_hsmSlotDeserialize h id kek _).mono fun st' d₁ d₁' h₁ => ?_
        split
        · exact ih h₁ st' _
        · exact h₁

theorem together_hsmKeystoreLoad (h : SameButTmp d d') :
    (hsmKeystoreLoad S).Together (fun _ => SameButTmp) d d' := by
  unfold hsmKeystoreLoad
  apply Prog.together_bind
  refine (together_readFile h).mono fun r d₁ d₁' h₁ => ?_
  cases r with
  | error st => exact h₁
  | ok buf =>
    dsimp only
    split
    · exact h₁
    · apply Prog.together_bind
      refine (together_ask h₁ _).mono fun keysOk d₂ d₂' h₂ => ?_
      split
      · exact h₂
      · split
        · exact h₂
        · apply Prog.together_bind
          refine (together_rbanchorRead h₂).mono fun seen d₃ d₃' h₃ => ?_
          split
          · exact h₃
          · split
            · exact h₃
            · exact together_deserializeSlots h₃ _ _ _ _

/-- Only the temporary file of the anchor differs. -/
inductive SameButAnchorTmp (d : Device n) : Device n → Prop where
  | mk (anchorTmp : Option UInt64) : SameButAnchorTmp d { d with fs := { d.fs with anchorTmp } }

theorem SameButAnchorTmp.leftover (h : SameButAnchorTmp d d') : SameButTmp d d' := by
  cases h with
  | mk a => exact .mk d.fs.tmp a

/-- A step on the files that has nothing to do with the temporary file of the anchor. -/
theorem together_files {β : Type} (h : SameButAnchorTmp d d')
    (body : Env → FileSys → β × FileSys × List Event)
    (hBody : ∀ e (fs : FileSys) a, (body e { fs with anchorTmp := a }).1 = (body e fs).1 ∧
      (body e { fs with anchorTmp := a }).2.1 = { (body e fs).2.1 with anchorTmp := a }) :
    (fileSection body : DevProg n β).Together (fun _ => SameButAnchorTmp) d d' := by
  cases h with
  | mk a =>
    refine Prog.together_atomic fun e => ⟨(hBody e d.fs a).1.symm, ?_⟩
    dsimp only
    rw [(hBody e d.fs a).2]
    exact .mk a

theorem together_writeTmp (h : SameButAnchorTmp d d') (buf : Bytes) :
    (writeTmp buf : DevProg n _).Together (fun _ => SameButAnchorTmp) d d' := by
  apply together_files h
  intro e fs a
  cases e.ioOk <;> exact ⟨rfl, rfl⟩

theorem together_fsyncTmp (h : SameButAnchorTmp d d') :
    (fsyncTmp : DevProg n _).Together (fun _ => SameButAnchorTmp) d d' :=
  together_files h _ fun _ _ _ => ⟨rfl, rfl⟩

theorem together_renameTmp (h : SameButAnchorTmp d d') :
    (renameTmp : DevProg n _).Together (fun _ => SameButAnchorTmp) d d' := by
  apply together_files h
  intro e fs a
  cases e.ioOk <;> exact ⟨rfl, rfl⟩

theorem together_fsyncDir (h : SameButAnchorTmp d d') :
    (fsyncDir : DevProg n _).Together (fun _ => SameButAnchorTmp) d d' :=
  together_files h _ fun _ _ _ => ⟨rfl, rfl⟩

theorem together_unlinkTmp (h : SameButTmp d d') :
    (unlinkTmp : DevProg n _).Together (fun _ => SameButTmp) d d' := by
  cases h with
  | mk tmp a =>
    refine Prog.together_atomic fun e => ⟨rfl, ?_⟩
    dsimp only
    cases e.ioOk with
    | true => exact .mk none a
    | false => exact .mk tmp a

theorem together_ksWrite (h : SameButAnchorTmp d d') (fuel : Nat) (buf : Bytes) :
    (ksWrite fuel buf : DevProg n _).Together (fun _ => SameButAnchorTmp) d d' := by
  induction fuel generalizing d d' buf with
  | zero => exact h
  | succ fuel ih =>
    unfold ksWrite
    split
    · exact h
    · apply Prog.together_bind
      refine (together_writeTmp h buf).mono fun w d₁ d₁' h₁ => ?_
      split
      · exact h₁
      · exact ih h₁ _

theorem together_ksWriteAll (h : SameButAnchorTmp d d') (chunks : List Bytes) :
    (ksWriteAll chunks : DevProg n _).Together (fun _ => SameButAnchorTmp) d d' := by
  induction chunks generalizing d d' with
  | nil => exact h
  | cons chunk chunks ih =>
    apply Prog.together_bind
    refine (together_ksWrite h _ chunk).mono fun good d₁ d₁' h₁ => ?_
    split
    · exact ih h₁
    · exact h₁

/-- Opening the temporary file of the anchor empties it: from there on nothing differs. -/
theorem together_anchorFileWrite (h : SameButAnchorTmp d d') (v : UInt64) :
    (anchorFileWrite v : DevProg n _).Together (fun _ => SameButAnchorTmp) d d' := by
  have hEqual : ∀ (p : DevProg n Bool) (d : Device n),
      p.Together (fun _ => SameButAnchorTmp) d d := by
    intro p d
    refine (Prog.together_refl p d).mono fun _ d₁ d₁' hEq => ?_
    subst hEq
    exact .mk d₁.fs.anchorTmp
  cases h with
  | mk a =>
    apply Prog.together_bind
    intro e
    by_cases hOpen : e.ioOk = true
    · simp only [if_pos hOpen]
      exact ⟨trivial, hEqual _ _⟩
    · simp only [if_neg hOpen]
      exact ⟨trivial, .mk a⟩

theorem together_rbanchorBump (h : SameButAnchorTmp d d') :
    (rbanchorBump S : DevProg n _).Together (fun _ => SameButAnchorTmp) d d' := by
  unfold rbanchorBump
  split
  · apply Prog.together_bind
    have hRead : (rbanchorRead S : DevProg n _).Together (fun _ => SameButAnchorTmp) d d' := by
      apply together_files h
      intro e fs a
      refine ⟨?_, rfl⟩
      unfold anchorSeen
      cases S.anchorProvider <;> rfl
    refine hRead.mono fun cur d₁ d₁' h₁ => ?_
    cases cur with
    | none => exact h₁
    | some cur =>
      apply Prog.together_bind
      exact (together_anchorFileWrite h₁ _).mono fun written d₂ d₂' h₂ => h₂
  · apply together_files h
    intro e fs a
    cases e.ioOk <;> exact ⟨rfl, rfl⟩

/-- Opening the temporary file empties it, too. -/
theorem together_commitFile (h : SameButTmp d d') (chunks : List Bytes) :
    (commitFile S chunks : DevProg n _).Together (fun _ => SameButTmp) d d' := by
  have hLeave : ∀ (st : HsmStatus) {d d' : Device n}, SameButTmp d d' →
      (unlinkTmp.bind fun _ => .ret st : DevProg n _).Together (fun _ => SameButTmp) d d' := by
    intro st d d' h
    apply Prog.together_bind
    exact (together_unlinkTmp h).mono fun _ d₁ d₁' h₁ => h₁
  have hOpen : (openTmp : DevProg n _).Together (fun opened d d' =>
      if opened then SameButAnchorTmp d d' else SameButTmp d d') d d' := by
    cases h with
    | mk tmp a =>
      intro e
      by_cases hIo : e.ioOk = true
      · simp only [if_pos hIo]
        exact ⟨trivial, .mk a⟩
      · simp only [if_neg hIo]
        exact ⟨trivial, .mk tmp a⟩
  unfold commitFile
  apply Prog.together_bind
  refine hOpen.mono fun opened d₁ d₁' h₁ => ?_
  cases opened with
  | false => exact hLeave _ h₁
  | true =>
    rw [if_pos rfl] at h₁ ⊢
    apply Prog.together_bind
    refine (together_ksWriteAll h₁ chunks).mono fun written d₂ d₂' h₂ => ?_
    apply Prog.together_bind
    have hSync : (if written then fsyncTmp else pure false : DevProg n Bool).Together
        (fun _ => SameButAnchorTmp) d₂ d₂' := by
      split
      · exact together_fsyncTmp h₂
      · exact h₂
    refine hSync.mono fun synced d₃ d₃' h₃ => ?_
    apply Prog.together_bind
    have hRename : (if synced then renameTmp else pure false : DevProg n Bool).Together
        (fun _ => SameButAnchorTmp) d₃ d₃' := by
      split
      · exact together_renameTmp h₃
      · exact h₃
    refine hRename.mono fun renamed d₄ d₄' h₄ => ?_
    cases renamed with
    | false => exact hLeave _ h₄.leftover
    | true =>
      rw [if_pos rfl]
      apply Prog.together_bind
      refine (together_fsyncDir h₄).mono fun _ d₅ d₅' h₅ => ?_
      apply Prog.together_bind
      exact (together_rbanchorBump h₅).mono fun _ d₆ d₆' h₆ => h₆.leftover

theorem together_hsmKeystoreSave (h : SameButTmp d d') :
    (hsmKeystoreSave S).Together (fun _ => SameButTmp) d d' := by
  rw [hsmKeystoreSave_eq]
  apply Prog.together_bind
  refine (together_ask h _).mono fun entry d₁ d₁' h₁ => ?_
  obtain ⟨_ | salt, _ | _, _ | _⟩ := entry
  case some.true.true =>
    apply Prog.together_bind
    refine (together_rbanchorRead h₁).mono fun seen d₂ d₂' h₂ => ?_
    cases seen with
    | none => exact h₂
    | some seen =>
      apply Prog.together_bind
      refine (together_serializeSlots h₂ _ _).mono fun r d₃ d₃' h₃ => ?_
      cases r with
      | error st => exact h₃
      | ok blobs =>
        apply Prog.together_bind
        refine (together_ask h₃ _).mono fun macOk d₄ d₄' h₄ => ?_
        split
        · exact together_commitFile h₄ _
        · exact h₄
  all_goals exact h₁

theorem SameButTmp.outcome {β : Type} {p : DevProg n β} {env : Nat → Env} (h : SameButTmp d d')
    (hp : ∀ {d d' : Device n}, SameButTmp d d' → p.Together (fun _ => SameButTmp) d d') :
    SameOutcome p env d d' := by
  obtain ⟨hResult, hSame⟩ := (hp h).run env
  generalize hd : (p.run env d).2.1 = d₁ at hSame
  generalize hd' : (p.run env d').2.1 = d₁' at hSame
  cases hSame with
  | mk tmp a => exact ⟨hResult, by rw [hd, hd'], by rw [hd, hd'], by rw [hd, hd']⟩

end Leftovers

section Completing

/-! ### A save in which nothing fails -/

variable {d : Device n} {e : Env}

theorem slotSerializeLocked_works {C : Crypto} {len : Nat} (hWorks : e.Works len)
    (hNonce : e.bytes 0 12 ≠ none) (kek : ByteVec 32) {s : Slot} (hShape : s.KeyShape) :
    ∃ blob, slotSerializeLocked C e kek hsmSlotBlobMax s = .ok blob := by
  obtain ⟨nonce, hNonce⟩ := Option.ne_none_iff_exists'.mp hNonce
  obtain ⟨hPk, hKey⟩ := keyShape_bounds hShape
  have hCap : ¬ hsmSlotBlobMax < SLOT_META_WIRE_LEN + pqcWrapBlobLen (slotPayload s).length := by
    rw [length_slotPayload]
    unfold hsmSlotBlobMax pqcWrapBlobLen PAYLOAD_MAX
    omega
  rw [slotSerializeLocked, if_neg (by simp [hWorks.allocOk]), if_neg hCap, hNonce]
  exact ⟨_, if_pos hWorks.cryptoOk⟩

theorem run_serializeSlots_works {len : Nat} (hWorks : e.Works len) (hNonce : e.bytes 0 12 ≠ none)
    (kek : ByteVec 32) (hShape : ∀ i, (d.tok.slots i).KeyShape)
    (hSealed : ∀ i, (d.tok.slots i).Sealed S.crypto) (ids : List (Fin n)) :
    ∃ blobs, ((serializeSlots S kek (ids.map Fin.val)).run (fun _ => e) d).1 = .ok blobs ∧
      ((serializeSlots S kek (ids.map Fin.val)).run (fun _ => e) d).2.1 = d := by
  induction ids with
  | nil => exact ⟨[], rfl, rfl⟩
  | cons i ids ih =>
    obtain ⟨blob, hBlob⟩ := slotSerializeLocked_works hWorks hNonce kek (hShape i) (C := S.crypto)
    have hCheck : slotCheckIntegrity S.crypto e 0 (d.tok.slots i) = .ok :=
      if_pos ⟨hWorks.sealOk 0, hSealed i⟩
    have hRun : (hsmSlotSerialize S i.val kek hsmSlotBlobMax).run (fun _ => e) d =
        (.ok blob, d, fun _ => e) := by
      rw [hsmSlotSerialize, slotAt_fin]
      simp only [slotSection, Prog.run_atomic, hCheck, hBlob, setSlot_self]
    obtain ⟨blobs, hResult, hState⟩ := ih
    refine ⟨blob :: blobs, ?_, ?_⟩
    · rw [List.map_cons, serializeSlots, Prog.bind_eq_bind, Prog.run_bind, hRun]
      simp only [Prog.bind_eq_bind, Prog.run_bind, hResult]
      rfl
    · rw [List.map_cons, serializeSlots, Prog.bind_eq_bind, Prog.run_bind, hRun]
      simp only [Prog.bind_eq_bind, Prog.run_bind, hResult]
      exact hState

theorem run_ksWrite_works (hIo : e.ioOk = true) (fuel : Nat) (buf : Bytes) (d : Device n) :
    ((ksWrite fuel buf).run (fun _ => e) d).1 = true := by
  induction fuel generalizing buf d with
  | zero => rfl
  | succ fuel ih =>
    unfold ksWrite
    split
    · rfl
    · rename_i hBuf
      have hPos : (max 1 (min e.wrote buf.length) = 0) = False := by simp
      simp only [Prog.bind_eq_bind, Prog.run_bind, writeTmp, fileSection, Prog.run_atomic, hIo,
        if_true, hPos, if_false]
      exact ih _ _

theorem run_ksWriteAll_works (hIo : e.ioOk = true) (chunks : List Bytes) (d : Device n) :
    ((ksWriteAll chunks).run (fun _ => e) d).1 = true := by
  induction chunks generalizing d with
  | nil => rfl
  | cons chunk chunks ih =>
    rw [ksWriteAll, Prog.bind_eq_bind, Prog.run_bind, run_ksWrite_works hIo, Prog.run_const_env,
      if_pos rfl]
    exact ih _

/-- A save in which nothing fails passes through the state after the rename, where the new file
is in place and the anchor has not moved. -/
theorem visits_renamed {len : Nat} (hWorks : e.Works len) {salt : ByteVec KS_SALT_LEN}
    (hSalt : e.bytes 0 KS_SALT_LEN = some salt) (hNonce : e.bytes 0 12 ≠ none)
    (hShape : ∀ i, (d.tok.slots i).KeyShape) (hSealed : ∀ i, (d.tok.slots i).Sealed S.crypto) :
    ∃ blob tmp anchorTmp, SavedFile S d salt blob ∧ (hsmKeystoreSave S).Visits e d
      (savedWith S d salt d.fs.anchor blob tmp d.fs.anchor anchorTmp) := by
  have hIo := hWorks.ioOk
  have hSeen : anchorSeen S e d.fs = some d.fs.anchor := hWorks.anchorSeen d.fs
  obtain ⟨blobs, hBlobs, hSame⟩ := run_serializeSlots_works hWorks hNonce
    (pqcKekDerive S.crypto salt) hShape hSealed (List.finRange n)
  obtain ⟨-, hWritten⟩ := (along_serializeSlots (S := S) (d := d) (pqcKekDerive S.crypto salt) _
    (List.nodup_finRange n)).run fun _ => e
  obtain ⟨blob, rfl, hWritten⟩ := hWritten blobs hBlobs
  rw [List.map_coe_finRange_eq_range] at hBlobs hSame
  have hFile : SavedFile S d salt blob :=
    ⟨hSealed, fun i => (hWritten i (List.mem_finRange i)).2⟩
  -- the sections before the files are touched
  have hStart : ∀ d', (commitFile S (keystoreHeader n salt (d.fs.anchor + 1) ::
      (((List.finRange n).map blob).map keystoreRecord ++
        [(keystoreTag S.crypto salt (keystoreHeader n salt (d.fs.anchor + 1) ++
          (((List.finRange n).map blob).map keystoreRecord).flatten)).toList]))).Visits e d d' →
      (hsmKeystoreSave S).Visits e d d' := by
    intro d' hVisits
    rw [hsmKeystoreSave_eq]
    refine Prog.visits_bind (a := (some salt, true, true)) ?_ rfl ?_
    · rw [Prog.run_ask, hSalt, hWorks.cryptoOk, hWorks.allocOk]
    · refine Prog.visits_bind (a := some d.fs.anchor) hSeen rfl ?_
      refine Prog.visits_bind hBlobs hSame ?_
      refine Prog.visits_bind (a := true) hWorks.cryptoOk rfl ?_
      exact hVisits
  -- opening, writing and renaming
  let opened : Device n := { d with fs := { d.fs with tmp := some [] } }
  generalize hChunks : keystoreHeader n salt (d.fs.anchor + 1) :: _ = chunks at hStart
  have hFlat : chunks.flatten = savedBytes S.crypto salt (d.fs.anchor + 1) blob :=
    hChunks ▸ flatten_chunks S.crypto salt (d.fs.anchor + 1) blob
  obtain ⟨written, hRun⟩ : ∃ written, ((ksWriteAll chunks).run (fun _ => e) opened).2.1 = written :=
    ⟨_, rfl⟩
  have hGood := run_ksWriteAll_works hIo chunks opened
  obtain ⟨hSame, hTmp⟩ := (along_ksWriteAll chunks
    (.mk (some []) d.fs.anchorTmp : SameButTmp d opened) rfl).inv.run fun _ => e
  rw [hRun] at hSame hTmp
  have hTmp := hTmp hGood
  rw [List.nil_append, hFlat] at hTmp
  cases hSame with
  | mk tmp a =>
    obtain rfl : tmp = _ := hTmp
    refine ⟨blob, none, a, hFile, hStart _ ?_⟩
    have hOpened : (openTmp.run (fun _ => e) d).2.1 = opened := by
      simp only [openTmp, fileSection, Prog.run_atomic, hIo, if_true, opened]
    refine Prog.visits_bind (a := true) ?_ hOpened ?_
    · simp only [openTmp, fileSection, Prog.run_atomic, hIo, if_true]
    · rw [if_pos rfl]
      refine Prog.visits_bind hGood hRun ?_
      refine Prog.visits_bind (a := true) hIo rfl ?_
      refine Prog.visits_bind (a := true) ?_ ?_ (Prog.visits_here ..)
      · simp only [if_true, renameTmp, fileSection, Prog.run_atomic, hIo]
      · simp only [if_true, renameTmp, fsyncTmp, fileSection, Prog.run_atomic, hIo, savedWith]

end Completing

section Consistency

variable {d : Device n}

theorem sameButTmp_device (d' : Device n) (h : SameButTmp d d') :
    d'.fs.file = d.fs.file ∧ d'.fs.anchor = d.fs.anchor := by
  cases h with
  | mk tmp a => exact ⟨rfl, rfl⟩

/-- What the later calls make of a crash does not depend on what the crash left beside the
file and the anchor. -/
theorem survivesCrash_of_file {d' : Device n}
    (hFile : (d'.fs.file = d.fs.file ∧ d'.fs.anchor = d.fs.anchor) ∨ NewFile S d d'.fs)
    (hNew : NewFile S d d'.fs → ∀ (d₂ : Device n) env, d₂.fs = d'.fs → d₂.Numbered →
      (∀ k, (env k).Works (d'.fs.file.getD []).length) →
      ((hsmKeystoreLoad S).run env d₂).1 = .ok ∧ ((hsmKeystoreLoad S).run env d₂).2.1 =
        d₂.withSlots fun i => restoredSlot S.crypto (d.tok.slots i)) : SurvivesCrash S d d' where
  file := hFile
  previous hSame hAnchor d₂ env := by
    have hLeft : SameButTmp { d₂ with fs := d.fs } { d₂ with fs := d'.fs } := by
      obtain ⟨tok, hw, file, tmp, anchor, anchorTmp⟩ := d'
      obtain rfl : file = _ := hSame
      obtain rfl : anchor = _ := hAnchor
      exact .mk tmp anchorTmp
    exact hLeft.outcome together_hsmKeystoreLoad
  new := hNew
  leftovers d₂ tmp anchorTmp env _ :=
    ⟨(SameButTmp.mk tmp anchorTmp).outcome together_hsmKeystoreLoad,
      (SameButTmp.mk tmp anchorTmp).outcome together_hsmKeystoreSave⟩

theorem anchorMoved_le {old v : UInt64} (h : AnchorMoved old v) (hWrap : old + 1 ≠ 0) :
    v ≤ old + 1 := by
  have hNat : (old + 1).toNat = old.toNat + 1 := by
    rw [UInt64.toNat_add, UInt64.toNat_one]
    refine Nat.mod_eq_of_lt (Nat.lt_of_le_of_ne old.toNat_lt fun hEq => hWrap ?_)
    rw [← UInt64.toNat_inj, UInt64.toNat_add, UInt64.toNat_one, hEq]
    rfl
  rw [UInt64.le_iff_toNat_le, hNat]
  obtain rfl | rfl | rfl | rfl := h
  · exact Nat.le_succ _
  · exact hNat.le
  · exact Nat.zero_le _
  · exact Nat.succ_le_succ (Nat.zero_le _)

/-- While the epoch does not wrap around, every crash is survived. -/
theorem crashConsistent_of_epoch (hn : n < 2 ^ 32) (hStorable : d.Storable)
    (hWrap : d.fs.anchor + 1 ≠ 0) : CrashConsistent S d := by
  intro env k hReads
  generalize hCrash : (hsmKeystoreSave S).after k env d = d'
  have hLoads : d'.fs.anchor ≤ d.fs.anchor + 1 → NewFile S d d'.fs → ∀ (d₂ : Device n) env,
      d₂.fs = d'.fs → d₂.Numbered → (∀ k, (env k).Works (d'.fs.file.getD []).length) →
      ((hsmKeystoreLoad S).run env d₂).1 = .ok ∧ ((hsmKeystoreLoad S).run env d₂).2.1 =
        d₂.withSlots fun i => restoredSlot S.crypto (d.tok.slots i) := by
    rintro hAnchor ⟨salt, blob, hFile, hDisk⟩ d₂ env hFs hNumbered hEnv
    rw [← hFs] at hDisk hEnv hAnchor
    rw [hDisk] at hEnv
    exact run_hsmKeystoreLoad_saved hn hStorable hFile hDisk hNumbered hEnv hAnchor
  have hOld : d.fs.anchor ≤ d.fs.anchor + 1 := anchorMoved_le (.inl rfl) hWrap
  have hPrevious : SameButTmp d d' → SurvivesCrash S d d' := by
    intro hSame
    obtain ⟨hFile, hAnchor⟩ := sameButTmp_device d' hSame
    exact survivesCrash_of_file (.inl ⟨hFile, hAnchor⟩) (hLoads (hAnchor ▸ hOld))
  obtain hSame | ⟨salt, seen, m, env', hSeen, hAfter⟩ := after_hsmKeystoreSave S env d k
  · rw [hCrash] at hSame
    exact hPrevious (hSame ▸ SameButTmp.refl d)
  · obtain rfl := hReads seen hSeen
    have hState : CrashState S d salt d.fs.anchor d' := by
      rw [← hCrash, hAfter]
      exact along_saveFrom.after env' m
    obtain hSame | hSaved := hState
    · exact hPrevious hSame
    · cases hSaved with
      | mk blob tmp anchor anchorTmp hFile hMoved =>
        exact survivesCrash_of_file (.inr ⟨salt, blob, hFile, rfl⟩)
          (hLoads (anchorMoved_le hMoved hWrap))

/-- A save that stops at a slot that is not sealed leaves the files alone. -/
theorem crashConsistent_of_unsealed {i : Fin n} (hi : ¬ (d.tok.slots i).Sealed S.crypto) :
    CrashConsistent S d := by
  intro env k hReads
  generalize hCrash : (hsmKeystoreSave S).after k env d = d'
  have hPrevious : SameButTmp d d' → SurvivesCrash S d d' := by
    intro hSame
    refine survivesCrash_of_file (.inl (sameButTmp_device d' hSame)) ?_
    rintro ⟨salt, blob, hFile, -⟩
    exact absurd (hFile.sealed i) hi
  obtain hSame | ⟨salt, seen, m, env', hSeen, hAfter⟩ := after_hsmKeystoreSave S env d k
  · rw [hCrash] at hSame
    exact hPrevious (hSame ▸ SameButTmp.refl d)
  · have hState : CrashState S d salt seen d' := by
      rw [← hCrash, hAfter]
      exact along_saveFrom.after env' m
    obtain hSame | hSaved := hState
    · exact hPrevious hSame
    · cases hSaved with
      | mk blob tmp anchor anchorTmp hFile hMoved => exact absurd (hFile.sealed i) hi

theorem works_calm (len : Nat) : ({ Env.calm 0 with wrote := len } : Env).Works len :=
  ⟨fun _ => rfl, rfl, rfl, rfl, Nat.le_refl len⟩

/-- When the epoch wraps around, a crash after the rename leaves a file the anchor rules out. -/
theorem not_crashConsistent (hn : n < 2 ^ 32) (hStorable : d.Storable)
    (hSealed : ∀ i, (d.tok.slots i).Sealed S.crypto) (hWrap : d.fs.anchor + 1 = 0) :
    ¬ CrashConsistent S d := by
  intro hConsistent
  have hWorks := works_calm 0
  obtain ⟨salt, hSalt⟩ : ∃ salt, ({ Env.calm 0 with wrote := 0 } : Env).bytes 0 KS_SALT_LEN =
      some salt := ⟨_, rfl⟩
  obtain ⟨blob, tmp, anchorTmp, hFile, k, hAfter⟩ := visits_renamed hWorks (S := S) hSalt
    (Option.some_ne_none _) (fun i => (hStorable i).shape) hSealed
  have hReads : AnchorReads S (fun _ => { Env.calm 0 with wrote := 0 }) d.fs := by
    intro seen hSeen
    rw [hWorks.anchorSeen] at hSeen
    exact (Option.some.inj hSeen).symm
  have hSurvives := hConsistent _ k hReads
  rw [hAfter] at hSurvives
  generalize hDevice : savedWith S d salt d.fs.anchor blob tmp d.fs.anchor anchorTmp = d'
    at hSurvives
  have hDisk : d'.fs.file = some (savedBytes S.crypto salt (d.fs.anchor + 1) blob) := by
    rw [← hDevice]
    rfl
  have hAnchor : d'.fs.anchor = d.fs.anchor := by
    rw [← hDevice]
    rfl
  have hNumbered : d'.Numbered := by
    rw [← hDevice]
    exact hStorable.numbered
  obtain ⟨hOk, -⟩ := hSurvives.new ⟨salt, blob, hFile, hDisk⟩ d' _ rfl hNumbered
    fun _ => works_calm _
  refine (run_hsmKeystoreLoad_refused fun parts hAccepts => ?_).1 hOk
  -- the file carries epoch 0 under the highest anchor there is
  obtain ⟨buf, hBuf, -, -, -, hParse⟩ := hAccepts.read
  rw [hDisk] at hBuf
  cases hBuf
  rw [keystoreParse_savedBytes hn] at hParse
  cases hParse
  obtain ⟨seen, hSeen, hLe⟩ := hAccepts.anchor
  rw [(works_calm _).anchorSeen, hAnchor] at hSeen
  cases hSeen
  change d.fs.anchor ≤ d.fs.anchor + 1 at hLe
  rw [hWrap] at hLe
  have hNone : d.fs.anchor = 0 := by
    rw [← UInt64.toNat_inj]
    exact Nat.le_zero.mp (UInt64.le_iff_toNat_le.mp hLe)
  rw [hNone] at hWrap
  exact absurd hWrap (by decide)

end Consistency

section Runs

/-- A new token of one slot under an anchor of the given value. -/
def besideAnchor (anchor : UInt64) : Device 1 :=
  ⟨hsmTokenNew .clear 1 true, fun _ _ => none, ⟨none, none, anchor, none⟩⟩

end Runs

end PqcHsm
