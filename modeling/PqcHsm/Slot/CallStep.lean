import PqcHsm.Slot.Step

/-!
# Every operation is made of device steps

The programs of the key store, of restore and of injection, and with them every
operation a thread can call.
-/

namespace PqcHsm

open ByteCodec Sections

variable {n : Nat} {S : Setup} {all loads : Bool}

section Files

theorem drafts_rbanchorRead : DevProg.Drafts (rbanchorRead S : DevProg n _) :=
  drafts_fileSection (fun _ _ => rfl) (by simp)

theorem drafts_openAnchorTmp : DevProg.Drafts (openAnchorTmp : DevProg n _) := by
  refine drafts_fileSection (fun e fs => ?_) fun e fs => ?_
  · split <;> rfl
  · split <;> simp

theorem drafts_writeAnchorTmp (v : UInt64) : DevProg.Drafts (writeAnchorTmp v : DevProg n _) := by
  refine drafts_fileSection (fun e fs => ?_) fun e fs => ?_
  · split
    · rfl
    · dsimp only
      split <;> rfl
  · split <;> simp

theorem drafts_renameAnchorTmp : DevProg.Drafts (renameAnchorTmp : DevProg n _) := by
  refine drafts_fileSection (fun e fs => ?_) fun e fs => ?_
  · split <;> rfl
  · split <;> simp [Event.OnDraft]

theorem drafts_removeAnchorTmp : DevProg.Drafts (removeAnchorTmp : DevProg n _) := by
  refine drafts_fileSection (fun e fs => ?_) (by simp)
  dsimp only
  split <;> rfl

theorem drafts_anchorFileWrite (v : UInt64) :
    DevProg.Drafts (anchorFileWrite v : DevProg n _) := by
  have hRemove : DevProg.Drafts (do removeAnchorTmp; pure false : DevProg n Bool) :=
    Prog.within_bind drafts_removeAnchorTmp fun _ => trivial
  refine Prog.within_bind drafts_openAnchorTmp fun opened => ?_
  split
  · refine Prog.within_bind (drafts_writeAnchorTmp v) fun written => ?_
    split
    · refine Prog.within_bind (drafts_fileSection (fun _ _ => rfl) (by simp)) fun _ => ?_
      refine Prog.within_bind drafts_renameAnchorTmp fun renamed => ?_
      split
      · trivial
      · exact hRemove
    · exact hRemove
  · trivial

theorem drafts_rbanchorBump : DevProg.Drafts (rbanchorBump S : DevProg n _) := by
  unfold rbanchorBump
  split
  · refine Prog.within_bind drafts_rbanchorRead fun cur => ?_
    split
    · trivial
    · exact Prog.within_bind (drafts_anchorFileWrite _) fun _ => trivial
  · refine drafts_fileSection (fun e fs => ?_) fun e fs => ?_
    · split <;> rfl
    · split <;> simp [Event.OnDraft]

theorem drafts_fsyncDir : DevProg.Drafts (fsyncDir : DevProg n _) :=
  drafts_fileSection (fun _ _ => rfl) (by simp)

theorem drafts_writeTmp (buf : Bytes) : DevProg.Drafts (writeTmp buf : DevProg n _) := by
  refine drafts_fileSection (fun e fs => ?_) fun e fs => ?_
  · split <;> rfl
  · split <;> simp [Event.OnDraft]

theorem drafts_openTmp : DevProg.Drafts (openTmp : DevProg n _) := by
  refine drafts_fileSection (fun e fs => ?_) fun e fs => ?_
  · split <;> rfl
  · split <;> simp [Event.OnDraft]

theorem drafts_fsyncTmp : DevProg.Drafts (fsyncTmp : DevProg n _) :=
  drafts_fileSection (fun _ _ => rfl) (by simp)

theorem drafts_unlinkTmp : DevProg.Drafts (unlinkTmp : DevProg n _) := by
  refine drafts_fileSection (fun e fs => ?_) (by simp)
  dsimp only
  split <;> rfl

theorem stores_renameTmp : DevProg.Stores S (renameTmp : DevProg n _) := by
  refine stores_fileSection fun e fs => ?_
  split <;> simp [Event.OnFiles]

theorem drafts_ksWrite (fuel : Nat) (buf : Bytes) :
    DevProg.Drafts (ksWrite fuel buf : DevProg n _) := by
  induction fuel generalizing buf with
  | zero => trivial
  | succ fuel ih =>
    unfold ksWrite
    split
    · trivial
    · refine Prog.within_bind (drafts_writeTmp buf) fun w => ?_
      split
      · trivial
      · exact ih _

theorem drafts_ksWriteAll (chunks : List Bytes) :
    DevProg.Drafts (ksWriteAll chunks : DevProg n _) := by
  induction chunks with
  | nil => trivial
  | cons chunk chunks ih =>
    refine Prog.within_bind (drafts_ksWrite _ chunk) fun good => ?_
    split
    · exact ih
    · trivial

theorem stores_serializeSlots (kek : ByteVec 32) (ids : List Nat) :
    DevProg.Stores S (serializeSlots S kek ids : DevProg n _) := by
  induction ids with
  | nil => trivial
  | cons id ids ih =>
    refine Prog.within_bind (stores_hsmSlotSerialize id kek _) fun r => ?_
    rcases r with st | blob
    · trivial
    · refine Prog.within_bind ih fun r => ?_
      rcases r with st | blobs <;> trivial

theorem stores_commitFile (chunks : List Bytes) :
    DevProg.Stores S (commitFile S chunks : DevProg n _) := by
  refine Prog.within_bind drafts_openTmp.stores fun opened => ?_
  split
  · refine Prog.within_bind (drafts_ksWriteAll chunks).stores fun written => ?_
    refine Prog.within_bind ?_ fun synced => ?_
    · split
      · exact drafts_fsyncTmp.stores
      · trivial
    · refine Prog.within_bind ?_ fun renamed => ?_
      · split
        · exact stores_renameTmp
        · trivial
      · split
        · refine Prog.within_bind drafts_fsyncDir.stores fun _ => ?_
          exact Prog.within_bind drafts_rbanchorBump.stores fun _ => trivial
        · exact Prog.within_bind drafts_unlinkTmp.stores fun _ => trivial
  · exact Prog.within_bind drafts_unlinkTmp.stores fun _ => trivial

theorem stores_hsmKeystoreSave : DevProg.Stores S (hsmKeystoreSave S : DevProg n _) := by
  refine Prog.within_bind (drafts_ask _).stores fun entry => ?_
  obtain ⟨salt, keysOk, allocOk⟩ := entry
  cases salt with
  | none => trivial
  | some salt =>
    cases keysOk with
    | false => trivial
    | true =>
      cases allocOk with
      | false => trivial
      | true =>
        refine Prog.within_bind drafts_rbanchorRead.stores fun seen => ?_
        cases seen with
        | none => trivial
        | some seen =>
          refine Prog.within_bind (stores_serializeSlots _ _) fun r => ?_
          rcases r with st | blobs
          · trivial
          · refine Prog.within_bind (drafts_ask _).stores fun macOk => ?_
            split
            · exact stores_commitFile _
            · trivial

theorem stores_persistKeystore : DevProg.Stores S (persistKeystore S : DevProg n _) :=
  Prog.within_bind stores_hsmKeystoreSave fun _ => trivial

theorem quiet_exportRecords (bek : ByteVec 32) (ids : List Nat) :
    DevProg.Quiet S all loads (exportRecords S bek ids : DevProg n _) := by
  induction ids with
  | nil => trivial
  | cons id ids ih =>
    refine Prog.within_bind (quiet_hsmSlotGetMeta id) fun r => ?_
    rcases r with st | m
    · exact ih
    · dsimp only
      split
      · exact ih
      · refine Prog.within_bind (quiet_hsmSlotSerialize id bek _) fun r => ?_
        rcases r with st | blob
        · trivial
        · refine Prog.within_bind ih fun r => ?_
          rcases r with st | recs <;> trivial

theorem quiet_writeWhole (buf : Bytes) :
    DevProg.Quiet S all loads (writeWhole buf : DevProg n _) := quiet_ask _

theorem quiet_placeBackup (body tag : Bytes) :
    DevProg.Quiet S all loads (placeBackup body tag : DevProg n _) := by
  have hIf : ∀ (b : Bool) (p : DevProg n Bool), DevProg.Quiet S all loads p →
      DevProg.Quiet S all loads (if b then p else pure false) := by
    intro b p hp
    cases b with
    | true => exact hp
    | false => trivial
  refine Prog.within_bind (quiet_ask _) fun opened => ?_
  split
  · refine Prog.within_bind (quiet_writeWhole body) fun bodyOk => ?_
    refine Prog.within_bind (hIf bodyOk _ (quiet_writeWhole tag)) fun tagOk => ?_
    refine Prog.within_bind (hIf tagOk _ (quiet_ask _)) fun synced => ?_
    exact Prog.within_bind (hIf synced _ (quiet_ask _)) fun renamed => trivial
  · trivial

theorem quiet_giveShares (rmk : Bytes) (m k shareCap count : Nat) (content : Bytes) :
    DevProg.Quiet S all loads (giveShares S rmk m k shareCap count content : DevProg n _) := by
  refine Prog.within_bind (quiet_ask _) fun split => ?_
  cases split with
  | some shares => trivial
  | none => exact Prog.within_bind (quiet_ask _) fun removed => trivial

theorem quiet_writeBackup (old : Option Bytes) (rmk : Bytes) (salt : ByteVec BK_SALT_LEN)
    (recs : List (Nat × Bytes)) (m k shareCap : Nat) :
    DevProg.Quiet S all loads (writeBackup S old rmk salt recs m k shareCap : DevProg n _) := by
  refine Prog.within_bind (quiet_ask _) fun macOk => ?_
  split
  · refine Prog.within_bind (quiet_ask _) fun pathOk => ?_
    split
    · refine Prog.within_bind (quiet_placeBackup _ _) fun st => ?_
      split
      · exact quiet_giveShares _ _ _ _ _ _
      · trivial
    · trivial
  · trivial

theorem quiet_hsmBackupExport (sess : HsmSession) (old : Option Bytes) (m k shareCap : Nat) :
    DevProg.Quiet S all loads (hsmBackupExport S sess old m k shareCap : DevProg n _) := by
  unfold hsmBackupExport
  split
  · trivial
  · split
    · trivial
    · refine Prog.within_bind (quiet_hsmSessionRole sess) fun r => ?_
      rcases r with st | role
      · trivial
      · dsimp only
        split
        · refine Prog.within_bind (quiet_ask _) fun entry => ?_
          obtain ⟨_ | _, _ | rmk, _ | salt, _ | _⟩ := entry
          case true.some.some.true =>
            refine Prog.within_bind (quiet_exportRecords _ _) fun r => ?_
            rcases r with st | recs
            · trivial
            · exact quiet_writeBackup _ _ _ _ _ _ _
          all_goals trivial
        · trivial

theorem quiet_deserializeSlots (kek : ByteVec 32) (st : HsmStatus) (ids : List Nat)
    (rest : Bytes) :
    DevProg.Quiet S all true (deserializeSlots S kek st ids rest : DevProg n _) := by
  induction ids generalizing st rest with
  | nil => trivial
  | cons id ids ih =>
    unfold deserializeSlots
    split
    · trivial
    · dsimp only
      split
      · trivial
      · refine Prog.within_bind (quiet_hsmSlotDeserialize id kek _) fun st => ?_
        split
        · exact ih _ _
        · trivial

theorem quiet_hsmKeystoreLoad : DevProg.Quiet S all true (hsmKeystoreLoad S : DevProg n _) := by
  refine Prog.within_bind quiet_fileSection fun content => ?_
  rcases content with st | buf
  · trivial
  · dsimp only
    split
    · trivial
    · refine Prog.within_bind (quiet_ask _) fun keysOk => ?_
      split
      · trivial
      · split
        · trivial
        · refine Prog.within_bind quiet_fileSection fun seen => ?_
          cases seen with
          | none => trivial
          | some seen =>
            dsimp only
            split
            · trivial
            · exact quiet_deserializeSlots _ _ _ _

theorem quiet_restoreRecords (bek : ByteVec 32) (st : HsmStatus) (restored k : Nat)
    (rest : Bytes) :
    DevProg.Quiet S all true (restoreRecords S bek st restored k rest : DevProg n _) := by
  induction k generalizing st restored rest with
  | zero => trivial
  | succ k ih =>
    unfold restoreRecords
    split
    · trivial
    · dsimp only
      split
      · trivial
      · split
        · trivial
        · refine Prog.within_bind (quiet_hsmSlotDeserialize _ bek _) fun st => ?_
          split
          · exact ih _ _ _
          · trivial

theorem quiet_hsmBackupRestore (content : Option Bytes) (shareCap : Nat) (shares : List Bytes) :
    DevProg.Quiet S all true (hsmBackupRestore S content shareCap shares : DevProg n _) := by
  unfold hsmBackupRestore
  split
  · trivial
  · refine Prog.within_bind (quiet_ask _) fun hashOk => ?_
    split
    · trivial
    · split
      · trivial
      · refine Prog.within_bind (quiet_ask _) fun read => ?_
        rcases read with st | buf
        · trivial
        · dsimp only
          split
          · trivial
          · refine Prog.within_bind (quiet_ask _) fun keysOk => ?_
            split
            · trivial
            · split
              · trivial
              · exact quiet_restoreRecords _ _ _ _ _

end Files

section Injection

variable {hook : DevProg n Bool}

theorem quiet_findTargetSlot (sess : HsmSession) (ids : List Nat) :
    DevProg.Quiet S all loads (findTargetSlot S sess ids : DevProg n _) := by
  induction ids with
  | nil => trivial
  | cons id ids ih =>
    refine Prog.within_bind (quiet_hsmSlotGetMeta id) fun r => ?_
    rcases r with st | m
    · exact ih
    · dsimp only
      split
      · exact ih
      · refine Prog.within_bind (quiet_hsmObjectPublicKey sess _ _) fun r => ?_
        split
        · exact ih
        · trivial

theorem commits_injectCommit (targetSess : HsmSession) (hdr : InjectHeader) (seed : Bytes) :
    Commits S hook all loads false (injectCommit hook S targetSess hdr seed) := by
  refine .quiet (quiet_findTargetSlot targetSess _) fun target => ?_
  rcases target with - | ⟨told, m⟩
  · exact commits_hsmSlotLoadSeed _ _ _ _ _
  · dsimp only
    split
    · exact .ret _
    · refine (commits_hsmObjectDestroy targetSess told).bind fun st => ?_
      split
      · exact commits_hsmSlotLoadSeed _ _ _ _ _
      · exact .ret _

theorem commits_hsmInjectApply (kemSess : HsmSession) (kemHandle : HsmHandle)
    (targetSess : HsmSession) (blob : Bytes) :
    Commits S hook all loads false (hsmInjectApply hook S kemSess kemHandle targetSess blob) := by
  unfold hsmInjectApply
  split
  · exact .ret _
  · refine .quiet (quiet_hsmSessionRole targetSess) fun r => ?_
    rcases r with st | role
    · exact .ret _
    · refine .quiet (quiet_hsmObjectDecaps kemSess kemHandle _ _) fun out => ?_
      split
      · refine .quiet (quiet_ask _) fun keysOk => ?_
        split
        · exact .ret _
        · split
          · exact .ret _
          · split
            · exact commits_injectCommit _ _ _
            · exact .ret _
      · exact .ret _

end Injection

namespace Call

/-- The operations that give a role to a session or zeroize a slot. -/
def Special : Call → Prop
  | sessionLogin .. => True
  | zeroize .. => True
  | zeroizeForced _ => True
  | _ => False

/-- The operations that install records. -/
def Loads : Call → Prop
  | keystoreLoad => True
  | backupRestore .. => True
  | deserialize .. => True
  | _ => False

/-- The operations that write files outside the persist hook. -/
def WritesFiles : Call → Prop
  | keystoreSave => True
  | replaceFile _ => True
  | _ => False

end Call

/-- Every operation commits what it changes before it returns. -/
theorem Call.prog_commits {k : Call} (hFiles : ¬ k.WritesFiles) (hAll : k.Special → all = true)
    (hLoads : k.Loads → loads = true) :
    Commits S (persistKeystore S) all loads false (k.prog S : DevProg n Reply) := by
  cases k with
  | sessionOpen id => exact commits_replying (.of_quiet (quiet_hsmSessionOpen id)) _
  | sessionClose sess => exact commits_replying (.of_quiet (quiet_hsmSessionClose sess)) _
  | sessionLogin sess role pin =>
    obtain rfl := hAll trivial
    exact commits_replying (commits_hsmSessionLogin sess role pin) _
  | sessionLogout sess => exact commits_replying (.of_quiet (quiet_hsmSessionLogout sess)) _
  | initToken id label soPin => exact commits_replying (commits_hsmSlotInitToken id label soPin) _
  | setUserPin sess userPin => exact commits_replying (commits_hsmSlotSetUserPin sess userPin) _
  | unlock sess id => exact commits_replying (commits_hsmSlotUnlock sess id) _
  | zeroize sess id =>
    obtain rfl := hAll trivial
    exact commits_replying (commits_hsmSlotZeroize sess id) _
  | zeroizeForced id =>
    obtain rfl := hAll trivial
    exact commits_replying (commits_hsmSlotZeroizeForced id) _
  | generate sess alg usage policy =>
    exact commits_replying (commits_createObject sess alg usage policy none (.inl rfl)) _
  | loadSeed sess alg usage policy seed =>
    exact commits_replying (commits_hsmSlotLoadSeed sess alg usage policy seed) _
  | publicKey sess h cap => exact commits_replying (.of_quiet (quiet_hsmObjectPublicKey sess h cap)) _
  | sign sess h msg ctx cap =>
    exact commits_replying (.of_quiet (quiet_hsmObjectSign sess h msg ctx cap)) _
  | decaps sess h ct cap =>
    exact commits_replying (.of_quiet (quiet_hsmObjectDecaps sess h ct cap)) _
  | destroy sess h => exact commits_replying (commits_hsmObjectDestroy sess h) _
  | injectApply kemSess kemHandle targetSess blob =>
    exact commits_replying (commits_hsmInjectApply kemSess kemHandle targetSess blob) _
  | keystoreSave => exact absurd trivial hFiles
  | keystoreLoad =>
    obtain rfl := hLoads trivial
    exact commits_replying (.of_quiet quiet_hsmKeystoreLoad) _
  | backupExport sess old m k shareCap =>
    exact commits_replying (.of_quiet (quiet_hsmBackupExport sess old m k shareCap)) _
  | backupRestore content shareCap shares =>
    obtain rfl := hLoads trivial
    exact commits_replying (.of_quiet (quiet_hsmBackupRestore content shareCap shares)) _
  | serialize id kek => exact commits_replying (.of_quiet (quiet_hsmSlotSerialize id kek _)) _
  | deserialize id kek blob =>
    obtain rfl := hLoads trivial
    exact commits_replying (.of_quiet (quiet_hsmSlotDeserialize id kek blob)) _
  | replaceFile content => exact absurd trivial hFiles
  | hwDrop => exact commits_replying (.of_quiet (Prog.within_atomic fun _ d => .hwDrop)) _

theorem Call.prog_steps_of {k : Call} (hAll : k.Special → all = true) :
    DevProg.Steps S all (k.prog S : DevProg n Reply) := by
  by_cases hFiles : k.WritesFiles
  · cases k with
    | keystoreSave => exact Prog.within_bind (stores_hsmKeystoreSave.steps S) fun _ => trivial
    | replaceFile content =>
      exact Prog.within_bind ((stores_fileSection fun _ _ => by simp).steps S) fun _ => trivial
    | _ => exact hFiles.elim
  · exact (Call.prog_commits hFiles hAll fun _ => rfl).steps stores_persistKeystore

theorem Call.prog_steps_plain {k : Call} (hk : ¬ k.Special) :
    DevProg.Steps S all (k.prog S : DevProg n Reply) :=
  Call.prog_steps_of fun hSpecial => absurd hSpecial hk

theorem Call.prog_steps (k : Call) : DevProg.Steps S true (k.prog S : DevProg n Reply) :=
  Call.prog_steps_of fun _ => rfl

/-- A property of the history that device steps keep holds in every run of the slot layer. -/
theorem slotPool_invariant {ι : Type} [DecidableEq ι]
    {ok : Pool.Cond ι Call Env (Device n) Event Reply} {A : DevHist ι n → Prop}
    (hStart : ∀ d, d.booted S n → A ⟨d, []⟩) (hCall : ∀ t k h, A h → A (h.calls t k))
    (hRet : ∀ t k a h, A h → A (h.returns t k a))
    (hStep : ∀ t h e r, DeviceStep S true e h.shared r → A h → ok h (.sect t e) r.2 →
      A (h.emits t r))
    {c : DevConfig ι n} (h : (slotPool S n ι).Reaches ok c) :
    A c.hist :=
  Pool.invariant hStart (fun _ _ _ (hReset : False) => hReset.elim) hCall hRet
    (fun t k => stays_of_within k.prog_steps (hStep t)) h

/-- The same over power cycles. -/
theorem cycledPool_invariant {ι : Type} [DecidableEq ι]
    {ok : Pool.Cond ι Call Env (Device n) Event Reply} {A : DevHist ι n → Prop}
    (hStart : ∀ d, d.booted S n → A ⟨d, []⟩)
    (hCycle : ∀ h d, A h → (cycledPool S n ι).reset h.shared d → A (h.crashes d))
    (hCall : ∀ t k h, A h → A (h.calls t k)) (hRet : ∀ t k a h, A h → A (h.returns t k a))
    (hStep : ∀ t h e r, DeviceStep S true e h.shared r → A h → ok h (.sect t e) r.2 →
      A (h.emits t r))
    {c : DevConfig ι n} (h : (cycledPool S n ι).Reaches ok c) : A c.hist :=
  Pool.invariant hStart hCycle hCall hRet
    (fun t k => stays_of_within k.prog_steps (hStep t)) h

end PqcHsm
