import PqcHsm.Slot.CallStep

/-!
# Only a close ends a session

The sections of every operation but the close leave the open entries of the session table open,
under the same generation.
-/

namespace PqcHsm

open ByteCodec Sections

variable {n : Nat} {S : Setup} {β : Type}

/-- The open entries of the table stay open. -/
def StaysOpen (d : Device n) (r : Device n × List Event) : Prop :=
  ∀ i, (d.tok.sessions i).isOpen = true →
    (r.1.tok.sessions i).isOpen = true ∧ (r.1.tok.sessions i).gen = (d.tok.sessions i).gen

abbrev DevProg.StaysOpen (p : DevProg n β) : Prop := p.Within fun _ => PqcHsm.StaysOpen

theorem staysOpen_of_sessions {d : Device n} {r : Device n × List Event}
    (h : r.1.tok.sessions = d.tok.sessions) : StaysOpen d r := by
  intro i hOpen
  rw [h]
  exact ⟨hOpen, rfl⟩

section Sections

theorem open_slotSection (i : Fin n) (body : Env → Slot → β × Slot × List Event) :
    DevProg.StaysOpen (slotSection i body) :=
  Prog.within_atomic fun _ _ => staysOpen_of_sessions rfl

theorem open_hwSection (i : Fin n)
    (body : Env → HwTable → Slot → β × (HwTable × Slot) × List Event) :
    DevProg.StaysOpen (hwSection i body) :=
  Prog.within_atomic fun _ _ => staysOpen_of_sessions rfl

theorem open_fileSection (body : Env → FileSys → β × FileSys × List Event) :
    DevProg.StaysOpen (fileSection body : DevProg n β) :=
  Prog.within_atomic fun _ _ => staysOpen_of_sessions rfl

theorem open_ask (read : Env → β) : DevProg.StaysOpen (Prog.ask read : DevProg n β) :=
  Prog.within_atomic fun _ _ => staysOpen_of_sessions rfl

theorem open_of_stores {p : DevProg n β} (h : DevProg.Stores S p) : DevProg.StaysOpen p :=
  Prog.Within.mono h fun _ _ _ hStep => staysOpen_of_sessions hStep.sessions

theorem open_commitSecurityState (st : HsmStatus) :
    DevProg.StaysOpen (commitSecurityState (persistKeystore S) st : DevProg n _) :=
  open_of_stores (stores_commitSecurityState (stores_persistKeystore) st)

theorem open_sessionInfo (sess : HsmSession) :
    DevProg.StaysOpen (sessionInfo sess : DevProg n _) := by
  unfold sessionInfo
  split
  · trivial
  · refine Prog.within_atomic fun _ d => staysOpen_of_sessions ?_
    dsimp only
    split <;> rfl

theorem open_requireRole (sess : HsmSession) (need : HsmRole) :
    DevProg.StaysOpen (requireRole sess need : DevProg n _) := by
  refine Prog.within_bind (open_sessionInfo sess) fun r => ?_
  rcases r with st | info <;> trivial

theorem open_hsmSessionRole (sess : HsmSession) :
    DevProg.StaysOpen (hsmSessionRole sess : DevProg n _) := by
  refine Prog.within_bind (open_sessionInfo sess) fun r => ?_
  rcases r with st | info <;> trivial

theorem staysOpen_setSession {d : Device n} {i : Fin MAX_SESSIONS} {s : Session} {evs : List Event}
    (hOpen : s.isOpen = true) (hGen : s.gen = (d.tok.sessions i).gen) :
    StaysOpen d ({ d with tok := d.tok.setSession i s }, evs) := by
  intro j hj
  by_cases hji : j = i
  · subst j
    simp only [Token.setSession, Function.update_self]
    exact ⟨hOpen, hGen⟩
  · simp only [Token.setSession, Function.update_of_ne hji]
    exact ⟨hj, trivial⟩

theorem open_setSessionRole (sess : HsmSession) (role : HsmRole) :
    DevProg.StaysOpen (setSessionRole sess role : DevProg n _) := by
  unfold setSessionRole
  split
  · trivial
  · rename_i i hIndex
    refine Prog.within_atomic fun _ d => ?_
    dsimp only
    split
    · rename_i hMatch
      exact staysOpen_setSession (Bool.and_eq_true_iff.mp hMatch).1 rfl
    · exact staysOpen_of_sessions rfl

theorem open_dropSessionsOnSlot (id : Nat) :
    DevProg.StaysOpen (dropSessionsOnSlot id : DevProg n _) := by
  refine Prog.within_atomic fun _ d i hOpen => ?_
  dsimp only
  split
  · exact ⟨hOpen, rfl⟩
  · exact ⟨hOpen, rfl⟩

end Sections

section Programs

theorem open_replying {p : DevProg n β} (h : DevProg.StaysOpen p) (f : β → Reply) :
    DevProg.StaysOpen (replying p f) :=
  Prog.within_bind h fun _ => trivial

theorem open_hsmSessionOpen (id : Nat) : DevProg.StaysOpen (hsmSessionOpen id : DevProg n _) := by
  unfold hsmSessionOpen
  split
  · trivial
  · refine Prog.within_atomic fun _ d => ?_
    dsimp only
    split
    · exact staysOpen_of_sessions rfl
    · rename_i i hFree
      intro j hj
      have hNe : j ≠ i := by
        rintro rfl
        rw [freeSession_isOpen hFree] at hj
        cases hj
      simp only [Token.setSession, Function.update_of_ne hNe]
      exact ⟨hj, trivial⟩

theorem open_hsmSessionLogout (sess : HsmSession) :
    DevProg.StaysOpen (hsmSessionLogout sess : DevProg n _) := by
  refine Prog.within_bind (open_sessionInfo sess) fun r => ?_
  rcases r with st | info
  · trivial
  · exact Prog.within_bind (open_setSessionRole sess .pub) fun _ => trivial

theorem open_finishLogin (sess : HsmSession) (role : HsmRole) (out : LoginOut) :
    DevProg.StaysOpen (finishLogin (persistKeystore S) sess role out : DevProg n _) := by
  refine Prog.within_bind ?_ fun st => ?_
  · split
    · exact open_commitSecurityState _
    · trivial
  · split
    · exact Prog.within_bind (open_setSessionRole sess role) fun _ => trivial
    · trivial

theorem open_hsmSessionLogin (sess : HsmSession) (role : HsmRole) (pin : Option CString) :
    DevProg.StaysOpen (hsmSessionLogin (persistKeystore S) S sess role pin : DevProg n _) := by
  refine Prog.within_bind (open_sessionInfo sess) fun r => ?_
  rcases r with st | ⟨id, role'⟩
  · trivial
  · dsimp only
    split
    · split
      · trivial
      · exact Prog.within_bind (open_slotSection _ _) fun out => open_finishLogin sess role out
    · trivial

theorem open_hsmSlotInitToken (id : Nat) (label soPin : Option CString) :
    DevProg.StaysOpen (hsmSlotInitToken (persistKeystore S) S id label soPin : DevProg n _) := by
  unfold hsmSlotInitToken
  split
  · split
    · trivial
    · exact Prog.within_bind (open_slotSection _ _) open_commitSecurityState
  · trivial

theorem open_hsmSlotSetUserPin (sess : HsmSession) (userPin : Option CString) :
    DevProg.StaysOpen (hsmSlotSetUserPin (persistKeystore S) S sess userPin : DevProg n _) := by
  refine Prog.within_bind (open_requireRole sess .so) fun r => ?_
  rcases r with st | id
  · trivial
  · dsimp only
    split
    · split
      · trivial
      · exact Prog.within_bind (open_slotSection _ _) open_commitSecurityState
    · trivial

theorem open_hsmSlotUnlock (sess : HsmSession) (id : Nat) :
    DevProg.StaysOpen (hsmSlotUnlock (persistKeystore S) S sess id : DevProg n _) := by
  refine Prog.within_bind (open_requireRole sess .so) fun r => ?_
  rcases r with st | sid
  · trivial
  · dsimp only
    split
    · trivial
    · split
      · trivial
      · exact Prog.within_bind (open_slotSection _ _) open_commitSecurityState

theorem open_zeroizeAt (i : Fin n) (id : Nat) :
    DevProg.StaysOpen (zeroizeAt (persistKeystore S) S i id) := by
  refine Prog.within_bind (open_slotSection i _) fun st => ?_
  split
  · exact Prog.within_bind (open_dropSessionsOnSlot id) fun _ => open_commitSecurityState st
  · exact open_commitSecurityState st

theorem open_hsmSlotZeroize (sess : HsmSession) (id : Nat) :
    DevProg.StaysOpen (hsmSlotZeroize (persistKeystore S) S sess id : DevProg n _) := by
  refine Prog.within_bind (open_requireRole sess .so) fun r => ?_
  rcases r with st | sid
  · trivial
  · dsimp only
    split
    · trivial
    · split
      · trivial
      · exact open_zeroizeAt _ _

theorem open_hsmSlotZeroizeForced (id : Nat) :
    DevProg.StaysOpen (hsmSlotZeroizeForced (persistKeystore S) S id : DevProg n _) := by
  unfold hsmSlotZeroizeForced
  split
  · trivial
  · exact open_zeroizeAt _ _

theorem open_createObject (sess : HsmSession) (alg : PqcAlg) (usage policy : UInt32)
    (seed : Option Bytes) (ev : SlotEvent) :
    DevProg.StaysOpen
      (createObject (persistKeystore S) S sess alg usage policy seed ev : DevProg n _) := by
  refine Prog.within_bind (open_requireRole sess .user) fun r => ?_
  rcases r with st | id
  · trivial
  · dsimp only
    split
    · trivial
    · split
      · trivial
      · split
        · trivial
        · refine Prog.within_bind (open_hwSection _ _) fun r => ?_
          exact Prog.within_bind (open_commitSecurityState _) fun _ => trivial

theorem open_hsmSlotLoadSeed (sess : HsmSession) (alg : PqcAlg) (usage policy : UInt32)
    (seed : Bytes) :
    DevProg.StaysOpen
      (hsmSlotLoadSeed (persistKeystore S) S sess alg usage policy seed : DevProg n _) := by
  unfold hsmSlotLoadSeed
  split
  · trivial
  · split
    · trivial
    · exact open_createObject _ _ _ _ _ _

theorem open_hsmObjectPublicKey (sess : HsmSession) (h : HsmHandle) (cap : Option Nat) :
    DevProg.StaysOpen (hsmObjectPublicKey S sess h cap : DevProg n _) := by
  refine Prog.within_bind (open_sessionInfo sess) fun r => ?_
  rcases r with st | ⟨id, role⟩
  · trivial
  · dsimp only
    split
    · trivial
    · exact open_slotSection _ _

theorem open_hsmObjectSign (sess : HsmSession) (h : HsmHandle) (msg ctx : Bytes)
    (cap : Option Nat) :
    DevProg.StaysOpen (hsmObjectSign S sess h msg ctx cap : DevProg n _) := by
  refine Prog.within_bind (open_requireRole sess .user) fun r => ?_
  rcases r with st | id
  · trivial
  · dsimp only
    split
    · trivial
    · exact open_hwSection _ _

theorem open_hsmObjectDecaps (sess : HsmSession) (h : HsmHandle) (ct : Bytes)
    (cap : Option Nat) : DevProg.StaysOpen (hsmObjectDecaps S sess h ct cap : DevProg n _) := by
  refine Prog.within_bind (open_requireRole sess .user) fun r => ?_
  rcases r with st | id
  · trivial
  · dsimp only
    split
    · trivial
    · exact open_hwSection _ _

theorem open_hsmObjectDestroy (sess : HsmSession) (h : HsmHandle) :
    DevProg.StaysOpen (hsmObjectDestroy (persistKeystore S) S sess h : DevProg n _) := by
  refine Prog.within_bind (open_requireRole sess .user) fun r => ?_
  rcases r with st | id
  · trivial
  · dsimp only
    split
    · trivial
    · exact Prog.within_bind (open_slotSection _ _) open_commitSecurityState

theorem open_hsmSlotGetMeta (id : Nat) :
    DevProg.StaysOpen (hsmSlotGetMeta S id : DevProg n _) := by
  unfold hsmSlotGetMeta
  split
  · trivial
  · exact open_slotSection _ _

theorem open_hsmSlotSerialize (id : Nat) (kek : ByteVec 32) (cap : Nat) :
    DevProg.StaysOpen (hsmSlotSerialize S id kek cap : DevProg n _) :=
  open_of_stores (stores_hsmSlotSerialize id kek cap)

theorem open_hsmSlotDeserialize (id : Nat) (kek : ByteVec 32) (blob : Bytes) :
    DevProg.StaysOpen (hsmSlotDeserialize S id kek blob : DevProg n _) := by
  unfold hsmSlotDeserialize
  split
  · trivial
  · exact open_slotSection _ _

theorem open_exportRecords (bek : ByteVec 32) (ids : List Nat) :
    DevProg.StaysOpen (exportRecords S bek ids : DevProg n _) := by
  induction ids with
  | nil => trivial
  | cons id ids ih =>
    refine Prog.within_bind (open_hsmSlotGetMeta id) fun r => ?_
    rcases r with st | m
    · exact ih
    · dsimp only
      split
      · exact ih
      · refine Prog.within_bind (open_hsmSlotSerialize id bek _) fun r => ?_
        rcases r with st | blob
        · trivial
        · refine Prog.within_bind ih fun r => ?_
          rcases r with st | recs <;> trivial

theorem open_placeBackup (body tag : Bytes) :
    DevProg.StaysOpen (placeBackup body tag : DevProg n _) := by
  have hIf : ∀ (b : Bool) (p : DevProg n Bool), DevProg.StaysOpen p →
      DevProg.StaysOpen (if b then p else pure false) := by
    intro b p hp
    cases b with
    | true => exact hp
    | false => trivial
  refine Prog.within_bind (open_ask _) fun opened => ?_
  split
  · refine Prog.within_bind (open_ask _) fun bodyOk => ?_
    refine Prog.within_bind (hIf bodyOk _ (open_ask _)) fun tagOk => ?_
    refine Prog.within_bind (hIf tagOk _ (open_ask _)) fun synced => ?_
    exact Prog.within_bind (hIf synced _ (open_ask _)) fun renamed => trivial
  · trivial

theorem open_giveShares (rmk : Bytes) (m k shareCap count : Nat) (content : Bytes) :
    DevProg.StaysOpen (giveShares S rmk m k shareCap count content : DevProg n _) := by
  refine Prog.within_bind (open_ask _) fun split => ?_
  cases split with
  | some shares => trivial
  | none => exact Prog.within_bind (open_ask _) fun removed => trivial

theorem open_hsmBackupExport (sess : HsmSession) (old : Option Bytes) (m k shareCap : Nat) :
    DevProg.StaysOpen (hsmBackupExport S sess old m k shareCap : DevProg n _) := by
  unfold hsmBackupExport
  split
  · trivial
  · split
    · trivial
    · refine Prog.within_bind (open_hsmSessionRole sess) fun r => ?_
      rcases r with st | role
      · trivial
      · dsimp only
        split
        · refine Prog.within_bind (open_ask _) fun entry => ?_
          obtain ⟨_ | _, _ | rmk, _ | salt, _ | _⟩ := entry
          case true.some.some.true =>
            refine Prog.within_bind (open_exportRecords _ _) fun r => ?_
            rcases r with st | recs
            · trivial
            · refine Prog.within_bind (open_ask _) fun macOk => ?_
              split
              · refine Prog.within_bind (open_ask _) fun pathOk => ?_
                split
                · refine Prog.within_bind (open_placeBackup _ _) fun st => ?_
                  split
                  · exact open_giveShares _ _ _ _ _ _
                  · trivial
                · trivial
              · trivial
          all_goals trivial
        · trivial

theorem open_deserializeSlots (kek : ByteVec 32) (st : HsmStatus) (ids : List Nat) (rest : Bytes) :
    DevProg.StaysOpen (deserializeSlots S kek st ids rest : DevProg n _) := by
  induction ids generalizing st rest with
  | nil => trivial
  | cons id ids ih =>
    unfold deserializeSlots
    split
    · trivial
    · dsimp only
      split
      · trivial
      · refine Prog.within_bind (open_hsmSlotDeserialize id kek _) fun st => ?_
        split
        · exact ih _ _
        · trivial

theorem open_hsmKeystoreLoad : DevProg.StaysOpen (hsmKeystoreLoad S : DevProg n _) := by
  refine Prog.within_bind (open_fileSection _) fun content => ?_
  rcases content with st | buf
  · trivial
  · dsimp only
    split
    · trivial
    · refine Prog.within_bind (open_ask _) fun keysOk => ?_
      split
      · trivial
      · split
        · trivial
        · refine Prog.within_bind (open_fileSection _) fun seen => ?_
          cases seen with
          | none => trivial
          | some seen =>
            dsimp only
            split
            · trivial
            · exact open_deserializeSlots _ _ _ _

theorem open_restoreRecords (bek : ByteVec 32) (st : HsmStatus) (restored k : Nat) (rest : Bytes) :
    DevProg.StaysOpen (restoreRecords S bek st restored k rest : DevProg n _) := by
  induction k generalizing st restored rest with
  | zero => trivial
  | succ k ih =>
    unfold restoreRecords
    split
    · trivial
    · dsimp only
      split
      · trivial
      · split
        · trivial
        · refine Prog.within_bind (open_hsmSlotDeserialize _ bek _) fun st => ?_
          split
          · exact ih _ _ _
          · trivial

theorem open_hsmBackupRestore (content : Option Bytes) (shareCap : Nat) (shares : List Bytes) :
    DevProg.StaysOpen (hsmBackupRestore S content shareCap shares : DevProg n _) := by
  unfold hsmBackupRestore
  split
  · trivial
  · refine Prog.within_bind (open_ask _) fun hashOk => ?_
    split
    · trivial
    · split
      · trivial
      · refine Prog.within_bind (open_ask _) fun read => ?_
        rcases read with st | buf
        · trivial
        · dsimp only
          split
          · trivial
          · refine Prog.within_bind (open_ask _) fun keysOk => ?_
            split
            · trivial
            · split
              · trivial
              · exact open_restoreRecords _ _ _ _ _

theorem open_findTargetSlot (sess : HsmSession) (ids : List Nat) :
    DevProg.StaysOpen (findTargetSlot S sess ids : DevProg n _) := by
  induction ids with
  | nil => trivial
  | cons id ids ih =>
    refine Prog.within_bind (open_hsmSlotGetMeta id) fun r => ?_
    rcases r with st | m
    · exact ih
    · dsimp only
      split
      · exact ih
      · refine Prog.within_bind (open_hsmObjectPublicKey sess _ _) fun r => ?_
        split
        · exact ih
        · trivial

theorem open_injectCommit (targetSess : HsmSession) (hdr : InjectHeader) (seed : Bytes) :
    DevProg.StaysOpen (injectCommit (persistKeystore S) S targetSess hdr seed : DevProg n _) := by
  refine Prog.within_bind (open_findTargetSlot targetSess _) fun target => ?_
  rcases target with - | ⟨told, m⟩
  · exact open_hsmSlotLoadSeed _ _ _ _ _
  · dsimp only
    split
    · trivial
    · refine Prog.within_bind (open_hsmObjectDestroy targetSess told) fun st => ?_
      split
      · exact open_hsmSlotLoadSeed _ _ _ _ _
      · trivial

theorem open_hsmInjectApply (kemSess : HsmSession) (kemHandle : HsmHandle)
    (targetSess : HsmSession) (blob : Bytes) : DevProg.StaysOpen
      (hsmInjectApply (persistKeystore S) S kemSess kemHandle targetSess blob : DevProg n _) := by
  unfold hsmInjectApply
  split
  · trivial
  · refine Prog.within_bind (open_hsmSessionRole targetSess) fun r => ?_
    rcases r with st | role
    · trivial
    · refine Prog.within_bind (open_hsmObjectDecaps kemSess kemHandle _ _) fun out => ?_
      split
      · refine Prog.within_bind (open_ask _) fun keysOk => ?_
        split
        · trivial
        · split
          · trivial
          · split
            · exact open_injectCommit _ _ _
            · trivial
      · trivial

end Programs

/-- Every operation but a close leaves the open sessions open. -/
theorem Call.prog_staysOpen {k : Call} (hk : ∀ sess, k ≠ .sessionClose sess) :
    DevProg.StaysOpen (k.prog S : DevProg n Reply) := by
  cases k with
  | sessionOpen id => exact open_replying (open_hsmSessionOpen id) _
  | sessionClose sess => exact absurd rfl (hk sess)
  | sessionLogin sess role pin => exact open_replying (open_hsmSessionLogin sess role pin) _
  | sessionLogout sess => exact open_replying (open_hsmSessionLogout sess) _
  | initToken id label soPin => exact open_replying (open_hsmSlotInitToken id label soPin) _
  | setUserPin sess userPin => exact open_replying (open_hsmSlotSetUserPin sess userPin) _
  | unlock sess id => exact open_replying (open_hsmSlotUnlock sess id) _
  | zeroize sess id => exact open_replying (open_hsmSlotZeroize sess id) _
  | zeroizeForced id => exact open_replying (open_hsmSlotZeroizeForced id) _
  | generate sess alg usage policy => exact open_replying (open_createObject sess _ _ _ _ _) _
  | loadSeed sess alg usage policy seed => exact open_replying (open_hsmSlotLoadSeed sess _ _ _ _) _
  | publicKey sess h cap => exact open_replying (open_hsmObjectPublicKey sess h cap) _
  | sign sess h msg ctx cap => exact open_replying (open_hsmObjectSign sess h msg ctx cap) _
  | decaps sess h ct cap => exact open_replying (open_hsmObjectDecaps sess h ct cap) _
  | destroy sess h => exact open_replying (open_hsmObjectDestroy sess h) _
  | injectApply kemSess kemHandle targetSess blob =>
    exact open_replying (open_hsmInjectApply kemSess kemHandle targetSess blob) _
  | keystoreSave => exact open_replying (open_of_stores stores_hsmKeystoreSave) _
  | keystoreLoad => exact open_replying open_hsmKeystoreLoad _
  | backupExport sess old m k shareCap =>
    exact open_replying (open_hsmBackupExport sess old m k shareCap) _
  | backupRestore content shareCap shares =>
    exact open_replying (open_hsmBackupRestore content shareCap shares) _
  | serialize id kek => exact open_replying (open_hsmSlotSerialize id kek _) _
  | deserialize id kek blob => exact open_replying (open_hsmSlotDeserialize id kek blob) _
  | replaceFile content => exact open_replying (open_fileSection _) _
  | hwDrop =>
    exact open_replying (Prog.within_atomic fun _ _ => staysOpen_of_sessions rfl) _

end PqcHsm
