import PqcHsm.Slot.Machine
import PqcHsm.Slot.Inversion

/-!
# What one section can do to the device

Every critical section of every operation is one of the steps below: the body of an
operation on one slot, a change of the session table or of the persist flags, a file
step, or a lost accelerator connection. An invariant of the device is a property that
these steps keep. `Commits` says how the sections of an operation are arranged: each one
that changes a slot is followed by a call of the persist hook.
-/

namespace PqcHsm

open ByteCodec Sections

variable {n : Nat} (S : Setup) {all : Bool}

/-- One section under the lock of slot `id`; a zeroize only where `all` is set. -/
inductive SlotStep (all : Bool) (id : Nat) (e : Env) (hw : HwTable) (s : Slot) :
    HwTable × Slot × List Event → Prop where
  | idle : SlotStep all id e hw s (hw, s, [])
  | initToken {r : HsmStatus × Slot × List Event} :
      InitCase S id e s r → SlotStep all id e hw s (hw, r.2)
  | setUserPin {userPin : CString} {r : HsmStatus × Slot × List Event} :
      SetPinCase S userPin id e s r → SlotStep all id e hw s (hw, r.2)
  | login {sess : HsmSession} {role : HsmRole} {pin : CString} {r : LoginOut × Slot × List Event} :
      role ≠ .pub → LoginCase S sess id role pin e s r → SlotStep all id e hw s (hw, r.2)
  | create {alg : PqcAlg} {usage policy : UInt32}
      {r : (HsmStatus × Option HsmHandle) × (HwTable × Slot) × List Event} :
      CreateCase S id alg usage policy e hw s r → SlotStep all id e hw s (r.2.1.1, r.2.1.2, r.2.2)
  | use {h : HsmHandle} {r : (HsmStatus × Option Bytes) × (HwTable × Slot) × List Event} :
      UseCase S id h e hw s r → SlotStep all id e hw s (r.2.1.1, r.2.1.2, r.2.2)
  | publicKey {h : HsmHandle} {r : (HsmStatus × Option Bytes) × Slot × List Event} :
      PublicKeyCase S id h e s r → SlotStep all id e hw s (hw, r.2)
  | destroy {h : HsmHandle} {r : HsmStatus × Slot × List Event} :
      DestroyCase S id h e s r → SlotStep all id e hw s (hw, r.2)
  | zeroize : all = true → SlotStep all id e hw s (hw, (doZeroize S id e s).2)
  | unlock {r : HsmStatus × Slot × List Event} :
      UnlockCase S id e s r → SlotStep all id e hw s (hw, r.2)
  | deserialize (m : SlotMeta) (r : SlotRecord) : m.slotId = s.metadata.slotId →
      m.version = SLOT_META_VERSION → (installRecord s m r).KeyShape → SlotStep all id e hw s
        (hw, (slotReseal S.crypto e 0 (installRecord s m r)).2, [.recordRead id m r])

/-- One section that changes what a key store file must not lose. -/
inductive SlotChange (all : Bool) (id : Nat) (e : Env) (hw : HwTable) (s : Slot) :
    HwTable × Slot × List Event → Prop where
  | initToken {r : HsmStatus × Slot × List Event} :
      InitCase S id e s r → SlotChange all id e hw s (hw, r.2)
  | setUserPin {userPin : CString} {r : HsmStatus × Slot × List Event} :
      SetPinCase S userPin id e s r → SlotChange all id e hw s (hw, r.2)
  | login {sess : HsmSession} {role : HsmRole} {pin : CString} {r : LoginOut × Slot × List Event} :
      role ≠ .pub → LoginCase S sess id role pin e s r → SlotChange all id e hw s (hw, r.2)
  | create {alg : PqcAlg} {usage policy : UInt32}
      {r : (HsmStatus × Option HsmHandle) × (HwTable × Slot) × List Event} :
      CreateCase S id alg usage policy e hw s r → SlotChange all id e hw s (r.2.1.1, r.2.1.2, r.2.2)
  | destroy {h : HsmHandle} {r : HsmStatus × Slot × List Event} :
      DestroyCase S id h e s r → SlotChange all id e hw s (hw, r.2)
  | zeroize : all = true → SlotChange all id e hw s (hw, (doZeroize S id e s).2)
  | unlock {r : HsmStatus × Slot × List Event} :
      UnlockCase S id e s r → SlotChange all id e hw s (hw, r.2)

section SlotFacts

variable {S} {id : Nat} {e : Env} {hw : HwTable} {s : Slot} {r : HwTable × Slot × List Event}

theorem SlotChange.slotStep (h : SlotChange S all id e hw s r) : SlotStep S all id e hw s r := by
  cases h with
  | initToken h => exact .initToken h
  | setUserPin h => exact .setUserPin h
  | login hRole h => exact .login hRole h
  | create h => exact .create h
  | destroy h => exact .destroy h
  | zeroize hAll => exact .zeroize hAll
  | unlock h => exact .unlock h

/-- No section renumbers a slot. -/
theorem SlotStep.slotId (h : SlotStep S all id e hw s r) :
    r.2.1.metadata.slotId = s.metadata.slotId := by
  cases h with
  | idle => rfl
  | initToken h => cases h <;> simp_all
  | setUserPin h => cases h <;> simp_all
  | login _ h => cases h <;> simp
  | create h => cases h <;> simp
  | use h => cases h <;> simp
  | publicKey h => cases h <;> rfl
  | destroy h => cases h <;> simp
  | zeroize _ => simp [doZeroize_eq]
  | unlock h => cases h <;> simp
  | deserialize m r hId => simpa [installRecord] using hId

/-- Events of the session table. -/
def Event.OnSessions : Event → Prop
  | .sessionOpened _ => True
  | .sessionRead .. => True
  | .roleSet .. => True
  | .sessionsDropped _ => True
  | _ => False

/-- Events of a section under a slot lock. -/
def Event.OnSlot : Event → Prop
  | .pinCompared .. => True
  | .initStarted _ => True
  | .lockedOut .. => True
  | .unlocked _ => True
  | .userPinSet .. => True
  | .userFailsReset _ => True
  | .destroyed _ => True
  | .zeroized _ => True
  | .slotChanged _ => True
  | .handleIssued .. => True
  | .handleAccepted .. => True
  | .keyUsed _ => True
  | .recordRead .. => True
  | _ => False

theorem SlotStep.onSlot (h : SlotStep S all id e hw s r) : ∀ x ∈ r.2.2, x.OnSlot := by
  cases h with
  | idle => simp
  | initToken h => cases h <;> simp [Event.OnSlot]
  | setUserPin h => cases h <;> simp [Event.OnSlot]
  | login _ h => cases h <;> simp [Event.OnSlot]
  | create h => cases h <;> simp [Event.OnSlot]
  | use h => cases h <;> simp [Event.OnSlot]
  | publicKey h => cases h <;> simp [Event.OnSlot]
  | destroy h => cases h <;> simp [Event.OnSlot]
  | zeroize _ => simp [doZeroize_eq, Event.OnSlot]
  | unlock h => cases h <;> simp [Event.OnSlot]
  | deserialize m r => simp [Event.OnSlot]

theorem SlotStep.not_onSessions (h : SlotStep S all id e hw s r) :
    ∀ x ∈ r.2.2, ¬ x.OnSessions := by
  intro x hx hOn
  have hSlot := h.onSlot x hx
  cases x <;> first | exact hOn | exact hSlot

end SlotFacts

/-- One section on the session table; a role is given to a session only where `all` is set. -/
inductive TokenStep (all : Bool) (tok : Token n) : Token n × List Event → Prop where
  | read (sess : HsmSession) (i : Fin MAX_SESSIONS) : sessionIndex sess = some i →
      (tok.sessions i).matches sess = true →
      TokenStep all tok (tok, [.sessionRead sess (tok.sessions i).slot (tok.sessions i).role])
  | idle : TokenStep all tok (tok, [])
  | setRole (sess : HsmSession) (i : Fin MAX_SESSIONS) (role : HsmRole) :
      sessionIndex sess = some i → (tok.sessions i).matches sess = true →
      role = .pub ∨ all = true →
      TokenStep all tok (tok.setSession i { tok.sessions i with role }, [.roleSet sess role])
  | drop (id : Nat) : TokenStep all tok ({ tok with sessions := fun i =>
      if (tok.sessions i).isOpen ∧ (tok.sessions i).slot = id then
        { tok.sessions i with role := .pub } else tok.sessions i }, [.sessionsDropped id])
  | opened (i : Fin MAX_SESSIONS) (id : Nat) : id < n → (tok.sessions i).isOpen = false →
      TokenStep all tok ({ tok.setSession i ⟨true, id, .pub, tok.sessionGen + 1⟩ with
        sessionGen := tok.sessionGen + 1 },
        [.sessionOpened ⟨tok.sessionGen + 1, UInt32.ofNat (i + 1)⟩])
  | closed (sess : HsmSession) (i : Fin MAX_SESSIONS) : sessionIndex sess = some i →
      (tok.sessions i).matches sess = true →
      TokenStep all tok (tok.setSession i ⟨false, 0, .pub, 0⟩, [])

theorem TokenStep.slots {tok : Token n} {r : Token n × List Event} (h : TokenStep all tok r) :
    r.1.slots = tok.slots := by
  cases h <;> rfl

/-- Events of the temporary file and of the anchor. -/
def Event.OnDraft : Event → Prop
  | .tmpOpened => True
  | .tmpWritten _ => True
  | .anchorSet _ => True
  | _ => False

/-- Events of the key store file. -/
def Event.OnFiles : Event → Prop
  | .saved => True
  | x => x.OnDraft

theorem Event.OnDraft.onFiles {x : Event} (h : x.OnDraft) : x.OnFiles := by
  cases x <;> first | exact h | trivial

/-- One file-system or anchor step that leaves the key store file in place. -/
inductive DraftStep (d : Device n) : Device n × List Event → Prop where
  | mk (fs : FileSys) (evs : List Event) : fs.file = d.fs.file → (∀ x ∈ evs, x.OnDraft) →
      DraftStep d ({ d with fs }, evs)

/-- One section of the persist hook, of the code around it, or on the files: no slot, session
or accelerator handle changes. -/
inductive StoreStep (d : Device n) : Device n × List Event → Prop where
  | file (fs : FileSys) (evs : List Event) : (∀ x ∈ evs, x.OnFiles) →
      StoreStep d ({ d with fs }, evs)
  | serialize (i : Fin n) : (d.tok.slots i).Sealed S.crypto → StoreStep d
      (d, [.serialized i (d.tok.slots i).metadata (d.tok.slots i).record])
  | enter : d.tok.persistBusy = false →
      StoreStep d ({ d with tok := { d.tok with persistBusy := true } }, [.persistEntered])
  | skip : StoreStep d (d, [.persistSkipped])
  | leave (done : Bool) :
      StoreStep d ({ d with tok := { d.tok with persistBusy := false } }, [.persistLeft done])

inductive DeviceStep (all : Bool) (e : Env) (d : Device n) : Device n × List Event → Prop where
  | slot (i : Fin n) (r : HwTable × Slot × List Event) :
      SlotStep S all i e d.hw (d.tok.slots i) r →
      DeviceStep all e d ({ d.setSlot i r.2.1 with hw := r.1 }, r.2.2)
  | token (r : Token n × List Event) : TokenStep all d.tok r →
      DeviceStep all e d ({ d with tok := r.1 }, r.2)
  | store (r : Device n × List Event) : StoreStep S d r → DeviceStep all e d r
  | hwDrop : DeviceStep all e d ({ d with hw := fun _ _ => none }, [.connectionLost])

/-- One section that leaves nothing to commit: a look at the session table or a change of it, a
use of the key of a slot, a read. A record is installed only where `loads` is set. -/
inductive QuietStep (all loads : Bool) (e : Env) (d : Device n) : Device n × List Event → Prop where
  | read : QuietStep all loads e d (d, [])
  | token (r : Token n × List Event) : TokenStep all d.tok r →
      QuietStep all loads e d ({ d with tok := r.1 }, r.2)
  | use (i : Fin n) {h : HsmHandle}
      {r : (HsmStatus × Option Bytes) × (HwTable × Slot) × List Event} :
      UseCase S i h e d.hw (d.tok.slots i) r →
      QuietStep all loads e d ({ d.setSlot i r.2.1.2 with hw := r.2.1.1 }, r.2.2)
  | publicKey (i : Fin n) (h : HsmHandle) : checkHandle S e (d.tok.slots i) h = .ok →
      QuietStep all loads e d (d, [.handleAccepted i h (d.tok.slots i).key])
  | serialize (i : Fin n) : (d.tok.slots i).Sealed S.crypto → QuietStep all loads e d
      (d, [.serialized i (d.tok.slots i).metadata (d.tok.slots i).record])
  | deserialize (i : Fin n) (m : SlotMeta) (r : SlotRecord) : loads = true →
      m.slotId = (d.tok.slots i).metadata.slotId → m.version = SLOT_META_VERSION →
      (installRecord (d.tok.slots i) m r).KeyShape → QuietStep all loads e d
        (d.setSlot i (slotReseal S.crypto e 0 (installRecord (d.tok.slots i) m r)).2,
          [.recordRead i m r])
  | hwDrop : QuietStep all loads e d ({ d with hw := fun _ _ => none }, [.connectionLost])

/-- Every section of the program is a device step. -/
abbrev DevProg.Steps (all : Bool) {β : Type} (p : DevProg n β) : Prop :=
  p.Within (DeviceStep S all)

/-- Every section of the program is a step of the store. -/
abbrev DevProg.Stores {β : Type} (p : DevProg n β) : Prop := p.Within fun _ => StoreStep S

/-- No section of the program leaves anything to commit. -/
abbrev DevProg.Quiet (all loads : Bool) {β : Type} (p : DevProg n β) : Prop :=
  p.Within (QuietStep S all loads)

theorem QuietStep.deviceStep {S : Setup} {all loads : Bool} {e : Env} {d : Device n}
    {r : Device n × List Event} (h : QuietStep S all loads e d r) : DeviceStep S all e d r := by
  cases h with
  | read => exact .store _ (.file d.fs [] (by simp))
  | token r h => exact .token r h
  | use i h => exact .slot i _ (.use h)
  | publicKey i h hCheck =>
    have hStep : DeviceStep S all e d ({ d.setSlot i (d.tok.slots i) with hw := d.hw },
        [.handleAccepted i h (d.tok.slots i).key]) :=
      .slot i (d.hw, d.tok.slots i, _) (.publicKey (PublicKeyCase.accepted (.ok, none) hCheck))
    simpa using hStep
  | serialize i h => exact .store _ (.serialize i h)
  | deserialize i m r _ hId hVersion hShape =>
    exact .slot i (d.hw, _) (.deserialize m r hId hVersion hShape)
  | hwDrop => exact .hwDrop

/-- Every section of the program leaves the key store file in place. -/
abbrev DevProg.Drafts {β : Type} (p : DevProg n β) : Prop := p.Within fun _ => DraftStep

theorem DevProg.Drafts.stores {S : Setup} {β : Type} {p : DevProg n β} (h : DevProg.Drafts p) :
    DevProg.Stores S p := by
  refine Prog.Within.mono h fun _ d r hStep => ?_
  obtain ⟨fs, evs, -, hEvs⟩ := hStep
  exact .file fs evs fun x hx => (hEvs x hx).onFiles

theorem DevProg.Stores.steps {β : Type} {p : DevProg n β} (h : DevProg.Stores S p) :
    DevProg.Steps S all p :=
  Prog.Within.mono h fun _ _ _ => .store _

section StoreEvents

/-- Events of the store. -/
def Event.Store : Event → Prop
  | .serialized .. => True
  | .persistEntered => True
  | .persistSkipped => True
  | .persistLeft _ => True
  | x => x.OnFiles

variable {S} {d : Device n} {r : Device n × List Event}

theorem Event.OnFiles.store {x : Event} (h : x.OnFiles) : x.Store := by
  cases x <;> first | exact h | trivial

theorem StoreStep.slots (h : StoreStep S d r) : r.1.tok.slots = d.tok.slots := by cases h <;> rfl

theorem StoreStep.sessions (h : StoreStep S d r) : r.1.tok.sessions = d.tok.sessions := by
  cases h <;> rfl

theorem StoreStep.hw (h : StoreStep S d r) : r.1.hw = d.hw := by cases h <;> rfl

theorem StoreStep.events (h : StoreStep S d r) : ∀ x ∈ r.2, x.Store := by
  cases h with
  | file fs evs hEvs => exact fun x hx => (hEvs x hx).store
  | _ => simp [Event.Store]

end StoreEvents

section Sections

variable {β : Type}

theorem slotSection_eq (i : Fin n) (body : Env → Slot → β × Slot × List Event) :
    slotSection i body = hwSection i fun e hw s =>
      ((body e s).1, (hw, (body e s).2.1), (body e s).2.2) := rfl

variable {S} {loads : Bool}

theorem quiet_tokenSection {body : Token n → β × Token n × List Event}
    (h : ∀ tok, TokenStep all tok (body tok).2) : DevProg.Quiet S all loads (tokenSection body) :=
  Prog.within_atomic fun _ d => .token _ (h d.tok)

theorem quiet_fileSection {read : Env → FileSys → β} :
    DevProg.Quiet S all loads (fileSection fun e fs => (read e fs, fs, []) : DevProg n β) :=
  Prog.within_atomic fun _ _ => .read

theorem quiet_ask (read : Env → β) : DevProg.Quiet S all loads (Prog.ask read : DevProg n β) :=
  Prog.within_atomic fun _ _ => .read

theorem stores_fileSection {body : Env → FileSys → β × FileSys × List Event}
    (h : ∀ e fs, ∀ x ∈ (body e fs).2.2, x.OnFiles) :
    DevProg.Stores S (fileSection body : DevProg n β) :=
  Prog.within_atomic fun e d => .file _ _ (h e d.fs)

theorem drafts_fileSection {body : Env → FileSys → β × FileSys × List Event}
    (hFile : ∀ e fs, (body e fs).2.1.file = fs.file)
    (hEvs : ∀ e fs, ∀ x ∈ (body e fs).2.2, x.OnDraft) :
    DevProg.Drafts (fileSection body : DevProg n β) :=
  Prog.within_atomic fun e d => .mk _ _ (hFile e d.fs) (hEvs e d.fs)

theorem drafts_ask (read : Env → β) : DevProg.Drafts (Prog.ask read : DevProg n β) :=
  Prog.within_atomic fun _ d => .mk d.fs [] rfl (by simp)

theorem stores_slotPersist {hook : DevProg n Bool} (hHook : DevProg.Stores S hook) :
    DevProg.Stores S (slotPersist hook) := by
  refine Prog.within_bind (Prog.within_atomic fun _ d => ?_) fun enter => ?_
  · dsimp only
    split
    · rename_i hEnter
      simp only [Bool.and_eq_true, Bool.not_eq_true'] at hEnter
      exact .enter hEnter.1
    · exact .skip
  · cases enter
    · trivial
    · exact Prog.within_bind hHook fun rc => Prog.within_atomic fun _ d => .leave rc

theorem stores_commitSecurityState {hook : DevProg n Bool} (hHook : DevProg.Stores S hook)
    (st : HsmStatus) : DevProg.Stores S (commitSecurityState hook st) :=
  Prog.within_bind (stores_slotPersist hHook) fun _ => trivial

end Sections

/-- The operations as arrangements of their sections: a section that changes a slot owes a call
of the persist hook, and the hook is called before the operation returns. -/
inductive Commits (hook : DevProg n Bool) (all loads : Bool) :
    Bool → {β : Type} → DevProg n β → Prop where
  | ret {β : Type} (b : β) : Commits hook all loads false (.ret b)
  | quiet {owing : Bool} {β γ : Type} {p : DevProg n γ} {f : γ → DevProg n β} :
      DevProg.Quiet S all loads p → (∀ c, Commits hook all loads owing (f c)) →
      Commits hook all loads owing (p.bind f)
  | change {β γ : Type} (i : Fin n) (owing : γ → Bool)
      {body : Env → HwTable → Slot → γ × (HwTable × Slot) × List Event} {f : γ → DevProg n β} :
      (∀ e hw s, SlotChange S all i e hw s
        ((body e hw s).2.1.1, (body e hw s).2.1.2, (body e hw s).2.2)) →
      (∀ e hw s, owing (body e hw s).1 = false → (body e hw s).2 = ((hw, s), [])) →
      (∀ c, Commits hook all loads (owing c) (f c)) →
      Commits hook all loads false ((hwSection i body).bind f)
  | commit {β : Type} (st : HsmStatus) {f : HsmStatus → DevProg n β} :
      (∀ st', Commits hook all loads false (f st')) →
      Commits hook all loads true ((commitSecurityState hook st).bind f)

section Commits

variable {S} {hook : DevProg n Bool} {loads owing : Bool} {β γ : Type}

theorem Commits.bind {p : DevProg n β} {f : β → DevProg n γ}
    (hp : Commits S hook all loads owing p) (hf : ∀ b, Commits S hook all loads false (f b)) :
    Commits S hook all loads owing (p.bind f) := by
  induction hp with
  | ret b => exact hf b
  | quiet hp _ ih =>
    rw [Prog.bind_assoc]
    exact .quiet hp fun c => ih c hf
  | change i owing hBody hOwing _ ih =>
    rw [Prog.bind_assoc]
    exact .change i owing hBody hOwing fun c => ih c hf
  | commit st _ ih =>
    rw [Prog.bind_assoc]
    exact .commit st fun st' => ih st' hf

theorem Commits.of_quiet {p : DevProg n β} (hp : DevProg.Quiet S all loads p) :
    Commits S hook all loads false p := by
  rw [← Prog.bind_ret p]
  exact .quiet hp .ret

/-- A change with the commit as the rest of the operation. -/
theorem Commits.change_slot (i : Fin n) {body : Env → Slot → γ × Slot × List Event}
    {f : γ → DevProg n β}
    (hBody : ∀ e hw s, SlotChange S all i e hw s (hw, (body e s).2))
    (hf : ∀ c, Commits S hook all loads true (f c)) :
    Commits S hook all loads false ((slotSection i body).bind f) := by
  rw [slotSection_eq]
  exact .change i (fun _ => true) hBody (fun _ _ _ hOwing => Bool.noConfusion hOwing) hf

theorem commits_commitSecurityState (st : HsmStatus) :
    Commits S hook all loads true (commitSecurityState hook st) := by
  rw [← Prog.bind_ret (commitSecurityState hook st)]
  exact .commit st .ret

theorem Commits.steps (hHook : DevProg.Stores S hook) {p : DevProg n β}
    (hp : Commits S hook all loads owing p) : DevProg.Steps S all p := by
  induction hp with
  | ret b => trivial
  | quiet hp _ ih =>
    exact Prog.within_bind (Prog.Within.mono hp fun _ _ _ => QuietStep.deviceStep) ih
  | change i owing hBody _ _ ih =>
    exact Prog.within_bind (Prog.within_atomic fun e d => .slot i _ (hBody e d.hw _).slotStep) ih
  | commit st _ ih =>
    exact Prog.within_bind ((stores_commitSecurityState hHook st).steps S) ih

theorem commits_replying {p : DevProg n β} (hp : Commits S hook all loads false p)
    (f : β → Reply) : Commits S hook all loads false (replying p f) :=
  hp.bind fun b => .ret (f b)

end Commits

section Programs

variable {S} {hook : DevProg n Bool} {loads : Bool}

theorem quiet_sessionInfo (sess : HsmSession) :
    DevProg.Quiet S all loads (sessionInfo sess : DevProg n _) := by
  unfold sessionInfo
  split
  · trivial
  · rename_i i hIndex
    refine quiet_tokenSection fun tok => ?_
    dsimp only
    split
    · exact .read sess i hIndex ‹_›
    · exact .idle

theorem quiet_requireRole (sess : HsmSession) (need : HsmRole) :
    DevProg.Quiet S all loads (requireRole sess need : DevProg n _) := by
  refine Prog.within_bind (quiet_sessionInfo sess) fun r => ?_
  rcases r with st | ⟨slot, role⟩ <;> trivial

theorem quiet_setSessionRole (sess : HsmSession) (role : HsmRole)
    (hRole : role = .pub ∨ all = true) :
    DevProg.Quiet S all loads (setSessionRole sess role : DevProg n _) := by
  unfold setSessionRole
  split
  · trivial
  · rename_i i hIndex
    refine quiet_tokenSection fun tok => ?_
    dsimp only
    split
    · exact .setRole sess i role hIndex ‹_› hRole
    · exact .idle

theorem quiet_dropSessionsOnSlot (id : Nat) :
    DevProg.Quiet S all loads (dropSessionsOnSlot id : DevProg n _) :=
  quiet_tokenSection fun _ => .drop id

theorem freeSession_isOpen {tok : Token n} {i : Fin MAX_SESSIONS}
    (h : freeSession tok = some i) : (tok.sessions i).isOpen = false := by
  have hFree := List.find?_some h
  simpa using hFree

theorem quiet_hsmSessionOpen (id : Nat) :
    DevProg.Quiet S all loads (hsmSessionOpen id : DevProg n _) := by
  unfold hsmSessionOpen
  split
  · trivial
  · rename_i i hSlot
    obtain rfl := slotAt_val hSlot
    refine quiet_tokenSection fun tok => ?_
    split
    · exact .idle
    · exact .opened _ i i.isLt (freeSession_isOpen ‹_›)

theorem quiet_hsmSessionClose (sess : HsmSession) :
    DevProg.Quiet S all loads (hsmSessionClose sess : DevProg n _) := by
  unfold hsmSessionClose
  split
  · trivial
  · rename_i i hIndex
    refine quiet_tokenSection fun tok => ?_
    split
    · exact .closed sess i hIndex ‹_›
    · exact .idle

theorem quiet_hsmSessionRole (sess : HsmSession) :
    DevProg.Quiet S all loads (hsmSessionRole sess : DevProg n _) := by
  refine Prog.within_bind (quiet_sessionInfo sess) fun r => ?_
  rcases r with st | ⟨slot, role⟩ <;> trivial

theorem quiet_hsmSessionLogout (sess : HsmSession) :
    DevProg.Quiet S all loads (hsmSessionLogout sess : DevProg n _) := by
  refine Prog.within_bind (quiet_sessionInfo sess) fun r => ?_
  rcases r with st | info
  · trivial
  · exact Prog.within_bind (quiet_setSessionRole sess .pub (.inl rfl)) fun _ => trivial

theorem quiet_hsmObjectPublicKey (sess : HsmSession) (h : HsmHandle) (cap : Option Nat) :
    DevProg.Quiet S all loads (hsmObjectPublicKey S sess h cap : DevProg n _) := by
  refine Prog.within_bind (quiet_sessionInfo sess) fun r => ?_
  rcases r with st | ⟨id, role⟩
  · trivial
  · dsimp only
    split
    · trivial
    · rename_i i hSlot
      obtain rfl := slotAt_val hSlot
      refine Prog.within_atomic fun e d => ?_
      dsimp only
      have hCase := publicKeyLocked_cases S i h cap e (d.tok.slots i)
      generalize publicKeyLocked S i h cap e (d.tok.slots i) = out at hCase
      cases hCase with
      | refused => simpa using QuietStep.read
      | accepted _ hCheck => simpa using QuietStep.publicKey i h hCheck

theorem quiet_hwSection_use {i : Fin n} {h : HsmHandle}
    {body : Env → HwTable → Slot → (HsmStatus × Option Bytes) × (HwTable × Slot) × List Event}
    (hBody : ∀ e hw s, UseCase S i h e hw s (body e hw s)) :
    DevProg.Quiet S all loads (hwSection i body) :=
  Prog.within_atomic fun e d => .use i (hBody e d.hw (d.tok.slots i))

theorem quiet_hsmObjectSign (sess : HsmSession) (h : HsmHandle) (msg ctx : Bytes)
    (cap : Option Nat) :
    DevProg.Quiet S all loads (hsmObjectSign S sess h msg ctx cap : DevProg n _) := by
  refine Prog.within_bind (quiet_requireRole sess .user) fun r => ?_
  rcases r with st | id
  · trivial
  · dsimp only
    split
    · trivial
    · rename_i i hSlot
      obtain rfl := slotAt_val hSlot
      exact quiet_hwSection_use fun e hw s => signLocked_cases S i h msg ctx cap e hw s

theorem quiet_hsmObjectDecaps (sess : HsmSession) (h : HsmHandle) (ct : Bytes)
    (cap : Option Nat) :
    DevProg.Quiet S all loads (hsmObjectDecaps S sess h ct cap : DevProg n _) := by
  refine Prog.within_bind (quiet_requireRole sess .user) fun r => ?_
  rcases r with st | id
  · trivial
  · dsimp only
    split
    · trivial
    · rename_i i hSlot
      obtain rfl := slotAt_val hSlot
      exact quiet_hwSection_use fun e hw s => decapsLocked_cases S i h ct cap e hw s

theorem quiet_hsmSlotGetMeta (id : Nat) :
    DevProg.Quiet S all loads (hsmSlotGetMeta S id : DevProg n _) := by
  unfold hsmSlotGetMeta
  split
  · trivial
  · refine Prog.within_atomic fun e d => ?_
    dsimp only
    split <;> simpa using QuietStep.read

/-- Serializing a slot reads it, if its seal holds. -/
theorem within_hsmSlotSerialize {R : Env → Device n → Device n × List Event → Prop}
    (hRead : ∀ e d, R e d (d, []))
    (hSerialize : ∀ e d (i : Fin n), (d.tok.slots i).Sealed S.crypto →
      R e d (d, [.serialized i (d.tok.slots i).metadata (d.tok.slots i).record]))
    (id : Nat) (kek : ByteVec 32) (cap : Nat) :
    (hsmSlotSerialize S id kek cap : DevProg n _).Within R := by
  unfold hsmSlotSerialize
  split
  · trivial
  · rename_i i hSlot
    obtain rfl := slotAt_val hSlot
    refine Prog.within_atomic fun e d => ?_
    dsimp only
    split
    · rename_i hInt
      split
      · simpa using hSerialize e d i (sealed_of_slotCheckIntegrity hInt)
      · simpa using hRead e d
    · simpa using hRead e d

theorem stores_hsmSlotSerialize (id : Nat) (kek : ByteVec 32) (cap : Nat) :
    DevProg.Stores S (hsmSlotSerialize S id kek cap : DevProg n _) :=
  within_hsmSlotSerialize (fun _ d => .file d.fs [] (by simp)) (fun _ _ => .serialize) id kek cap

theorem quiet_hsmSlotSerialize (id : Nat) (kek : ByteVec 32) (cap : Nat) :
    DevProg.Quiet S all loads (hsmSlotSerialize S id kek cap : DevProg n _) :=
  within_hsmSlotSerialize (fun _ _ => .read) (fun _ _ => .serialize) id kek cap

theorem quiet_hsmSlotDeserialize (id : Nat) (kek : ByteVec 32) (blob : Bytes) :
    DevProg.Quiet S all true (hsmSlotDeserialize S id kek blob : DevProg n _) := by
  unfold hsmSlotDeserialize
  split
  · trivial
  · rename_i i hSlot
    obtain rfl := slotAt_val hSlot
    refine Prog.within_atomic fun e d => ?_
    unfold slotDeserializeLocked
    dsimp only
    cases hRead : slotBlobRead S.crypto e kek blob (d.tok.slots i).metadata.slotId with
    | error st => simpa using QuietStep.read
    | ok mr =>
      obtain ⟨hId, hVersion⟩ := slotBlobRead_eq_ok hRead
      exact .deserialize i mr.1 mr.2 rfl hId hVersion (slotBlobRead_keyShape hRead _)

theorem commits_hsmSlotInitToken (id : Nat) (label soPin : Option CString) :
    Commits S hook all loads false (hsmSlotInitToken hook S id label soPin) := by
  unfold hsmSlotInitToken
  split
  · rename_i i label soPin hSlot
    obtain rfl := slotAt_val hSlot
    split
    · exact .ret _
    · rename_i hPin
      have hPin : validPin soPin = true := by simpa using hPin
      exact .change_slot i (fun e _ s => .initToken (initTokenLocked_cases S label hPin i e s))
        commits_commitSecurityState
  · exact .ret _

theorem commits_hsmSlotSetUserPin (sess : HsmSession) (userPin : Option CString) :
    Commits S hook all loads false (hsmSlotSetUserPin hook S sess userPin) := by
  refine .quiet (quiet_requireRole sess .so) fun r => ?_
  rcases r with st | id
  · exact .ret _
  · dsimp only
    split
    · rename_i userPin i hSlot
      obtain rfl := slotAt_val hSlot
      split
      · exact .ret _
      · exact .change_slot i
          (fun e _ s => .setUserPin (setUserPinLocked_cases S userPin i e s))
          commits_commitSecurityState
    · exact .ret _

theorem commits_finishLogin (sess : HsmSession) (role : HsmRole) (out : LoginOut) :
    Commits S hook true loads out.metaChanged (finishLogin hook sess role out) := by
  have hRest : ∀ st : HsmStatus, Commits S hook true loads false
      (if out.loginOk then (setSessionRole sess role).bind fun _ => .ret st else .ret st) := by
    intro st
    split
    · exact .quiet (quiet_setSessionRole sess role (.inr rfl)) fun _ => .ret st
    · exact .ret st
  obtain ⟨st, loginOk, metaChanged⟩ := out
  cases metaChanged
  · exact hRest st
  · exact .commit st hRest

theorem commits_hsmSessionLogin (sess : HsmSession) (role : HsmRole) (pin : Option CString) :
    Commits S hook true loads false (hsmSessionLogin hook S sess role pin) := by
  refine .quiet (quiet_sessionInfo sess) fun r => ?_
  rcases r with st | ⟨id, held⟩
  · exact .ret _
  · dsimp only
    split
    · rename_i pin i hSlot
      obtain rfl := slotAt_val hSlot
      split
      · exact .ret _
      · rename_i hRole
        rw [Prog.bind_eq_bind, slotSection_eq]
        refine .change i LoginOut.metaChanged
          (fun e _ s => .login hRole (loginLocked_cases S sess i role pin e s hRole))
          (fun e hw s hOwing => ?_) (commits_finishLogin sess role)
        have hCase := loginLocked_cases S sess i role pin e s hRole
        dsimp only at hOwing ⊢
        generalize loginLocked S sess i role pin e s = out at hCase hOwing ⊢
        cases hCase with
        | refused => rfl
        | _ => cases hOwing
    · exact .ret _

theorem commits_createObject (sess : HsmSession) (alg : PqcAlg) (usage policy : UInt32)
    (seed : Option Bytes) {ev : SlotEvent} (hev : ev = .generate ∨ ev = .load) :
    Commits S hook all loads false (createObject hook S sess alg usage policy seed ev) := by
  refine .quiet (quiet_requireRole sess .user) fun r => ?_
  rcases r with st | id
  · exact .ret _
  · dsimp only
    split
    · exact .ret _
    · split
      · exact .ret _
      · split
        · exact .ret _
        · rename_i i hSlot
          obtain rfl := slotAt_val hSlot
          exact .change i (fun _ => true)
            (fun e hw s => .create (createObjectLocked_cases S i alg usage policy seed hev e hw s))
            (fun _ _ _ hOwing => Bool.noConfusion hOwing)
            fun r => .commit r.1 fun st => .ret (st, r.2)

theorem commits_hsmSlotLoadSeed (sess : HsmSession) (alg : PqcAlg) (usage policy : UInt32)
    (seed : Bytes) :
    Commits S hook all loads false (hsmSlotLoadSeed hook S sess alg usage policy seed) := by
  unfold hsmSlotLoadSeed
  split
  · exact .ret _
  · split
    · exact .ret _
    · exact commits_createObject sess alg usage policy _ (.inr rfl)

theorem commits_hsmObjectDestroy (sess : HsmSession) (h : HsmHandle) :
    Commits S hook all loads false (hsmObjectDestroy hook S sess h) := by
  refine .quiet (quiet_requireRole sess .user) fun r => ?_
  rcases r with st | id
  · exact .ret _
  · dsimp only
    split
    · exact .ret _
    · rename_i i hSlot
      obtain rfl := slotAt_val hSlot
      exact .change_slot i (fun e _ s => .destroy (destroyLocked_cases S i h e s))
        commits_commitSecurityState

theorem commits_zeroizeAt (i : Fin n) :
    Commits S hook true loads false (zeroizeAt hook S i i) := by
  refine .change_slot i (fun e _ s => .zeroize rfl) fun st => ?_
  split
  · exact .quiet (quiet_dropSessionsOnSlot i) fun _ => commits_commitSecurityState st
  · exact commits_commitSecurityState st

theorem commits_hsmSlotZeroize (sess : HsmSession) (id : Nat) :
    Commits S hook true loads false (hsmSlotZeroize hook S sess id) := by
  refine .quiet (quiet_requireRole sess .so) fun r => ?_
  rcases r with st | sid
  · exact .ret _
  · dsimp only
    split
    · exact .ret _
    · rename_i i hSlot
      obtain rfl := slotAt_val hSlot
      split
      · exact .ret _
      · exact commits_zeroizeAt i

theorem commits_hsmSlotZeroizeForced (id : Nat) :
    Commits S hook true loads false (hsmSlotZeroizeForced hook S id) := by
  unfold hsmSlotZeroizeForced
  split
  · exact .ret _
  · rename_i i hSlot
    obtain rfl := slotAt_val hSlot
    exact commits_zeroizeAt i

theorem commits_hsmSlotUnlock (sess : HsmSession) (id : Nat) :
    Commits S hook all loads false (hsmSlotUnlock hook S sess id) := by
  refine .quiet (quiet_requireRole sess .so) fun r => ?_
  rcases r with st | sid
  · exact .ret _
  · dsimp only
    split
    · exact .ret _
    · rename_i i hSlot
      obtain rfl := slotAt_val hSlot
      split
      · exact .ret _
      · exact .change_slot i (fun e _ s => .unlock (unlockLocked_cases S i e s))
          commits_commitSecurityState

end Programs

end PqcHsm
