import PqcHsm.Rtl.VaultSlots
import PqcHsm.Tee.BlobBinding

/-!
# Symmetric keys in the vault

The application pushes a key into a slot of the vault word by word, through a service of the secure
world that does one action a call. A call can fail before or after its action, and at any moment
another party can wipe the vault. Slots 0 to 6 are for keys that were generated or opened from a blob,
slot 7 is for the published keys of the self test.
-/

namespace PqcHsm

open ByteCodec Transition Wrap

abbrev VaultSlots := BitVec 3 → VaultSlot

/-- What the slots hold, and what they held before. -/
structure VaultPast where
  now : VaultSlots
  before : List VaultSlots

namespace VaultPast

def start : VaultPast := ⟨fun _ => .empty, []⟩

variable (p : VaultPast) (slot : BitVec 3) (op : LoadOp)

def contents : List VaultSlots := p.now :: p.before

def act : VaultPast := ⟨setAt p.now slot ((p.now slot).after op), p.contents⟩

def wipe : VaultPast := ⟨fun s => (p.now s).after .wipe, p.contents⟩

end VaultPast

/-- The actions that the application asks for, of those that EL3 offers. There is none for a lock. -/
inductive SymOp where
  | begin
  | word (w : BitVec 32)
  | commit
  | erase
  deriving DecidableEq

/-- `ZYNQMP_SIP_SVC_PQC_SYMKEY`: whether EL3 reports success, and the vault. A word for a full slot is
refused before it is written, and a commit is checked afterwards. -/
def pqcSymkey (p : VaultPast) (slot : BitVec 3) : SymOp → Bool × VaultPast
  | .word w => if 8 ≤ (p.now slot).words.length then (false, p) else (true, p.act slot (.word w))
  | .commit => (((p.act slot .commit).now slot).committed, p.act slot .commit)
  | .begin => (true, p.act slot .begin)
  | .erase => (true, p.act slot .erase)

def TEE_ERROR_GENERIC : UInt32 := 0xFFFF0000
def TEE_ERROR_BAD_PARAMETERS : UInt32 := 0xFFFF0006

/-- A call of the service is answered, or fails on its way to EL3, or on the way back. -/
inductive SymFate where
  | answered
  | lost (code : UInt32)
  | unheard (code : UInt32)
  deriving DecidableEq

/-- How a call goes, and whether the vault has been wiped before it arrives. -/
structure SymCall where
  wiped : Bool
  fate : SymFate

def SymCall.Acts (c : SymCall) : Prop := ∀ code, c.fate ≠ .lost code

instance (c : SymCall) : Decidable c.Acts :=
  match h : c.fate with
  | .answered => isTrue fun code hLost => by rw [h] at hLost; cases hLost
  | .lost code => isFalse fun hActs => hActs code h
  | .unheard code => isTrue fun _ hLost => by rw [h] at hLost; cases hLost

/-- `sym_op`: its error, and the vault. -/
def symOp (c : SymCall) (p : VaultPast) (slot : BitVec 3) (op : SymOp) : Option UInt32 × VaultPast :=
  let p := if c.wiped then p.wipe else p
  match c.fate with
  | .lost code => (some code, p)
  | .unheard code => (some code, (pqcSymkey p slot op).2)
  | .answered =>
    (if (pqcSymkey p slot op).1 then none else some TEE_ERROR_GENERIC, (pqcSymkey p slot op).2)

/-- Actions in a row, up to the first that fails. -/
def symOps (call : Nat → SymCall) (slot : BitVec 3) :
    List SymOp → Nat → VaultPast → Option UInt32 × VaultPast
  | [], _, p => (none, p)
  | op :: ops, i, p =>
    match symOp (call i) p slot op with
    | (some code, p) => (some code, p)
    | (none, p) => symOps call slot ops (i + 1) p

/-- A word of the key, from its first byte down; bytes beyond the key are zero. -/
def symWord (key : Bytes) (i : Nat) : BitVec 32 :=
  (key.getD (4 * i) 0).toBitVec ++ (key.getD (4 * i + 1) 0).toBitVec ++
    (key.getD (4 * i + 2) 0).toBitVec ++ (key.getD (4 * i + 3) 0).toBitVec

def symWords (key : Bytes) : List (BitVec 32) := (List.range 8).map (symWord key)

/-- What becomes of a push: of opening its session, of its calls and of its ERASE. -/
structure PushEnv where
  session : Option UInt32
  call : Nat → SymCall
  erase : SymCall

def slotIndex (slot : UInt32) : BitVec 3 := BitVec.ofNat 3 slot.toNat

/-- `sym_push`: its error, and the vault. -/
def symPushOn (x : PushEnv) (p : VaultPast) (slot : UInt32) (key : Bytes) :
    Option UInt32 × VaultPast :=
  if 7 < slot ∨ (key.length ≠ 16 ∧ key.length ≠ 32) then (some TEE_ERROR_BAD_PARAMETERS, p)
  else match x.session with
  | some code => (some code, p)
  | none =>
    match symOps x.call (slotIndex slot) (.begin :: ((symWords key).map .word ++ [.commit])) 0 p with
    | (none, p) => (none, p)
    | (some code, p) => (some code, (symOp x.erase p (slotIndex slot) .erase).2)

/-- `sym_kat_keys`, with the lengths of `sym_kat_len`. -/
def symKatKeys : List Bytes :=
  [[0x01, 0x23, 0x45, 0x67, 0x89, 0xab, 0xcd, 0xef, 0xfe, 0xdc, 0xba, 0x98, 0x76, 0x54, 0x32, 0x10],
   [0x2b, 0x7e, 0x15, 0x16, 0x28, 0xae, 0xd2, 0xa6, 0xab, 0xf7, 0x15, 0x88, 0x09, 0xcf, 0x4f, 0x3c],
   [0x00, 0x01, 0x02, 0x03, 0x04, 0x05, 0x06, 0x07, 0x08, 0x09, 0x0a, 0x0b, 0x0c, 0x0d, 0x0e, 0x0f,
    0x10, 0x11, 0x12, 0x13, 0x14, 0x15, 0x16, 0x17, 0x18, 0x19, 0x1a, 0x1b, 0x1c, 0x1d, 0x1e, 0x1f]]

/-- The push with which a command ends, if it comes so far: the slot and the key. -/
def TaCmd.push (T : TaLib) (st : TaState) (e : TaEnv) : TaCmd → Option (UInt32 × Bytes)
  | .symkeyNew slot len blobCap =>
    (cmdSymkeyNew T st e slot len blobCap).sealing.map fun s => (slot, s.pt)
  | .symkeyLoad slot blob => (cmdSymkeyLoad T st e slot blob).keyUsed.map fun key => (slot, key)
  | .symkeyKat slot id =>
    if slot ≠ TA_SYM_KAT_SLOT then none else symKatKeys[id.toNat]?.map fun key => (slot, key)
  | _ => none

/-- A run of the application with the vault; `past` has the commands so far, each with the state in
which it ran. -/
structure SymRun where
  run : TaRun
  vault : VaultPast
  past : List (TaState × TaCmd × TaEnv)

inductive SymAction where
  | command (c : TaCmd) (e : TaEnv) (x : PushEnv)
  | wipe

section Run

variable (T : TaLib)

def SymRun.next (r : SymRun) : SymAction → SymRun
  | .wipe => { r with vault := r.vault.wipe }
  | .command c e x =>
    match c.push T r.run.st e with
    | none => ⟨r.run.next T (c, e), r.vault, (r.run.st, c, e) :: r.past⟩
    | some (slot, key) =>
      let pushed := symPushOn x r.vault slot key
      ⟨r.run.next T (c, { e with push := pushed.1 }), pushed.2, (r.run.st, c, e) :: r.past⟩

def SymRun.fresh : SymRun := ⟨.fresh, .start, []⟩

def symSystem : System SymRun SymAction := .ofFun (· = .fresh) (SymRun.next T)

/-- The ERASE after a failed push reaches EL3. -/
def eraseActs (_ : SymRun) (a : SymAction) (_ : SymRun) : Prop :=
  match a with
  | .command _ _ x => x.erase.Acts
  | .wipe => True

instance (r : SymRun) (a : SymAction) (r' : SymRun) : Decidable (eraseActs r a r') := by
  unfold eraseActs
  split <;> infer_instance

end Run

/-! ### One push -/

/-- No slot is locked, and a committed one holds words that it may hold. -/
def VaultPast.Holds (P : BitVec 3 → List (BitVec 32) → Prop) (p : VaultPast) : Prop :=
  ∀ v ∈ p.contents, ∀ s, (v s).locked = false ∧ ((v s).committed = true → P s (v s).words)

section Push

variable {P Q : BitVec 3 → List (BitVec 32) → Prop} {p : VaultPast} {slot : BitVec 3}

theorem VaultPast.Holds.mono (h : p.Holds P) (hle : ∀ s words, P s words → Q s words) : p.Holds Q := by
  rintro v hv s
  exact ⟨(h v hv s).1, fun hC => hle s _ ((h v hv s).2 hC)⟩

theorem VaultPast.Holds.now (h : p.Holds P) (s : BitVec 3) :
    (p.now s).locked = false ∧ ((p.now s).committed = true → P s (p.now s).words) :=
  h p.now List.mem_cons_self s

theorem VaultPast.Holds.wipe (h : p.Holds P) : p.wipe.Holds P := by
  rintro v hv s
  rcases List.mem_cons.mp hv with rfl | hOld
  · exact ⟨rfl, nofun⟩
  · exact h v hOld s

theorem VaultPast.act_now (p : VaultPast) (slot : BitVec 3) (op : LoadOp) :
    (p.act slot op).now slot = (p.now slot).after op := by
  simp [VaultPast.act, setAt]

theorem VaultPast.Holds.act (h : p.Holds P) {op : LoadOp}
    (hOp : ((p.now slot).after op).locked = false ∧
      (((p.now slot).after op).committed = true → P slot ((p.now slot).after op).words)) :
    (p.act slot op).Holds P := by
  rintro v hv s
  rcases List.mem_cons.mp hv with rfl | hOld
  · simp only [VaultPast.act, setAt]
    split
    · rename_i hs
      exact hs ▸ hOp
    · exact h.now s
  · exact h v hOld s

theorem after_clear {a : VaultSlot} (hLock : a.locked = false) :
    a.after .begin = .empty ∧ a.after .erase = .empty := by
  constructor <;> simp [VaultSlot.after, VaultSlot.step, hLock]

theorem after_word {a : VaultSlot} {w : BitVec 32} (h : a.words.length < 8) :
    (a.after (.word w)).words = a.words ++ [w] ∧ (a.after (.word w)).committed = false ∧
      (a.after (.word w)).locked = false := by
  simp [VaultSlot.after, VaultSlot.step, h]

theorem after_commit {a : VaultSlot} (hLock : a.locked = false) (hOpen : a.committed = false) :
    (a.after .commit).words = a.words ∧ (a.after .commit).locked = false ∧
      ((a.after .commit).committed = true → a.words.length = 8) := by
  by_cases hLen : a.words.length = 8
  · simp [VaultSlot.after, VaultSlot.step, hLen, hLock]
  · simp [VaultSlot.after, VaultSlot.step, hLen, hLock, hOpen]

/-- A slot under way: not committed, with the last of the words that were sent. -/
def VaultPast.Filling (p : VaultPast) (slot : BitVec 3) (sent : List (BitVec 32)) : Prop :=
  (p.now slot).committed = false ∧ (p.now slot).words <:+ sent

theorem filling_wipe (p : VaultPast) (slot : BitVec 3) (sent : List (BitVec 32)) :
    p.wipe.Filling slot sent := ⟨rfl, List.nil_suffix⟩

theorem VaultPast.Filling.wiped {sent : List (BitVec 32)} (h : p.Filling slot sent) (b : Bool) :
    (if b then p.wipe else p).Filling slot sent := by
  cases b
  · exact h
  · exact filling_wipe p slot sent

theorem VaultPast.Holds.wiped (h : p.Holds P) (b : Bool) : (if b then p.wipe else p).Holds P := by
  cases b
  · exact h
  · exact h.wipe

/-- A call fails before EL3 acts, or EL3 acts; only a success of EL3 is a success of the call. -/
theorem symOp_cases (c : SymCall) (p : VaultPast) (slot : BitVec 3) (op : SymOp) :
    (∃ code, c.fate = .lost code ∧
      symOp c p slot op = (some code, if c.wiped then p.wipe else p)) ∨
    (∃ code, symOp c p slot op =
      (some code, (pqcSymkey (if c.wiped then p.wipe else p) slot op).2)) ∨
    (pqcSymkey (if c.wiped then p.wipe else p) slot op).1 = true ∧
      symOp c p slot op = (none, (pqcSymkey (if c.wiped then p.wipe else p) slot op).2) := by
  unfold symOp
  dsimp only
  cases hFate : c.fate with
  | lost code => exact .inl ⟨code, rfl, rfl⟩
  | unheard code => exact .inr (.inl ⟨code, rfl⟩)
  | answered =>
    cases hOk : (pqcSymkey (if c.wiped then p.wipe else p) slot op).1 with
    | true => exact .inr (.inr ⟨rfl, rfl⟩)
    | false => exact .inr (.inl ⟨TEE_ERROR_GENERIC, rfl⟩)

theorem pqcSymkey_word {sent : List (BitVec 32)} {w : BitVec 32} (h : p.Holds P)
    (hFill : p.Filling slot sent) :
    (pqcSymkey p slot (.word w)).2.Holds P ∧ ((pqcSymkey p slot (.word w)).1 = true →
      (pqcSymkey p slot (.word w)).2.Filling slot (sent ++ [w])) := by
  simp only [pqcSymkey]
  split
  · exact ⟨h, nofun⟩
  · rename_i hRoom
    obtain ⟨hWords, hOpen, hLock⟩ := @after_word (p.now slot) w (by omega)
    constructor
    · exact h.act ⟨hLock, by simp [hOpen]⟩
    · rintro -
      rw [VaultPast.Filling, VaultPast.act_now, hWords]
      exact ⟨hOpen, List.suffix_append_self_iff.mpr hFill.2⟩

theorem pqcSymkey_commit {sent : List (BitVec 32)} (h : p.Holds P) (hFill : p.Filling slot sent)
    (hLen : sent.length = 8) (hSent : P slot sent) : (pqcSymkey p slot .commit).2.Holds P := by
  obtain ⟨hWords, hLock, hFull⟩ := after_commit (h.now slot).1 hFill.1
  refine h.act ⟨hLock, ?_⟩
  rintro hC
  rw [hWords, hFill.2.eq_of_length ((hFull hC).trans hLen.symm)]
  exact hSent

/-- The words that are still to come, after those that were sent. -/
theorem symOps_words {call : Nat → SymCall} {sent rest : List (BitVec 32)} {i : Nat} (h : p.Holds P)
    (hFill : p.Filling slot sent) (hLen : (sent ++ rest).length = 8) (hSent : P slot (sent ++ rest)) :
    (symOps call slot (rest.map SymOp.word ++ [.commit]) i p).2.Holds P := by
  induction rest generalizing sent i p with
  | nil =>
    rw [List.append_nil] at hLen hSent
    have hAll := pqcSymkey_commit (h.wiped (call i).wiped) (hFill.wiped (call i).wiped) hLen hSent
    simp only [List.map_nil, List.nil_append, symOps]
    rcases symOp_cases (call i) p slot .commit with ⟨code, -, hOut⟩ | ⟨code, hOut⟩ | ⟨-, hOut⟩
    · rw [hOut]
      exact h.wiped _
    · rw [hOut]
      exact hAll
    · rw [hOut]
      exact hAll
  | cons w rest ih =>
    obtain ⟨hHolds, hNext⟩ :=
      @pqcSymkey_word P _ slot sent w (h.wiped (call i).wiped) (hFill.wiped (call i).wiped)
    simp only [List.map_cons, List.cons_append, symOps]
    rcases symOp_cases (call i) p slot (.word w) with ⟨code, -, hOut⟩ | ⟨code, hOut⟩ | ⟨hOk, hOut⟩
    · rw [hOut]
      exact h.wiped _
    · rw [hOut]
      exact hHolds
    · rw [hOut]
      exact ih hHolds (hNext hOk) (by simpa using hLen) (by simpa using hSent)

theorem length_symWords (key : Bytes) : (symWords key).length = 8 := by
  rw [symWords, List.length_map, List.length_range]

theorem symOps_push {call : Nat → SymCall} {key : Bytes} (h : p.Holds P) (hKey : P slot (symWords key)) :
    (symOps call slot (.begin :: ((symWords key).map SymOp.word ++ [.commit])) 0 p).2.Holds P := by
  have hW := h.wiped (call 0).wiped
  have hBegin := (after_clear (hW.now slot).1).1
  have hEmpty : ((pqcSymkey (if (call 0).wiped then p.wipe else p) slot .begin).2).Holds P :=
    hW.act (by rw [hBegin]; exact ⟨rfl, nofun⟩)
  rw [symOps]
  rcases symOp_cases (call 0) p slot .begin with ⟨code, -, hOut⟩ | ⟨code, hOut⟩ | ⟨-, hOut⟩
  · rw [hOut]
    exact hW
  · rw [hOut]
    exact hEmpty
  · rw [hOut]
    refine @symOps_words P _ slot call [] _ _ hEmpty ?_ (length_symWords key) hKey
    simp only [pqcSymkey, VaultPast.Filling, VaultPast.act_now, hBegin]
    exact ⟨rfl, List.nil_suffix⟩

theorem symOp_erase {c : SymCall} (h : p.Holds P) :
    (symOp c p slot .erase).2.Holds P ∧
      (c.Acts → ((symOp c p slot .erase).2.now slot).committed = false) := by
  have hW := h.wiped c.wiped
  have hErase := (after_clear (hW.now slot).1).2
  have hHolds : ((pqcSymkey (if c.wiped then p.wipe else p) slot .erase).2).Holds P :=
    hW.act (by rw [hErase]; exact ⟨rfl, nofun⟩)
  have hEmpty : (((pqcSymkey (if c.wiped then p.wipe else p) slot .erase).2).now slot).committed = false := by
    simp only [pqcSymkey, VaultPast.act_now, hErase]
    rfl
  rcases symOp_cases c p slot .erase with ⟨code, hFate, hOut⟩ | ⟨code, hOut⟩ | ⟨-, hOut⟩
  · rw [hOut]
    exact ⟨hW, fun hActs => (hActs code hFate).elim⟩
  · rw [hOut]
    exact ⟨hHolds, fun _ => hEmpty⟩
  · rw [hOut]
    exact ⟨hHolds, fun _ => hEmpty⟩

theorem symPushOn_holds {x : PushEnv} {slot : UInt32} {key : Bytes} (h : p.Holds P)
    (hKey : P (slotIndex slot) (symWords key)) : (symPushOn x p slot key).2.Holds P := by
  have hOps := @symOps_push P p _ x.call key h hKey
  unfold symPushOn
  split
  · exact h
  split
  · exact h
  split
  · rename_i hEq
    rw [hEq] at hOps
    exact hOps
  · rename_i hEq
    rw [hEq] at hOps
    exact (symOp_erase hOps).1

/-- A push that fails has not been tried at all, or its slot has been erased. -/
theorem symPushOn_fails {x : PushEnv} {slot : UInt32} {key : Bytes} (h : p.Holds P)
    (hKey : P (slotIndex slot) (symWords key)) (hArgs : ¬ (7 < slot ∨ (key.length ≠ 16 ∧ key.length ≠ 32)))
    (hErase : x.erase.Acts) (hFail : (symPushOn x p slot key).1.isSome) :
    if x.session.isSome then (symPushOn x p slot key).2 = p
    else ((symPushOn x p slot key).2.now (slotIndex slot)).committed = false := by
  have hOps := @symOps_push P p _ x.call key h hKey
  unfold symPushOn at hFail ⊢
  rw [if_neg hArgs] at hFail ⊢
  cases hSession : x.session with
  | some code => rfl
  | none =>
    rw [hSession] at hFail
    simp only [Option.isSome_none, Bool.false_eq_true, if_false]
    split
    · rename_i hEq
      simp only [hEq] at hFail
      cases hFail
    · rename_i hEq
      rw [hEq] at hOps
      exact (symOp_erase hOps).2 hErase

end Push

/-! ### Which keys are pushed -/

/-- The application generated the key for the slot. -/
def SymRun.Generated (r : SymRun) (s : BitVec 3) (key : Bytes) : Prop :=
  ∃ st slot len blobCap e entropy, (st, .symkeyNew slot len blobCap, e) ∈ r.past ∧
    slot.toNat = s.toNat ∧ e.entropy = .ok entropy ∧ key = (ofStream len entropy).toList

/-- The application opened the key for the slot, from a blob under its KEK at that time that was
sealed as one of a symmetric key. -/
def SymRun.Opened (T : TaLib) (r : SymRun) (s : BitVec 3) (key : Bytes) : Prop :=
  ∃ st slot blob e kek nonce, (st, .symkeyLoad slot blob, e) ∈ r.past ∧ slot.toNat = s.toNat ∧
    st.gKek = some kek ∧
    blob = .mem (pwrpBlob T.gcm kek nonce (UInt32.ofNat TA_SYMKEY_AAD.length) TA_SYMKEY_AAD key)

/-- What a slot is for. -/
def SymRun.Rightful (T : TaLib) (r : SymRun) (s : BitVec 3) (key : Bytes) : Prop :=
  if s = slotIndex TA_SYM_KAT_SLOT then key ∈ symKatKeys else r.Generated s key ∨ r.Opened T s key

section Rightful

variable {T : TaLib} {r : SymRun} {e : TaEnv} {c : TaCmd} {slot : UInt32} {key : Bytes}

theorem toNat_slotIndex {slot : UInt32} (h : slot ≤ 7) : (slotIndex slot).toNat = slot.toNat := by
  rw [slotIndex, BitVec.toNat_ofNat]
  exact Nat.mod_eq_of_lt (Nat.lt_of_le_of_lt (UInt32.le_iff_toNat_le.mp h) (by decide))

theorem slotIndex_ne_kat {slot : UInt32} (h : slot ≤ TA_SYM_SLOT_MAX) :
    slotIndex slot ≠ slotIndex TA_SYM_KAT_SLOT := by
  have hLe : slot.toNat ≤ 6 := UInt32.le_iff_toNat_le.mp h
  rintro hEq
  have hNat := congrArg BitVec.toNat hEq
  rw [toNat_slotIndex (UInt32.le_iff_toNat_le.mpr (by exact Nat.le_succ_of_le hLe)),
    toNat_slotIndex (by decide)] at hNat
  have hKat : TA_SYM_KAT_SLOT.toNat = 7 := rfl
  omega

theorem sealing_of_cmdSymkeyNew {st : TaState} {len blobCap : Nat} {s : TaSealing}
    (h : (cmdSymkeyNew T st e slot len blobCap).sealing = some s) :
    slot ≤ TA_SYM_SLOT_MAX ∧ (len = 16 ∨ len = 32) ∧
      ∃ entropy, e.entropy = .ok entropy ∧ s.pt = (ofStream len entropy).toList := by
  unfold cmdSymkeyNew at h
  split at h
  · cases h
  split at h
  · cases h
  rename_i hArgs
  split at h
  · cases h
  split at h
  · cases h
  rename_i entropy hEntropy
  dsimp only at h
  split at h
  · cases h
  · cases h
    refine ⟨?_, by omega, entropy, hEntropy, rfl⟩
    exact UInt32.not_lt.mp fun hLt => hArgs (.inl hLt)

theorem keyUsed_of_cmdSymkeyLoad {st : TaState} {blob : Span}
    (h : (cmdSymkeyLoad T st e slot blob).keyUsed = some key) :
    slot ≤ TA_SYM_SLOT_MAX ∧ (key.length = 16 ∨ key.length = 32) ∧ ∃ kek nonce,
      st.gKek = some kek ∧ blob =
        .mem (pwrpBlob T.gcm kek nonce (UInt32.ofNat TA_SYMKEY_AAD.length) TA_SYMKEY_AAD key) := by
  unfold cmdSymkeyLoad at h
  split at h
  · cases h
  rename_i kek hKek
  split at h
  · cases h
  rename_i hSlot
  split at h
  · cases h
  dsimp only at h
  split at h
  · cases h
  rename_i hRc
  split at h
  · cases h
  rename_i hLen
  obtain ⟨nonce, pt, hOpen, -, -, -, -, hBlob⟩ := taWrapOpen_success (not_not.mp hRc)
  rw [hOpen] at hLen h
  cases h
  have hPt : (((Span.mem (e.buffer 32)).write pt).toBytes).take pt.length = pt := List.take_left
  rw [hPt]
  refine ⟨UInt32.not_lt.mp hSlot, ?_, kek, nonce, hKek, hBlob⟩
  dsimp only at hLen
  omega

theorem length_symKatKeys (h : key ∈ symKatKeys) : key.length = 16 ∨ key.length = 32 := by
  simp only [symKatKeys, List.mem_cons, List.not_mem_nil, or_false] at h
  rcases h with rfl | rfl | rfl
  · exact .inl rfl
  · exact .inl rfl
  · exact .inr rfl

/-- A command pushes what its slot is for, once it is among the past ones. -/
theorem rightful_push {st : TaState} (h : c.push T st e = some (slot, key))
    (hPast : (st, c, e) ∈ r.past) :
    ¬ (7 < slot ∨ (key.length ≠ 16 ∧ key.length ≠ 32)) ∧ r.Rightful T (slotIndex slot) key := by
  cases c with
  | symkeyNew slot' len blobCap =>
    obtain ⟨s, hSealing, hEq⟩ := Option.map_eq_some_iff.mp h
    cases hEq
    obtain ⟨hSlot, hLen, entropy, hEntropy, hPt⟩ := sealing_of_cmdSymkeyNew hSealing
    have hSeven : slot ≤ 7 := UInt32.le_trans hSlot (by decide)
    have hLength : s.pt.length = len := by rw [hPt, length_stream]
    constructor
    · rintro (hLt | hBad)
      · exact UInt32.not_lt.mpr hSeven hLt
      · omega
    · rw [SymRun.Rightful, if_neg (slotIndex_ne_kat hSlot)]
      exact .inl ⟨_, _, _, _, _, entropy, hPast, (toNat_slotIndex hSeven).symm, hEntropy, hPt⟩
  | symkeyLoad slot' blob =>
    obtain ⟨key', hUsed, hEq⟩ := Option.map_eq_some_iff.mp h
    cases hEq
    obtain ⟨hSlot, hLen, kek, nonce, hKek, hBlob⟩ := keyUsed_of_cmdSymkeyLoad hUsed
    have hSeven : slot ≤ 7 := UInt32.le_trans hSlot (by decide)
    constructor
    · rintro (hLt | hBad)
      · exact UInt32.not_lt.mpr hSeven hLt
      · omega
    · rw [SymRun.Rightful, if_neg (slotIndex_ne_kat hSlot)]
      exact .inr ⟨_, _, _, _, kek, nonce, hPast, (toNat_slotIndex hSeven).symm, hKek, hBlob⟩
  | symkeyKat slot' id =>
    simp only [TaCmd.push] at h
    split at h
    · cases h
    rename_i hSlot
    obtain ⟨key', hKey, hEq⟩ := Option.map_eq_some_iff.mp h
    cases hEq
    have hMem : key ∈ symKatKeys := List.mem_of_getElem? hKey
    have hLen := length_symKatKeys hMem
    rw [not_not.mp hSlot]
    constructor
    · rintro (hLt | hBad)
      · exact absurd hLt (by decide)
      · omega
    · rw [SymRun.Rightful, if_pos rfl]
      exact hMem
  | _ => cases h

/-- What the past allows, a longer past allows. -/
theorem SymRun.Rightful.mono {r' : SymRun} {s : BitVec 3} (h : r.Rightful T s key)
    (hPast : ∀ x ∈ r.past, x ∈ r'.past) : r'.Rightful T s key := by
  unfold SymRun.Rightful at h ⊢
  split at h
  · rename_i hs
    rw [if_pos hs]
    exact h
  · rename_i hs
    rw [if_neg hs]
    rcases h with ⟨st, slot, len, cap, e, entropy, hMem, hRest⟩ | ⟨st, slot, blob, e, kek, nonce, hMem, hRest⟩
    · exact .inl ⟨st, slot, len, cap, e, entropy, hPast _ hMem, hRest⟩
    · exact .inr ⟨st, slot, blob, e, kek, nonce, hPast _ hMem, hRest⟩

end Rightful

/-! ### Main results -/

/-- The words of a key that the slot is for. -/
def SymRun.MayHold (T : TaLib) (r : SymRun) (s : BitVec 3) (words : List (BitVec 32)) : Prop :=
  ∃ key, words = symWords key ∧ r.Rightful T s key

section Main

variable {T : TaLib} {ok : SymRun → SymAction → SymRun → Prop} {r : SymRun}

theorem past_next (r : SymRun) (a : SymAction) : ∀ x ∈ r.past, x ∈ (r.next T a).past := by
  rintro x hx
  cases a with
  | wipe => exact hx
  | command c e x =>
    simp only [SymRun.next]
    split <;> exact List.mem_cons_of_mem _ hx

theorem holds_next (h : r.vault.Holds (r.MayHold T)) (a : SymAction) :
    (r.next T a).vault.Holds ((r.next T a).MayHold T) := by
  have hOld : r.vault.Holds ((r.next T a).MayHold T) :=
    h.mono fun s words ⟨key, hWords, hKey⟩ => ⟨key, hWords, hKey.mono (past_next r a)⟩
  cases a with
  | wipe => exact hOld.wipe
  | command c e x =>
    cases hPush : c.push T r.run.st e with
    | none =>
      simp only [SymRun.next, hPush] at hOld ⊢
      exact hOld
    | some p =>
      obtain ⟨slot, key⟩ := p
      simp only [SymRun.next, hPush] at hOld ⊢
      refine symPushOn_holds hOld ⟨key, rfl, ?_⟩
      exact (rightful_push hPush List.mem_cons_self).2

theorem holds_of_reachable (h : Reachable (symSystem T) ok r) : r.vault.Holds (r.MayHold T) := by
  refine h.invariant (I := fun r => r.vault.Holds (r.MayHold T)) ?_ ?_
  · rintro r rfl v hv s
    rw [List.mem_singleton.mp hv]
    exact ⟨rfl, nofun⟩
  · rintro r a _ hInv rfl -
    exact holds_next hInv a

theorem rc_of_cmdSymkeyNew {st : TaState} {e : TaEnv} {slot : UInt32} {len blobCap : Nat} {s : TaSealing}
    (h : (cmdSymkeyNew T st e slot len blobCap).sealing = some s) (err : Option UInt32) :
    (cmdSymkeyNew T st { e with push := err } slot len blobCap).rc =
      symPush { e with push := err } slot len := by
  unfold cmdSymkeyNew at h ⊢
  split at h
  · cases h
  split at h
  · cases h
  rename_i hArgs
  split at h
  · cases h
  rename_i hCap
  split at h
  · cases h
  rename_i hEntropy
  dsimp only at h
  split at h
  · cases h
  · rename_i hSeal
    simp only [hEntropy, if_neg hArgs, if_neg hCap, hSeal]

theorem rc_of_cmdSymkeyLoad {st : TaState} {e : TaEnv} {slot : UInt32} {blob : Span} {key : Bytes}
    (h : (cmdSymkeyLoad T st e slot blob).keyUsed = some key) (err : Option UInt32) :
    (cmdSymkeyLoad T st { e with push := err } slot blob).rc =
      symPush { e with push := err } slot key.length := by
  unfold cmdSymkeyLoad at h ⊢
  split at h
  · cases h
  split at h
  · cases h
  rename_i hSlot
  split at h
  · cases h
  rename_i hBlob
  dsimp only at h
  split at h
  · cases h
  rename_i hRc
  split at h
  · cases h
  rename_i hLen
  obtain ⟨nonce, pt, hOpen, -⟩ := taWrapOpen_success (not_not.mp hRc)
  have hPt : (((Span.mem (e.buffer 32)).write pt).toBytes).take pt.length = pt := List.take_left
  rw [hOpen] at hLen h
  cases h
  have hBuffer : ({ e with push := err } : TaEnv).buffer 32 = e.buffer 32 := rfl
  simp only [if_neg hSlot, if_neg hBlob, hBuffer, hOpen, ne_eq, not_true_eq_false, if_false]
  rw [if_neg hLen, hPt]

/-- A command that comes to a push reports the push. -/
theorem rc_of_push {st : TaState} {e : TaEnv} {c : TaCmd} {slot : UInt32} {key : Bytes}
    (h : c.push T st e = some (slot, key)) (err : Option UInt32) :
    (taStep T st { e with push := err } c).1.rc = err.elim .success .other := by
  have hArgs := (@rightful_push T ⟨.fresh, .start, [(st, c, e)]⟩ e c slot key st h
    List.mem_cons_self).1
  have hPush : symPush { e with push := err } slot key.length = err.elim .success .other := by
    rw [symPush, if_neg hArgs]
    rfl
  cases c with
  | symkeyNew slot' len blobCap =>
    obtain ⟨s, hSealing, hEq⟩ := Option.map_eq_some_iff.mp h
    cases hEq
    obtain ⟨-, -, entropy, -, hPt⟩ := sealing_of_cmdSymkeyNew hSealing
    rw [hPt, length_stream] at hPush
    exact (rc_of_cmdSymkeyNew hSealing err).trans hPush
  | symkeyLoad slot' blob =>
    obtain ⟨key', hUsed, hEq⟩ := Option.map_eq_some_iff.mp h
    cases hEq
    exact (rc_of_cmdSymkeyLoad hUsed err).trans hPush
  | symkeyKat slot' id =>
    simp only [TaCmd.push] at h
    split at h
    · cases h
    rename_i hSlot
    obtain ⟨key', hKey, hEq⟩ := Option.map_eq_some_iff.mp h
    cases hEq
    obtain rfl := not_not.mp hSlot
    simp only [taStep, cmdSymkeyKat, ne_eq, not_true_eq_false, if_false]
    match hId : id.toNat, hKey with
    | 0, hKey => cases hKey; exact hPush
    | 1, hKey => cases hKey; exact hPush
    | 2, hKey => cases hKey; exact hPush
  | _ => cases h

/-- In every run whose ERASEs reach EL3, a slot that was ever committed held, word by word, a key that
it is for: slot 7 a published key of the self test, the others a key that was generated or opened for
them. A push that fails once its session is open leaves its slot uncommitted; one whose session cannot
be opened leaves the vault as it was. -/
theorem vault_slots_separated (h : Reachable (symSystem T) eraseActs r) :
    (∀ v ∈ r.vault.contents, ∀ s, (v s).committed = true → r.MayHold T s (v s).words) ∧
      ∀ c e x slot key, c.push T r.run.st e = some (slot, key) →
        eraseActs r (.command c e x) (r.next T (.command c e x)) →
        (taStep T r.run.st { e with push := (symPushOn x r.vault slot key).1 } c).1.rc ≠ .success →
        if x.session.isSome then (r.next T (.command c e x)).vault = r.vault
        else ((r.next T (.command c e x)).vault.now (slotIndex slot)).committed = false := by
  have hHolds := holds_of_reachable h
  constructor
  · rintro v hv s hC
    exact (hHolds v hv s).2 hC
  · rintro c e x slot key hPush hErase hRc
    obtain ⟨hArgs, hKey⟩ := @rightful_push T ⟨r.run, r.vault, (r.run.st, c, e) :: r.past⟩ e c slot key _
      hPush List.mem_cons_self
    have hNext : (r.next T (.command c e x)).vault = (symPushOn x r.vault slot key).2 := by
      simp only [SymRun.next, hPush]
    have hFail : (symPushOn x r.vault slot key).1.isSome := by
      rw [rc_of_push hPush] at hRc
      cases hErr : (symPushOn x r.vault slot key).1 with
      | none => exact absurd (by rw [hErr]; rfl) hRc
      | some code => rfl
    have hNow : r.vault.Holds (SymRun.MayHold T ⟨r.run, r.vault, (r.run.st, c, e) :: r.past⟩) :=
      hHolds.mono fun s words ⟨key, hWords, hOld⟩ =>
        ⟨key, hWords, hOld.mono fun _ hx => List.mem_cons_of_mem _ hx⟩
    rw [hNext]
    exact symPushOn_fails hNow ⟨key, rfl, hKey⟩ hArgs hErase hFail

end Main

section Concrete

/-- All calls are answered. -/
def calmPush : PushEnv where
  session := none
  call _ := ⟨false, .answered⟩
  erase := ⟨false, .answered⟩

/-- A key has been generated into slot 0. -/
def loadedRun : SymRun :=
  replay (SymRun.next .clear) .fresh
    [.command (.kekSet (.mem [1])) calmTa calmPush, .command (.symkeyNew 0 16 200) calmTa calmPush]

theorem reachable_loadedRun : Reachable (symSystem .clear) eraseActs loadedRun :=
  (Reachable.init rfl).leads (leads_replay (by decide))

theorem loaded_slot_is_rightful : loadedRun.MayHold .clear 0 (loadedRun.vault.now 0).words :=
  (vault_slots_separated reachable_loadedRun).1 _ List.mem_cons_self 0 (by decide)

/-- A second key for slot 0, whose push finds no session. -/
def unopenedPush : SymAction :=
  .command (.symkeyNew 0 32 200) calmTa { calmPush with session := some 0xFFFF000C }

/-- The command fails, and the earlier key stays in the slot and valid. -/
theorem unopened_push_keeps_slot :
    Reachable (symSystem .clear) eraseActs loadedRun ∧
      eraseActs loadedRun unopenedPush (loadedRun.next .clear unopenedPush) ∧
      (TaCmd.symkeyNew 0 32 200).push .clear loadedRun.run.st calmTa = some (0, List.replicate 32 7) ∧
      (taStep .clear loadedRun.run.st
        { calmTa with push := (symPushOn { calmPush with session := some 0xFFFF000C } loadedRun.vault 0
          (List.replicate 32 7)).1 } (.symkeyNew 0 32 200)).1.rc = .other 0xFFFF000C ∧
      ((loadedRun.next .clear unopenedPush).vault.now 0).committed = true := by
  refine ⟨reachable_loadedRun, ?_, ?_, ?_, ?_⟩
  · decide
  · decide
  · decide
  · decide

end Concrete

end PqcHsm
