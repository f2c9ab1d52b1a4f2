import PqcHsm.Library.Pool
import PqcHsm.Store.Keystore
import PqcHsm.Backup.Export
import PqcHsm.Backup.Inject

/-!
# The device as a pool of operations

The operations a thread may call on the token, with their replies. The persist hook
is the one the daemon attaches. A file may be replaced between operations, and the
accelerator connection may break at any time.
-/

namespace PqcHsm

open ByteCodec Sections

inductive Call where
  | sessionOpen (id : Nat)
  | sessionClose (sess : HsmSession)
  | sessionLogin (sess : HsmSession) (role : HsmRole) (pin : Option CString)
  | sessionLogout (sess : HsmSession)
  | initToken (id : Nat) (label soPin : Option CString)
  | setUserPin (sess : HsmSession) (userPin : Option CString)
  | unlock (sess : HsmSession) (id : Nat)
  | zeroize (sess : HsmSession) (id : Nat)
  | zeroizeForced (id : Nat)
  | generate (sess : HsmSession) (alg : PqcAlg) (usage policy : UInt32)
  | loadSeed (sess : HsmSession) (alg : PqcAlg) (usage policy : UInt32) (seed : Bytes)
  | publicKey (sess : HsmSession) (h : HsmHandle) (cap : Option Nat)
  | sign (sess : HsmSession) (h : HsmHandle) (msg ctx : Bytes) (cap : Option Nat)
  | decaps (sess : HsmSession) (h : HsmHandle) (ct : Bytes) (cap : Option Nat)
  | destroy (sess : HsmSession) (h : HsmHandle)
  | injectApply (kemSess : HsmSession) (kemHandle : HsmHandle) (targetSess : HsmSession)
      (blob : Bytes)
  | keystoreSave
  | keystoreLoad
  | backupExport (sess : HsmSession) (old : Option Bytes) (m k shareCap : Nat)
  | backupRestore (content : Option Bytes) (shareCap : Nat) (shares : List Bytes)
  | serialize (id : Nat) (kek : ByteVec 32)
  | deserialize (id : Nat) (kek : ByteVec 32) (blob : Bytes)
  /-- Another file is put in place of the key store. -/
  | replaceFile (content : Option Bytes)
  /-- The accelerator connection breaks and is opened again. -/
  | hwDrop
  deriving DecidableEq

structure Reply where
  st : HsmStatus
  sess : Option HsmSession := none
  handle : Option HsmHandle := none
  bytes : Option Bytes := none
  deriving DecidableEq

namespace Reply

def ofSession (r : HsmStatus × Option HsmSession) : Reply := { st := r.1, sess := r.2 }

def ofHandle (r : HsmStatus × Option HsmHandle) : Reply := { st := r.1, handle := r.2 }

def ofBytes (r : HsmStatus × Option Bytes) : Reply := { st := r.1, bytes := r.2 }

def ofExcept : Except HsmStatus Bytes → Reply
  | .error st => { st }
  | .ok b => { st := .ok, bytes := some b }

def ofStatus (st : HsmStatus) : Reply := { st }

end Reply

variable {n : Nat}

/-- The program with its result turned into a reply. -/
def replying {β : Type} (p : DevProg n β) (f : β → Reply) : DevProg n Reply :=
  p.bind fun b => .ret (f b)

def Call.prog (S : Setup) : Call → DevProg n Reply
  | sessionOpen id => replying (hsmSessionOpen id) .ofSession
  | sessionClose sess => replying (hsmSessionClose sess) .ofStatus
  | sessionLogin sess role pin =>
    replying (hsmSessionLogin (persistKeystore S) S sess role pin) .ofStatus
  | sessionLogout sess => replying (hsmSessionLogout sess) .ofStatus
  | initToken id label soPin =>
    replying (hsmSlotInitToken (persistKeystore S) S id label soPin) .ofStatus
  | setUserPin sess userPin =>
    replying (hsmSlotSetUserPin (persistKeystore S) S sess userPin) .ofStatus
  | unlock sess id => replying (hsmSlotUnlock (persistKeystore S) S sess id) .ofStatus
  | zeroize sess id => replying (hsmSlotZeroize (persistKeystore S) S sess id) .ofStatus
  | zeroizeForced id => replying (hsmSlotZeroizeForced (persistKeystore S) S id) .ofStatus
  | generate sess alg usage policy =>
    replying (hsmSlotGenerate (persistKeystore S) S sess alg usage policy) .ofHandle
  | loadSeed sess alg usage policy seed =>
    replying (hsmSlotLoadSeed (persistKeystore S) S sess alg usage policy seed) .ofHandle
  | publicKey sess h cap => replying (hsmObjectPublicKey S sess h cap) .ofBytes
  | sign sess h msg ctx cap => replying (hsmObjectSign S sess h msg ctx cap) .ofBytes
  | decaps sess h ct cap => replying (hsmObjectDecaps S sess h ct cap) .ofBytes
  | destroy sess h => replying (hsmObjectDestroy (persistKeystore S) S sess h) .ofStatus
  | injectApply kemSess kemHandle targetSess blob =>
    replying (hsmInjectApply (persistKeystore S) S kemSess kemHandle targetSess blob) .ofHandle
  | keystoreSave => replying (hsmKeystoreSave S) .ofStatus
  | keystoreLoad => replying (hsmKeystoreLoad S) .ofStatus
  | backupExport sess old m k shareCap =>
    replying (hsmBackupExport S sess old m k shareCap) fun r => .ofStatus r.st
  | backupRestore content shareCap shares =>
    replying (hsmBackupRestore S content shareCap shares) fun r => .ofStatus r.1
  | serialize id kek => replying (hsmSlotSerialize S id kek hsmSlotBlobMax) .ofExcept
  | deserialize id kek blob => replying (hsmSlotDeserialize S id kek blob) .ofStatus
  | replaceFile content =>
    replying (fileSection fun _ fs => ((), { fs with file := content }, [])) fun _ => .ofStatus .ok
  | hwDrop =>
    replying (Prog.atomic fun _ d => ((), { d with hw := fun _ _ => none }, [.connectionLost]))
      fun _ => .ofStatus .ok

/-- `hsm_token_new` makes no larger token. -/
def TOKEN_MAX_SLOTS : Nat := 4096

/-- The device of a process that has just created its token. -/
def Device.booted (S : Setup) (n : Nat) (d : Device n) : Prop :=
  0 < n ∧ n ≤ TOKEN_MAX_SLOTS ∧ d.tok = hsmTokenNew S.crypto n true ∧ d.hw = fun _ _ => none

/-- The slot layer with any number of threads. -/
def slotPool (S : Setup) (n : Nat) (ι : Type) : Pool ι Call Env (Device n) Event Reply where
  prog := Call.prog S
  start := Device.booted S n
  reset _ _ := False

abbrev DevConfig (ι : Type) (n : Nat) := Config ι Call Env (Device n) Event Reply

/-- The slot layer over power cycles: files stay, everything in memory starts again. -/
def cycledPool (S : Setup) (n : Nat) (ι : Type) : Pool ι Call Env (Device n) Event Reply where
  prog := Call.prog S
  start := Device.booted S n
  reset d d' := d'.tok = hsmTokenNew S.crypto n true ∧ (d'.hw = fun _ _ => none) ∧ d'.fs = d.fs

abbrev DevHist (ι : Type) (n : Nat) := Hist ι Call (Device n) Event Reply

section Concrete

/-! ### Concrete inputs for runs -/

/-- Clear cryptography, no accelerator and an anchor in hardware. -/
def Setup.clear : Setup := ⟨.clear, fun _ => false, false, .hardware⟩

/-- Every call succeeds and every random byte is `b`. -/
def Env.calm (b : UInt8) : Env where
  sealOk _ := true
  random _ := some fun _ => b
  cryptoOk := true
  allocOk := true
  now := 5
  hwKeypair := .unsupported
  opResult := none
  hwDropped := false
  ioOk := true
  wrote := 65536

/-- A process that has just created its token, with no key store file. -/
def Config.powerUp (S : Setup) (n : Nat) (ι : Type) : DevConfig ι n where
  hist := ⟨⟨hsmTokenNew S.crypto n true, fun _ _ => none, none, none, 0, none⟩, []⟩
  thread _ := none

theorem powerUp_init (S : Setup) {n : Nat} (hPos : 0 < n) (hMax : n ≤ TOKEN_MAX_SLOTS) {ι : Type}
    [DecidableEq ι] : (slotPool S n ι).system.init (Config.powerUp S n ι) :=
  ⟨⟨hPos, hMax, rfl, rfl⟩, rfl, fun _ => rfl⟩

theorem powerUp_init_cycled (S : Setup) {n : Nat} (hPos : 0 < n) (hMax : n ≤ TOKEN_MAX_SLOTS)
    {ι : Type} [DecidableEq ι] : (cycledPool S n ι).system.init (Config.powerUp S n ι) :=
  ⟨⟨hPos, hMax, rfl, rfl⟩, rfl, fun _ => rfl⟩

def firstSession : HsmSession := ⟨1, 1⟩

/-- Slot 0 is initialized, its SO has set the User PIN, and the User is logged in. -/
def userRun {ι : Type} (t : ι) : List (Act ι Call Env) :=
  Pool.calling t (.initToken 0 (some []) (some [1, 2, 3, 4])) 15 (.calm 7) ++
  Pool.calling t (.sessionOpen 0) 1 (.calm 7) ++
  Pool.calling t (.sessionLogin firstSession .so (some [1, 2, 3, 4])) 17 (.calm 7) ++
  Pool.calling t (.setUserPin firstSession (some [5, 6, 7, 8])) 16 (.calm 7) ++
  Pool.calling t (.sessionLogin firstSession .user (some [5, 6, 7, 8])) 17 (.calm 7)

/-- A User has generated a key that may be backed up. -/
def generatedRun : List (Act Unit Call Env) :=
  userRun () ++ Pool.calling () (.generate firstSession .mlKem512 3
    (SLOT_POLICY_BACKUPABLE ||| SLOT_POLICY_SEED_STORAGE)) 16 (.calm 1)

/-- A backup container with slot 0 as a run leaves it. -/
def backupAfter (run : List (Act Unit Call Env)) (rmk : Bytes) : Option Bytes :=
  ((slotPool .clear 1 Unit).scheduleAll Pool.unchecked (Config.powerUp .clear 1 Unit) run).bind
    fun c =>
      match slotSerializeLocked .clear (.calm 7) (backupBek .clear rmk (zeros BK_SALT_LEN))
          hsmSlotBlobMax (c.hist.shared.tok.slots 0) with
      | .ok blob => some (backupFile .clear rmk (zeros BK_SALT_LEN) [(0, blob)])
      | .error _ => none

/-- That container restored, with the whole key in one share. -/
def restoring (run : List (Act Unit Call Env)) (rmk : Bytes) : List (Act Unit Call Env) :=
  Pool.calling () (.backupRestore (backupAfter run rmk) HSM_SHARE_CAP [shareLine .clear 1 rmk]) 4
    (.calm 7)

end Concrete

end PqcHsm
