import PqcHsm.Slot.Manager

/-!
# Key injection

An injection container carries a seed under a one-time key that only the holder of
the injection key can decapsulate. Applying it first authenticates the container
without touching any state, then checks that an occupied target permits an update,
and only then destroys the old key and loads the seed.
-/

namespace PqcHsm

open ByteCodec Sections

variable {n : Nat}

/-- `"PQCHSMIJ"`. -/
def IJ_MAGIC : Bytes := [80, 81, 67, 72, 83, 77, 73, 74]
def HSM_INJECT_VERSION : UInt32 := 1
def IJ_HDR_LEN : Nat := 32

structure InjectHeader where
  keyAlg : PqcAlg
  usage : UInt32
  policy : UInt32
  ctLen : Nat

/-- The header of a container, when magic, version, algorithms and lengths fit. -/
def injectHeader (blob : Bytes) : Except HsmStatus InjectHeader :=
  if blob.length < IJ_HDR_LEN then .error .errBadArg
  else
    let (version, p) := getU32 (blob.drop 8)
    let (kemCode, p) := getU32 p
    let (keyCode, p) := getU32 p
    let (usage, p) := getU32 p
    let (policy, p) := getU32 p
    let (ctLen, _) := getU32 p
    if blob.take 8 ≠ IJ_MAGIC ∨ version ≠ HSM_INJECT_VERSION then .error .errIntegrity
    else
      match PqcAlg.ofCode kemCode, PqcAlg.ofCode keyCode with
      | some kemAlg, some keyAlg =>
        match pqcAlgInfo kemAlg, pqcAlgInfo keyAlg with
        | some kem, some _ =>
          if kem.kind ≠ .kem then .error .errIntegrity
          else if ctLen.toNat ≠ kem.ctLen ∨ blob.length < IJ_HDR_LEN + ctLen.toNat then
            .error .errIntegrity
          else .ok ⟨keyAlg, usage, policy, ctLen.toNat⟩
        | _, _ => .error .errIntegrity
      | _, _ => .error .errIntegrity

variable (hook : DevProg n Bool) (S : Setup)

/-- `derive_cek` and `pqc_unwrap` into a buffer of 64 bytes, then the length of the seed. -/
def injectSeed (blob : Bytes) (hdr : InjectHeader) (ss : Bytes) : Option Bytes :=
  let cek := S.crypto.kdf ss [] "pqc-hsm/inject-cek"
  let body := blob.drop (IJ_HDR_LEN + hdr.ctLen)
  match S.crypto.unwrap cek (blob.take IJ_HDR_LEN) body, pqcAlgInfo hdr.keyAlg with
  | some seed, some key => if seed.length ≤ 64 ∧ seed.length = key.seedLen then some seed else none
  | _, _ => none

/-- `find_target_slot`: the loaded slot whose public key the target session can read. -/
def findTargetSlot (sess : HsmSession) : List Nat → DevProg n (Option (HsmHandle × SlotMeta))
  | [] => pure none
  | id :: ids => do
    match ← hsmSlotGetMeta S id with
    | .error _ => findTargetSlot sess ids
    | .ok m =>
      if m.state ≠ .loaded ∧ m.state ≠ .inUse then findTargetSlot sess ids
      else
        let h : HsmHandle := ⟨m.generation, UInt32.ofNat (id + 1)⟩
        -- a buffer of 8 bytes: only the error code matters, not the key
        let r ← hsmObjectPublicKey S sess h (some 8)
        if r.1 = .errBadHandle then findTargetSlot sess ids else pure (some (h, m))

/-- The commit phase of an injection. -/
def injectCommit (targetSess : HsmSession) (hdr : InjectHeader) (seed : Bytes) :
    DevProg n (HsmStatus × Option HsmHandle) := do
  let target ← findTargetSlot S targetSess (List.range n)
  match target with
  | none => hsmSlotLoadSeed hook S targetSess hdr.keyAlg hdr.usage hdr.policy seed
  | some (told, m) =>
    if m.policy &&& SLOT_POLICY_INJECTABLE = 0 then pure (.errPolicy, none)
    else
      let st ← hsmObjectDestroy hook S targetSess told
      if st = .ok then hsmSlotLoadSeed hook S targetSess hdr.keyAlg hdr.usage hdr.policy seed
      else pure (st, none)

/-- `hsm_inject_apply`. -/
def hsmInjectApply (kemSess : HsmSession) (kemHandle : HsmHandle) (targetSess : HsmSession)
    (blob : Bytes) : DevProg n (HsmStatus × Option HsmHandle) :=
  match injectHeader blob with
  | .error st => pure (st, none)
  | .ok hdr => do
    match ← hsmSessionRole targetSess with
    | .error st => pure (st, none)
    | .ok _ =>
      let ct := (blob.drop IJ_HDR_LEN).take hdr.ctLen
      match ← hsmObjectDecaps S kemSess kemHandle ct (some 64) with
      | (.ok, some ss) =>
        let keysOk ← Prog.ask fun e => e.cryptoOk
        if !keysOk then pure (.errCrypto, none)
        else
          match injectSeed S blob hdr ss with
          | none => pure (.errIntegrity, none)
          | some seed =>
            match validateUsage hdr.keyAlg hdr.usage with
            | .ok => injectCommit hook S targetSess hdr seed
            | st => pure (st, none)
      | (st, _) => pure (st, none)

end PqcHsm
