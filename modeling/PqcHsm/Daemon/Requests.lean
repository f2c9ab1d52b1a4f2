import PqcHsm.Daemon.Bus
import PqcHsm.Sdfe.Wire

/-!
# The request handlers of the hardware daemon

The daemon keeps two tables of wrapped seeds whose indices are the handles it gives out. One
request is served from its header to its answer; what the trusted application answers comes from the
environment.
-/

namespace PqcHsm

open ByteCodec

def SDR_VERIFYFAIL : UInt32 := 0x01000008

def OP_IMPORT_KEY : UInt32 := 6

def PQCS_SYM_KAT_SLOT : UInt32 := 7

/-- `PL_KEY_SLOTS` -/
def MAX_KEYS : Nat := 16
def MLDSA_KEY_SLOTS : Nat := 8
def SEED_BLOB_MAX : Nat := 128

structure KeyEntry where
  used : Bool
  pset : UInt32
  blob : Bytes
  deriving DecidableEq

def KeyEntry.free : KeyEntry := ⟨false, 0, []⟩

inductive TeeCmd where
  | seedNew (tgt : SeedTgt)
  | seedReplay (tgt : SeedTgt) (blob : Bytes)
  | symkeyNew (slot keyLen : UInt32)
  | symkeyLoad (slot : UInt32) (blob : Bytes)
  | symkeyKat (slot vec : UInt32)
  deriving DecidableEq

/-- The bus, the commands that the trusted application has been given with its answers, and the
tables `keys` and `dsa_keys`. -/
structure Fpgad where
  bus : Bus
  tee : List (TeeCmd × Option Bytes)
  keys : SeedTgt → Nat → KeyEntry

/-- `tee`: the answers of the trusted application in their order (nothing: refused);
`memory`: whether memory can be had. -/
structure FpgadEnv where
  bus : BusEnv
  tee : Nat → Option Bytes
  memory : Bool

abbrev FpgadM := Stateful FpgadEnv Fpgad

def onBus {α : Type} (p : BusM α) : FpgadM α where
  run e d := ((p.run e.bus d.bus).1, { d with bus := (p.run e.bus d.bus).2 })

@[simp] theorem run_onBus {α : Type} (p : BusM α) (e : FpgadEnv) (d : Fpgad) :
    (onBus p).run e d = ((p.run e.bus d.bus).1, { d with bus := (p.run e.bus d.bus).2 }) := (rfl)

def teeInvoke (cmd : TeeCmd) : FpgadM (Option Bytes) where
  run e d := (e.tee d.tee.length, { d with tee := d.tee ++ [(cmd, e.tee d.tee.length)] })

structure OpReply where
  status : UInt32
  out : Bytes
  deriving DecidableEq

/-- An answer without payload. -/
def OpReply.bare (status : UInt32) : OpReply := ⟨status, []⟩

/-! ### Tables -/

def SeedTgt.capacity : SeedTgt → Nat
  | .mlkem => MAX_KEYS
  | .mldsa => MLDSA_KEY_SLOTS

/-- The first entry that is not in use. -/
def Fpgad.freeHandle (d : Fpgad) (tgt : SeedTgt) : Option Nat :=
  (List.range tgt.capacity).find? fun h => !(d.keys tgt h).used

/-- The entry of a handle in use. -/
def Fpgad.usedEntry (d : Fpgad) (tgt : SeedTgt) (h : UInt32) : Option KeyEntry :=
  if h.toNat ≥ tgt.capacity ∨ (d.keys tgt h.toNat).used = false then none
  else some (d.keys tgt h.toNat)

def Fpgad.setKey (d : Fpgad) (tgt : SeedTgt) (h : Nat) (k : KeyEntry) : Fpgad :=
  { d with keys := Function.update d.keys tgt (Function.update (d.keys tgt) h k) }

@[simp] theorem Fpgad.bus_setKey (d : Fpgad) (tgt : SeedTgt) (h : Nat) (k : KeyEntry) :
    (d.setKey tgt h k).bus = d.bus := rfl

/-! ### Seeds -/

/-- `seed_new_clean`: the blob of a new seed that is staged. -/
def seedNewClean (tgt : SeedTgt) : FpgadM (Option Bytes) := do
  if !(← onBus (seedClr tgt)) then pure none
  else do
    match ← teeInvoke (.seedNew tgt) with
    | some blob => pure (some blob)
    | none => do
      let _ ← onBus (seedClr tgt)
      pure none

def seedReplayClean (tgt : SeedTgt) (blob : Bytes) : FpgadM Bool := do
  if !(← onBus (seedClr tgt)) then pure false
  else do
    match ← teeInvoke (.seedReplay tgt blob) with
    | some _ => pure true
    | none => do
      let _ ← onBus (seedClr tgt)
      pure false

/-! ### Handlers -/

def textBytes (s : String) : Bytes := s.toList.map fun c => UInt8.ofNat c.toNat

def hexDigit (n : Nat) : UInt8 := UInt8.ofNat (if n < 10 then 48 + n else 87 + n)

/-- `%08x` -/
def hex8 (v : UInt32) : Bytes :=
  (beBytes v).flatMap fun b => [hexDigit (b.toNat / 16), hexDigit (b.toNat % 16)]

def opPing : FpgadM OpReply := do
  let mlkem ← onBus (rd MK_VER)
  let sym ← onBus (rd SY_VER)
  let mldsa ← onBus (rd MD_VER)
  pure ⟨SDR_OK, textBytes "pqchsm_fpgad on FPGA  mlkem=0x" ++ hex8 mlkem ++ textBytes " sym=0x" ++
    hex8 sym ++ textBytes " mldsa=0x" ++ hex8 mldsa⟩

/-- The words of the identity from an address on; a rejected access ends the reading. -/
def dnaWords : Nat → Nat → BusM (Option Bytes)
  | _, 0 => pure (some [])
  | addr, words + 1 => do
    match ← hwRdAbs addr with
    | none => pure none
    | some w => do
      let rest ← dnaWords (addr + 4) words
      pure (rest.map (beBytes w ++ ·))

def opDeviceDna : FpgadM OpReply := do
  match ← onBus (dnaWords 0xFFCA0050 4) with
  | none => pure (.bare SDR_HARDFAIL)
  | some dna => pure ⟨SDR_OK, dna⟩

def opRandom (n : UInt32) : FpgadM OpReply :=
  if n = 0 ∨ n > PQCS_MAXPAY then pure (.bare SDR_INARGERR)
  else do
    match ← onBus (trngBytes n.toNat) with
    | .error _ => pure (.bare SDR_HARDFAIL)
    | .ok out => pure ⟨SDR_OK, out⟩

/-- A KeyGen on one of the two cores; `run` gives back the public key, of length `pkLen`. The blob
is written to the entry before it is known whether the key will be used. -/
def opKeygen (tgt : SeedTgt) (pset : UInt32) (run : BusM (Except Int Bytes)) (pkLen : Nat) :
    FpgadM OpReply :=
  if pset > 2 then pure (.bare SDR_INARGERR)
  else do
    let d ← Stateful.get
    match d.freeHandle tgt with
    | none => pure (.bare SDR_UNKNOWERR)
    | some h => do
      match ← seedNewClean tgt with
      | none => pure (.bare SDR_HARDFAIL)
      | some blob => do
        Stateful.modify fun d => d.setKey tgt h { d.keys tgt h with blob := blob }
        match ← onBus run with
        | .error _ => pure (.bare SDR_HARDFAIL)
        | .ok pk =>
          if pk.length ≠ pkLen then pure (.bare SDR_HARDFAIL)
          else do
            Stateful.modify fun d => d.setKey tgt h { d.keys tgt h with used := true, pset := pset }
            pure ⟨SDR_OK, toLe 4 h ++ pk⟩

/-- The command of a KeyGen. -/
def mlkemKeygenRun (pset : UInt32) : BusM (Except Int Bytes) :=
  mlkemRun 0 pset (MKM_CHAIN ||| MKM_SEED_STAGED) [] 4900

def opMlkemKeygen (pset : UInt32) : FpgadM OpReply :=
  opKeygen .mlkem pset (mlkemKeygenRun pset) (mlkemLen pset).ek

def opMlkemEncaps (pset : UInt32) (pay : Bytes) : FpgadM OpReply :=
  if pset > 2 then pure (.bare SDR_INARGERR)
  else if pay.length ≠ (mlkemLen pset).ek ∨ (mlkemLen pset).ek + 32 > 1700 then
    pure (.bare SDR_INARGERR)
  else do
    match ← onBus (trngBytes 32) with
    | .error _ => pure (.bare SDR_HARDFAIL)
    | .ok m => do
      match ← onBus (mlkemRun 1 pset 0 (m ++ pay) 1700) with
      | .error _ => pure (.bare SDR_HARDFAIL)
      | .ok out =>
        if out.length ≠ 32 + (mlkemLen pset).ct then pure (.bare SDR_HARDFAIL)
        else pure ⟨SDR_OK, out⟩

def opMlkemDecaps (h : UInt32) (pay : Bytes) : FpgadM OpReply := do
  let d ← Stateful.get
  match d.usedEntry .mlkem h with
  | none => pure (.bare SDR_KEYNOTEXIST)
  | some k =>
    if pay.length ≠ (mlkemLen k.pset).ct ∨ (mlkemLen k.pset).ct > 4800 then
      pure (.bare SDR_INARGERR)
    else do
      if !(← seedReplayClean .mlkem k.blob) then pure (.bare SDR_HARDFAIL)
      else do
        match ← onBus
          (mlkemRun 2 k.pset (MKM_CHAIN ||| MKM_SEED_STAGED) pay PQCS_MAXPAY.toNat) with
        | .error _ => pure (.bare SDR_HARDFAIL)
        | .ok out => pure ⟨SDR_OK, out⟩

def mldsaKeygenRun (pset : UInt32) : BusM (Except Int Bytes) := do
  let r ← mldsaRun MDO_KEYGEN pset (MDM_CHAIN ||| MDM_SEED_STAGED) [] 0 0 (PQCS_MAXPAY.toNat - 4)
  pure (r.map Prod.fst)

def opMldsaKeygen (pset : UInt32) : FpgadM OpReply :=
  opKeygen .mldsa pset (mldsaKeygenRun pset) (mldsaLen pset).pk

def opMldsaSign (h a1 : UInt32) (pay : Bytes) : FpgadM OpReply := do
  let d ← Stateful.get
  match d.usedEntry .mldsa h with
  | none => pure (.bare SDR_KEYNOTEXIST)
  | some k =>
    if a1 ≠ 0 then pure (.bare SDR_INARGERR)
    else if 32 + pay.length > PQCS_MAXPAY.toNat then pure (.bare SDR_INARGERR)
    else do
      let e ← Stateful.read
      if !e.memory then pure (.bare SDR_UNKNOWERR)
      else do
        match ← onBus (trngBytes 32) with
        | .error _ => pure (.bare SDR_HARDFAIL)
        | .ok rnd => do
          if !(← seedReplayClean .mldsa k.blob) then pure (.bare SDR_HARDFAIL)
          else do
            match ← onBus (mldsaRun MDO_SIGN k.pset (MDM_CHAIN ||| MDM_SEED_STAGED) (rnd ++ pay)
              (UInt32.ofNat pay.length) 0 PQCS_MAXPAY.toNat) with
            | .error _ => pure (.bare SDR_HARDFAIL)
            | .ok (sig, _) =>
              if sig.length ≠ (mldsaLen k.pset).sig then pure (.bare SDR_HARDFAIL)
              else pure ⟨SDR_OK, sig⟩

def opMldsaVerify (pset a1 : UInt32) (pay : Bytes) : FpgadM OpReply :=
  if pset > 2 then pure (.bare SDR_INARGERR)
  else if a1 ≠ 0 then pure (.bare SDR_INARGERR)
  else if pay.length < (mldsaLen pset).pk + (mldsaLen pset).sig then pure (.bare SDR_INARGERR)
  else do
    let msgLen := pay.length - (mldsaLen pset).pk - (mldsaLen pset).sig
    match ← onBus (mldsaRun MDO_VERIFY pset 0 pay (UInt32.ofNat msgLen) 0 PQCS_MAXPAY.toNat) with
    | .error _ => pure (.bare SDR_HARDFAIL)
    | .ok (_, ok) => pure (.bare (if ok then SDR_OK else SDR_VERIFYFAIL))

def opSymkeyGen (slot keyLen : UInt32) : FpgadM OpReply :=
  if slot ≥ PQCS_SYM_KAT_SLOT ∨ (keyLen ≠ 16 ∧ keyLen ≠ 32) then pure (.bare SDR_INARGERR)
  else do
    match ← teeInvoke (.symkeyNew slot keyLen) with
    | none => pure (.bare SDR_HARDFAIL)
    | some blob => pure ⟨SDR_OK, blob⟩

def opSymkeyLoad (slot : UInt32) (pay : Bytes) : FpgadM OpReply :=
  if slot ≥ PQCS_SYM_KAT_SLOT ∨ pay.length = 0 ∨ pay.length > 128 then pure (.bare SDR_INARGERR)
  else do
    match ← teeInvoke (.symkeyLoad slot pay) with
    | none => pure (.bare SDR_KEYNOTEXIST)
    | some _ => pure (.bare SDR_OK)

def opSymkeyKat (vec : UInt32) : FpgadM OpReply := do
  match ← teeInvoke (.symkeyKat PQCS_SYM_KAT_SLOT vec) with
  | none => pure (.bare SDR_INARGERR)
  | some _ => pure (.bare SDR_OK)

/-- The core of a kind. -/
def kindTgt (kind : UInt32) : Option SeedTgt :=
  if kind = 0 then some .mlkem else if kind = 1 then some .mldsa else none

def opPqcBlobExport (kind h : UInt32) : FpgadM OpReply := do
  let d ← Stateful.get
  match (kindTgt kind).bind fun tgt => d.usedEntry tgt h with
  | none => pure (.bare SDR_KEYNOTEXIST)
  | some k => pure ⟨SDR_OK, k.blob⟩

def opPqcBlobImport (kind pset : UInt32) (pay : Bytes) : FpgadM OpReply :=
  match kindTgt kind with
  | none => pure (.bare SDR_INARGERR)
  | some tgt =>
    if pset > 2 ∨ pay.length = 0 ∨ pay.length > SEED_BLOB_MAX then pure (.bare SDR_INARGERR)
    else do
      let d ← Stateful.get
      match d.freeHandle tgt with
      | none => pure (.bare SDR_UNKNOWERR)
      | some h => do
        Stateful.modify fun d => d.setKey tgt h ⟨true, pset, pay⟩
        pure ⟨SDR_OK, toLe 4 h⟩

def opSymBlock (a0 a1 : UInt32) (pay : Bytes) : FpgadM OpReply :=
  let slot := a1 &&& 0xFF
  let dec := (a1 >>> 8) &&& 1
  if pay.length ≠ 16 then pure (.bare SDR_INARGERR)
  else if a0 > 2 ∨ slot > 7 then pure (.bare SDR_INARGERR)
  else do
    match ← onBus (symBlock a0 slot (dec = 1) pay) with
    | .error _ => pure (.bare SDR_HARDFAIL)
    | .ok out => pure ⟨SDR_OK, out⟩

def opSm3 (pay : Bytes) : FpgadM OpReply :=
  if pay.length = 0 ∨ pay.length > PQCS_MAXPAY.toNat then pure (.bare SDR_INARGERR)
  else do
    match ← onBus (symSm3 pay) with
    | .error _ => pure (.bare SDR_HARDFAIL)
    | .ok out => pure ⟨SDR_OK, out⟩

def opSymCrypt (a0 a1 : UInt32) (pay : Bytes) : FpgadM OpReply :=
  let alg := a0 &&& 0xFF
  let dec := (a0 >>> 8) &&& 1
  let slot := a1 &&& 0xFF
  let len := pay.length - 16
  match SymMode.ofCode ((a0 >>> 16) &&& 0xFF) with
  | none => pure (.bare SDR_INARGERR)
  | some mode =>
    if alg > 2 ∨ slot > 7 then pure (.bare SDR_INARGERR)
    else if pay.length < 16 then pure (.bare SDR_INARGERR)
    else if len = 0 then pure (.bare SDR_INARGERR)
    else if (mode = .ecb ∨ mode = .cbc) ∧ len % 16 ≠ 0 then pure (.bare SDR_INARGERR)
    else if len > PQCS_MAXPAY.toNat then pure (.bare SDR_INARGERR)
    else do
      match ← onBus (symCrypt alg slot (dec = 1) mode ((len + 15) / 16) (pay.take 16)
        (pay.drop 16)) with
      | .error _ => pure (.bare SDR_HARDFAIL)
      | .ok out => pure ⟨SDR_OK, out⟩

def handleOp (q : PqcsReq) : FpgadM OpReply :=
  let pay := q.payload.val
  if q.op = OP_PING then opPing
  else if q.op = OP_DEVICE_DNA then opDeviceDna
  else if q.op = OP_RANDOM then opRandom q.a0
  else if q.op = OP_MLKEM_KEYGEN then opMlkemKeygen q.a0
  else if q.op = OP_MLKEM_ENCAPS then opMlkemEncaps q.a0 pay
  else if q.op = OP_MLKEM_DECAPS then opMlkemDecaps q.a0 pay
  else if q.op = OP_MLDSA_KEYGEN then opMldsaKeygen q.a0
  else if q.op = OP_MLDSA_SIGN then opMldsaSign q.a0 q.a1 pay
  else if q.op = OP_MLDSA_VERIFY then opMldsaVerify q.a0 q.a1 pay
  else if q.op = OP_IMPORT_KEY then pure (.bare SDR_NOTSUPPORT)
  else if q.op = OP_SYMKEY_GEN then opSymkeyGen q.a0 q.a1
  else if q.op = OP_SYMKEY_LOAD then opSymkeyLoad q.a0 pay
  else if q.op = OP_PQC_BLOB_EXPORT then opPqcBlobExport q.a0 q.a1
  else if q.op = OP_PQC_BLOB_IMPORT then opPqcBlobImport q.a0 q.a1 pay
  else if q.op = OP_SYMKEY_KAT then opSymkeyKat q.a0
  else if q.op = OP_SYM_BLOCK then opSymBlock q.a0 q.a1 pay
  else if q.op = OP_SM3 then opSm3 pay
  else if q.op = OP_SYM_CRYPT then opSymCrypt q.a0 q.a1 pay
  else pure (.bare SDR_INARGERR)

/-! ### The serve loop -/

def clearFault : BusM Unit := Stateful.modify fun b => { b with fault := false }

/-- `!wait_not_wiping(..) && !wait_not_wiping(..)` -/
def guardWiping : BusM Bool := do
  if !(← waitNotWiping MK_STATUS MKS_WIPING) then pure false
  else waitNotWiping MD_STATUS MDS_WIPING

/-- The answer to one request. -/
def serveReq (q : PqcsReq) : FpgadM OpReply := do
  onBus clearFault
  if !(← onBus guardWiping) then pure (.bare SDR_HARDFAIL)
  else do
    onBus clearFault
    let r ← handleOp q
    if (← onBus hwFault) && r.status = SDR_OK then pure (.bare SDR_HARDFAIL)
    else pure r

/-- `session_end` -/
def sessionEnd : FpgadM Unit := do
  Stateful.modify fun d => { d with keys := fun _ _ => .free }
  onBus sessionWipe

end PqcHsm
