import Mathlib.Data.Vector.Zip
import PqcHsm.Daemon.Requests
import PqcHsm.Library.BlockModes

/-!
# The modes over a block command

The modes of the daemon use the hardware by its block command alone: what they do is the same on
every machine that has such a command. Where the command computes a cipher, CBC is what the
requests return.
-/

namespace PqcHsm

open ByteCodec BlockModes Stateful

/-- `sym_block` of a machine: algorithm, slot, direction and input. -/
abbrev BlockCmd (ε σ : Type) := UInt32 → UInt32 → Bool → Bytes → Stateful ε σ (Except Int Bytes)

section Modes

variable {ε σ : Type}

/-- `symStep` over a block command. -/
def symStepOver (block : Bool → Bytes → Stateful ε σ (Except Int Bytes)) (dec : Bool)
    (mode : SymMode) (fb input : Bytes) : Stateful ε σ (Except Int (Bytes × Bytes)) := do
  match mode with
  | .ecb => do
    let out ← block dec input
    pure (out.map (·, fb))
  | .cbc =>
    if dec then do
      let out ← block true input
      pure (out.map fun out => (xorBlock out fb, input))
    else do
      let out ← block false (xorBlock input fb)
      pure (out.map fun out => (out, out))
  | .ctr => do
    let ks ← block false fb
    pure (ks.map fun ks => (xorBlock input ks, ctrInc fb))
  | .ofb => do
    let ks ← block false fb
    pure (ks.map fun ks => (xorBlock input ks, ks))
  | .cfb => do
    let ks ← block false fb
    pure (ks.map fun ks =>
      let out := xorBlock input ks
      let ct := if dec then input else out
      (out, if input.length = 16 then ct else fb))

/-- `symCrypt` over a block command. -/
def symCryptOver (block : Bool → Bytes → Stateful ε σ (Except Int Bytes)) (dec : Bool)
    (mode : SymMode) : Nat → Bytes → Bytes → Stateful ε σ (Except Int Bytes)
  | 0, _, _ => pure (.ok [])
  | blocks + 1, fb, data => do
    match ← symStepOver block dec mode fb (data.take 16) with
    | .error _ => pure (.error (-1))
    | .ok (out, fb) => do
      let rest ← symCryptOver block dec mode blocks fb (data.drop 16)
      pure (rest.map (out ++ ·))

/-- `opSymCrypt` over a block command. -/
def opSymCryptOver (block : BlockCmd ε σ) (a0 a1 : UInt32) (pay : Bytes) : Stateful ε σ OpReply :=
  let alg := a0 &&& 0xFF
  let dec := (a0 >>> 8) &&& 1
  let slot := a1 &&& 0xFF
  let len := pay.length - 16
  match SymMode.ofCode ((a0 >>> 16) &&& 0xFF) with
  | none => pure (.bare SDR_INARGERR)
  | some mode =>
    if alg > 2 ∨ slot > 7 then pure (.bare SDR_INARGERR)
    else if pay.length < 16 then pure (.bare SDR_INARGERR)
    else if len = 0 then pure (.bare SDR_INARGERR)
    else if (mode = .ecb ∨ mode = .cbc) ∧ len % 16 ≠ 0 then pure (.bare SDR_INARGERR)
    else if len > PQCS_MAXPAY.toNat then pure (.bare SDR_INARGERR)
    else do
      match ← symCryptOver (block alg slot) (dec = 1) mode ((len + 15) / 16) (pay.take 16)
        (pay.drop 16) with
      | .error _ => pure (.bare SDR_HARDFAIL)
      | .ok out => pure ⟨SDR_OK, out⟩

end Modes

/-! ### The daemon is one of them -/

/-- The block command of the hardware. -/
def hwBlock : BlockCmd FpgadEnv Fpgad := fun alg slot dec input =>
  onBus (symBlock alg slot dec input)

theorem run_symStep (alg slot : UInt32) (dec : Bool) (mode : SymMode) (fb input : Bytes)
    (e : FpgadEnv) (d : Fpgad) :
    (onBus (symStep alg slot dec mode fb input)).run e d =
      (symStepOver (hwBlock alg slot) dec mode fb input).run e d := by
  cases mode <;> cases dec <;> rfl

theorem run_symCrypt (alg slot : UInt32) (dec : Bool) (mode : SymMode) (blocks : Nat)
    (fb data : Bytes) (e : FpgadEnv) (d : Fpgad) :
    (onBus (symCrypt alg slot dec mode blocks fb data)).run e d =
      (symCryptOver (hwBlock alg slot) dec mode blocks fb data).run e d := by
  induction blocks generalizing fb data d with
  | zero => rfl
  | succ blocks ih =>
    have hStep := run_symStep alg slot dec mode fb (data.take 16) e d
    rw [run_onBus] at hStep
    simp only [run_onBus, symCrypt, symCryptOver, Stateful.run_bind, ← hStep]
    cases ((symStep alg slot dec mode fb (data.take 16)).run e.bus d.bus).1 with
    | error => rfl
    | ok r =>
      have hRest := ih r.2 (data.drop 16)
        { d with bus := ((symStep alg slot dec mode fb (data.take 16)).run e.bus d.bus).2 }
      rw [run_onBus] at hRest
      simp only [Stateful.run_bind, Stateful.run_pure, ← hRest]

theorem opSymCrypt_eq (a0 a1 : UInt32) (pay : Bytes) (e : FpgadEnv) (d : Fpgad) :
    (opSymCrypt a0 a1 pay).run e d = (opSymCryptOver hwBlock a0 a1 pay).run e d := by
  unfold opSymCrypt opSymCryptOver
  cases SymMode.ofCode ((a0 >>> 16) &&& 0xFF) with
  | none => rfl
  | some mode =>
    simp only [Stateful.run_ite, Stateful.run_bind, run_symCrypt]
    try rfl

/-! ### CBC -/

section Cbc

variable {ε σ : Type} {steady : Prop} {I : σ → Prop} {E D : ByteVec 16 → ByteVec 16}
  {block : Bool → Bytes → Stateful ε σ (Except Int Bytes)}

def xorVec (a b : ByteVec 16) : ByteVec 16 := List.Vector.zipWith (· ^^^ ·) a b

@[simp] theorem toList_xorVec (a b : ByteVec 16) :
    (xorVec a b).toList = xorBlock a.toList b.toList := List.Vector.zipWith_toList ..

theorem xorVec_xorVec (a b : ByteVec 16) : xorVec (xorVec a b) b = a := by
  apply List.Vector.ext
  intro i
  simp only [xorVec, List.Vector.zipWith_get]
  rw [UInt8.xor_assoc, UInt8.xor_self, UInt8.xor_zero]

/-- CBC in one direction: the output for a block, and the feedback that it leaves. -/
def cbcOut (E D : ByteVec 16 → ByteVec 16) (dec : Bool) (fb b : ByteVec 16) : ByteVec 16 :=
  if dec then xorVec (D b) fb else E (xorVec b fb)

def cbcNext (E : ByteVec 16 → ByteVec 16) (dec : Bool) (fb b : ByteVec 16) : ByteVec 16 :=
  if dec then b else E (xorVec b fb)

def cbc (E D : ByteVec 16 → ByteVec 16) (dec : Bool) (fb : ByteVec 16) (bs : List (ByteVec 16)) :
    List (ByteVec 16) :=
  if dec then cbcDecrypt xorVec D fb bs else cbcEncrypt xorVec E fb bs

theorem cbc_nil (dec : Bool) (fb : ByteVec 16) : cbc E D dec fb [] = [] := by
  cases dec <;> rfl

theorem cbc_cons (dec : Bool) (fb b : ByteVec 16) (bs : List (ByteVec 16)) :
    cbc E D dec fb (b :: bs) = cbcOut E D dec fb b :: cbc E D dec (cbcNext E dec fb b) bs := by
  cases dec <;> rfl

/-- The block command computes the cipher. -/
def Computes (steady : Prop) (I : σ → Prop) (E D : ByteVec 16 → ByteVec 16)
    (block : Bool → Bytes → Stateful ε σ (Except Int Bytes)) : Prop :=
  ∀ dec (b : ByteVec 16),
    Ends steady I (block dec b.toList) fun out s => out = (if dec then D b else E b).toList ∧ I s

theorem Computes.step (h : Computes steady I E D block) (dec : Bool) (fb b : ByteVec 16) :
    Ends steady I (symStepOver block dec .cbc fb.toList b.toList) fun r s =>
      r = ((cbcOut E D dec fb b).toList, (cbcNext E dec fb b).toList) ∧ I s := by
  intro e s hI
  cases dec with
  | false =>
    have hBlock := h false (xorVec b fb) e s hI
    rw [toList_xorVec] at hBlock
    simp only [symStepOver, Bool.false_eq_true, if_false, Stateful.run_bind, Stateful.run_pure]
    cases hOut : ((block false (xorBlock b.toList fb.toList)).run e s).1 with
    | error => rwa [hOut] at hBlock
    | ok out =>
      rw [hOut] at hBlock
      refine ⟨?_, hBlock.2⟩
      rw [hBlock.1]
      rfl
  | true =>
    have hBlock := h true b e s hI
    simp only [symStepOver, if_true, Stateful.run_bind, Stateful.run_pure]
    cases hOut : ((block true b.toList).run e s).1 with
    | error => rwa [hOut] at hBlock
    | ok out =>
      rw [hOut] at hBlock
      refine ⟨?_, hBlock.2⟩
      simp only [hBlock.1, cbcOut, cbcNext, if_true, toList_xorVec]

theorem Computes.cbc (h : Computes steady I E D block) (dec : Bool) (fb : ByteVec 16)
    (bs : List (ByteVec 16)) :
    Ends steady I (symCryptOver block dec .cbc bs.length fb.toList (ofBlocks bs)) fun out s =>
      out = ofBlocks (PqcHsm.cbc E D dec fb bs) ∧ I s := by
  induction bs generalizing fb with
  | nil =>
    intro e s hI
    exact ⟨by rw [cbc_nil]; rfl, hI⟩
  | cons b bs ih =>
    intro e s hI
    have hTake : (ofBlocks (b :: bs)).take 16 = b.toList := List.take_left' b.toList_length
    have hDrop : (ofBlocks (b :: bs)).drop 16 = ofBlocks bs := List.drop_left' b.toList_length
    have hStep := h.step dec fb b e s hI
    simp only [List.length_cons, symCryptOver, Stateful.run_bind, hTake, hDrop]
    cases hRun : ((symStepOver block dec .cbc fb.toList b.toList).run e s).1 with
    | error =>
      rw [hRun] at hStep
      exact hStep
    | ok r =>
      rw [hRun] at hStep
      have hRest := ih (cbcNext E dec fb b) e _ hStep.2
      simp only [hStep.1, Stateful.run_bind, Stateful.run_pure]
      cases hOut : ((symCryptOver block dec .cbc bs.length (cbcNext E dec fb b).toList
          (ofBlocks bs)).run e ((symStepOver block dec .cbc fb.toList b.toList).run e s).2).1 with
      | error => rwa [hOut] at hRest
      | ok out =>
        rw [hOut] at hRest
        refine ⟨?_, hRest.2⟩
        rw [hRest.1, cbc_cons, ofBlocks_cons]

theorem cbc_append (dec : Bool) (fb : ByteVec 16) (bs bs' : List (ByteVec 16)) :
    PqcHsm.cbc E D dec fb (bs ++ bs') = PqcHsm.cbc E D dec fb bs ++
      PqcHsm.cbc E D dec (feedback fb (if dec then bs else cbcEncrypt xorVec E fb bs)) bs' := by
  cases dec with
  | false => exact cbcEncrypt_append ..
  | true => exact cbcDecrypt_append ..

/-- The first argument of a request for CBC, and what the daemon reads from it. -/
def cbcArg (param : UInt8) (dec : Bool) : UInt32 :=
  param.toUInt32 ||| (if dec then 0x100 else 0 : UInt32) ||| (1 : UInt32) <<< 16

theorem cbcArg_fields (param : UInt8) (dec : Bool) :
    cbcArg param dec &&& 0xFF = param.toUInt32 ∧
      decide ((cbcArg param dec >>> 8) &&& 1 = 1) = dec ∧
      SymMode.ofCode ((cbcArg param dec >>> 16) &&& 0xFF) = some .cbc := by
  have hAll : ∀ (p : Fin 256) (dec : Bool), let a := cbcArg (UInt8.ofNat p) dec
      a &&& 0xFF = (UInt8.ofNat p).toUInt32 ∧ decide ((a >>> 8) &&& 1 = 1) = dec ∧
        SymMode.ofCode ((a >>> 16) &&& 0xFF) = some .cbc := by
    decide +kernel
  have h := hAll ⟨param.toNat, param.toNat_lt⟩ dec
  simpa only [UInt8.ofNat_toNat] using h

/-- A request for CBC of whole blocks. -/
theorem Computes.serves {block : BlockCmd ε σ} {param : UInt8} {slot : UInt32}
    (h : Computes steady I E D (block param.toUInt32 slot)) (hSlot : slot ≤ 7)
    (hField : slot &&& 0xFF = slot) (dec : Bool) (iv : ByteVec 16) {bs : List (ByteVec 16)} (hPos : bs ≠ []) (hFit : bs.length ≤ 1024) :
    Spec I (opSymCryptOver block (cbcArg param dec) slot (iv.toList ++ ofBlocks bs)) fun r s =>
      (r.status = SDR_OK → r.out = ofBlocks (PqcHsm.cbc E D dec iv bs) ∧ I s) ∧
        (steady → param ≤ 2 → r.status = SDR_OK) := by
  intro e s hI
  obtain ⟨hAlg, hDec, hMode⟩ := cbcArg_fields param dec
  have hLen : (iv.toList ++ ofBlocks bs).length - 16 = 16 * bs.length := by
    rw [List.length_append, iv.toList_length, length_ofBlocks, Nat.add_sub_cancel_left]
  have hIv : (iv.toList ++ ofBlocks bs).take 16 = iv.toList := List.take_left' iv.toList_length
  have hData : (iv.toList ++ ofBlocks bs).drop 16 = ofBlocks bs := List.drop_left' iv.toList_length
  have hCount : (16 * bs.length + 15) / 16 = bs.length := by omega
  have hArg : SDR_INARGERR ≠ SDR_OK := by decide
  have hHard : SDR_HARDFAIL ≠ SDR_OK := by decide
  have hMax : PQCS_MAXPAY.toNat = 16384 := rfl
  have hBlocks : bs.length ≠ 0 := fun h0 => hPos (List.length_eq_zero_iff.mp h0)
  simp only [opSymCryptOver, hAlg, hDec, hMode, hField, hLen, hIv, hData, hCount]
  by_cases hBad : param.toUInt32 > 2 ∨ slot > 7
  · rw [if_pos hBad]
    refine ⟨fun hOk => absurd hOk hArg, fun _ hParam => ?_⟩
    have hNat : param.toNat ≤ 2 := hParam
    rcases hBad with hAlgBad | hSlotBad
    · have hAlgNat : 2 < param.toUInt32.toNat := hAlgBad
      rw [UInt8.toNat_toUInt32] at hAlgNat
      omega
    · exact absurd hSlot (UInt32.not_le.mpr hSlotBad)
  · rw [if_neg hBad, if_neg (by rw [List.length_append, iv.toList_length]; omega),
      if_neg (by omega), if_neg (by omega), if_neg (by omega)]
    have hRun := h.cbc dec iv bs e s hI
    simp only [Stateful.run_bind]
    cases hOut : ((symCryptOver (block param.toUInt32 slot) dec .cbc bs.length iv.toList
        (ofBlocks bs)).run e s).1 with
    | error =>
      rw [hOut] at hRun
      exact ⟨fun hOk => absurd hOk hHard, fun hSteady _ => absurd hSteady hRun⟩
    | ok out =>
      rw [hOut] at hRun
      exact ⟨fun _ => hRun, fun _ _ => rfl⟩

end Cbc

end PqcHsm
