import Mathlib.Data.UInt
import PqcHsm.Library.Sponge
import PqcHsm.Hal.AccelAtomic
import Mathlib.Data.List.GetD

/-!
# The sponge of the accelerator

`accel_shake` on its two paths: the core is given the whole sponge, or the permutation only and the
blocks are framed here.
-/

namespace PqcHsm

open ByteCodec Exclusion

/-! ### The sponge of bytes -/

/-- The sponge whose state is 200 bytes, for a permutation of them. -/
def byteSponge (f : Bytes → Bytes) : Sponge Bytes UInt8 where
  start := List.replicate 200 0
  perm := f
  inject S p b := S.modify p (· ^^^ b)
  byteAt S p := S.getD p 0
  inject_zero S p := by
    rw [show (fun b : UInt8 => b ^^^ 0) = id from funext fun b => UInt8.xor_zero, List.modify_id]
  inject_inject S p a b := by
    rw [List.modify_modify_eq]
    exact congrArg (fun g => List.modify S p g) (funext fun c => UInt8.xor_assoc c a b)

/-- So many bytes of the output, with the padding of the standard. -/
def shakeOutput (f : Bytes → Bytes) (rate : Nat) (suffix : UInt8) (msg : Bytes) (outLen : Nat) :
    Bytes :=
  (List.range outLen).map ((byteSponge f).output rate suffix 0x80 msg)

section Blocks

variable {f : Bytes → Bytes} {S : Bytes}

theorem length_xorBytes {block : Bytes} (h : block.length ≤ S.length) :
    (xorBytes S block).length = S.length := by
  rw [xorBytes, List.length_append, List.length_zipWith, List.length_drop]
  omega

theorem getD_xorBytes {block : Bytes} (h : block.length ≤ S.length) (i : Nat) (hi : i < S.length) :
    (xorBytes S block).getD i 0 = S.getD i 0 ^^^ block.getD i 0 := by
  have hZip : (List.zipWith (· ^^^ ·) S block).length = block.length := by
    rw [List.length_zipWith]
    omega
  rw [xorBytes]
  by_cases hIn : i < block.length
  · rw [List.getD_append _ _ _ _ (by omega), List.getD_eq_getElem _ _ (by omega),
      List.getD_eq_getElem _ _ hi, List.getD_eq_getElem _ _ hIn, List.getElem_zipWith]
  · rw [List.getD_append_right _ _ _ _ (by omega), hZip, List.getD_eq_getElem _ _ (by
        rw [List.length_drop]
        omega), List.getElem_drop, List.getD_eq_default block _ (by omega), UInt8.xor_zero,
      List.getD_eq_getElem _ _ hi]
    congr 1
    omega

theorem getD_inject (p : Nat) (b : UInt8) (i : Nat) (hi : i < S.length) :
    ((byteSponge f).inject S p b).getD i 0 = S.getD i 0 ^^^ if i = p then b else 0 := by
  rw [byteSponge, List.getD_eq_getElem _ _ (by rwa [List.length_modify]), List.getElem_modify,
    List.getD_eq_getElem _ _ hi]
  by_cases hp : i = p
  · rw [if_pos hp, if_pos hp.symm]
  · rw [if_neg hp, if_neg (Ne.symm hp), UInt8.xor_zero]

theorem ext_getD {S' : Bytes} (hLen : S.length = S'.length)
    (h : ∀ i < S.length, S.getD i 0 = S'.getD i 0) : S = S' := by
  apply List.ext_getElem hLen
  intro i hi hi'
  have hEq := h i hi
  rwa [List.getD_eq_getElem _ _ hi, List.getD_eq_getElem _ _ hi'] at hEq

theorem length_inject (p : Nat) (b : UInt8) :
    ((byteSponge f).inject S p b).length = S.length := List.length_modify _ _ _

theorem length_injectAll (p : Nat) (block : Bytes) :
    ((byteSponge f).injectAll S p block).length = S.length := by
  induction block generalizing S p with
  | nil => rfl
  | cons b block ih => exact (ih (p + 1)).trans (length_inject p b)

theorem getD_injectAll (p : Nat) (block : Bytes) (i : Nat) (hi : i < S.length) :
    ((byteSponge f).injectAll S p block).getD i 0 =
      S.getD i 0 ^^^ if p ≤ i then block.getD (i - p) 0 else 0 := by
  induction block generalizing S p with
  | nil =>
    rw [List.getD_nil, ite_self, UInt8.xor_zero]
    rfl
  | cons b block ih =>
    rw [Sponge.injectAll, ih _ (by rwa [length_inject]), getD_inject _ _ _ hi, UInt8.xor_assoc]
    congr 1
    obtain hLess | rfl | hMore := Nat.lt_trichotomy i p
    · rw [if_neg (by omega), if_neg (by omega), if_neg (by omega), UInt8.xor_zero]
    · rw [if_pos rfl, if_neg (by omega), if_pos (Nat.le_refl _), Nat.sub_self, UInt8.xor_zero]
      rfl
    · have hNext : i - p = (i - (p + 1)) + 1 := by omega
      rw [if_neg (by omega), if_pos (by omega), if_pos (by omega), hNext, List.getD_cons_succ,
        UInt8.zero_xor]

/-- A block is added to the front of the state at once. -/
theorem injectAll_block {block : Bytes} (h : block.length ≤ S.length) :
    (byteSponge f).injectAll S 0 block = xorBytes S block := by
  apply ext_getD
  · rw [length_injectAll, length_xorBytes h]
  · intro i hi
    rw [length_injectAll] at hi
    rw [getD_injectAll _ _ _ hi, getD_xorBytes h _ hi, if_pos (Nat.zero_le i), Nat.sub_zero]

theorem getD_zeros (n i : Nat) : (List.replicate n (0 : UInt8)).getD i 0 = 0 := by
  rw [List.getD_eq_getElem?_getD]
  exact List.getElem?_getD_replicate_default_eq _ _ _

/-- A byte behind others, with zeros around it. -/
theorem getD_behind (rest : Bytes) (b : UInt8) (n i : Nat) :
    (rest ++ [b] ++ List.replicate n 0).getD i 0 =
      rest.getD i 0 ^^^ if i = rest.length then b else 0 := by
  rw [List.append_assoc]
  obtain hLess | rfl | hMore := Nat.lt_trichotomy i rest.length
  · rw [List.getD_append _ _ _ _ hLess, if_neg (by omega), UInt8.xor_zero]
  · rw [List.getD_append_right _ _ _ _ (Nat.le_refl _), Nat.sub_self, if_pos rfl,
      List.getD_eq_default _ _ (Nat.le_refl _), UInt8.zero_xor]
    rfl
  · obtain ⟨k, hk⟩ := Nat.exists_eq_add_of_lt hMore
    have hIndex : i - rest.length = k + 1 := by omega
    rw [List.getD_append_right _ _ _ _ (by omega), hIndex, if_neg (by omega),
      List.getD_eq_default rest _ (by omega)]
    exact getD_zeros n k

theorem length_lastBlock {rate : Nat} (suffix : UInt8) {rest : Bytes} (hRate : rate ≤ 200)
    (hRest : rest.length < rate) :
    ((rest ++ [suffix] ++ List.replicate 200 0).take rate).length = rate ∧
      (List.replicate (rate - 1) (0 : UInt8) ++ [0x80]).length = rate := by
  constructor
  · rw [List.length_take, List.length_append, List.length_append, List.length_replicate]
    omega
  · rw [List.length_append, List.length_replicate, List.length_singleton]
    omega

theorem length_shakePad {rate : Nat} (suffix : UInt8) {rest : Bytes} (hRate : rate ≤ 200)
    (hRest : rest.length < rate) : (shakePad rate suffix rest).length = rate := by
  obtain ⟨hFront, hMark⟩ := length_lastBlock suffix hRate hRest
  rw [shakePad, length_xorBytes (by omega), hFront]

theorem getD_shakePad {rate : Nat} (suffix : UInt8) {rest : Bytes} (hRate : rate ≤ 200)
    (hRest : rest.length < rate) {i : Nat} (hi : i < rate) :
    (shakePad rate suffix rest).getD i 0 =
      rest.getD i 0 ^^^
        ((if i = rest.length then suffix else 0) ^^^ if i = rate - 1 then 0x80 else 0) := by
  obtain ⟨hFront, hMark⟩ := length_lastBlock suffix hRate hRest
  have hEnd := getD_behind (List.replicate (rate - 1) 0) 0x80 0 i
  rw [List.length_replicate, getD_zeros, UInt8.zero_xor, List.replicate_zero,
    List.append_nil] at hEnd
  have hTake : ((rest ++ [suffix] ++ List.replicate 200 0).take rate).getD i 0 =
      (rest ++ [suffix] ++ List.replicate 200 0).getD i 0 := by
    rw [List.getD_eq_getElem?_getD, List.getD_eq_getElem?_getD, List.getElem?_take, if_pos hi]
  rw [shakePad, getD_xorBytes (by omega) _ (by omega), hTake, getD_behind, hEnd, UInt8.xor_assoc]

/-- The last block, built with its padding before it is added. -/
theorem xorBytes_shakePad {rate : Nat} (suffix : UInt8) {rest : Bytes} (hRate : rate ≤ 200)
    (hLen : S.length = 200) (hRest : rest.length < rate) :
    xorBytes S (shakePad rate suffix rest) =
      (byteSponge f).inject ((byteSponge f).inject ((byteSponge f).injectAll S 0 rest)
        rest.length suffix) (rate - 1) 0x80 := by
  have hPad := length_shakePad suffix hRate hRest
  apply ext_getD
  · rw [length_xorBytes (by omega), length_inject, length_inject, length_injectAll]
  · intro i hi
    rw [length_xorBytes (by omega)] at hi
    rw [getD_xorBytes (by omega) _ hi,
      getD_inject _ _ _ (by rwa [length_inject, length_injectAll]),
      getD_inject _ _ _ (by rwa [length_injectAll]), getD_injectAll _ _ _ hi,
      if_pos (Nat.zero_le i), Nat.sub_zero, UInt8.xor_assoc, UInt8.xor_assoc]
    congr 1
    by_cases hIn : i < rate
    · exact getD_shakePad suffix hRate hRest hIn
    · rw [List.getD_eq_default _ _ (by omega), List.getD_eq_default _ _ (by omega),
        if_neg (by omega), if_neg (by omega)]
      rfl

end Blocks

/-! ### Calls of the core -/

/-- What a core computes that has the permutation `f`, and the sponge or no sponge. -/
structure ShakeCore (f : Bytes → Bytes) (core : AccelCore) : Prop where
  length : ∀ S, S.length = 200 → (f S).length = 200
  permutes : ∀ param S, S.length = 200 → core ACCEL_MODE_KECCAK_F1600 param S = .done 200 (f S)
  sponge : ∀ rate suffix msg outLen, 0 < rate → rate ≤ 200 → 8 ∣ rate →
    msg.length ≤ ACCEL_SHAKE_MAX → 0 < outLen → outLen ≤ ACCEL_SHAKE_MAX →
      let param := accelShakeParam (UInt32.ofNat rate) suffix (UInt32.ofNat outLen)
      core ACCEL_MODE_SHAKE param msg =
          .done (UInt32.ofNat outLen) (shakeOutput f rate suffix msg outLen) ∨
        core ACCEL_MODE_SHAKE param msg = .failed 3

section Calls

variable {core : AccelCore} {t : AccelTransport}

theorem run_bracket {α : Type} (locked : Bool) (body : AccelThread α) (t : AccelTransport) :
    (Thread.bracket locked body).run t = body.run t := by
  simp [Thread.bracket, Thread.run]

theorem bytesAt_getD {S : Bytes} {n : Nat} (h : S.length = n) :
    bytesAt (fun i => S.getD i 0) n = S := by
  apply ext_getD
  · rw [bytesAt, List.length_map, List.length_range, h]
  · intro i hi
    rw [bytesAt, List.length_map, List.length_range] at hi
    rw [bytesAt, List.getD_eq_getElem _ _ (by simpa using hi), List.getElem_map,
      List.getElem_range]

/-- What a command leaves to be read. -/
theorem readData_started {mode param outLen : UInt32} {input out : Bytes} {n : Nat}
    (hInput : input.length ≤ ACCEL_BUF_MAX) (hCore : core mode param input = .done outLen out)
    (hLen : outLen.toNat = n) (hOut : out.length = n) (hPos : 0 < n) (hMax : n ≤ ACCEL_BUF_MAX) :
    ((t.loaded mode param input).start core).readData 0 n = out := by
  obtain ⟨hMode, hParam, hStart⟩ := loaded_fields t mode param hInput
  have hFetch : ((t.loaded mode param input).start core).fetch.output = out := by
    simp only [AccelTransport.start, hMode, hParam, hStart, hCore, AccelTransport.fetch,
      Bool.false_eq_true, if_false]
    rw [hLen, Nat.min_eq_left hMax]
    exact List.take_of_length_le (Nat.le_of_eq hOut)
  rw [AccelTransport.readData, hFetch, if_pos ⟨by omega, by omega⟩, List.drop_zero]
  exact List.take_of_length_le (Nat.le_of_eq hOut)

theorem run_runAlg (mode : UInt32) {input : Bytes} (h : input.length ≤ ACCEL_BUF_MAX) :
    (runAlg core mode .mlKem768 input).run t =
      (match core mode PqcAlg.mlKem768.toCode input with
        | .done outLen _ => (.ok, outLen)
        | .failed code => (if code = 3 then .errUnsupported else .errBackend, 0)
        | .hung => (.errBackend, 0),
      [.start mode PqcAlg.mlKem768.toCode input],
      (t.loaded mode PqcAlg.mlKem768.toCode input).start core) :=
  run_runParam core t mode _ h

/-- The status of a command is not good unless the core is done. -/
theorem status_ne_ok {r : AccelResult} (h : ∀ outLen out, r ≠ .done outLen out) :
    (match r with
      | .done outLen _ => (PqcStatus.ok, outLen)
      | .failed code => (if code = 3 then .errUnsupported else .errBackend, 0)
      | .hung => (.errBackend, 0)).1 ≠ .ok := by
  cases r with
  | done outLen out => exact absurd rfl (h outLen out)
  | failed code =>
    dsimp only
    split
    · exact PqcStatus.noConfusion
    · exact PqcStatus.noConfusion
  | hung => exact PqcStatus.noConfusion

theorem run_accelBlock_done {mode : UInt32} {block out : Bytes}
    (hBlock : block.length ≤ ACCEL_BUF_MAX) (hPos : 0 < block.length) {outLen : UInt32}
    (hCore : core mode PqcAlg.mlKem768.toCode block = .done outLen out)
    (hLen : outLen.toNat = block.length) (hOut : out.length = block.length) :
    ((accelBlock core mode block).run t).1 = some out := by
  have hGood : ¬((PqcStatus.ok, outLen).1 ≠ PqcStatus.ok ∨
      (PqcStatus.ok, outLen).2.toNat ≠ block.length) := by
    simp [hLen]
  rw [accelBlock, run_bracket, Thread.bind_eq_bind, Thread.run_bind, run_runAlg mode hBlock, hCore]
  dsimp only
  rw [if_neg hGood]
  simp only [Thread.bind_eq_bind, Thread.run_bind, axReadData, Thread.run_access,
    Thread.pure_eq_ret, Thread.run_ret]
  rw [readData_started hBlock hCore hLen hOut hPos hBlock]

theorem run_accelBlock_events {mode : UInt32} {block : Bytes}
    (hBlock : block.length ≤ ACCEL_BUF_MAX) :
    ((accelBlock core mode block).run t).2.1 = [.start mode PqcAlg.mlKem768.toCode block] := by
  have hQuiet (r : PqcStatus × UInt32) (t' : AccelTransport) :
      ((if r.1 ≠ .ok ∨ r.2.toNat ≠ block.length then pure none
        else do
          let out ← axReadData 0 block.length
          pure (some out) : AccelThread (Option Bytes)).run t').2.1 = [] := by
    split
    · rfl
    · simp [axReadData]
  rw [accelBlock, run_bracket, Thread.bind_eq_bind, Thread.run_bind, run_runAlg mode hBlock]
  exact congrArg (AccelEvent.start mode PqcAlg.mlKem768.toCode block :: ·) (hQuiet _ _)

theorem run_accelBlock_none {mode : UInt32} {block : Bytes} (hBlock : block.length ≤ ACCEL_BUF_MAX)
    (hCore : ∀ outLen out, core mode PqcAlg.mlKem768.toCode block ≠ .done outLen out) :
    ((accelBlock core mode block).run t).1 = none := by
  rw [accelBlock, run_bracket, Thread.bind_eq_bind, Thread.run_bind, run_runAlg mode hBlock]
  dsimp only
  rw [if_pos (.inl (status_ne_ok hCore))]
  rfl

theorem length_state (S : Bytes) : (bytesAt (fun i => S.getD i 0) 200).length = 200 := by
  rw [bytesAt, List.length_map, List.length_range]

theorem run_permuteState {f : Bytes → Bytes} (hCore : ShakeCore f core) {S : Bytes}
    (hLen : S.length = 200) : ((permuteState core S).run t).1 = some (f S) := by
  rw [permuteState, accelKeccakF1600, bytesAt_getD hLen]
  have hPos : 0 < S.length := by omega
  have hMax : S.length ≤ ACCEL_BUF_MAX := by
    rw [hLen]
    decide
  exact run_accelBlock_done hMax hPos (hCore.permutes _ S hLen) hLen.symm
    ((hCore.length S hLen).trans hLen.symm)

end Calls

/-! ### The framing -/

section Framing

variable {f : Bytes → Bytes} {core : AccelCore} {t : AccelTransport} {rate : Nat} {suffix : UInt8}
  {msg : Bytes}

theorem length_absorb (hLength : ∀ S : Bytes, S.length = 200 → (f S).length = 200) (rate : Nat)
    (m : Bytes) (n : Nat) : ((byteSponge f).absorb rate m n).length = 200 := by
  induction n with
  | zero => exact List.length_replicate
  | succ n ih =>
    apply hLength
    rw [length_injectAll]
    exact ih

theorem length_squeezed (hLength : ∀ S : Bytes, S.length = 200 → (f S).length = 200) (rate : Nat)
    (suffix : UInt8) (msg : Bytes) (n : Nat) :
    ((byteSponge f).perm^[n] ((byteSponge f).sealed rate suffix 0x80 msg)).length = 200 := by
  induction n with
  | zero => exact length_absorb hLength _ _ _
  | succ n ih =>
    rw [Function.iterate_succ_apply']
    exact hLength _ ih

theorem run_shakeAbsorb (hCore : ShakeCore f core) (hRate : rate ≤ 200) (blocks k : Nat)
    (hBlocks : (k + blocks) * rate ≤ msg.length) :
    ((shakeAbsorb core rate blocks (msg.drop (k * rate))
      ((byteSponge f).absorb rate msg k)).run t).1 =
      some ((byteSponge f).absorb rate msg (k + blocks)) := by
  induction blocks generalizing k t with
  | zero => rfl
  | succ blocks ih =>
    have hLen := length_absorb hCore.length rate msg k
    have hTake : ((msg.drop (k * rate)).take rate).length ≤
        ((byteSponge f).absorb rate msg k).length := by
      rw [hLen, List.length_take]
      omega
    have hState : (xorBytes ((byteSponge f).absorb rate msg k)
        ((msg.drop (k * rate)).take rate)).length = 200 := by rw [length_xorBytes hTake, hLen]
    have hNext : f (xorBytes ((byteSponge f).absorb rate msg k) ((msg.drop (k * rate)).take rate)) =
        (byteSponge f).absorb rate msg (k + 1) := by
      rw [← injectAll_block (f := f) hTake]
      rfl
    have hDrop : (msg.drop (k * rate)).drop rate = msg.drop ((k + 1) * rate) := by
      rw [List.drop_drop, Nat.add_mul, Nat.one_mul]
    have hCount : k + (blocks + 1) = k + 1 + blocks := by omega
    rw [shakeAbsorb, Thread.bind_eq_bind, Thread.run_bind, run_permuteState hCore hState]
    dsimp only
    rw [hNext, hDrop, hCount]
    apply ih
    rwa [← hCount]

theorem length_shakeOutput (outLen : Nat) :
    (shakeOutput f rate suffix msg outLen).length = outLen := by
  rw [shakeOutput, List.length_map, List.length_range]

/-- The bytes of a block of the output are the first ones of its state. -/
theorem shakeOutput_add (suffix : UInt8) (msg : Bytes)
    (hLength : ∀ S : Bytes, S.length = 200 → (f S).length = 200)
    (hRate : 0 < rate) (hMax : rate ≤ 200) (k : Nat) {n : Nat} (hn : n ≤ rate) :
    shakeOutput f rate suffix msg (k * rate + n) = shakeOutput f rate suffix msg (k * rate) ++
      ((byteSponge f).perm^[k] ((byteSponge f).sealed rate suffix 0x80 msg)).take n := by
  have hLen := length_squeezed hLength rate suffix msg k
  rw [shakeOutput, List.range_add, List.map_append, List.map_map, shakeOutput]
  congr 1
  apply ext_getD
  · rw [List.length_map, List.length_range, List.length_take, hLen]
    omega
  · intro i hi
    rw [List.length_map, List.length_range] at hi
    have hDiv : (k * rate + i) / rate = k := by
      rw [Nat.mul_comm, Nat.mul_add_div hRate, Nat.div_eq_of_lt (by omega), Nat.add_zero]
    have hMod : (k * rate + i) % rate = i := by
      rw [Nat.mul_comm, Nat.mul_add_mod, Nat.mod_eq_of_lt (by omega)]
    rw [List.getD_eq_getElem _ _ (by simpa using hi), List.getElem_map, List.getElem_range,
      Function.comp_apply, Sponge.output, hDiv, hMod, List.getD_eq_getElem?_getD,
      List.getElem?_take, if_pos hi]
    exact List.getD_eq_getElem?_getD

theorem run_shakeSqueeze (hCore : ShakeCore f core) (hRate : 0 < rate) (hMax : rate ≤ 200)
    {outLen : Nat} (blocks k : Nat) (hLast : outLen ≤ (k + blocks + 1) * rate)
    (hBlocks : (k + blocks) * rate ≤ outLen) :
    ((shakeSqueeze core rate outLen blocks (shakeOutput f rate suffix msg (k * rate))
      ((byteSponge f).perm^[k] ((byteSponge f).sealed rate suffix 0x80 msg))).run t).1 =
      ⟨.ok, [shakeOutput f rate suffix msg outLen]⟩ := by
  induction blocks generalizing k t with
  | zero =>
    rw [Nat.add_zero, Nat.add_mul, Nat.one_mul] at hLast
    rw [Nat.add_zero] at hBlocks
    have hSplit : k * rate + (outLen - k * rate) = outLen := by omega
    have hOut := shakeOutput_add suffix msg hCore.length hRate hMax k
      (by omega : outLen - k * rate ≤ rate)
    rw [hSplit] at hOut
    rw [shakeSqueeze, length_shakeOutput, hOut]
    rfl
  | succ blocks ih =>
    have hMul : (k + (blocks + 1)) * rate = k * rate + rate + blocks * rate := by
      rw [← Nat.add_assoc, Nat.add_mul, Nat.add_mul, Nat.one_mul]
      omega
    have hFull : min (outLen - k * rate) rate = rate := by omega
    have hNext : k * rate + rate = (k + 1) * rate := by rw [Nat.add_mul, Nat.one_mul]
    have hCount : k + (blocks + 1) = k + 1 + blocks := by omega
    rw [hCount] at hLast hBlocks
    rw [shakeSqueeze, Thread.bind_eq_bind, Thread.run_bind,
      run_permuteState hCore (length_squeezed hCore.length rate suffix msg k), length_shakeOutput,
      hFull, ← shakeOutput_add suffix msg hCore.length hRate hMax k (Nat.le_refl rate), hNext]
    have hPerm : f ((byteSponge f).perm^[k] ((byteSponge f).sealed rate suffix 0x80 msg)) =
        (byteSponge f).perm^[k + 1] ((byteSponge f).sealed rate suffix 0x80 msg) :=
      (Function.iterate_succ_apply' (byteSponge f).perm k _).symm
    dsimp only
    rw [hPerm]
    exact ih (k + 1) hLast hBlocks

theorem run_shakeInSoftware (hCore : ShakeCore f core) (hRate : 0 < rate) (hMax : rate ≤ 200)
    (outLen : Nat) :
    ((shakeInSoftware core rate suffix msg outLen).run t).1 =
      ⟨.ok, [shakeOutput f rate suffix msg outLen]⟩ := by
  have hDiv := Nat.div_mul_le_self msg.length rate
  have hAbsorb (t' : AccelTransport) := run_shakeAbsorb (t := t') hCore hMax (msg.length / rate) 0
    (by rwa [Nat.zero_add])
  simp only [Nat.zero_mul, List.drop_zero, Nat.zero_add] at hAbsorb
  have hState := length_absorb hCore.length rate msg (msg.length / rate)
  have hRest : (msg.drop (msg.length / rate * rate)).length = msg.length % rate := by
    have hSum := Nat.div_add_mod' msg.length rate
    rw [List.length_drop]
    omega
  have hLess : (msg.drop (msg.length / rate * rate)).length < rate := by
    rw [hRest]
    exact Nat.mod_lt _ hRate
  have hLast : f (xorBytes ((byteSponge f).absorb rate msg (msg.length / rate))
      (shakePad rate suffix (msg.drop (msg.length / rate * rate)))) =
      (byteSponge f).sealed rate suffix 0x80 msg := by
    rw [xorBytes_shakePad suffix hMax hState hLess, hRest, Sponge.sealed_eq suffix 0x80 hRate,
      Sponge.absorbed, Sponge.block_last hRate]
    rfl
  have hPad := length_shakePad suffix hMax hLess
  have hPadded : (xorBytes ((byteSponge f).absorb rate msg (msg.length / rate))
      (shakePad rate suffix (msg.drop (msg.length / rate * rate)))).length = 200 := by
    rw [length_xorBytes (by omega), hState]
  have hEnd : outLen ≤ (0 + (outLen - 1) / rate + 1) * rate := by
    have hSum := Nat.div_add_mod' (outLen - 1) rate
    have hMod := Nat.mod_lt (outLen - 1) hRate
    rw [Nat.zero_add, Nat.add_mul, Nat.one_mul]
    omega
  have hWhole : (0 + (outLen - 1) / rate) * rate ≤ outLen := by
    have hLe := Nat.div_mul_le_self (outLen - 1) rate
    rw [Nat.zero_add]
    omega
  rw [shakeInSoftware, Thread.bind_eq_bind, Thread.run_bind]
  have hStart : (List.replicate 200 0 : Bytes) = (byteSponge f).absorb rate msg 0 := rfl
  rw [hStart, hAbsorb]
  dsimp only
  rw [Thread.bind_eq_bind, Thread.run_bind, run_permuteState hCore hPadded, hLast]
  have hNone : ([] : Bytes) = shakeOutput f rate suffix msg (0 * rate) := by
    rw [Nat.zero_mul]
    rfl
  rw [hNone]
  exact run_shakeSqueeze hCore hRate hMax _ 0 hEnd hWhole

end Framing

/-! ### The core's own sponge -/

section Offloaded

variable {f : Bytes → Bytes} {core : AccelCore} {t : AccelTransport} {rate outLen : Nat}
  {suffix : UInt8} {msg : Bytes}

theorem toNat_small {n : Nat} (h : n ≤ ACCEL_SHAKE_MAX) : (UInt32.ofNat n).toNat = n := by
  rw [UInt32.toNat_ofNat']
  simp only [ACCEL_SHAKE_MAX] at h
  omega

theorem run_shakeInPl (hCore : ShakeCore f core) (hRate : 0 < rate) (hMax : rate ≤ 200)
    (hEight : 8 ∣ rate) :
    ((shakeInPl core (UInt32.ofNat rate) suffix msg outLen).run t).1 =
        .done (shakeOutput f rate suffix msg outLen) ∨
      ((shakeInPl core (UInt32.ofNat rate) suffix msg outLen).run t).1 = .notThere := by
  rw [shakeInPl]
  split
  · exact .inr rfl
  · rename_i hFits
    obtain ⟨hPos, hMsg, hOut⟩ : 0 < outLen ∧ msg.length ≤ ACCEL_SHAKE_MAX ∧
        outLen ≤ ACCEL_SHAKE_MAX := by omega
    have hInput : msg.length ≤ ACCEL_BUF_MAX := Nat.le_trans hMsg (by decide)
    rw [run_bracket, Thread.bind_eq_bind, Thread.run_bind, run_runParam core t _ _ hInput]
    obtain hDone | hNone := hCore.sponge rate suffix msg outLen hRate hMax hEight hMsg hPos hOut
    · left
      have hGood : ¬((PqcStatus.ok, UInt32.ofNat outLen).1 ≠ .ok ∨
          (PqcStatus.ok, UInt32.ofNat outLen).2.toNat ≠ outLen) := by
        simp [toNat_small hOut]
      rw [hDone]
      dsimp only
      rw [if_neg PqcStatus.noConfusion, if_neg hGood]
      simp only [Thread.bind_eq_bind, Thread.run_bind, axReadData, Thread.run_access,
        Thread.pure_eq_ret, Thread.run_ret]
      rw [readData_started hInput hDone (toNat_small hOut) (length_shakeOutput outLen) hPos
        (Nat.le_trans hOut (by decide))]
    · right
      rw [hNone]
      rfl

end Offloaded

/-! ### Failures -/

/-- An answer of the core that is a failure: only the sponge may be missing. -/
def AccelCore.Fails (core : AccelCore) : AccelEvent → Prop
  | .start mode param input =>
    match core mode param input with
    | .done _ _ => False
    | .failed code => ¬(mode = ACCEL_MODE_SHAKE ∧ code = 3)
    | .hung => True

def AccelEvent.mode : AccelEvent → UInt32
  | .start mode _ _ => mode

/-- An event of this kind shows in the result. -/
def Reports {α : Type} (P : AccelEvent → Prop) (p : AccelThread α) (Bad : α → Prop) : Prop :=
  ∀ t, (∃ e ∈ (p.run t).2.1, P e) → Bad (p.run t).1

section Reports

variable {core : AccelCore} {P : AccelEvent → Prop} {Q : Prop}

theorem reports_pure {α : Type} {Bad : α → Prop} (a : α) :
    Reports P (pure a : AccelThread α) Bad := by
  rintro t ⟨e, he, -⟩
  exact absurd he List.not_mem_nil

theorem reports_bind {α β : Type} {p : AccelThread α} {f : α → AccelThread β} {Bad : α → Prop}
    {Bad' : β → Prop} (hp : Reports P p Bad) (hBad : ∀ a t, Bad a → Bad' ((f a).run t).1)
    (hf : ∀ a, Reports P (f a) Bad') : Reports P (p >>= f) Bad' := by
  rintro t ⟨e, he, hP⟩
  rw [Thread.bind_eq_bind, Thread.run_bind] at he ⊢
  obtain hFirst | hThen := List.mem_append.mp he
  · exact hBad _ _ (hp t ⟨e, hFirst, hP⟩)
  · exact hf _ _ ⟨e, hThen, hP⟩

variable (hPerm : ∀ S, Reports P (permuteState core S) fun r => r = none ∧ Q)

include hPerm

theorem reports_shakeAbsorb (rate blocks : Nat) (msg state : Bytes) :
    Reports P (shakeAbsorb core rate blocks msg state) fun r => r = none ∧ Q := by
  induction blocks generalizing msg state with
  | zero => exact reports_pure _
  | succ blocks ih =>
    refine reports_bind (hPerm _) ?_ ?_
    · rintro a t ⟨rfl, hQ⟩
      exact ⟨rfl, hQ⟩
    · rintro (_ | S)
      · exact reports_pure _
      · exact ih _ _

theorem reports_shakeSqueeze (rate outLen blocks : Nat) (out state : Bytes) :
    Reports P (shakeSqueeze core rate outLen blocks out state) fun r => r.status ≠ .ok ∧ Q := by
  induction blocks generalizing out state with
  | zero => exact reports_pure _
  | succ blocks ih =>
    refine reports_bind (hPerm _) ?_ ?_
    · rintro a t ⟨rfl, hQ⟩
      exact ⟨PqcStatus.noConfusion, hQ⟩
    · rintro (_ | S)
      · exact reports_pure _
      · exact ih _ _

theorem reports_shakeInSoftware (rate : Nat) (suffix : UInt8) (msg : Bytes) (outLen : Nat) :
    Reports P (shakeInSoftware core rate suffix msg outLen) fun r => r.status ≠ .ok ∧ Q := by
  refine reports_bind (reports_shakeAbsorb hPerm _ _ _ _) ?_ ?_
  · rintro a t ⟨rfl, hQ⟩
    exact ⟨PqcStatus.noConfusion, hQ⟩
  · rintro (_ | S)
    · exact reports_pure _
    · refine reports_bind (hPerm _) ?_ ?_
      · rintro a t ⟨rfl, hQ⟩
        exact ⟨PqcStatus.noConfusion, hQ⟩
      · rintro (_ | S)
        · exact reports_pure _
        · exact reports_shakeSqueeze hPerm _ _ _ _ _

end Reports

section Failures

variable {core : AccelCore}

theorem events_permuteState (S : Bytes) (t : AccelTransport) :
    ((permuteState core S).run t).2.1 =
      [.start ACCEL_MODE_KECCAK_F1600 PqcAlg.mlKem768.toCode
        (bytesAt (fun i => S.getD i 0) 200)] := by
  rw [permuteState, accelKeccakF1600]
  apply run_accelBlock_events
  rw [length_state]
  decide

theorem reports_permuteState (S : Bytes) :
    Reports core.Fails (permuteState core S) fun r => r = none ∧ True := by
  rintro t ⟨e, he, hFails⟩
  rw [events_permuteState, List.mem_singleton] at he
  subst he
  refine ⟨?_, trivial⟩
  rw [permuteState, accelKeccakF1600]
  apply run_accelBlock_none
  · rw [length_state]
    decide
  · intro outLen out hDone
    rw [AccelCore.Fails, hDone] at hFails
    exact hFails

theorem permuteState_not_shake (S : Bytes) :
    Reports (fun e => e.mode = ACCEL_MODE_SHAKE) (permuteState core S)
      fun r => r = none ∧ False := by
  rintro t ⟨e, he, hMode⟩
  rw [events_permuteState, List.mem_singleton] at he
  subst he
  change ACCEL_MODE_KECCAK_F1600 = ACCEL_MODE_SHAKE at hMode
  exact absurd hMode (by decide)

theorem reports_shakeInPl (rate : UInt32) (suffix : UInt8) (msg : Bytes) (outLen : Nat) :
    Reports core.Fails (shakeInPl core rate suffix msg outLen) fun r => r = .failed := by
  rw [shakeInPl]
  split
  · exact reports_pure _
  · rename_i hFits
    have hInput : msg.length ≤ ACCEL_BUF_MAX := by
      have hMax : ACCEL_SHAKE_MAX ≤ ACCEL_BUF_MAX := by decide
      omega
    have hQuiet (r : PqcStatus × UInt32) (t : AccelTransport) :
        ((if r.1 = .errUnsupported then pure .notThere
          else if r.1 ≠ .ok ∨ r.2.toNat ≠ outLen then pure .failed
          else do
            let out ← axReadData 0 outLen
            pure (.done out) : AccelThread ShakeInPl).run t).2.1 = [] := by
      split
      · rfl
      · split
        · rfl
        · simp [axReadData]
    rintro t ⟨e, he, hFails⟩
    rw [run_bracket, Thread.bind_eq_bind, Thread.run_bind, run_runParam core t _ _ hInput] at he ⊢
    have hEvent := List.mem_append.mp he
    rw [hQuiet, List.mem_singleton, or_iff_left List.not_mem_nil] at hEvent
    subst hEvent
    rw [AccelCore.Fails] at hFails
    cases hResult : core ACCEL_MODE_SHAKE
        (accelShakeParam rate suffix (UInt32.ofNat outLen)) msg with
    | done outLen out =>
      rw [hResult] at hFails
      exact hFails.elim
    | failed code =>
      rw [hResult] at hFails
      have hCode : ¬code = 3 := fun h => hFails ⟨rfl, h⟩
      dsimp only
      rw [if_neg hCode, if_neg PqcStatus.noConfusion, if_pos (.inl PqcStatus.noConfusion)]
      rfl
    | hung =>
      dsimp only
      rw [if_neg PqcStatus.noConfusion, if_pos (.inl PqcStatus.noConfusion)]
      rfl

end Failures

/-- Whichever path is taken, the helper gives the output of the sponge; a failure of the core in any
call is an error, and a failure of its sponge leaves no output of another one. -/
theorem accelShake_sponge (core : AccelCore) (suffix : UInt8) (msg : Option Mem)
    (msgLen outLen : Nat) (t : AccelTransport) :
    (∀ f (rate : Nat), ShakeCore f core → 0 < rate → rate ≤ 200 → 8 ∣ rate →
      (msg = none → msgLen = 0) →
        ((accelShake core rate suffix msg msgLen true outLen).run t).1 =
          ⟨.ok, [shakeOutput f rate suffix (bytesAt (msg.getD fun _ => 0) msgLen) outLen]⟩) ∧
    ∀ (rate : Int) (hasOut : Bool),
      ∀ e ∈ ((accelShake core rate suffix msg msgLen hasOut outLen).run t).2.1, core.Fails e →
        ((accelShake core rate suffix msg msgLen hasOut outLen).run t).1.status ≠ .ok ∧
          (e.mode = ACCEL_MODE_SHAKE →
            ((accelShake core rate suffix msg msgLen hasOut outLen).run t).1 =
              ⟨.errBadArg, []⟩) := by
  constructor
  · intro f rate hCore hRate hMax hEight hMsg
    have hNat : (rate : Int).toNat = rate := Int.toNat_natCast rate
    have hGood : ¬((rate : Int) ≤ 0 ∨ (200 : Int) < rate ∨ (rate : Int) % 8 ≠ 0 ∨
        (msg.isNone ∧ msgLen ≠ 0) ∨ true = false) := by
      rintro (h | h | h | ⟨hNone, hLen⟩ | h)
      · omega
      · omega
      · omega
      · exact hLen (hMsg (Option.isNone_iff_eq_none.mp hNone))
      · exact Bool.noConfusion h
    rw [accelShake, if_neg hGood, hNat, Thread.bind_eq_bind, Thread.run_bind]
    obtain hDone | hNone := @run_shakeInPl f core t rate outLen suffix
      (bytesAt (msg.getD fun _ => 0) msgLen) hCore hRate hMax hEight
    · rw [hDone]
      rfl
    · rw [hNone]
      exact run_shakeInSoftware hCore hRate hMax outLen
  · intro rate hasOut e he hFails
    rw [accelShake] at he ⊢
    split
    · rename_i hBad
      rw [if_pos hBad] at he
      exact absurd he List.not_mem_nil
    · rename_i hGood
      rw [if_neg hGood, Thread.bind_eq_bind, Thread.run_bind] at he
      rw [Thread.bind_eq_bind, Thread.run_bind]
      obtain hFirst | hThen := List.mem_append.mp he
      · rw [reports_shakeInPl _ _ _ _ t ⟨e, hFirst, hFails⟩]
        exact ⟨PqcStatus.noConfusion, fun _ => rfl⟩
      · cases hPl : ((shakeInPl core (UInt32.ofNat rate.toNat) suffix
            (bytesAt (msg.getD fun _ => 0) msgLen) outLen).run t).1 with
        | done out =>
          rw [hPl] at hThen
          exact absurd hThen List.not_mem_nil
        | failed => exact ⟨PqcStatus.noConfusion, fun _ => rfl⟩
        | notThere =>
          rw [hPl] at hThen
          constructor
          · exact (reports_shakeInSoftware reports_permuteState _ _ _ _ _ ⟨e, hThen, hFails⟩).1
          · intro hMode
            exact (reports_shakeInSoftware permuteState_not_shake _ _ _ _ _
              ⟨e, hThen, hMode⟩).2.elim

/-- A core that has a permutation, the one that changes nothing, and no sponge. -/
def identityCore : AccelCore := fun mode _ input =>
  if mode = ACCEL_MODE_KECCAK_F1600 then .done 200 input else .failed 3

theorem accelShake_sponge_framed :
    ((accelShake identityCore 136 0x1F (some UInt8.ofNat) 3 true 4).run sampleTransport).1 =
      ⟨.ok, [shakeOutput id 136 0x1F (bytesAt UInt8.ofNat 3) 4]⟩ := by
  have hCore : ShakeCore id identityCore := by
    constructor
    · intro S hLen
      exact hLen
    · intro param S _
      exact if_pos rfl
    · intro rate suffix msg outLen _ _ _ _ _ _
      right
      exact if_neg (by decide)
  exact (accelShake_sponge identityCore 0x1F (some UInt8.ofNat) 3 4 sampleTransport).1 id 136 hCore
    (by decide) (by decide) (by decide) (fun h => nomatch h)

end PqcHsm
