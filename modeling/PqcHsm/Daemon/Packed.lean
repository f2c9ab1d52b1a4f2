import PqcHsm.Daemon.Bus

/-!
# Packed transfer

The two PQC cores take their input and give their output over a pair of registers in each direction:
one for a byte, one for four bytes with the first in the low bits. `feed_packed` and `drain_packed`
use the second as long as four bytes remain and the first for the rest.
-/

namespace PqcHsm

open ByteCodec Stateful

/-- The accessors of the registers and the flag that they leave behind. -/
structure HwPort (ε σ : Type) where
  rd : Nat → Stateful ε σ UInt32
  wr : Nat → UInt32 → Stateful ε σ Unit
  fault : Stateful ε σ Bool

def busPort : HwPort BusEnv Bus := ⟨PqcHsm.rd, PqcHsm.wr, PqcHsm.hwFault⟩

/-- The word of four bytes that `feed_packed` writes. -/
def packWord (a b c d : UInt8) : UInt32 :=
  a.toUInt32 ||| b.toUInt32 <<< 8 ||| c.toUInt32 <<< 16 ||| d.toUInt32 <<< 24

section Transfer

variable {ε σ : Type} (hw : HwPort ε σ)

/-- The transfer byte by byte. -/
def feedBytesOver (reg1 : Nat) : Bytes → Stateful ε σ Unit
  | [] => pure ()
  | b :: rest => do
    if ← hw.fault then pure ()
    else do
      hw.wr reg1 b.toUInt32
      feedBytesOver reg1 rest

def feedPackedOver (reg4 reg1 : Nat) : Bytes → Stateful ε σ Unit
  | a :: b :: c :: d :: rest => do
    if ← hw.fault then pure ()
    else do
      hw.wr reg4 (packWord a b c d)
      feedPackedOver reg4 reg1 rest
  | rest => feedBytesOver hw reg1 rest

/-- Stores the bytes of an answer at an index of the buffer. -/
def storeAt (out : Bytes) (i : Nat) (bytes : Bytes) : Bytes :=
  out.take i ++ bytes ++ out.drop (i + bytes.length)

/-- The transfer byte by byte: `n` bytes from index `i` on. -/
def drainBytesOver (reg1 : Nat) (out : Bytes) (i : Nat) : Nat → Stateful ε σ Bytes
  | 0 => pure out
  | n + 1 => do
    if ← hw.fault then pure out
    else do
      let v ← hw.rd reg1
      drainBytesOver reg1 (storeAt out i [v.toUInt8]) (i + 1) n

def drainPackedOver (reg4 reg1 : Nat) (out : Bytes) (i : Nat) : Nat → Stateful ε σ Bytes
  | n + 4 => do
    if ← hw.fault then pure out
    else do
      let v ← hw.rd reg4
      drainPackedOver reg4 reg1
        (storeAt out i [v.toUInt8, (v >>> 8).toUInt8, (v >>> 16).toUInt8, (v >>> 24).toUInt8])
        (i + 4) n
  | n => drainBytesOver hw reg1 out i n

end Transfer

/-! ### The programs on the bus -/

theorem feedBytes_eq (reg1 : Nat) (input : Bytes) :
    feedBytes reg1 input = feedBytesOver busPort reg1 input := by
  induction input with
  | nil => rfl
  | cons b rest ih =>
    rw [feedBytes, feedBytesOver, ih]
    rfl

theorem feedPacked_eq (reg4 reg1 : Nat) (input : Bytes) :
    feedPacked reg4 reg1 input = feedPackedOver busPort reg4 reg1 input := by
  induction input using feedPacked.induct with
  | case1 a b c d rest ih =>
    rw [feedPacked, feedPackedOver, ih]
    rfl
  | case2 rest hShort =>
    rw [feedPacked.eq_2 _ _ _ hShort, feedPackedOver.eq_2 _ _ _ _ hShort, feedBytes_eq]

/-! ### The data ports of a core -/

/-- The data registers of a core, its pointer registers and stores, and how far the write pointer may
go. A byte that is read beyond the output is either the one under the pointer or zero. -/
structure CorePorts where
  inData : Nat
  inData4 : Nat
  outData : Nat
  outData4 : Nat
  ptrSize : Nat
  storeSize : Nat
  inCap : Option Nat
  showsBeyond : Bool
  apart : inData4 ≠ inData ∧ outData4 ≠ outData
  whole : ∀ c ∈ inCap, 4 ∣ c
  aligned : 4 ∣ ptrSize
  wraps : storeSize ∣ ptrSize

def mlkemPorts : CorePorts where
  inData := MK_INDATA
  inData4 := MK_INDATA4
  outData := MK_OUTDAT
  outData4 := MK_OUTDAT4
  ptrSize := 2 ^ 13
  storeSize := 2 ^ 13
  inCap := none
  showsBeyond := true
  apart := by decide
  whole := by simp
  aligned := by decide
  wraps := by decide

def mldsaPorts : CorePorts where
  inData := MD_INDATA
  inData4 := MD_INDATA4
  outData := MD_OUTDAT
  outData4 := MD_OUTDAT4
  ptrSize := 2 ^ 16
  storeSize := 2 ^ 15
  inCap := some 32768
  showsBeyond := false
  apart := by decide
  whole := by
    intro c hc
    cases hc
    decide
  aligned := by decide
  wraps := by decide

/-- An idle core that is not being wiped, and the flag of the daemon. The bytes of the software begin
at `base` in the input store; `taken` are the bytes presented so far. -/
@[ext] structure CoreIo where
  inStore : Nat → UInt8
  inPtr : Nat
  base : Nat
  outStore : Nat → UInt8
  outPtr : Nat
  outLen : Nat
  fault : Bool
  taken : Bytes

/-- The read pointer has passed some bytes. -/
def CoreIo.passed (s : CoreIo) (n : Nat) : CoreIo := { s with outPtr := s.outPtr + n }

theorem CoreIo.passed_passed (s : CoreIo) (j n : Nat) : (s.passed j).passed n = s.passed (j + n) := by
  simp only [CoreIo.passed, Nat.add_assoc]

/-- Which accesses are rejected on the way, by their number. -/
structure CoreEnv where
  rejects : Nat → Bool

namespace CorePorts

variable (P : CorePorts)

def inAddr (s : CoreIo) (k : Nat) : Nat := ((s.inPtr + s.base) % P.storeSize + k) % P.storeSize

/-- `in_full` and `in_room4` -/
def room (s : CoreIo) (k : Nat) : Bool :=
  match P.inCap with
  | none => true
  | some c => s.inPtr + k ≤ c

/-- A write of `IN_DATA`. -/
def acceptByte (s : CoreIo) (b : UInt8) : CoreIo :=
  { s with
    inStore := Function.update s.inStore (P.inAddr s 0) b
    inPtr := (s.inPtr + 1) % P.ptrSize
    taken := s.taken ++ [b] }

/-- A write of `IN_DATA4`: four bytes to consecutive addresses, the pointer is moved once. -/
def acceptWord (s : CoreIo) (v : UInt32) : CoreIo :=
  { s with
    inStore := Function.update (Function.update (Function.update (Function.update s.inStore
      (P.inAddr s 0) v.toUInt8) (P.inAddr s 1) (v >>> 8).toUInt8) (P.inAddr s 2) (v >>> 16).toUInt8)
      (P.inAddr s 3) (v >>> 24).toUInt8
    inPtr := (s.inPtr + 4) % P.ptrSize
    taken := s.taken ++ [v.toUInt8, (v >>> 8).toUInt8, (v >>> 16).toUInt8, (v >>> 24).toUInt8] }

def outByte (s : CoreIo) (k : Nat) : UInt8 := s.outStore ((s.outPtr + k) % P.storeSize)

def write (off : Nat) (v : UInt32) (s : CoreIo) : CoreIo :=
  if off = P.inData then
    if P.room s 1 then P.acceptByte s v.toUInt8 else { s with fault := true }
  else if off = P.inData4 then
    if P.room s 4 then P.acceptWord s v else { s with fault := true }
  else s

def read (off : Nat) (s : CoreIo) : UInt32 × CoreIo :=
  if off = P.outData then
    if s.outPtr < s.outLen then ((P.outByte s 0).toUInt32, s.passed 1)
    else (if P.showsBeyond then (P.outByte s 0).toUInt32 else 0, s)
  else if off = P.outData4 then
    if s.outPtr + 4 ≤ s.outLen then
      (packWord (P.outByte s 0) (P.outByte s 1) (P.outByte s 2) (P.outByte s 3),
        s.passed 4)
    else (0, s)
  else (0, s)

/-- The accessors of the daemon on a core, whose accesses are counted. -/
def port : HwPort CoreEnv (CoreIo × Nat) where
  rd off := ⟨fun e s =>
    if e.rejects s.2 then (0, { s.1 with fault := true }, s.2 + 1)
    else ((P.read off s.1).1, (P.read off s.1).2, s.2 + 1)⟩
  wr off v := ⟨fun e s =>
    if e.rejects s.2 then ((), { s.1 with fault := true }, s.2 + 1)
    else ((), P.write off v s.1, s.2 + 1)⟩
  fault := ⟨fun _ s => (s.1.fault, s)⟩

end CorePorts

/-! ### Feeding -/

/-- The byte of a word at a place. -/
theorem packWord_bytes (a b c d : UInt8) :
    (packWord a b c d).toUInt8 = a ∧ (packWord a b c d >>> 8).toUInt8 = b ∧
      (packWord a b c d >>> 16).toUInt8 = c ∧ (packWord a b c d >>> 24).toUInt8 = d := by
  refine ⟨?_, ?_, ?_, ?_⟩
  all_goals
    apply UInt8.eq_of_toBitVec_eq
    ext i hi
    simp [packWord]
    try grind

section Feeding

variable (P : CorePorts) {e : CoreEnv}

/-- One byte is presented to the core, unless an access has failed before. -/
def CorePorts.push (s : CoreIo) (b : UInt8) : CoreIo :=
  if s.fault then s else if P.room s 1 then P.acceptByte s b else { s with fault := true }

theorem foldl_push_fault {s : CoreIo} (h : s.fault = true) (bs : Bytes) :
    bs.foldl P.push s = s := by
  induction bs with
  | nil => rfl
  | cons b bs ih => rw [List.foldl_cons, CorePorts.push, if_pos h, ih]

theorem run_feedBytes (hCalm : ∀ k, e.rejects k = false) (bs : Bytes) (s : CoreIo) (k : Nat) :
    ((feedBytesOver P.port P.inData bs).run e (s, k)).2.1 = bs.foldl P.push s := by
  induction bs generalizing s k with
  | nil => rfl
  | cons b bs ih =>
    rw [feedBytesOver, run_bind, List.foldl_cons, CorePorts.push]
    change ((if s.fault then pure () else _ : Stateful _ _ Unit).run e (s, k)).2.1 = _
    cases hFault : s.fault with
    | true => exact (foldl_push_fault P hFault bs).symm
    | false =>
      rw [if_neg Bool.false_ne_true, if_neg Bool.false_ne_true, run_bind, ih]
      simp [CorePorts.port, hCalm, CorePorts.write]

theorem inAddr_acceptByte (s : CoreIo) (b : UInt8) (k : Nat) :
    P.inAddr (P.acceptByte s b) k = P.inAddr s (k + 1) := by
  rw [CorePorts.inAddr, CorePorts.inAddr, CorePorts.acceptByte, Nat.mod_add_mod, Nat.mod_add_mod]
  dsimp only
  have hMod : (s.inPtr + 1) % P.ptrSize % P.storeSize = (s.inPtr + 1) % P.storeSize :=
    Nat.mod_mod_of_dvd _ P.wraps
  rw [Nat.add_assoc, Nat.add_mod, hMod, ← Nat.add_mod]
  congr 1
  omega

@[simp] theorem acceptByte_inStore (s : CoreIo) (b : UInt8) :
    (P.acceptByte s b).inStore = Function.update s.inStore (P.inAddr s 0) b := rfl

/-- A packed write is four writes. -/
theorem acceptWord_eq (s : CoreIo) (a b c d : UInt8) :
    P.acceptWord s (packWord a b c d) =
      P.acceptByte (P.acceptByte (P.acceptByte (P.acceptByte s a) b) c) d := by
  obtain ⟨h0, h1, h2, h3⟩ := packWord_bytes a b c d
  rw [CorePorts.acceptWord, h0, h1, h2, h3]
  ext1
  · simp [inAddr_acceptByte]
  · simp [CorePorts.acceptByte]
  · rfl
  · rfl
  · rfl
  · rfl
  · rfl
  · simp [CorePorts.acceptByte]

theorem room_acceptByte {s : CoreIo} {k : Nat} (h : P.room s (k + 1) = true) (b : UInt8) :
    P.room (P.acceptByte s b) k = true := by
  have hPtr : (s.inPtr + 1) % P.ptrSize ≤ s.inPtr + 1 := Nat.mod_le _ _
  rw [CorePorts.room] at h ⊢
  cases hCap : P.inCap with
  | none => rfl
  | some c =>
    rw [hCap] at h
    simp only [decide_eq_true_eq] at h ⊢
    change (s.inPtr + 1) % P.ptrSize + k ≤ c
    omega

theorem room_mono {s : CoreIo} {j k : Nat} (h : P.room s k = true) (hle : j ≤ k) :
    P.room s j = true := by
  rw [CorePorts.room] at h ⊢
  cases hCap : P.inCap with
  | none => rfl
  | some c =>
    rw [hCap] at h
    simp only [decide_eq_true_eq] at h ⊢
    omega

/-- What has room for a word at an aligned pointer has room for a byte, and the other way round. -/
theorem room_word {s : CoreIo} (hPtr : 4 ∣ s.inPtr) (h : P.room s 1 = true) : P.room s 4 = true := by
  have hWhole := P.whole
  rw [CorePorts.room] at h ⊢
  cases hCap : P.inCap with
  | none => rfl
  | some c =>
    rw [hCap] at h
    simp only [decide_eq_true_eq] at h ⊢
    have := hWhole c hCap
    omega

theorem push_eq {s : CoreIo} {k : Nat} (hFault : s.fault = false) (hRoom : P.room s (k + 1) = true)
    (b : UInt8) : P.push s b = P.acceptByte s b := by
  rw [CorePorts.push, if_neg (by simp [hFault]), if_pos (room_mono P hRoom (by omega))]

theorem foldl_push_word {s : CoreIo} (hFault : s.fault = false) (hRoom : P.room s 4 = true)
    (a b c d : UInt8) (rest : Bytes) :
    (a :: b :: c :: d :: rest).foldl P.push s =
      rest.foldl P.push (P.acceptWord s (packWord a b c d)) := by
  have hRoom1 := room_acceptByte P hRoom a
  have hRoom2 := room_acceptByte P hRoom1 b
  have hRoom3 := room_acceptByte P hRoom2 c
  rw [acceptWord_eq, List.foldl_cons, List.foldl_cons, List.foldl_cons, List.foldl_cons,
    push_eq P hFault hRoom, push_eq P (s := P.acceptByte s a) hFault hRoom1,
    push_eq P (s := P.acceptByte (P.acceptByte s a) b) hFault hRoom2,
    push_eq P (s := P.acceptByte (P.acceptByte (P.acceptByte s a) b) c) hFault hRoom3]

theorem run_feedPacked (hCalm : ∀ k, e.rejects k = false) (bs : Bytes) (s : CoreIo) (k : Nat)
    (hPtr : 4 ∣ s.inPtr) :
    ((feedPackedOver P.port P.inData4 P.inData bs).run e (s, k)).2.1 = bs.foldl P.push s := by
  induction bs using feedPacked.induct generalizing s k with
  | case1 a b c d rest ih =>
    rw [feedPackedOver, run_bind]
    change ((if s.fault then pure () else _ : Stateful _ _ Unit).run e (s, k)).2.1 = _
    cases hFault : s.fault with
    | true => exact (foldl_push_fault P hFault _).symm
    | false =>
      rw [if_neg Bool.false_ne_true, run_bind]
      have hWrite : (P.port.wr P.inData4 (packWord a b c d)).run e (s, k) =
          ((), P.write P.inData4 (packWord a b c d) s, k + 1) := by
        simp [CorePorts.port, hCalm]
      rw [hWrite, CorePorts.write, if_neg P.apart.1, if_pos rfl]
      cases hRoom : P.room s 4 with
      | true =>
        rw [if_pos rfl, foldl_push_word P hFault hRoom]
        apply ih
        exact (Nat.dvd_mod_iff P.aligned).mpr (Nat.dvd_add hPtr (Nat.dvd_refl 4))
      | false =>
        -- the pointer is aligned: there is no room for a byte either
        have hNone : P.room s 1 = false := by
          by_contra hOne
          rw [room_word P hPtr (by simpa using hOne)] at hRoom
          cases hRoom
        have hStop : ({ s with fault := true } : CoreIo).fault = true := rfl
        rw [if_neg Bool.false_ne_true]
        refine (ih { s with fault := true } (k + 1) hPtr).trans ?_
        rw [foldl_push_fault P hStop, List.foldl_cons, CorePorts.push, if_neg (by simp [hFault]),
          if_neg (by simp [hNone]), foldl_push_fault P hStop]
  | case2 rest hShort =>
    rw [feedPackedOver.eq_2 _ _ _ _ hShort]
    exact run_feedBytes P hCalm rest s k

theorem foldl_push_room {bs : Bytes} {s : CoreIo} (hFault : s.fault = false)
    (hRoom : P.room s bs.length = true) :
    (bs.foldl P.push s).taken = s.taken ++ bs ∧ (bs.foldl P.push s).fault = false := by
  induction bs generalizing s with
  | nil => exact ⟨by simp, hFault⟩
  | cons b bs ih =>
    rw [List.foldl_cons, push_eq P hFault hRoom]
    obtain ⟨hTaken, hClear⟩ := ih (s := P.acceptByte s b) hFault (room_acceptByte P hRoom b)
    refine ⟨?_, hClear⟩
    rw [hTaken]
    simp [CorePorts.acceptByte]

/-- After a fault the loops write nothing. -/
theorem run_feed_fault {s : CoreIo} (k : Nat) (bs : Bytes) (hFault : s.fault = true) :
    (feedBytesOver P.port P.inData bs).run e (s, k) = ((), s, k) ∧
      (feedPackedOver P.port P.inData4 P.inData bs).run e (s, k) = ((), s, k) := by
  have hBytes : ∀ bs, (feedBytesOver P.port P.inData bs).run e (s, k) = ((), s, k) := by
    intro bs
    cases bs with
    | nil => rfl
    | cons b bs =>
      change (if s.fault then pure () else _ : Stateful _ _ Unit).run e (s, k) = _
      rw [if_pos hFault]
      rfl
  refine ⟨hBytes bs, ?_⟩
  induction bs using feedPacked.induct with
  | case1 a b c d rest _ =>
    change (if s.fault then pure () else _ : Stateful _ _ Unit).run e (s, k) = _
    rw [if_pos hFault]
    rfl
  | case2 rest hShort =>
    rw [feedPackedOver.eq_2 _ _ _ _ hShort]
    exact hBytes rest

/-- The core has taken the bytes, or the access has failed and it has taken none. -/
def Presents (s : CoreIo) (bs : Bytes) (r : Unit × CoreIo × Nat) : Prop :=
  r.2.1.taken = s.taken ++ bs ∨ r.2.1.taken = s.taken ∧ r.2.1.fault = true

theorem wr_byte (s : CoreIo) (k : Nat) (b : UInt8) :
    Presents s [b] ((P.port.wr P.inData b.toUInt32).run e (s, k)) := by
  simp only [CorePorts.port, CorePorts.write]
  cases e.rejects k with
  | true => exact .inr ⟨rfl, rfl⟩
  | false =>
    cases hRoom : P.room s 1 with
    | true => exact .inl (by simp [CorePorts.acceptByte])
    | false => exact .inr (by simp)

theorem wr_word (s : CoreIo) (k : Nat) (a b c d : UInt8) :
    Presents s [a, b, c, d] ((P.port.wr P.inData4 (packWord a b c d)).run e (s, k)) := by
  simp only [CorePorts.port, CorePorts.write, P.apart.1]
  cases e.rejects k with
  | true => exact .inr ⟨rfl, rfl⟩
  | false =>
    cases hRoom : P.room s 4 with
    | true => exact .inl (by simp [acceptWord_eq, CorePorts.acceptByte])
    | false => exact .inr (by simp)

/-- What is presented is the front of the buffer, also where accesses fail. -/
theorem feedBytes_prefix (bs : Bytes) (s : CoreIo) (k : Nat) :
    ∃ pre, pre <+: bs ∧
      ((feedBytesOver P.port P.inData bs).run e (s, k)).2.1.taken = s.taken ++ pre := by
  induction bs generalizing s k with
  | nil => exact ⟨[], List.prefix_refl _, (List.append_nil _).symm⟩
  | cons b bs ih =>
    cases hFault : s.fault with
    | true =>
      rw [(run_feed_fault P k (b :: bs) hFault).1]
      exact ⟨[], List.nil_prefix, (List.append_nil _).symm⟩
    | false =>
      rw [feedBytesOver, run_bind]
      change ∃ pre, _ ∧ ((if s.fault then pure () else _ : Stateful _ _ Unit).run e (s, k)).2.1.taken = _
      rw [hFault, if_neg Bool.false_ne_true, run_bind]
      rcases wr_byte P s k b (e := e) with hTaken | ⟨hTaken, hStop⟩
      · obtain ⟨pre, hPre, hRest⟩ := ih _ _
        refine ⟨b :: pre, List.cons_prefix_cons.mpr ⟨rfl, hPre⟩, ?_⟩
        refine hRest.trans ?_
        rw [hTaken, List.append_assoc]
        rfl
      · refine ⟨[], List.nil_prefix, ?_⟩
        refine Eq.trans ?_ (hTaken.trans (List.append_nil _).symm)
        exact congrArg (·.2.1.taken) (run_feed_fault P _ bs hStop).1

theorem feedPacked_prefix (bs : Bytes) (s : CoreIo) (k : Nat) :
    ∃ pre, pre <+: bs ∧
      ((feedPackedOver P.port P.inData4 P.inData bs).run e (s, k)).2.1.taken = s.taken ++ pre := by
  induction bs using feedPacked.induct generalizing s k with
  | case1 a b c d rest ih =>
    cases hFault : s.fault with
    | true =>
      rw [(run_feed_fault P k (a :: b :: c :: d :: rest) hFault).2]
      exact ⟨[], List.nil_prefix, (List.append_nil _).symm⟩
    | false =>
      rw [feedPackedOver, run_bind]
      change ∃ pre, _ ∧ ((if s.fault then pure () else _ : Stateful _ _ Unit).run e (s, k)).2.1.taken = _
      rw [hFault, if_neg Bool.false_ne_true, run_bind]
      rcases wr_word P s k a b c d (e := e) with hTaken | ⟨hTaken, hStop⟩
      · obtain ⟨pre, hPre, hRest⟩ := ih _ _
        refine ⟨[a, b, c, d] ++ pre, (List.prefix_append_right_inj _).mpr hPre, ?_⟩
        refine hRest.trans ?_
        rw [hTaken, List.append_assoc]
      · refine ⟨[], List.nil_prefix, ?_⟩
        refine Eq.trans ?_ (hTaken.trans (List.append_nil _).symm)
        exact congrArg (·.2.1.taken) (run_feed_fault P _ rest hStop).2
  | case2 rest hShort =>
    rw [feedPackedOver.eq_2 _ _ _ _ hShort]
    exact feedBytes_prefix P rest s k

end Feeding

/-! ### Draining -/

section Draining

variable (P : CorePorts) {e : CoreEnv}

theorem length_storeAt {out bytes : Bytes} {i : Nat} (h : i + bytes.length ≤ out.length) :
    (storeAt out i bytes).length = out.length := by
  simp [storeAt]
  omega

theorem storeAt_storeAt {out xs ys : Bytes} {i : Nat} (h : i + xs.length ≤ out.length) :
    storeAt (storeAt out i xs) (i + xs.length) ys = storeAt out i (xs ++ ys) := by
  have hFront : (out.take i ++ xs).length = i + xs.length := by simp; omega
  rw [storeAt, storeAt, storeAt, List.take_left' hFront, drop_field hFront (by omega), List.drop_drop,
    List.length_append, ← List.append_assoc (out.take i)]
  congr 2
  omega

/-- What lies beyond the bytes that were stored stays. -/
theorem drop_storeAt {out bytes : Bytes} {i m : Nat} (h : i + bytes.length ≤ out.length)
    (hm : i + bytes.length ≤ m) : (storeAt out i bytes).drop m = out.drop m := by
  have hFront : (out.take i ++ bytes).length = i + bytes.length := by simp; omega
  rw [storeAt, drop_field hFront hm, List.drop_drop]
  congr 1
  omega

/-- The bytes of the output from the read pointer on. -/
def CorePorts.outBytes (s : CoreIo) (n : Nat) : Bytes := (List.range n).map (P.outByte s)

theorem outByte_moved (s : CoreIo) (j k : Nat) :
    P.outByte (s.passed j) k = P.outByte s (j + k) := by
  rw [CorePorts.outByte, CorePorts.outByte, CoreIo.passed, Nat.add_assoc]

theorem outBytes_add (s : CoreIo) (j n : Nat) :
    P.outBytes s (j + n) = P.outBytes s j ++ P.outBytes (s.passed j) n := by
  rw [CorePorts.outBytes, CorePorts.outBytes, CorePorts.outBytes, List.range_add, List.map_append,
    List.map_map]
  congr 1
  apply List.map_congr_left
  intro k _
  exact (outByte_moved P s j k).symm

@[simp] theorem length_outBytes (s : CoreIo) (n : Nat) : (P.outBytes s n).length = n := by
  simp [CorePorts.outBytes]

/-- The whole output that is asked for is in the buffer, and the read pointer has passed it. -/
def Drained (r : Bytes × CoreIo × Nat) (out : Bytes) (i n : Nat) (s : CoreIo) : Prop :=
  r.1 = storeAt out i (P.outBytes s n) ∧ r.2.1 = s.passed n

theorem run_drainBytes (hCalm : ∀ k, e.rejects k = false) {n i : Nat} {out : Bytes} {s : CoreIo}
    (k : Nat) (hFault : s.fault = false) (hOut : i + n ≤ out.length)
    (hLen : s.outPtr + n ≤ s.outLen) :
    Drained P ((drainBytesOver P.port P.outData out i n).run e (s, k)) out i n s := by
  induction n generalizing i out s k with
  | zero => exact ⟨by simp [storeAt, CorePorts.outBytes, drainBytesOver], rfl⟩
  | succ n ih =>
    have hRead : (P.port.rd P.outData).run e (s, k) =
        ((P.outByte s 0).toUInt32, s.passed 1, k + 1) := by
      simp [CorePorts.port, hCalm, CorePorts.read, show s.outPtr < s.outLen by omega]
    have hByte : (P.outByte s 0).toUInt32.toUInt8 = P.outByte s 0 := by simp
    rw [drainBytesOver, run_bind]
    change Drained P ((if s.fault then pure out else _ : Stateful _ _ Bytes).run e (s, k)) _ _ _ _
    rw [hFault, if_neg Bool.false_ne_true, run_bind, hRead, hByte]
    have hLen' : i + [P.outByte s 0].length ≤ out.length := by
      rw [List.length_singleton]
      omega
    have hMore : (s.passed 1).outPtr + n ≤ (s.passed 1).outLen := by
      change s.outPtr + 1 + n ≤ s.outLen
      omega
    have hRest := @ih (i + 1) (storeAt out i [P.outByte s 0]) (s.passed 1) (k + 1) hFault
      (by rw [length_storeAt hLen']; omega) hMore
    obtain ⟨hBuf, hCore⟩ := hRest
    constructor
    · rw [hBuf, Nat.add_comm n 1, outBytes_add]
      exact storeAt_storeAt hLen'
    · rw [hCore, CoreIo.passed_passed, Nat.add_comm]

theorem run_drainPacked (hCalm : ∀ k, e.rejects k = false) {n i : Nat} {out : Bytes} {s : CoreIo}
    (k : Nat) (hFault : s.fault = false) (hOut : i + n ≤ out.length)
    (hLen : s.outPtr + n ≤ s.outLen) :
    Drained P ((drainPackedOver P.port P.outData4 P.outData out i n).run e (s, k)) out i n s := by
  induction n using drainRead.induct generalizing i out s k with
  | case1 n ih =>
    change Drained P ((drainPackedOver P.port P.outData4 P.outData out i (n + 4)).run e (s, k)) out i
      (n + 4) s
    have hRead : (P.port.rd P.outData4).run e (s, k) =
        (packWord (P.outByte s 0) (P.outByte s 1) (P.outByte s 2) (P.outByte s 3),
          s.passed 4, k + 1) := by
      simp [CorePorts.port, hCalm, CorePorts.read, P.apart.2, show s.outPtr + 4 ≤ s.outLen by omega]
    obtain ⟨h0, h1, h2, h3⟩ :=
      packWord_bytes (P.outByte s 0) (P.outByte s 1) (P.outByte s 2) (P.outByte s 3)
    have hWord : [P.outByte s 0, P.outByte s 1, P.outByte s 2, P.outByte s 3] = P.outBytes s 4 := rfl
    rw [drainPackedOver, run_bind]
    change Drained P ((if s.fault then pure out else _ : Stateful _ _ Bytes).run e (s, k)) _ _ _ _
    rw [hFault, if_neg Bool.false_ne_true, run_bind, hRead, h0, h1, h2, h3, hWord]
    have hLen' : i + (P.outBytes s 4).length ≤ out.length := by
      rw [length_outBytes]
      omega
    have hMore : (s.passed 4).outPtr + n ≤ (s.passed 4).outLen := by
      change s.outPtr + 4 + n ≤ s.outLen
      omega
    have hRest := @ih (i + 4) (storeAt out i (P.outBytes s 4)) (s.passed 4) (k + 1) hFault
      (by rw [length_storeAt hLen']; omega) hMore
    obtain ⟨hBuf, hCore⟩ := hRest
    constructor
    · have hStore : storeAt (storeAt out i (P.outBytes s 4)) (i + (P.outBytes s 4).length)
          (P.outBytes (s.passed 4) n) = _ := storeAt_storeAt hLen'
      rw [length_outBytes, ← outBytes_add] at hStore
      rw [hBuf, hStore, Nat.add_comm]
    · rw [hCore, CoreIo.passed_passed, Nat.add_comm]
  | case2 n hShort =>
    rw [drainPackedOver.eq_2 _ _ _ _ _ _ hShort]
    exact run_drainBytes P hCalm k hFault hOut hLen

theorem run_drain_fault {s : CoreIo} (k n i : Nat) (out : Bytes) (hFault : s.fault = true) :
    (drainBytesOver P.port P.outData out i n).run e (s, k) = (out, s, k) ∧
      (drainPackedOver P.port P.outData4 P.outData out i n).run e (s, k) = (out, s, k) := by
  have hBytes : ∀ n, (drainBytesOver P.port P.outData out i n).run e (s, k) = (out, s, k) := by
    intro n
    cases n with
    | zero => rfl
    | succ n =>
      change ((if s.fault then pure out else _ : Stateful _ _ Bytes).run e (s, k)) = _
      rw [if_pos hFault]
      rfl
  refine ⟨hBytes n, ?_⟩
  induction n using drainRead.induct with
  | case1 n _ =>
    change ((if s.fault then pure out else _ : Stateful _ _ Bytes).run e (s, k)) = _
    rw [if_pos hFault]
    rfl
  | case2 n hShort =>
    rw [drainPackedOver.eq_2 _ _ _ _ _ _ hShort]
    exact hBytes n

end Draining

section Frame

variable {ε σ : Type} (hw : HwPort ε σ)

/-- The buffer keeps its length and what lies beyond the bytes that are asked for. -/
def KeepsBeyond (out : Bytes) (m : Nat) (r : Bytes) : Prop :=
  r.length = out.length ∧ r.drop m = out.drop m

theorem KeepsBeyond.store {out bytes r : Bytes} {i m : Nat} (h : KeepsBeyond (storeAt out i bytes) m r)
    (hOut : i + bytes.length ≤ out.length) (hm : i + bytes.length ≤ m) : KeepsBeyond out m r := by
  rw [KeepsBeyond, length_storeAt hOut, drop_storeAt hOut hm] at h
  exact h

theorem spec_drainBytes (reg1 : Nat) {out : Bytes} {i n : Nat} (h : i + n ≤ out.length) :
    Spec (fun _ => True) (drainBytesOver hw reg1 out i n) fun r _ => KeepsBeyond out (i + n) r := by
  induction n generalizing out i with
  | zero => exact spec_pure fun _ _ => ⟨rfl, rfl⟩
  | succ n ih =>
    rw [drainBytesOver]
    refine spec_bind (spec_any hw.fault) ?_
    intro fault
    apply spec_ite
    · intro _
      exact spec_pure fun _ _ => ⟨rfl, rfl⟩
    · intro _
      refine spec_bind (spec_any (hw.rd reg1)) ?_
      intro v
      have hStore : i + [v.toUInt8].length ≤ out.length := by
        rw [List.length_singleton]
        omega
      have hIn : i + 1 + n ≤ (storeAt out i [v.toUInt8]).length := by
        rw [length_storeAt hStore]
        omega
      refine (ih hIn).mono (fun _ h => h) fun r _ hr => ?_
      rw [Nat.add_assoc, Nat.add_comm 1 n] at hr
      exact hr.store hStore (by rw [List.length_singleton]; omega)

theorem spec_drainPacked (reg4 reg1 : Nat) {out : Bytes} {i n : Nat} (h : i + n ≤ out.length) :
    Spec (fun _ => True) (drainPackedOver hw reg4 reg1 out i n) fun r _ =>
      KeepsBeyond out (i + n) r := by
  induction n using drainRead.induct generalizing out i with
  | case1 n ih =>
    change Spec (fun _ => True) (drainPackedOver hw reg4 reg1 out i (n + 4)) fun r _ =>
      KeepsBeyond out (i + (n + 4)) r
    rw [drainPackedOver]
    refine spec_bind (spec_any hw.fault) ?_
    intro fault
    apply spec_ite
    · intro _
      exact spec_pure fun _ _ => ⟨rfl, rfl⟩
    · intro _
      refine spec_bind (spec_any (hw.rd reg4)) ?_
      intro v
      have hStore : i + [v.toUInt8, (v >>> 8).toUInt8, (v >>> 16).toUInt8, (v >>> 24).toUInt8].length
          ≤ out.length := by
        change i + 4 ≤ out.length
        omega
      refine (@ih _ (i + 4) ?_).mono (fun _ h => h) fun r _ hr => ?_
      · rw [length_storeAt hStore]
        omega
      · rw [Nat.add_assoc, Nat.add_comm 4 n] at hr
        exact hr.store hStore (by change i + 4 ≤ i + (n + 4); omega)
  | case2 n hShort =>
    rw [drainPackedOver.eq_2 _ _ _ _ _ _ hShort]
    exact spec_drainBytes hw reg1 h

end Frame

/-! ### The buffer of the daemon's model -/

section Buffer

variable (e : BusEnv)

theorem run_drainBytesOver (reg1 : Nat) {out : Bytes} {i n : Nat} (b : Bus) (h : i + n ≤ out.length) :
    (drainBytesOver busPort reg1 out i n).run e b =
      (storeAt out i ((drainBytes reg1 n).run e b).1, ((drainBytes reg1 n).run e b).2) := by
  induction n generalizing out i b with
  | zero => simp [drainBytesOver, drainBytes, storeAt]
  | succ n ih =>
    rw [drainBytesOver, drainBytes]
    change (if b.fault then pure out else _ : Stateful _ _ Bytes).run e b =
      (storeAt out i ((if b.fault then pure [] else _ : Stateful _ _ Bytes).run e b).1,
        ((if b.fault then pure [] else _ : Stateful _ _ Bytes).run e b).2)
    cases b.fault with
    | true => simp [storeAt]
    | false =>
      rw [if_neg Bool.false_ne_true, if_neg Bool.false_ne_true, run_bind, run_bind, run_bind]
      have hStore : i + [((rd reg1).run e b).1.toUInt8].length ≤ out.length := by
        rw [List.length_singleton]
        omega
      rw [ih _ (by rw [length_storeAt (by exact hStore)]; omega)]
      exact congrArg (·, _) (storeAt_storeAt hStore)

theorem run_drainPackedOver (reg4 reg1 : Nat) {out : Bytes} {i n : Nat} (b : Bus)
    (h : i + n ≤ out.length) :
    (drainPackedOver busPort reg4 reg1 out i n).run e b =
      (storeAt out i ((drainRead reg4 reg1 n).run e b).1, ((drainRead reg4 reg1 n).run e b).2) := by
  induction n using drainRead.induct generalizing out i b with
  | case1 n ih =>
    change (drainPackedOver busPort reg4 reg1 out i (n + 4)).run e b = (storeAt out i
      ((drainRead reg4 reg1 (n + 4)).run e b).1, ((drainRead reg4 reg1 (n + 4)).run e b).2)
    rw [drainPackedOver, drainRead]
    change (if b.fault then pure out else _ : Stateful _ _ Bytes).run e b =
      (storeAt out i ((if b.fault then pure [] else _ : Stateful _ _ Bytes).run e b).1,
        ((if b.fault then pure [] else _ : Stateful _ _ Bytes).run e b).2)
    cases b.fault with
    | true => simp [storeAt]
    | false =>
      rw [if_neg Bool.false_ne_true, if_neg Bool.false_ne_true, run_bind, run_bind, run_bind,
        ← putU32_eq]
      have hStore : i + (putU32 ((rd reg4).run e b).1).length ≤ out.length := by
        rw [length_putU32]
        omega
      have hStep : storeAt (storeAt out i (putU32 ((rd reg4).run e b).1))
          (i + (putU32 ((rd reg4).run e b).1).length)
          ((drainRead reg4 reg1 n).run e ((rd reg4).run e b).2).1 = _ := storeAt_storeAt hStore
      rw [length_putU32] at hStep
      refine (ih _ (by rw [length_storeAt (by exact hStore)]; omega)).trans ?_
      exact congrArg (·, _) hStep
  | case2 n hShort =>
    rw [drainPackedOver.eq_2 _ _ _ _ _ _ hShort, drainRead.eq_2 _ _ _ hShort]
    exact run_drainBytesOver e reg1 b h

/-- The bytes that the daemon's model returns are the buffer after the loop. -/
theorem drainPacked_eq (reg4 reg1 n : Nat) (b : Bus) :
    (drainPacked reg4 reg1 n).run e b =
      (drainPackedOver busPort reg4 reg1 ((List.range n).map e.stale) 0 n).run e b := by
  rw [run_drainPackedOver e reg4 reg1 b (by simp), drainPacked, run_bind, run_bind, run_read, run_pure]
  refine congrArg (·, _) ?_
  have hRange : ∀ m, (List.range n).drop m = (List.range (n - m)).map (m + ·) := by
    intro m
    apply List.ext_getElem <;> simp
  rw [storeAt, List.take_zero, List.nil_append, Nat.zero_add, ← List.map_drop, hRange, List.map_map]
  rfl

end Buffer

/-- Packed and byte-wise transfer agree. Where no access is rejected, the two ways of feeding present
the same bytes and leave the core in the same state, all bytes if there is room for them; the two
ways of draining return the same buffer when so much output is left, the output in its front. In any
case what is presented is the front of the input, and a buffer keeps what lies beyond the length. -/
theorem packed_agrees (P : CorePorts) (e : CoreEnv) (s : CoreIo) (k : Nat) :
    (∀ input : Bytes, ∃ pre, pre <+: input ∧
      ((feedPackedOver P.port P.inData4 P.inData input).run e (s, k)).2.1.taken = s.taken ++ pre) ∧
    (∀ input : Bytes, (∀ k, e.rejects k = false) → 4 ∣ s.inPtr →
      ((feedPackedOver P.port P.inData4 P.inData input).run e (s, k)).2.1 =
        ((feedBytesOver P.port P.inData input).run e (s, k)).2.1 ∧
      (s.fault = false → P.room s input.length = true →
        ((feedPackedOver P.port P.inData4 P.inData input).run e (s, k)).2.1.taken =
          s.taken ++ input)) ∧
    (∀ (out : Bytes) (n : Nat), (∀ k, e.rejects k = false) → n ≤ out.length →
      s.outPtr + n ≤ s.outLen →
      ((drainPackedOver P.port P.outData4 P.outData out 0 n).run e (s, k)).1 =
        ((drainBytesOver P.port P.outData out 0 n).run e (s, k)).1 ∧
      ((drainPackedOver P.port P.outData4 P.outData out 0 n).run e (s, k)).2.1 =
        ((drainBytesOver P.port P.outData out 0 n).run e (s, k)).2.1 ∧
      (s.fault = false →
        ((drainPackedOver P.port P.outData4 P.outData out 0 n).run e (s, k)).1 =
          P.outBytes s n ++ out.drop n)) ∧
    ∀ (out : Bytes) (n : Nat), n ≤ out.length →
      KeepsBeyond out n ((drainPackedOver P.port P.outData4 P.outData out 0 n).run e (s, k)).1 := by
  refine ⟨fun input => feedPacked_prefix P input s k, ?_, ?_, ?_⟩
  · intro input hCalm hPtr
    rw [run_feedPacked P hCalm input s k hPtr, run_feedBytes P hCalm]
    exact ⟨rfl, fun hFault hRoom => (foldl_push_room P hFault hRoom).1⟩
  · intro out n hCalm hOut hLen
    cases hFault : s.fault with
    | true =>
      obtain ⟨hBytes, hPacked⟩ := run_drain_fault P k n 0 out hFault (e := e)
      rw [hBytes, hPacked]
      exact ⟨rfl, rfl, fun h => absurd h (by simp)⟩
    | false =>
      have hOut' : 0 + n ≤ out.length := by omega
      obtain ⟨hBuf, hCore⟩ := run_drainPacked P hCalm k hFault hOut' hLen
      obtain ⟨hBuf', hCore'⟩ := run_drainBytes P hCalm k hFault hOut' hLen
      rw [hBuf, hBuf', hCore, hCore']
      refine ⟨rfl, rfl, fun _ => ?_⟩
      rw [storeAt, length_outBytes, List.take_zero, List.nil_append, Nat.zero_add]
  · intro out n hOut
    have hKeeps := @spec_drainPacked _ _ P.port P.outData4 P.outData out 0 n (by omega) e (s, k) trivial
    rwa [Nat.zero_add] at hKeeps

def calmCore : CoreEnv := ⟨fun _ => false⟩

/-- A core whose output has seven bytes. -/
def sevenOut : CoreIo := ⟨fun _ => 0, 0, 2560, UInt8.ofNat, 0, 7, false, []⟩

theorem packed_agrees_tail :
    ((feedPackedOver mldsaPorts.port MD_INDATA4 MD_INDATA [9, 8, 7, 6, 5]).run calmCore
      (sevenOut, 0)).2.1.taken = [9, 8, 7, 6, 5] ∧
    ((drainPackedOver mldsaPorts.port MD_OUTDAT4 MD_OUTDAT (List.replicate 9 255) 0 7).run calmCore
      (sevenOut, 0)).1 = [0, 1, 2, 3, 4, 5, 6, 255, 255] :=
  ⟨((packed_agrees mldsaPorts calmCore sevenOut 0).2.1 [9, 8, 7, 6, 5] (fun _ => rfl) (by decide)).2 rfl
      (by decide),
    (((packed_agrees mldsaPorts calmCore sevenOut 0).2.2.1 (List.replicate 9 255) 7 (fun _ => rfl)
      (by decide) (by decide)).2.2 rfl).trans (by decide)⟩

end PqcHsm
