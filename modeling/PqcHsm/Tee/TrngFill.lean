import PqcHsm.Library.ByteCodec

/-!
# Random words of the accelerator

`trng_fill` reads 32-bit words from the generator in the programmable logic until a buffer is full.
-/

namespace PqcHsm

open ByteCodec

def TEE_SUCCESS : UInt32 := 0
def TEE_ERROR_NO_DATA : UInt32 := 0xFFFF000B

/-- An answer to `PTA_PQCHSM_SEED_CMD_TRNG`: `a` is the word and `b` the status, where 9 is a
generator that is not ready. -/
structure TrngAnswer where
  res : UInt32
  a : UInt32
  b : UInt32

structure TrngFill where
  out : Bytes
  got : Nat
  tries : Nat
  /-- The answers so far. -/
  reads : Nat

def wordByte (w : UInt32) (k : Nat) : UInt8 := (w >>> UInt32.ofNat (8 * k)).toUInt8

namespace TrngFill

def read (s : TrngFill) : TrngFill := { s with reads := s.reads + 1 }

/-- The bytes of a word from `k` on, as far as the buffer takes them. -/
def store (w : UInt32) (k : Nat) (s : TrngFill) : TrngFill :=
  if k < 4 ∧ s.got < s.out.length then
    store w (k + 1) { s with out := s.out.set s.got (wordByte w k), got := s.got + 1 }
  else s
termination_by 4 - k

/-- What a word does to the buffer. -/
structure Stored (w : UInt32) (k : Nat) (s t : TrngFill) : Prop where
  length : t.out.length = s.out.length
  got : t.got = min (s.got + (4 - k)) s.out.length
  tries : t.tries = s.tries
  reads : t.reads = s.reads
  old : ∀ j < s.got, t.out[j]? = s.out[j]?
  new : ∀ j, s.got ≤ j → j < t.got → t.out[j]? = some (wordByte w (k + (j - s.got)))

theorem stored_store (s : TrngFill) (w : UInt32) (k : Nat) (hGot : s.got ≤ s.out.length) :
    Stored w k s (s.store w k) := by
  induction k, s using store.induct (w := w) with
  | case1 k s hMore ih =>
    obtain ⟨hk, hRoom⟩ := hMore
    have hStored := ih (by rw [List.length_set]; exact hRoom)
    rw [store, if_pos ⟨hk, hRoom⟩]
    constructor
    · rw [hStored.length, List.length_set]
    · rw [hStored.got, List.length_set]
      dsimp only
      omega
    · exact hStored.tries
    · exact hStored.reads
    · intro j hj
      rw [hStored.old j (Nat.lt_succ_of_lt hj)]
      exact List.getElem?_set_ne (Nat.ne_of_gt hj)
    · intro j hFrom hTo
      obtain rfl | hLater := Nat.eq_or_lt_of_le hFrom
      · rw [hStored.old s.got (Nat.lt_succ_self _), Nat.sub_self]
        exact List.getElem?_set_self hRoom
      · rw [hStored.new j hLater hTo]
        have hk : k + 1 + (j - (s.got + 1)) = k + (j - s.got) := by omega
        exact congrArg (fun i => some (wordByte w i)) hk
  | case2 k s hEnd =>
    rw [store, if_neg hEnd]
    constructor
    · rfl
    · omega
    · rfl
    · rfl
    · intro j _
      rfl
    · intro j hFrom hTo
      omega

end TrngFill

/-- The loop of `trng_fill`: its result, and where it stands at its end. -/
def trngLoop (answers : Nat → TrngAnswer) (s : TrngFill) : UInt32 × TrngFill :=
  if s.got < s.out.length then
    if (answers s.reads).res ≠ TEE_SUCCESS then ((answers s.reads).res, s.read)
    else if (answers s.reads).b = 9 ∧ s.tries < 2000 then
      trngLoop answers { s.read with tries := s.tries + 1 }
    else if (answers s.reads).b ≠ 0 then (TEE_ERROR_NO_DATA, s.read)
    else trngLoop answers (s.read.store (answers s.reads).a 0)
  else (TEE_SUCCESS, s)
termination_by (s.out.length - s.got) + (2000 - s.tries)
decreasing_by
  · change s.out.length - s.got + (2000 - (s.tries + 1)) < _
    omega
  · have hStored := s.read.stored_store (answers s.reads).a 0 (Nat.le_of_lt ‹_›)
    rw [hStored.length, hStored.got, hStored.tries]
    change s.out.length - min (s.got + 4) s.out.length + (2000 - s.tries) < _
    omega

structure TrngFilled where
  res : UInt32
  out : Bytes
  /-- The commands that were invoked. -/
  reads : Nat

/-- `trng_fill`, given the result of opening the session, the answers and the buffer. -/
def trngFill (opened : UInt32) (answers : Nat → TrngAnswer) (out : Bytes) : TrngFilled :=
  if opened ≠ TEE_SUCCESS then ⟨opened, out, 0⟩
  else
    let o := trngLoop answers ⟨out, 0, 0, 0⟩
    if o.1 ≠ TEE_SUCCESS then ⟨o.1, List.replicate out.length 0, o.2.reads⟩
    else ⟨o.1, o.2.out, o.2.reads⟩

/-- These answers gave the words of the first `got` bytes, each of them once and in order. -/
structure GivenBy (answers : Nat → TrngAnswer) (used : List Nat) (reads got : Nat) (out : Bytes) :
    Prop where
  once : used.Pairwise (· < ·)
  ready : ∀ i ∈ used, i < reads ∧ (answers i).res = TEE_SUCCESS ∧ (answers i).b = 0
  bytes : ∀ j < got, ∃ i, used[j / 4]? = some i ∧ out[j]? = some (wordByte (answers i).a (j % 4))

/-- It reads no more often than there are words and polls; the buffer is full, or zero. -/
structure FillsOrZeroes (answers : Nat → TrngAnswer) (len : Nat) (o : TrngFilled) : Prop where
  length : o.out.length = len
  ends : o.reads ≤ (len + 3) / 4 + 2000
  filled : o.res = TEE_SUCCESS → ∃ used, GivenBy answers used o.reads len o.out
  zeroed : o.res ≠ TEE_SUCCESS → o.out = List.replicate len 0

/-! ### The loop -/

/-- At the head of the loop every answer was a word that is used or a poll that counts. -/
structure TrngFill.Filling (answers : Nat → TrngAnswer) (len : Nat) (s : TrngFill) (used : List Nat) :
    Prop where
  length : s.out.length = len
  got : s.got = min (4 * used.length) len
  words : used.length ≤ (len + 3) / 4
  polls : s.tries ≤ 2000
  reads : s.reads = used.length + s.tries
  given : GivenBy answers used s.reads s.got s.out

section Loop

variable {answers : Nat → TrngAnswer} {len : Nat} {s : TrngFill} {used : List Nat}

theorem GivenBy.later {reads got : Nat} {out : Bytes} (hGiven : GivenBy answers used reads got out) :
    GivenBy answers used (reads + 1) got out := by
  constructor
  · exact hGiven.once
  · intro i hi
    obtain ⟨hBefore, hReady⟩ := hGiven.ready i hi
    exact ⟨Nat.lt_succ_of_lt hBefore, hReady⟩
  · exact hGiven.bytes

theorem TrngFill.Filling.poll (hFilling : s.Filling answers len used) (hPoll : s.tries < 2000) :
    TrngFill.Filling answers len { s.read with tries := s.tries + 1 } used := by
  constructor
  · exact hFilling.length
  · exact hFilling.got
  · exact hFilling.words
  · exact hPoll
  · exact congrArg (· + 1) hFilling.reads
  · exact hFilling.given.later

theorem TrngFill.Filling.word (hFilling : s.Filling answers len used) (hMore : s.got < s.out.length)
    (hRes : (answers s.reads).res = TEE_SUCCESS) (hStatus : (answers s.reads).b = 0) :
    TrngFill.Filling answers len
      (s.read.store (answers s.reads).a 0) (used ++ [s.reads]) := by
  obtain ⟨hLength, hGot, hWords, hPolls, hReads, hGiven⟩ := hFilling
  have hStored := s.read.stored_store (answers s.reads).a 0 (Nat.le_of_lt hMore)
  have hWhole : s.got = 4 * used.length := by omega
  have hNext : (used ++ [s.reads]).length = used.length + 1 := List.length_append
  constructor
  · exact hStored.length.trans hLength
  · rw [hStored.got, hNext]
    change min (s.got + 4) s.out.length = _
    omega
  · omega
  · exact Nat.le_trans (Nat.le_of_eq hStored.tries) hPolls
  · rw [hStored.reads, hStored.tries, hNext]
    change s.reads + 1 = _ + s.tries
    omega
  · constructor
    · rw [List.pairwise_append]
      refine ⟨hGiven.once, List.pairwise_singleton _ _, ?_⟩
      intro i hi j hj
      rw [List.mem_singleton.mp hj]
      exact (hGiven.ready i hi).1
    · intro i hi
      rw [hStored.reads]
      obtain hOld | hNew := List.mem_append.mp hi
      · exact hGiven.later.ready i hOld
      · rw [List.mem_singleton.mp hNew]
        exact ⟨Nat.lt_succ_self _, hRes, hStatus⟩
    · intro j hj
      obtain hOld | hNew := Nat.lt_or_ge j s.got
      · obtain ⟨i, hi, hByte⟩ := hGiven.bytes j hOld
        refine ⟨i, ?_, (hStored.old j hOld).trans hByte⟩
        rw [List.getElem?_append_left (by omega)]
        exact hi
      · have hLast : j / 4 = used.length ∧ j - s.got = j % 4 := by
          have hTo := hStored.got ▸ hj
          change j < min (s.got + 4) s.out.length at hTo
          omega
        refine ⟨s.reads, ?_, ?_⟩
        · rw [hLast.1, List.getElem?_concat_length]
        · rw [hStored.new j hNew hj]
          change some (wordByte _ (0 + (j - s.got))) = _
          rw [hLast.2, Nat.zero_add]

/-- Where the loop ends: before the last word on an error, behind it otherwise. -/
theorem trngLoop_ends (hFilling : s.Filling answers len used) :
    (trngLoop answers s).2.out.length = len ∧
      (trngLoop answers s).2.reads ≤ (len + 3) / 4 + 2000 ∧
      ((trngLoop answers s).1 = TEE_SUCCESS → ∃ used', GivenBy answers used'
        (trngLoop answers s).2.reads len (trngLoop answers s).2.out) := by
  induction s using trngLoop.induct answers generalizing used with
  | case1 s hMore hRes =>
    obtain ⟨hLength, hGot, hWords, hPolls, hReads, -⟩ := hFilling
    rw [trngLoop, if_pos hMore, if_pos hRes]
    refine ⟨hLength, ?_, fun hOk => absurd hOk hRes⟩
    change s.reads + 1 ≤ _
    omega
  | case2 s hMore hRes hWait ih =>
    rw [trngLoop, if_pos hMore, if_neg hRes, if_pos hWait]
    exact ih (hFilling.poll hWait.2)
  | case3 s hMore hRes hWait hStatus =>
    obtain ⟨hLength, hGot, hWords, hPolls, hReads, -⟩ := hFilling
    rw [trngLoop, if_pos hMore, if_neg hRes, if_neg hWait, if_pos hStatus]
    refine ⟨hLength, ?_, fun hOk : TEE_ERROR_NO_DATA = TEE_SUCCESS => absurd hOk (by decide)⟩
    change s.reads + 1 ≤ _
    omega
  | case4 s hMore hRes hWait hStatus ih =>
    rw [trngLoop, if_pos hMore, if_neg hRes, if_neg hWait, if_neg hStatus]
    exact ih (hFilling.word hMore (Classical.not_not.mp hRes) (Classical.not_not.mp hStatus))
  | case5 s hEnd =>
    obtain ⟨hLength, hGot, hWords, hPolls, hReads, hGiven⟩ := hFilling
    rw [trngLoop, if_neg hEnd]
    refine ⟨hLength, ?_, fun _ => ⟨used, ?_⟩⟩
    · dsimp only
      omega
    · have hFull : s.got = len := by omega
      rwa [hFull] at hGiven

end Loop

/-- Exactly a session that does not open leaves the buffer as it was. -/
theorem trngFill_iff (opened : UInt32) (answers : Nat → TrngAnswer) (out : Bytes) :
    FillsOrZeroes answers out.length (trngFill opened answers out) ↔
      opened = TEE_SUCCESS ∨ out = List.replicate out.length 0 := by
  by_cases hOpen : opened = TEE_SUCCESS
  · have hStart : TrngFill.Filling answers out.length ⟨out, 0, 0, 0⟩ [] := by
      constructor
      · rfl
      · exact (Nat.zero_min _).symm
      · exact Nat.zero_le _
      · exact Nat.zero_le _
      · rfl
      · exact ⟨.nil, fun i hi => absurd hi List.not_mem_nil, fun j hj => absurd hj (Nat.not_lt_zero j)⟩
    obtain ⟨hLength, hEnds, hFilled⟩ := trngLoop_ends hStart
    refine iff_of_true ?_ (.inl hOpen)
    rw [trngFill, if_neg (fun hRefused => hRefused hOpen)]
    dsimp only
    split
    · rename_i hFailed
      constructor
      · exact List.length_replicate
      · exact hEnds
      · exact fun hOk => absurd hOk hFailed
      · exact fun _ => rfl
    · rename_i hOk
      constructor
      · exact hLength
      · exact hEnds
      · exact hFilled
      · exact fun hFailed => absurd hFailed hOk
  · have hRefused : trngFill opened answers out = ⟨opened, out, 0⟩ := by
      rw [trngFill, if_pos hOpen]
    rw [hRefused]
    constructor
    · intro hFills
      exact .inr (hFills.zeroed hOpen)
    · rintro (hOk | hZero)
      · exact absurd hOk hOpen
      · exact ⟨rfl, Nat.zero_le _, fun hOk => absurd hOk hOpen, fun _ => hZero⟩

/-- A session is refused, and the buffer keeps its byte. -/
theorem trngFill_refused :
    ¬FillsOrZeroes (fun _ => ⟨0, 0, 0⟩) 1 (trngFill 0xFFFF0008 (fun _ => ⟨0, 0, 0⟩) [0x5a]) := by
  intro hFills
  exact absurd (hFills.zeroed (by decide)) (by decide)

end PqcHsm
