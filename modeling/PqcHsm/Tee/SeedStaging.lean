import PqcHsm.Tee.SymVault

/-!
# New keys and their blobs

The command for a new seed pushes it into the accelerator word by word and seals it afterwards. The
command for a new symmetric key seals it first.
-/

namespace PqcHsm

open ByteCodec Wrap

/-! ### The staging port -/

/-- A word for the port of an accelerator, which is full with `cap` words. -/
def stageWord (cap : Nat) (staged : List (BitVec 32)) (w : BitVec 32) : List (BitVec 32) :=
  if staged.length < cap then staged ++ [w] else staged

/-- A call for one word: its error, and the port. -/
def seedCall (fate : SymFate) (cap : Nat) (staged : List (BitVec 32)) (w : BitVec 32) :
    Option UInt32 × List (BitVec 32) :=
  match fate with
  | .answered => (none, stageWord cap staged w)
  | .lost code => (some code, staged)
  | .unheard code => (some code, stageWord cap staged w)

/-- The word loop of `seed_push`. -/
def seedCalls (call : Nat → SymFate) (cap : Nat) :
    List (BitVec 32) → Nat → List (BitVec 32) → Option UInt32 × List (BitVec 32)
  | [], _, staged => (none, staged)
  | w :: ws, i, staged =>
    match seedCall (call i) cap staged w with
    | (some code, staged) => (some code, staged)
    | (none, staged) => seedCalls call cap ws (i + 1) staged

/-- What becomes of opening the session of a push and of its calls. -/
structure SeedPush where
  session : Option UInt32
  call : Nat → SymFate

/-- A word of a seed, from its first byte up. -/
def seedWord (seed : Bytes) (i : Nat) : BitVec 32 :=
  (seed.getD (4 * i + 3) 0).toBitVec ++ (seed.getD (4 * i + 2) 0).toBitVec ++
    (seed.getD (4 * i + 1) 0).toBitVec ++ (seed.getD (4 * i) 0).toBitVec

/-- `seed_push`. -/
def seedPushOn (y : SeedPush) (words : Nat) (staged : List (BitVec 32)) (seed : Bytes) :
    Option UInt32 × List (BitVec 32) :=
  match y.session with
  | some code => (some code, staged)
  | none => seedCalls y.call words ((List.range words).map (seedWord seed)) 0 staged

section Commands

variable (T : TaLib) (st : TaState) (e : TaEnv)

/-- The seed that the command pushes, if it comes so far, and its words. -/
def newSeed (tgt : UInt32) : Option (Nat × Bytes) :=
  match seedWords tgt, st.gKek, e.entropy with
  | some (words, nbytes), some _, .ok entropy =>
    some (words.toNat, (ofStream nbytes entropy).toList)
  | _, _, _ => none

/-- The command for a new seed, on the port of its target. -/
def seedNewOn (y : SeedPush) (tgt : UInt32) (cap : Nat) (staged : List (BitVec 32)) :
    TaOut × List (BitVec 32) :=
  match newSeed st e tgt with
  | none => (seedNewOrToPl T st e tgt (some cap), staged)
  | some (words, seed) =>
    let pushed := seedPushOn y words staged seed
    (seedNewOrToPl T st { e with push := pushed.1 } tgt (some cap), pushed.2)

/-- The command for a new symmetric key, on the vault. -/
def symkeyNewOn (x : PushEnv) (slot : UInt32) (len cap : Nat) (vault : VaultPast) :
    TaOut × VaultPast :=
  match (TaCmd.symkeyNew slot len cap).push T st e with
  | none => (cmdSymkeyNew T st e slot len cap, vault)
  | some (_, key) =>
    let pushed := symPushOn x vault slot key
    (cmdSymkeyNew T st { e with push := pushed.1 } slot len cap, pushed.2)

end Commands

/-- Success comes with a blob; a failure leaves nothing in the hardware, and nothing in the buffer
for the blob. -/
def TaOut.Kept (out : TaOut) (leftOver : Prop) : Prop :=
  if out.rc = .success then ∃ blob, out.written = [(1, blob)]
  else ¬leftOver ∧ out.written = []

section Seeds

variable {T : TaLib} {st : TaState} {e : TaEnv} {y : SeedPush} {tgt : UInt32} {cap : Nat}
  {staged : List (BitVec 32)}

/-! ### The push of a seed -/

/-- A word of the seed gets into the port. -/
def SeedPush.Begins (y : SeedPush) (words : Nat) (staged : List (BitVec 32)) : Prop :=
  y.session = none ∧ (∀ code, y.call 0 ≠ .lost code) ∧ staged.length < words

/-- The whole push is answered. -/
def SeedPush.Ends (y : SeedPush) (words : Nat) : Prop :=
  y.session = none ∧ ∀ i < words, y.call i = .answered

theorem length_stageWord (cap : Nat) (staged : List (BitVec 32)) (w : BitVec 32) :
    staged.length ≤ (stageWord cap staged w).length := by
  rw [stageWord]
  split
  · rw [List.length_append]
    exact Nat.le_add_right _ _
  · exact Nat.le_refl _

theorem length_seedCalls (call : Nat → SymFate) (cap : Nat) (ws : List (BitVec 32)) (i : Nat)
    (staged : List (BitVec 32)) : staged.length ≤ (seedCalls call cap ws i staged).2.length := by
  induction ws generalizing i staged with
  | nil => exact Nat.le_refl _
  | cons w ws ih =>
    have hFirst := length_stageWord cap staged w
    rw [seedCalls]
    cases hFate : call i with
    | answered => exact Nat.le_trans hFirst (ih (i + 1) _)
    | lost code => exact Nat.le_refl _
    | unheard code => exact hFirst

theorem seedCalls_answered (call : Nat → SymFate) (cap : Nat) (ws : List (BitVec 32)) (i : Nat)
    (staged : List (BitVec 32)) :
    (seedCalls call cap ws i staged).1 = none ↔ ∀ j < ws.length, call (i + j) = .answered := by
  induction ws generalizing i staged with
  | nil => simp [seedCalls]
  | cons w ws ih =>
    rw [seedCalls]
    constructor
    · intro hNone j hj
      cases hFate : call i with
      | lost code => simp [seedCall, hFate] at hNone
      | unheard code => simp [seedCall, hFate] at hNone
      | answered =>
        simp only [seedCall, hFate] at hNone
        cases j with
        | zero => exact hFate
        | succ j =>
          have hLater := (ih (i + 1) _).mp hNone j (Nat.lt_of_succ_lt_succ hj)
          rwa [Nat.add_assoc, Nat.add_comm 1 j] at hLater
    · intro hAll
      have hFate : call i = .answered := hAll 0 (Nat.zero_lt_succ _)
      simp only [seedCall, hFate]
      apply (ih (i + 1) _).mpr
      intro j hj
      rw [Nat.add_assoc, Nat.add_comm 1 j]
      exact hAll (j + 1) (Nat.succ_lt_succ hj)

/-- A push without an error is one whose calls are all answered. -/
theorem seedPushOn_ends (y : SeedPush) (words : Nat) (staged : List (BitVec 32)) (seed : Bytes) :
    (seedPushOn y words staged seed).1 = none ↔ y.Ends words := by
  rw [seedPushOn, SeedPush.Ends]
  cases hSession : y.session with
  | some code => simp
  | none =>
    simp only [seedCalls_answered, List.length_map, List.length_range, Nat.zero_add, true_and]

theorem seedCalls_full {cap : Nat} (hFull : ¬staged.length < cap) (call : Nat → SymFate)
    (ws : List (BitVec 32)) (i : Nat) : (seedCalls call cap ws i staged).2 = staged := by
  have hSame (w : BitVec 32) : stageWord cap staged w = staged := if_neg hFull
  induction ws generalizing i with
  | nil => rfl
  | cons w ws ih =>
    rw [seedCalls]
    cases hFate : call i with
    | answered =>
      simp only [seedCall, hSame]
      exact ih (i + 1)
    | lost code => rfl
    | unheard code => exact hSame w

/-- Something gets into the port exactly if the first word does. -/
theorem seedPushOn_begins (y : SeedPush) {words : Nat} (hWords : 0 < words)
    (staged : List (BitVec 32)) (seed : Bytes) :
    (seedPushOn y words staged seed).2 ≠ staged ↔ y.Begins words staged := by
  obtain ⟨k, rfl⟩ := Nat.exists_eq_succ_of_ne_zero (Nat.ne_of_gt hWords)
  rw [seedPushOn, SeedPush.Begins]
  cases hSession : y.session with
  | some code => simp
  | none =>
    by_cases hRoom : staged.length < k.succ
    · have hAdded (w : BitVec 32) : staged.length < (stageWord k.succ staged w).length := by
        rw [stageWord, if_pos hRoom, List.length_append]
        exact Nat.lt_succ_self _
      rw [List.range_succ_eq_map, List.map_cons]
      simp only [seedCalls]
      cases hFate : y.call 0 with
      | lost code => simp [seedCall]
      | unheard code =>
        simp only [seedCall, reduceCtorEq, not_false_eq_true, implies_true, hRoom, and_self,
          iff_true, ne_eq]
        intro hSame
        have hLess := hAdded (seedWord seed 0)
        rw [hSame] at hLess
        exact Nat.lt_irrefl _ hLess
      | answered =>
        simp only [seedCall, reduceCtorEq, not_false_eq_true, implies_true, hRoom, and_self,
          iff_true, ne_eq]
        intro hSame
        have hLess := Nat.lt_of_lt_of_le (hAdded (seedWord seed 0))
          (length_seedCalls y.call k.succ (((List.range k).map Nat.succ).map (seedWord seed)) 1 _)
        rw [hSame] at hLess
        exact Nat.lt_irrefl _ hLess
    · simp only [seedCalls_full hRoom, ne_eq, not_true_eq_false, hRoom, and_false]

/-! ### The command for a seed -/

theorem isSome_seal {kek : ByteVec PQC_KEK_LEN} {seed : Bytes} (hShort : seed.length ≤ 64) :
    (∃ blob, taWrapSeal T.backend T.gcm e.lib kek (.null 0) (.mem seed) e.nonce cap = some blob) ↔
      e.lib = true ∧ taWrapBlobLen seed.length ≤ cap := by
  constructor
  · rintro ⟨blob, hBlob⟩
    have hLib := lib_of_taWrapSeal hBlob
    rw [taWrapSeal_eq, hLib] at hBlob
    obtain ⟨-, -, hBounds, -⟩ := pqcWrapWithNonce_eq_some_iff.mp hBlob
    exact ⟨hLib, hBounds.room⟩
  · rintro ⟨hLib, hRoom⟩
    have hLength : (Span.mem seed).len < 2 ^ 31 := by
      change seed.length < 2 ^ 31
      omega
    rw [taWrapSeal_eq, hLib]
    exact ⟨_, pqcWrapWithNonce_eq_some_iff.mpr
      ⟨kek, kekOf_toList kek, ⟨rfl, rfl, by decide, hLength, hRoom⟩, rfl⟩⟩

theorem newSeed_some {words : Nat} {seed : Bytes} (h : newSeed st e tgt = some (words, seed)) :
    0 < words ∧ seed.length ≤ 64 ∧ ∃ w nbytes kek entropy, seedWords tgt = some (w, nbytes) ∧
      st.gKek = some kek ∧ e.entropy = .ok entropy ∧ seed = (ofStream nbytes entropy).toList := by
  unfold newSeed at h
  split at h
  · rename_i w nbytes kek entropy hWords hKek hEntropy
    cases h
    refine ⟨?_, ?_, w, nbytes, kek, entropy, hWords, hKek, hEntropy, rfl⟩
    · unfold seedWords at hWords
      split at hWords
      · cases hWords
        decide
      · split at hWords
        · cases hWords
          decide
        · cases hWords
    · rw [length_stream]
      unfold seedWords at hWords
      split at hWords
      · cases hWords
        decide
      · split at hWords
        · cases hWords
          decide
        · cases hWords
  · cases h

/-- Without a push, nothing is written and nothing succeeds. -/
theorem seedNew_none (h : newSeed st e tgt = none) :
    (seedNewOrToPl T st e tgt (some cap)).rc ≠ .success ∧
      (seedNewOrToPl T st e tgt (some cap)).written = [] := by
  unfold newSeed at h
  unfold seedNewOrToPl
  cases hWords : seedWords tgt with
  | none => exact ⟨nofun, rfl⟩
  | some p =>
    cases hKek : st.gKek with
    | none => exact ⟨nofun, rfl⟩
    | some kek =>
      cases hEntropy : e.entropy with
      | error code => exact ⟨nofun, rfl⟩
      | ok entropy =>
        rw [hWords, hKek, hEntropy] at h
        cases h

/-- With one, the result is that of the push, and then that of the sealing. -/
theorem seedNew_some {words : Nat} {seed : Bytes} (h : newSeed st e tgt = some (words, seed))
    (err : Option UInt32) :
    let out := seedNewOrToPl T st { e with push := err } tgt (some cap)
    (err = none ∧ e.lib = true ∧ taWrapBlobLen seed.length ≤ cap →
      out.rc = .success ∧ ∃ blob, out.written = [(1, blob)]) ∧
    (¬(err = none ∧ e.lib = true ∧ taWrapBlobLen seed.length ≤ cap) →
      out.rc ≠ .success ∧ out.written = []) := by
  obtain ⟨-, hShort, w, nbytes, kek, entropy, hWords, hKek, hEntropy, rfl⟩ := newSeed_some h
  have hSeal := @isSome_seal T e cap kek _ hShort
  cases err with
  | some code =>
    have hOut : seedNewOrToPl T st { e with push := some code } tgt (some cap) =
        { rc := .other code } := by
      simp only [seedNewOrToPl, hWords, hKek, hEntropy, TaEnv.pushResult, Option.elim_some]
    rw [hOut]
    exact ⟨nofun, fun _ => ⟨nofun, rfl⟩⟩
  | none =>
    cases hBlob : taWrapSeal T.backend T.gcm e.lib kek (.null 0)
        (.mem (ofStream nbytes entropy).toList) e.nonce cap with
    | none =>
      have hOut : seedNewOrToPl T st { e with push := none } tgt (some cap) =
          { rc := .shortBuffer } := by
        simp only [seedNewOrToPl, hWords, hKek, hEntropy, TaEnv.pushResult, Option.elim_none, hBlob]
      rw [hOut]
      refine ⟨?_, fun _ => ⟨nofun, rfl⟩⟩
      rintro ⟨-, hBoth⟩
      obtain ⟨blob, hSome⟩ := hSeal.mpr hBoth
      rw [hBlob] at hSome
      cases hSome
    | some blob =>
      have hBoth := hSeal.mp ⟨blob, hBlob⟩
      have hOut : (seedNewOrToPl T st { e with push := none } tgt (some cap)).rc = .success ∧
          (seedNewOrToPl T st { e with push := none } tgt (some cap)).written = [(1, blob)] := by
        simp only [seedNewOrToPl, hWords, hKek, hEntropy, TaEnv.pushResult, Option.elim_none, hBlob]
        exact ⟨trivial, trivial⟩
      exact ⟨fun _ => ⟨hOut.1, blob, hOut.2⟩, fun hNot => absurd ⟨rfl, hBoth⟩ hNot⟩

/-- A seed is kept with its blob, or it does not get into the port. -/
theorem seedNew_kept_iff (T : TaLib) (st : TaState) (e : TaEnv) (y : SeedPush) (tgt : UInt32)
    (cap : Nat) (staged : List (BitVec 32)) :
    (seedNewOn T st e y tgt cap staged).1.Kept ((seedNewOn T st e y tgt cap staged).2 ≠ staged) ↔
      ∀ words seed, newSeed st e tgt = some (words, seed) → y.Begins words staged →
        y.Ends words ∧ e.lib = true ∧ taWrapBlobLen seed.length ≤ cap := by
  unfold seedNewOn TaOut.Kept
  cases hSeed : newSeed st e tgt with
  | none =>
    obtain ⟨hRc, hWritten⟩ := @seedNew_none T st e tgt cap hSeed
    simp [hRc, hWritten]
  | some p =>
    obtain ⟨words, seed⟩ := p
    have hEnds := seedPushOn_ends y words staged seed
    have hBegins := seedPushOn_begins y (newSeed_some hSeed).1 staged seed
    have hOut := @seedNew_some T st e tgt cap _ _ hSeed (seedPushOn y words staged seed).1
    dsimp only at hOut ⊢
    rw [hEnds] at hOut
    rw [hBegins]
    by_cases hAll : y.Ends words ∧ e.lib = true ∧ taWrapBlobLen seed.length ≤ cap
    · obtain ⟨hRc, hBlob⟩ := hOut.1 hAll
      rw [if_pos hRc]
      constructor
      · intro _ words' seed' hSame _
        cases hSame
        exact hAll
      · intro _
        exact hBlob
    · obtain ⟨hRc, hWritten⟩ := hOut.2 hAll
      rw [if_neg hRc]
      constructor
      · intro hKept words' seed' hSame hBegin
        cases hSame
        exact absurd hBegin hKept.1
      · intro hGoes
        exact ⟨fun hBegin => hAll (hGoes words seed rfl hBegin), hWritten⟩

end Seeds

/-! ### The push of a symmetric key -/

/-- A call that is answered, by a vault that has not been wiped. -/
def SymCall.Quiet (c : SymCall) : Prop := c.fate = .answered ∧ c.wiped = false

/-- The push of a key succeeds: all its calls are answered, no wipe comes once a word is in, and a
locked slot is wiped before. -/
def PushEnv.Goes (x : PushEnv) (v : VaultSlot) : Prop :=
  x.session = none ∧ (x.call 0).fate = .answered ∧ (x.call 1).fate = .answered ∧
    (∀ j < 8, (x.call (2 + j)).Quiet) ∧
    (v.locked = true → (x.call 0).wiped = true ∨ (x.call 1).wiped = true)

section Keys

variable {T : TaLib} {st : TaState} {e : TaEnv} {x : PushEnv} {p : VaultPast} {slot : BitVec 3}

theorem symOp_none {c : SymCall} {op : SymOp} :
    (symOp c p slot op).1 = none ↔
      c.fate = .answered ∧ (pqcSymkey (if c.wiped then p.wipe else p) slot op).1 = true := by
  rw [symOp]
  cases c.fate with
  | answered => simp
  | lost code => simp
  | unheard code => simp

theorem symOps_cons {call : Nat → SymCall} {op : SymOp} {ops : List SymOp} {i : Nat} :
    (symOps call slot (op :: ops) i p).1 = none ↔
      (symOp (call i) p slot op).1 = none ∧
        (symOps call slot ops (i + 1) (symOp (call i) p slot op).2).1 = none := by
  rw [symOps]
  split
  · rename_i hOp
    simp [hOp]
  · rename_i hOp
    simp [hOp]

/-- An answered call leaves what EL3 makes of the vault. -/
theorem symOp_answered {c : SymCall} {op : SymOp} (hFate : c.fate = .answered) :
    (symOp c p slot op).2 = (pqcSymkey (if c.wiped then p.wipe else p) slot op).2 := by
  simp only [symOp, hFate]

theorem commit_iff {a : VaultSlot} (hOpen : a.committed = false) :
    (a.after .commit).committed = true ↔ a.words.length = 8 := by
  have hLock : a.locked = false := by
    cases hLock : a.locked with
    | false => rfl
    | true => exact absurd (a.sealed hLock) (by simp [hOpen])
  constructor
  · exact (after_commit hLock hOpen).2.2
  · intro hLen
    simp [VaultSlot.after, VaultSlot.step, hLen, hLock]

/-- The words that are still to come fill the slot exactly if none is lost and nothing is wiped. -/
theorem symOps_fill {call : Nat → SymCall} {ws : List (BitVec 32)} {i : Nat}
    (hOpen : (p.now slot).committed = false) (hFew : ws.length < 8) :
    (symOps call slot (ws.map SymOp.word ++ [.commit]) i p).1 = none ↔
      (∀ j < ws.length + 1, (call (i + j)).Quiet) ∧ (p.now slot).words.length + ws.length = 8 := by
  induction ws generalizing i p with
  | nil =>
    have hOne : (∀ j < 1, (call (i + j)).Quiet) ↔ (call i).Quiet := by
      constructor
      · exact fun h => h 0 Nat.zero_lt_one
      · rintro h j hj
        rw [Nat.lt_one_iff.mp hj]
        exact h
    simp only [List.map_nil, List.nil_append, List.length_nil, Nat.zero_add, Nat.add_zero, hOne]
    rw [symOps_cons, symOp_none, SymCall.Quiet]
    simp only [symOps, and_true, pqcSymkey, VaultPast.act_now]
    cases hWiped : (call i).wiped with
    | true =>
      have hEmpty : ((p.wipe.now slot).after .commit).committed = false := rfl
      simp [hEmpty]
    | false => simp [commit_iff hOpen]
  | cons w ws ih =>
    rw [List.length_cons] at hFew
    have hSplit : (∀ j < ws.length + 1 + 1, (call (i + j)).Quiet) ↔
        (call i).Quiet ∧ ∀ j < ws.length + 1, (call (i + 1 + j)).Quiet := by
      constructor
      · intro h
        refine ⟨h 0 (Nat.zero_lt_succ _), fun j hj => ?_⟩
        rw [Nat.add_assoc, Nat.add_comm 1 j]
        exact h (j + 1) (Nat.succ_lt_succ hj)
      · rintro ⟨hFirst, hRest⟩ j hj
        cases j with
        | zero => exact hFirst
        | succ j =>
          have hLater := hRest j (Nat.lt_of_succ_lt_succ hj)
          rwa [Nat.add_assoc, Nat.add_comm 1 j] at hLater
    simp only [List.map_cons, List.cons_append, List.length_cons, hSplit]
    rw [symOps_cons, symOp_none]
    cases hWiped : (call i).wiped with
    | true =>
      have hNot : ¬(call i).Quiet := by simp [SymCall.Quiet, hWiped]
      simp only [hNot, false_and, iff_false]
      rintro ⟨⟨hFate, -⟩, hRest⟩
      have hWords := @symOp_answered p slot _ (.word w) hFate
      rw [hWiped] at hWords
      have hWord : ((symOp (call i) p slot (.word w)).2.now slot).words.length = 1 ∧
          ((symOp (call i) p slot (.word w)).2.now slot).committed = false := by
        rw [hWords]
        simp [pqcSymkey, VaultPast.act_now, VaultPast.wipe, VaultSlot.after, VaultSlot.step,
          VaultSlot.empty]
      have hSum := ((ih hWord.2 (by omega)).mp hRest).2
      omega
    | false =>
      rw [if_neg Bool.false_ne_true]
      by_cases hRoom : 8 ≤ (p.now slot).words.length
      · have hRefused : (pqcSymkey p slot (.word w)).1 = false := by
          simp only [pqcSymkey, if_pos hRoom]
        simp only [hRefused, Bool.false_eq_true, and_false, false_and, false_iff]
        omega
      · have hTaken : (pqcSymkey p slot (.word w)).1 = true := by
          simp only [pqcSymkey, if_neg hRoom]
        obtain ⟨hWords, hStillOpen, -⟩ := after_word (w := w) (Nat.lt_of_not_le hRoom)
        have hQuiet : (call i).Quiet ↔ (call i).fate = .answered := by simp [SymCall.Quiet, hWiped]
        simp only [hTaken, and_true, hQuiet, and_assoc]
        apply and_congr_right
        intro hFate
        have hNow : (symOp (call i) p slot (.word w)).2.now slot =
            (p.now slot).after (.word w) := by
          rw [symOp_answered hFate, hWiped, if_neg Bool.false_ne_true]
          simp only [pqcSymkey, if_neg hRoom, VaultPast.act_now]
        rw [ih (by rw [hNow]; exact hStillOpen) (by omega), hNow, hWords, List.length_append,
          List.length_singleton, Nat.add_assoc, Nat.add_comm 1]

/-- The push of a key of an allowed length succeeds exactly if `Goes` says so. -/
theorem symPushOn_goes {slot : UInt32} {key : Bytes}
    (hArgs : ¬(7 < slot ∨ (key.length ≠ 16 ∧ key.length ≠ 32))) :
    (symPushOn x p slot key).1 = none ↔ x.Goes (p.now (slotIndex slot)) := by
  have hOps : (symPushOn x p slot key).1 = none ↔ x.session = none ∧
      (symOps x.call (slotIndex slot) (.begin :: ((symWords key).map .word ++ [.commit])) 0 p).1 =
        none := by
    rw [symPushOn, if_neg hArgs]
    cases x.session with
    | some code => simp
    | none =>
      simp only [true_and]
      split
      · rename_i hEq
        simp [hEq]
      · rename_i hEq
        simp [hEq]
  obtain ⟨w, ws, hWords, hLength⟩ : ∃ w ws, symWords key = w :: ws ∧ ws.length = 7 :=
    ⟨_, _, rfl, rfl⟩
  rw [hOps, PushEnv.Goes, hWords]
  apply and_congr_right
  intro _
  generalize slotIndex slot = s
  rw [List.map_cons, List.cons_append, symOps_cons, symOps_cons, symOp_none, symOp_none, and_assoc]
  have hBegins (q : VaultPast) : (pqcSymkey q s .begin).1 = true := rfl
  rw [hBegins, and_iff_right rfl]
  apply and_congr_right
  intro hFirst
  have hBegun := @symOp_answered p s _ .begin hFirst
  generalize hq : (symOp (x.call 0) p s .begin).2 = q at hBegun ⊢
  have hNow : q.now s = ((if (x.call 0).wiped then p.wipe else p).now s).after .begin := by
    rw [hBegun]
    exact VaultPast.act_now _ s .begin
  rw [and_assoc]
  apply and_congr_right
  intro hSecond
  have hTaken := @symOp_answered q s _ (.word w) hSecond
  generalize hq' : (if (x.call 1).wiped then q.wipe else q) = q' at hTaken ⊢
  by_cases hFree : (p.now s).locked = true → (x.call 0).wiped = true ∨ (x.call 1).wiped = true
  · have hEmpty : q'.now s = .empty := by
      rw [← hq']
      cases hWiped : (x.call 1).wiped with
      | true => rfl
      | false =>
        rw [if_neg Bool.false_ne_true, hNow]
        cases hWiped0 : (x.call 0).wiped with
        | true => rfl
        | false =>
          have hOpen : (p.now s).locked = false := by
            rw [← Bool.not_eq_true]
            intro hLocked
            simpa [hWiped, hWiped0] using hFree hLocked
          exact (after_clear hOpen).1
    have hFirstWord : ((symOp (x.call 1) q s (.word w)).2.now s).words.length = 1 ∧
        ((symOp (x.call 1) q s (.word w)).2.now s).committed = false := by
      rw [hTaken]
      simp [pqcSymkey, hEmpty, VaultPast.act_now, VaultSlot.after, VaultSlot.step, VaultSlot.empty]
    have hRoom : (pqcSymkey q' s (.word w)).1 = true := by
      simp [pqcSymkey, hEmpty, VaultSlot.empty]
    rw [symOps_fill hFirstWord.2 (by omega), hFirstWord.1, hLength]
    simp only [hRoom, true_and, and_true, Nat.reduceAdd]
    exact ⟨fun h => ⟨h, hFree⟩, fun h => h.1⟩
  · obtain ⟨hLocked, hNone⟩ := Classical.not_imp.mp hFree
    rw [not_or, Bool.not_eq_true, Bool.not_eq_true] at hNone
    have hSame : q'.now s = p.now s := by
      rw [← hq', hNone.2, if_neg Bool.false_ne_true, hNow, hNone.1, if_neg Bool.false_ne_true]
      simp [VaultSlot.after, VaultSlot.step, hLocked]
    have hFull := (p.now s).full ((p.now s).sealed hLocked)
    have hRefused : (pqcSymkey q' s (.word w)).1 = false := by
      simp [pqcSymkey, hSame, hFull]
    simp [hRefused, hFree]

/-! ### The command for a symmetric key -/

theorem symkeyNew_none {slot : UInt32} {len cap : Nat}
    (h : (TaCmd.symkeyNew slot len cap).push T st e = none) :
    (cmdSymkeyNew T st e slot len cap).rc ≠ .success ∧
      (cmdSymkeyNew T st e slot len cap).written = [] := by
  have hSealing : (cmdSymkeyNew T st e slot len cap).sealing = none := Option.map_eq_none_iff.mp h
  unfold cmdSymkeyNew at hSealing ⊢
  cases hKek : st.gKek with
  | none => exact ⟨nofun, rfl⟩
  | some kek =>
    rw [hKek] at hSealing
    dsimp only at hSealing ⊢
    split
    · exact ⟨nofun, rfl⟩
    · rename_i hArgs
      rw [if_neg hArgs] at hSealing
      split
      · exact ⟨nofun, rfl⟩
      · rename_i hRoom
        rw [if_neg hRoom] at hSealing
        cases hEntropy : e.entropy with
        | error code => exact ⟨nofun, rfl⟩
        | ok entropy =>
          rw [hEntropy] at hSealing
          dsimp only at hSealing ⊢
          split
          · exact ⟨nofun, rfl⟩
          · rename_i hSeal
            rw [hSeal] at hSealing
            cases hSealing

/-- The blob is written before the push. -/
theorem symkeyNew_written {slot s : UInt32} {len cap : Nat} {key : Bytes}
    (h : (TaCmd.symkeyNew slot len cap).push T st e = some (s, key)) (err : Option UInt32) :
    ∃ blob, (cmdSymkeyNew T st { e with push := err } slot len cap).written = [(1, blob)] := by
  obtain ⟨sealing, hSealing, -⟩ := Option.map_eq_some_iff.mp h
  unfold cmdSymkeyNew at hSealing ⊢
  split at hSealing
  · cases hSealing
  split at hSealing
  · cases hSealing
  rename_i hArgs
  split at hSealing
  · cases hSealing
  rename_i hRoom
  split at hSealing
  · cases hSealing
  rename_i hEntropy
  dsimp only at hSealing
  split at hSealing
  · cases hSealing
  · rename_i blob hSeal
    simp only [hEntropy, if_neg hArgs, if_neg hRoom, hSeal]
    exact ⟨blob, rfl⟩

/-- A symmetric key is kept with its blob, unless a push is tried that does not succeed. -/
theorem symkeyNew_kept_iff (T : TaLib) (st : TaState) (e : TaEnv) (x : PushEnv) (slot : UInt32)
    (len cap : Nat) (vault : VaultPast) :
    (symkeyNewOn T st e x slot len cap vault).1.Kept
        ((symkeyNewOn T st e x slot len cap vault).2 ≠ vault ∧
          ((symkeyNewOn T st e x slot len cap vault).2.now (slotIndex slot)).words ≠ []) ↔
      ∀ key, (TaCmd.symkeyNew slot len cap).push T st e = some (slot, key) →
        x.Goes (vault.now (slotIndex slot)) := by
  unfold symkeyNewOn TaOut.Kept
  cases hPush : (TaCmd.symkeyNew slot len cap).push T st e with
  | none =>
    obtain ⟨hRc, hWritten⟩ := symkeyNew_none hPush
    simp [hRc, hWritten]
  | some pushed =>
    obtain ⟨s, key⟩ := pushed
    have hSlot : s = slot := by
      obtain ⟨sealing, -, hEq⟩ := Option.map_eq_some_iff.mp hPush
      cases hEq
      rfl
    subst hSlot
    have hArgs := (@rightful_push T ⟨.fresh, .start, [(st, .symkeyNew s len cap, e)]⟩ e _ s key st
      hPush List.mem_cons_self).1
    have hGoes := symPushOn_goes (x := x) (p := vault) hArgs
    have hRc := rc_of_push hPush (symPushOn x vault s key).1
    obtain ⟨blob, hWritten⟩ := symkeyNew_written hPush (symPushOn x vault s key).1
    have hRcEq : (cmdSymkeyNew T st { e with push := (symPushOn x vault s key).1 } s len cap).rc =
        (symPushOn x vault s key).1.elim .success .other := hRc
    dsimp only
    by_cases hErr : (symPushOn x vault s key).1 = none
    · rw [if_pos (hRcEq.trans (by rw [hErr]; rfl))]
      exact ⟨fun _ _ _ => hGoes.mp hErr, fun _ => ⟨blob, hWritten⟩⟩
    · have hFailed : (symPushOn x vault s key).1.elim TaResult.success .other ≠ .success := by
        cases hCode : (symPushOn x vault s key).1 with
        | none => exact absurd hCode hErr
        | some code => exact nofun
      rw [if_neg (by rw [hRcEq]; exact hFailed)]
      constructor
      · rintro ⟨-, hNothing⟩
        rw [hWritten] at hNothing
        cases hNothing
      · intro hAll
        exact absurd (hGoes.mpr (hAll key rfl)) hErr

end Keys

/-! ### Both commands -/

/-- An application whose KEK is ready. -/
def kekReady : TaState := ⟨none, some (zeros PQC_KEK_LEN)⟩

end PqcHsm
