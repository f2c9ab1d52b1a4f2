import Mathlib.Logic.Function.Iterate
import PqcHsm.Daemon.SymModes
import PqcHsm.Library.BlockChain

/-!
# The modes in the memory of the daemon

`sym_crypt_raw` reads the input from one buffer and writes the output to another one or to the same.
The feedback is a variable of its own: the buffer with the IV stays as it is.
-/

namespace PqcHsm

open ByteCodec BlockModes Stateful

abbrev HostMem := Nat → UInt8

def readMem (m : HostMem) (p n : Nat) : Bytes := (List.range n).map fun i => m (p + i)

def writeMem (m : HostMem) (p : Nat) : Bytes → HostMem
  | [] => m
  | b :: bs => writeMem (Function.update m p b) (p + 1) bs

/-- `for (i = 0; i < n; i++) out[i] = in[i] ^ ks[i];` -/
def xorLoop (inp out : Nat) : Bytes → HostMem → HostMem
  | [], m => m
  | k :: ks, m => xorLoop (inp + 1) (out + 1) ks (Function.update m out (m inp ^^^ k))

section Raw

variable {ε σ : Type}

/-- One turn of the loop of `sym_crypt_raw`: the next feedback and the memory. -/
def symStepRaw (block : Bool → Bytes → Stateful ε σ (Except Int Bytes)) (dec : Bool)
    (mode : SymMode) (fb : Bytes) (inp out n : Nat) (m : HostMem) :
    Stateful ε σ (Except Int (Bytes × HostMem)) := do
  match mode with
  | .ecb => do
    let r ← block dec (readMem m inp 16)
    pure (r.map fun o => (fb, writeMem m out o))
  | .cbc =>
    if dec then do
      let prev := readMem m inp 16
      let r ← block true prev
      pure (r.map fun blk => (prev, writeMem m out (xorBlock blk fb)))
    else do
      let r ← block false (xorBlock (readMem m inp 16) fb)
      pure (r.map fun o =>
        let m := writeMem m out o
        (readMem m out 16, m))
  | .ctr => do
    let r ← block false fb
    pure (r.map fun ks => (ctrInc fb, xorLoop inp out (ks.take n) m))
  | .ofb => do
    let r ← block false fb
    pure (r.map fun ks => (ks, xorLoop inp out (ks.take n) m))
  | .cfb => do
    let r ← block false fb
    pure (r.map fun ks =>
      let ct := if dec then readMem m inp n else xorBlock (readMem m inp n) ks
      let m := if dec then xorLoop inp out (ks.take n) m else writeMem m out ct
      (if n = 16 then ct else fb, m))

def symLoopRaw (block : Bool → Bytes → Stateful ε σ (Except Int Bytes)) (dec : Bool)
    (mode : SymMode) : Nat → Bytes → Nat → Nat → Nat → HostMem → Stateful ε σ (Except Int HostMem)
  | 0, _, _, _, _, m => pure (.ok m)
  | blocks + 1, fb, inp, out, len, m => do
    match ← symStepRaw block dec mode fb inp out (min 16 len) m with
    | .error _ => pure (.error (-1))
    | .ok (fb, m) => symLoopRaw block dec mode blocks fb (inp + 16) (out + 16) (len - 16) m

/-- `sym_crypt_raw` -/
def symCryptRaw (block : Bool → Bytes → Stateful ε σ (Except Int Bytes)) (dec : Bool)
    (mode : SymMode) (iv inp out len : Nat) (m : HostMem) : Stateful ε σ (Except Int HostMem) :=
  symLoopRaw block dec mode ((len + 15) / 16) (readMem m iv 16) inp out len m

end Raw

/-- The lengths that a mode works on. -/
def SymMode.Accepts (mode : SymMode) (len : Nat) : Prop :=
  (mode = .ecb ∨ mode = .cbc) → len % 16 = 0

/-- The output is the input or lies apart from it, and it lies apart from the IV. -/
def Placed (iv inp out len : Nat) : Prop :=
  (inp = out ∨ inp + len ≤ out ∨ out + len ≤ inp) ∧ (iv + 16 ≤ out ∨ out + len ≤ iv)

/-! ### What a mode computes -/

section Pure

variable (E D : ByteVec 16 → ByteVec 16)

def cipher (dec : Bool) (b : Bytes) : Bytes :=
  (if dec then D (takeVec 16 b) else E (takeVec 16 b)).toList

/-- The output for a block and the next feedback. -/
def modeStep (dec : Bool) (mode : SymMode) (fb b : Bytes) : Bytes × Bytes :=
  match mode with
  | .ecb => (cipher E D dec b, fb)
  | .cbc =>
    if dec then (xorBlock (cipher E D true b) fb, b)
    else (cipher E D false (xorBlock b fb), cipher E D false (xorBlock b fb))
  | .ctr => (xorBlock b (cipher E D false fb), ctrInc fb)
  | .ofb => (xorBlock b (cipher E D false fb), cipher E D false fb)
  | .cfb =>
    let o := xorBlock b (cipher E D false fb)
    (o, if b.length = 16 then if dec then b else o else fb)

/-- The IV that goes on behind a text of whole blocks, from the text and what became of it. -/
def nextIv (dec : Bool) (mode : SymMode) (iv text out : Bytes) : Bytes :=
  if text = [] then iv
  else
    match mode with
    | .ecb => iv
    | .ctr => ctrInc^[text.length / 16] iv
    | .ofb => xorBlock (text.drop (text.length - 16)) (out.drop (text.length - 16))
    | _ => if dec then text.drop (text.length - 16) else out.drop (text.length - 16)

end Pure

/-! ### Buffers -/

section Buffers

variable {m : HostMem} {p q n k : Nat} {bs : Bytes}

@[simp] theorem length_readMem : (readMem m p n).length = n := by simp [readMem]

theorem readMem_add : readMem m p (n + k) = readMem m p n ++ readMem m (p + n) k := by
  rw [readMem, List.range_add, List.map_append, List.map_map]
  apply congrArg (_ ++ ·)
  apply List.map_congr_left
  intro i _
  exact congrArg m (Nat.add_assoc p n i).symm

theorem take_readMem : (readMem m p n).take k = readMem m p (min k n) := by
  rw [readMem, ← List.map_take, List.take_range]
  rfl

theorem drop_readMem : (readMem m p n).drop k = readMem m (p + k) (n - k) := by
  by_cases h : k ≤ n
  · obtain ⟨l, rfl⟩ := Nat.exists_eq_add_of_le h
    rw [readMem_add, List.drop_left' length_readMem, Nat.add_sub_cancel_left]
  · rw [List.drop_eq_nil_of_le (by simp; omega), Nat.sub_eq_zero_of_le (by omega)]
    rfl

theorem readMem_congr {m' : HostMem} (h : ∀ i < n, m' (p + i) = m (p + i)) :
    readMem m' p n = readMem m p n := by
  apply List.map_congr_left
  intro i hi
  exact h i (List.mem_range.mp hi)

theorem writeMem_append (cs : Bytes) :
    writeMem m p (bs ++ cs) = writeMem (writeMem m p bs) (p + bs.length) cs := by
  induction bs generalizing m p with
  | nil => rfl
  | cons b bs ih =>
    rw [List.cons_append, writeMem, ih, List.length_cons, writeMem, Nat.add_assoc, Nat.add_comm 1]

theorem writeMem_apart (h : q < p ∨ p + bs.length ≤ q) : writeMem m p bs q = m q := by
  induction bs generalizing m p with
  | nil => rfl
  | cons b bs ih =>
    rw [List.length_cons] at h
    rw [writeMem, ih (by omega), Function.update_of_ne (by omega)]

theorem readMem_writeMem_apart (h : q + n ≤ p ∨ p + bs.length ≤ q) :
    readMem (writeMem m p bs) q n = readMem m q n := by
  apply readMem_congr
  intro i hi
  exact writeMem_apart (by omega)

theorem readMem_writeMem : readMem (writeMem m p bs) p bs.length = bs := by
  induction bs generalizing m p with
  | nil => rfl
  | cons b bs ih =>
    have hFirst : writeMem (Function.update m p b) (p + 1) bs p = b := by
      rw [writeMem_apart (by omega), Function.update_self]
    rw [List.length_cons, Nat.add_comm, readMem_add, writeMem, ih]
    change [writeMem (Function.update m p b) (p + 1) bs p] ++ bs = _
    rw [hFirst]
    rfl

/-- The loop may work in place. -/
theorem xorLoop_eq {inp out : Nat} {ks : Bytes}
    (h : inp = out ∨ inp + ks.length ≤ out ∨ out + ks.length ≤ inp) :
    xorLoop inp out ks m = writeMem m out (xorBlock (readMem m inp ks.length) ks) := by
  induction ks generalizing m inp out with
  | nil =>
    rw [xorBlock, List.zipWith_nil_right]
    rfl
  | cons k ks ih =>
    rw [List.length_cons] at h
    have hRest : readMem (Function.update m out (m inp ^^^ k)) (inp + 1) ks.length =
        readMem m (inp + 1) ks.length := by
      apply readMem_congr
      intro i _
      exact Function.update_of_ne (by omega) _ _
    rw [xorLoop, ih (by omega), hRest, List.length_cons, Nat.add_comm ks.length, readMem_add]
    rfl

end Buffers

/-! ### Blocks -/

section Blocks

variable {E D : ByteVec 16 → ByteVec 16} {dec : Bool} {mode : SymMode} {fb b : Bytes}

/-- The blocks of a text that a mode accepts. -/
def SymMode.Block (mode : SymMode) (b : Bytes) : Prop :=
  b ≠ [] ∧ b.length ≤ 16 ∧ ((mode = .ecb ∨ mode = .cbc) → b.length = 16)

theorem blocks_of_accepts {d : Bytes} (h : mode.Accepts d.length) :
    Blocks 16 mode.Block ((d.length + 15) / 16) d := by
  have hAll (n : Nat) : ∀ d : Bytes, n = (d.length + 15) / 16 → mode.Accepts d.length →
      Blocks 16 mode.Block n d := by
    induction n with
    | zero =>
      intro d hn _
      exact List.length_eq_zero_iff.mp (by omega)
    | succ n ih =>
      intro d hn hMode
      have hPos : d ≠ [] := by
        rintro rfl
        change n + 1 = 15 / 16 at hn
        omega
      have hLen := List.length_pos_of_ne_nil hPos
      refine ⟨⟨?_, List.length_take_le 16 d, ?_⟩, ih (d.drop 16) ?_ ?_⟩
      · apply List.ne_nil_of_length_pos
        rw [List.length_take]
        omega
      · intro hKind
        have hMod := hMode hKind
        rw [List.length_take]
        omega
      · rw [List.length_drop]
        omega
      · intro hKind
        have hMod := hMode hKind
        rw [List.length_drop]
        omega
  exact hAll _ d rfl h

@[simp] theorem length_cipher (dec : Bool) (b : Bytes) : (cipher E D dec b).length = 16 :=
  List.Vector.toList_length _

theorem toList_takeVec_of (h : b.length = 16) : (takeVec 16 b).toList = b := by
  rw [toList_takeVec h.ge, List.take_of_length_le h.le]

theorem takeVec_toList (v : ByteVec 16) : takeVec 16 v.toList = v := by
  have hVec := takeVec_append v []
  rwa [List.append_nil] at hVec

theorem cipher_cipher (hInv : ∀ v, D (E v) = v) (h : b.length = 16) :
    cipher E D true (cipher E D false b) = b := by
  change (D (takeVec 16 (E (takeVec 16 b)).toList)).toList = b
  rw [takeVec_toList, hInv, toList_takeVec_of h]

/-- Twice the same key stream. -/
theorem xorBlock_xorBlock {a c : Bytes} (h : a.length ≤ c.length) :
    xorBlock (xorBlock a c) c = a := by
  induction a generalizing c with
  | nil => rfl
  | cons x a ih =>
    cases c with
    | nil => cases h
    | cons y c =>
      change (x ^^^ y ^^^ y) :: xorBlock (xorBlock a c) c = x :: a
      rw [ih (Nat.le_of_succ_le_succ h), UInt8.xor_assoc, UInt8.xor_self, UInt8.xor_zero]

theorem xorBlock_out {a c : Bytes} (h : a.length = c.length) : xorBlock a (xorBlock a c) = c := by
  induction a generalizing c with
  | nil => exact (List.length_eq_zero_iff.mp h.symm).symm
  | cons x a ih =>
    cases c with
    | nil => cases h
    | cons y c =>
      change (x ^^^ (x ^^^ y)) :: xorBlock a (xorBlock a c) = y :: c
      rw [ih (Nat.succ.inj h), ← UInt8.xor_assoc, UInt8.xor_self, UInt8.zero_xor]

theorem length_modeStep (hFb : fb.length = 16) (hb : mode.Block b) :
    (modeStep E D dec mode fb b).2.length = 16 ∧
      (modeStep E D dec mode fb b).1.length = b.length := by
  obtain ⟨-, hLe, hFull⟩ := hb
  cases mode with
  | ecb => exact ⟨hFb, (length_cipher dec b).trans (hFull (.inl rfl)).symm⟩
  | cbc =>
    have hLen := hFull (.inr rfl)
    cases dec with
    | false => exact ⟨length_cipher _ _, (length_cipher _ _).trans hLen.symm⟩
    | true =>
      refine ⟨hLen, ?_⟩
      change (xorBlock (cipher E D true b) fb).length = _
      rw [length_xorBlock, length_cipher, hFb, hLen]
      rfl
  | ctr =>
    refine ⟨(length_ctrInc fb).trans hFb, ?_⟩
    change (xorBlock b (cipher E D false fb)).length = _
    rw [length_xorBlock, length_cipher]
    exact Nat.min_eq_left hLe
  | ofb =>
    refine ⟨length_cipher _ _, ?_⟩
    change (xorBlock b (cipher E D false fb)).length = _
    rw [length_xorBlock, length_cipher]
    exact Nat.min_eq_left hLe
  | cfb =>
    have hOut : (xorBlock b (cipher E D false fb)).length = b.length := by
      rw [length_xorBlock, length_cipher]
      exact Nat.min_eq_left hLe
    refine ⟨?_, hOut⟩
    change (if b.length = 16 then if dec then b else xorBlock b (cipher E D false fb)
      else fb).length = 16
    split
    · rename_i hLen
      cases dec with
      | false => exact hOut.trans hLen
      | true => exact hLen
    · exact hFb

/-- One block is decrypted to what was encrypted, with the same feedback behind it. -/
theorem modeStep_inverse (hInv : ∀ v, D (E v) = v) (hFb : fb.length = 16) (hb : mode.Block b) :
    modeStep E D true mode fb (modeStep E D false mode fb b).1 =
      (b, (modeStep E D false mode fb b).2) := by
  obtain ⟨-, hLe, hFull⟩ := hb
  have hStream : xorBlock (xorBlock b (cipher E D false fb)) (cipher E D false fb) = b :=
    xorBlock_xorBlock ((length_cipher (E := E) (D := D) false fb).symm ▸ hLe)
  cases mode with
  | ecb => exact Prod.ext (cipher_cipher hInv (hFull (.inl rfl))) rfl
  | cbc =>
    have hLen := hFull (.inr rfl)
    have hIn : (xorBlock b fb).length = 16 := by
      rw [length_xorBlock, hLen, hFb]
      rfl
    refine Prod.ext ?_ rfl
    change xorBlock (cipher E D true (cipher E D false (xorBlock b fb))) fb = b
    rw [cipher_cipher hInv hIn, xorBlock_xorBlock (hLen.trans hFb.symm).le]
  | ctr => exact Prod.ext hStream rfl
  | ofb => exact Prod.ext hStream rfl
  | cfb =>
    refine Prod.ext hStream ?_
    have hOut : (xorBlock b (cipher E D false fb)).length = b.length := by
      rw [length_xorBlock, length_cipher]
      exact Nat.min_eq_left hLe
    change (if (xorBlock b (cipher E D false fb)).length = 16 then
      xorBlock b (cipher E D false fb) else fb) = _
    rw [hOut]
    rfl

end Blocks

/-! ### A call -/

section Call

variable {ε σ : Type} {steady : Prop} {I : σ → Prop} {E D : ByteVec 16 → ByteVec 16}
  {block : Bool → Bytes → Stateful ε σ (Except Int Bytes)} {dec : Bool} {mode : SymMode}

theorem Computes.bytes (h : Computes steady I E D block) (dec : Bool) {b : Bytes}
    (hb : b.length = 16) :
    Ends steady I (block dec b) fun o s => o = cipher E D dec b ∧ I s := by
  have hBlock := h dec (takeVec 16 b)
  rw [toList_takeVec_of hb] at hBlock
  refine hBlock.mono (fun _ hI => hI) ?_
  rintro o s ⟨hOut, hI⟩
  refine ⟨?_, hI⟩
  rw [hOut, cipher]

theorem ends_map {α β : Type} {p : Stateful ε σ (Except Int α)} {x : α} {y : β} {g : α → β}
    (hp : Ends steady I p fun a s => a = x ∧ I s) (hg : g x = y) :
    Ends steady I (do
      let r ← p
      pure (r.map g)) fun b s => b = y ∧ I s := by
  intro e s hI
  have h := hp e s hI
  rw [Stateful.run_bind, Stateful.run_pure]
  cases hRun : (p.run e s).1 with
  | error c =>
    rw [hRun] at h
    exact h
  | ok a =>
    rw [hRun] at h
    exact ⟨(congrArg g h.1).trans hg, h.2⟩

/-- One turn of the loop, in place or not. -/
theorem Computes.stepRaw (h : Computes steady I E D block) {fb : Bytes} {inp out n : Nat}
    {m : HostMem} (hFb : fb.length = 16) (hb : mode.Block (readMem m inp n))
    (hPlace : inp = out ∨ inp + n ≤ out ∨ out + n ≤ inp) :
    Ends steady I (symStepRaw block dec mode fb inp out n m) fun r s =>
      r = ((modeStep E D dec mode fb (readMem m inp n)).2,
        writeMem m out (modeStep E D dec mode fb (readMem m inp n)).1) ∧ I s := by
  obtain ⟨-, hLe, hFull⟩ := hb
  rw [length_readMem] at hLe hFull
  have hKs : ((cipher E D false fb).take n).length = n := by
    rw [List.length_take, length_cipher]
    exact Nat.min_eq_left hLe
  have hXor : xorLoop inp out ((cipher E D false fb).take n) m =
      writeMem m out (xorBlock (readMem m inp n) (cipher E D false fb)) := by
    rw [xorLoop_eq (by rwa [hKs]), hKs]
    apply congrArg (writeMem m out)
    have hTake := @List.take_zipWith _ _ _ (· ^^^ ·) (readMem m inp n) (cipher E D false fb) n
    rw [List.take_of_length_le (by rw [List.length_zipWith, length_readMem]; exact Nat.min_le_left _ _),
      List.take_of_length_le length_readMem.le] at hTake
    exact hTake.symm
  cases mode with
  | ecb =>
    obtain rfl : n = 16 := hFull (.inl rfl)
    exact ends_map (h.bytes dec length_readMem) rfl
  | cbc =>
    obtain rfl : n = 16 := hFull (.inr rfl)
    cases dec with
    | false =>
      have hIn : (xorBlock (readMem m inp 16) fb).length = 16 := by
        rw [length_xorBlock, length_readMem, hFb]
        rfl
      refine ends_map (h.bytes false hIn) (Prod.ext ?_ rfl)
      have hBack := @readMem_writeMem m out (cipher E D false (xorBlock (readMem m inp 16) fb))
      rwa [length_cipher] at hBack
    | true => exact ends_map (h.bytes true length_readMem) rfl
  | ctr => exact ends_map (h.bytes false hFb) (Prod.ext rfl hXor)
  | ofb => exact ends_map (h.bytes false hFb) (Prod.ext rfl hXor)
  | cfb =>
    refine ends_map (h.bytes false hFb) (Prod.ext ?_ ?_)
    · change (if n = 16 then if dec then readMem m inp n else
        xorBlock (readMem m inp n) (cipher E D false fb) else fb) =
          if (readMem m inp n).length = 16 then _ else _
      rw [length_readMem]
    · cases dec with
      | false => rfl
      | true => exact hXor

theorem Computes.loopRaw (h : Computes steady I E D block) {blocks : Nat} {fb : Bytes}
    {inp out len : Nat} {m : HostMem} (hFb : fb.length = 16)
    (hText : Blocks 16 mode.Block blocks (readMem m inp len))
    (hPlace : inp = out ∨ inp + len ≤ out ∨ out + len ≤ inp) :
    Ends steady I (symLoopRaw block dec mode blocks fb inp out len m) fun m' s =>
      m' = writeMem m out (chain 16 (modeStep E D dec mode) blocks fb (readMem m inp len)).1 ∧ I s := by
  induction blocks generalizing fb inp out len m with
  | zero => exact fun _ _ hI => ⟨rfl, hI⟩
  | succ blocks ih =>
    obtain ⟨hFirst, hRest⟩ := hText
    rw [take_readMem] at hFirst
    rw [drop_readMem] at hRest
    obtain ⟨hNext, hLen⟩ := @length_modeStep E D dec mode fb _ hFb hFirst
    rw [length_readMem] at hLen
    intro e s hI
    have hStep := @Computes.stepRaw _ _ _ _ _ _ _ dec _ h _ inp out _ _ hFb hFirst (by omega) e s hI
    rw [symLoopRaw, Stateful.run_bind]
    cases hRun : ((symStepRaw block dec mode fb inp out (min 16 len) m).run e s).1 with
    | error c =>
      rw [hRun] at hStep
      exact hStep
    | ok r =>
      rw [hRun] at hStep
      obtain ⟨rfl, hI'⟩ := hStep
      dsimp only
      generalize hOut : (modeStep E D dec mode fb (readMem m inp (min 16 len))).1 = o at hLen ⊢
      generalize hFb' : (modeStep E D dec mode fb (readMem m inp (min 16 len))).2 = fb' at hNext ⊢
      -- what was written lies before the rest of the input
      have hLater : readMem (writeMem m out o) (inp + 16) (len - 16) =
          readMem m (inp + 16) (len - 16) := by
        by_cases hShort : len ≤ 16
        · rw [Nat.sub_eq_zero_of_le hShort]
          rfl
        · exact readMem_writeMem_apart (by omega)
      have hEnd : writeMem (writeMem m out o) (out + 16)
          (chain 16 (modeStep E D dec mode) blocks fb' (readMem m (inp + 16) (len - 16))).1 =
            writeMem m out (o ++
              (chain 16 (modeStep E D dec mode) blocks fb' (readMem m (inp + 16) (len - 16))).1) := by
        by_cases hShort : len < 16
        · rw [Nat.sub_eq_zero_of_le hShort.le] at hRest ⊢
          obtain rfl := Blocks.nil (fun b hb => hb.1) (hRest : Blocks 16 mode.Block blocks [])
          change writeMem m out o = writeMem m out (o ++ [])
          rw [List.append_nil]
        · rw [writeMem_append, hLen, Nat.min_eq_left (Nat.le_of_not_lt hShort)]
      have hTail := @ih fb' (inp + 16) (out + 16) (len - 16) (writeMem m out o) hNext
        (by rwa [hLater]) (by omega)
      rw [hLater, hEnd] at hTail
      rw [chain_succ, take_readMem, drop_readMem, hOut, hFb']
      exact hTail e _ hI'

/-- What a call leaves in memory. -/
theorem Computes.callRaw (h : Computes steady I E D block) {iv inp out len : Nat} {m : HostMem}
    (hMode : mode.Accepts len) (hPlace : Placed iv inp out len) :
    Ends steady I (symCryptRaw block dec mode iv inp out len m) fun m' s =>
      m' = writeMem m out (chain 16 (modeStep E D dec mode) ((len + 15) / 16) (readMem m iv 16)
        (readMem m inp len)).1 ∧ I s := by
  have hText := @blocks_of_accepts mode (readMem m inp len) (by rwa [length_readMem])
  rw [length_readMem] at hText
  exact h.loopRaw length_readMem hText hPlace.1

theorem length_chain_mode {fb d : Bytes} (hFb : fb.length = 16) (hMode : mode.Accepts d.length) :
    (chain 16 (modeStep E D dec mode) ((d.length + 15) / 16) fb d).2.length = 16 ∧
      (chain 16 (modeStep E D dec mode) ((d.length + 15) / 16) fb d).1.length = d.length :=
  chain_keeps (P := fun fb : Bytes => fb.length = 16) (fun _ _ hFb hb => length_modeStep hFb hb) hFb
    (blocks_of_accepts hMode)

end Call

/-! ### The counter -/

def ofBe (b : Bytes) : Nat := ofLe b.reverse

theorem ofLe_incBytes (b : Bytes) : ofLe (incBytes b) = (ofLe b + 1) % 256 ^ b.length := by
  induction b with
  | nil => rfl
  | cons c rest ih =>
    have hRest := ofLe_lt rest
    have hSucc : (c + 1).toNat = (c.toNat + 1) % 256 := UInt8.toNat_add c 1
    have hByte := c.toNat_lt
    have hZero : c + 1 = 0 ↔ c.toNat = 255 := by
      rw [← UInt8.toNat_inj, hSucc]
      change _ = 0 ↔ _
      omega
    rw [incBytes, List.length_cons, pow_succ, Nat.mul_comm]
    by_cases hCarry : c + 1 = 0
    · have hMax := hZero.mp hCarry
      rw [if_neg (not_not.mpr hCarry), ofLe, ofLe, ih, hMax]
      have hSum : 255 + 256 * ofLe rest + 1 = 256 * (ofLe rest + 1) := by omega
      rw [hSum, Nat.mul_mod_mul_left]
      change 0 + _ = _
      rw [Nat.zero_add]
    · have hLess : c.toNat ≠ 255 := fun hMax => hCarry (hZero.mpr hMax)
      rw [if_pos hCarry, ofLe, ofLe, hSucc, Nat.mod_eq_of_lt (by omega), Nat.mod_eq_of_lt (by omega)]
      omega

theorem ofBe_ctrInc {b : Bytes} (h : b.length = 16) : ofBe (ctrInc b) = (ofBe b + 1) % 2 ^ 128 := by
  rw [ofBe, ctrInc, List.reverse_reverse, ofLe_incBytes, List.length_reverse, h]
  rfl

/-! ### Going on where a call ended -/

section Next

variable {E D : ByteVec 16 → ByteVec 16} {dec : Bool} {mode : SymMode}

theorem block_of_length {b : Bytes} (h : b.length = 16) : mode.Block b := by
  refine ⟨?_, h.le, fun _ => h⟩
  apply List.ne_nil_of_length_pos
  omega

/-- The feedback of a block and its output. -/
theorem modeStep_next {fb b : Bytes} (hb : b.length = 16) :
    (modeStep E D dec mode fb b).2 =
      match mode with
      | .ecb => fb
      | .ctr => ctrInc fb
      | .ofb => xorBlock b (modeStep E D dec mode fb b).1
      | _ => if dec then b else (modeStep E D dec mode fb b).1 := by
  cases mode with
  | ecb => rfl
  | ctr => rfl
  | cbc => cases dec <;> rfl
  | ofb => exact (xorBlock_out (hb.trans (length_cipher _ _).symm)).symm
  | cfb => exact if_pos hb

theorem chain_ecb (n : Nat) (fb d : Bytes) : (chain 16 (modeStep E D dec .ecb) n fb d).2 = fb := by
  induction n generalizing d with
  | zero => rfl
  | succ n ih => exact ih _

theorem chain_ctr (n : Nat) (fb d : Bytes) :
    (chain 16 (modeStep E D dec .ctr) n fb d).2 = ctrInc^[n] fb := by
  induction n generalizing fb d with
  | zero => rfl
  | succ n ih => exact ih _ _

/-- The feedback behind whole blocks can be told from the text and what became of it. -/
theorem chain_next {n : Nat} {fb d : Bytes} (hFb : fb.length = 16) (hd : d.length = 16 * n) :
    (chain 16 (modeStep E D dec mode) n fb d).2 =
      nextIv dec mode fb d (chain 16 (modeStep E D dec mode) n fb d).1 := by
  cases n with
  | zero =>
    obtain rfl := List.length_eq_zero_iff.mp hd
    rfl
  | succ n =>
    have hPos : d ≠ [] := by
      apply List.ne_nil_of_length_pos
      omega
    have hCount : d.length / 16 = n + 1 := by omega
    have hHead : (d.take (16 * n)).length = 16 * n := by
      rw [List.length_take]
      omega
    have hLast : (d.drop (16 * n)).length = 16 := by
      rw [List.length_drop]
      omega
    have hMode : mode.Accepts (d.take (16 * n)).length := by
      rw [hHead]
      exact fun _ => Nat.mul_mod_right 16 n
    have hKept := @length_chain_mode E D dec mode fb (d.take (16 * n)) hFb hMode
    have hBlocks : ((d.take (16 * n)).length + 15) / 16 = n := by
      rw [hHead]
      omega
    rw [hBlocks, hHead] at hKept
    obtain ⟨hFb', hOut⟩ := hKept
    have hSplit := @chain_add _ _ 16 n 1 (modeStep E D dec mode) fb (d.take (16 * n))
      (d.drop (16 * n)) hHead
    rw [List.take_append_drop] at hSplit
    have hOne : ∀ fb' : Bytes, chain 16 (modeStep E D dec mode) 1 fb' (d.drop (16 * n)) =
        modeStep E D dec mode fb' (d.drop (16 * n)) := by
      intro fb'
      rw [chain_succ, List.take_of_length_le hLast.le]
      exact Prod.ext (List.append_nil _) rfl
    rw [hOne] at hSplit
    have hAt : d.length - 16 = 16 * n := by omega
    cases mode with
    | ecb => exact (chain_ecb _ _ _).trans (if_neg hPos).symm
    | ctr =>
      rw [chain_ctr, nextIv, if_neg hPos, hCount]
    | ofb =>
      rw [nextIv, if_neg hPos, hSplit]
      dsimp only
      rw [modeStep_next hLast, hAt, List.drop_left' hOut]
    | cbc =>
      rw [hSplit]
      apply (modeStep_next hLast).trans
      symm
      apply (if_neg hPos).trans
      rw [hAt]
      cases dec with
      | false => exact List.drop_left' hOut
      | true => rfl
    | cfb =>
      rw [hSplit]
      apply (modeStep_next hLast).trans
      symm
      apply (if_neg hPos).trans
      rw [hAt]
      cases dec with
      | false => exact List.drop_left' hOut
      | true => rfl

end Next

/-! ### Two calls -/

section Calls

variable {ε σ : Type} (block : Bool → Bytes → Stateful ε σ (Except Int Bytes))

/-- A call that encrypts, and a call that decrypts what it wrote. -/
def symBack (mode : SymMode) (iv inp out back len : Nat) (m : HostMem) :
    Stateful ε σ (Except Int HostMem) := do
  match ← symCryptRaw block false mode iv inp out len m with
  | .error c => pure (.error c)
  | .ok m => symCryptRaw block true mode iv out back len m

/-- A call for a part of the input and a call for the rest. `carry` makes the IV for the rest from the
memory before and after the first call; it is put at `iv₂`. -/
def symTwice (carry : HostMem → HostMem → Bytes) (dec : Bool) (mode : SymMode)
    (iv iv₂ inp out len₁ len₂ : Nat) (m : HostMem) : Stateful ε σ (Except Int HostMem) := do
  match ← symCryptRaw block dec mode iv inp out len₁ m with
  | .error c => pure (.error c)
  | .ok m₁ =>
    symCryptRaw block dec mode iv₂ (inp + len₁) (out + len₁) len₂ (writeMem m₁ iv₂ (carry m m₁))

variable {block} {steady : Prop} {I : σ → Prop} {E D : ByteVec 16 → ByteVec 16} {dec : Bool}
  {mode : SymMode}

/-- The second of two calls starts in a memory that is known. -/
theorem ends_after {α β : Type} {p : Stateful ε σ (Except Int α)}
    {f : Except Int α → Stateful ε σ (Except Int β)} {a : α} {R : β → σ → Prop}
    (hp : Ends steady I p fun a' s => a' = a ∧ I s) (hFail : ∀ c, f (.error c) = pure (.error c))
    (hf : Ends steady I (f (.ok a)) R) : Ends steady I (p >>= f) R := by
  intro e s hI
  have hFirst := hp e s hI
  rw [Stateful.run_bind]
  cases hRun : (p.run e s).1 with
  | error c =>
    rw [hRun] at hFirst
    rw [hFail]
    exact hFirst
  | ok a' =>
    rw [hRun] at hFirst
    obtain ⟨rfl, hI'⟩ := hFirst
    exact hf e _ hI'

/-- What was encrypted is decrypted to the input, in place or not. -/
theorem Computes.back (h : Computes steady I E D block) (hInv : ∀ b, D (E b) = b)
    {iv inp out back len : Nat} {m : HostMem} (hMode : mode.Accepts len)
    (hPlace : Placed iv inp out len) (hBack : Placed iv out back len) :
    Ends steady I (symBack block mode iv inp out back len m) fun m' s =>
      readMem m' back len = readMem m inp len ∧ I s := by
  have hIv : (readMem m iv 16).length = 16 := length_readMem
  have hAccepts : mode.Accepts (readMem m inp len).length := by rwa [length_readMem]
  have hText := blocks_of_accepts hAccepts
  have hLen := (@length_chain_mode E D false mode _ _ hIv hAccepts).2
  have hUndo := @chain_inverse _ _ 16 _ _ (modeStep E D true mode) _ _ mode.Block _
    (fun _ hb => hb.1) (fun _ _ hFb hb => length_modeStep hFb hb)
    (fun _ _ hFb hb => modeStep_inverse hInv hFb hb) hIv hText
  rw [length_readMem] at hLen hUndo
  apply ends_after (h.callRaw hMode hPlace) ?_ ?_
  · exact fun _ => rfl
  generalize hOut : (chain 16 (modeStep E D false mode) ((len + 15) / 16) (readMem m iv 16)
    (readMem m inp len)).1 = o at hLen hUndo ⊢
  have hCall := @Computes.callRaw _ _ _ _ _ _ _ true _ h _ _ _ _ (writeMem m out o) hMode hBack
  have hSame : readMem (writeMem m out o) iv 16 = readMem m iv 16 := by
    apply readMem_writeMem_apart
    rw [hLen]
    exact hPlace.2
  have hThere : readMem (writeMem m out o) out len = o := by
    have hSelf := @readMem_writeMem m out o
    rwa [hLen] at hSelf
  rw [hSame, hThere, hUndo] at hCall
  refine hCall.mono (fun _ hI => hI) ?_
  rintro _ s ⟨rfl, hI⟩
  have hSelf := @readMem_writeMem (writeMem m out o) back (readMem m inp len)
  rw [length_readMem] at hSelf
  exact ⟨hSelf, hI⟩

/-- Two calls of which the second one has the IV that goes on where the first one ended. -/
theorem Computes.twice (h : Computes steady I E D block) {iv iv₂ inp out len₁ len₂ : Nat} {m : HostMem}
    (hLen₁ : len₁ % 16 = 0) (hMode : mode.Accepts (len₁ + len₂))
    (hPlace : Placed iv inp out (len₁ + len₂)) (hIv₂ : Placed iv₂ inp out (len₁ + len₂))
    (hApart : iv₂ + 16 ≤ inp ∨ inp + (len₁ + len₂) ≤ iv₂) :
    Ends steady I (symTwice block (fun m m₁ =>
        nextIv dec mode (readMem m iv 16) (readMem m inp len₁) (readMem m₁ out len₁))
      dec mode iv iv₂ inp out len₁ len₂ m) fun m' s =>
        readMem m' out (len₁ + len₂) =
          (chain 16 (modeStep E D dec mode) ((len₁ + len₂ + 15) / 16) (readMem m iv 16)
            (readMem m inp (len₁ + len₂))).1 ∧ I s := by
  have hIv : (readMem m iv 16).length = 16 := length_readMem
  have hMode₁ : mode.Accepts len₁ := fun _ => hLen₁
  have hMode₂ : mode.Accepts len₂ := by
    intro hKind
    have hBoth := hMode hKind
    omega
  have hText₁ : (readMem m inp len₁).length = 16 * ((len₁ + 15) / 16) := by
    rw [length_readMem]
    omega
  have hKept₁ := @length_chain_mode E D dec mode _ (readMem m inp len₁) hIv (by rwa [length_readMem])
  rw [length_readMem] at hKept₁
  obtain ⟨hFb, hOut⟩ := hKept₁
  have hNext := @chain_next E D dec mode _ _ _ hIv hText₁
  have hWhole := @chain_add _ _ 16 _ ((len₂ + 15) / 16) (modeStep E D dec mode) (readMem m iv 16)
    (readMem m inp len₁) (readMem m (inp + len₁) len₂) hText₁
  have hCount : (len₁ + 15) / 16 + (len₂ + 15) / 16 = (len₁ + len₂ + 15) / 16 := by omega
  rw [← readMem_add, hCount] at hWhole
  apply ends_after (h.callRaw hMode₁ ⟨by have := hPlace.1; omega, by have := hPlace.2; omega⟩) ?_ ?_
  · exact fun _ => rfl
  rw [hWhole]
  generalize (chain 16 (modeStep E D dec mode) ((len₁ + 15) / 16) (readMem m iv 16)
    (readMem m inp len₁)).1 = o at hNext hOut ⊢
  generalize (chain 16 (modeStep E D dec mode) ((len₁ + 15) / 16) (readMem m iv 16)
    (readMem m inp len₁)).2 = fb at hNext hFb ⊢
  have hThere : readMem (writeMem m out o) out len₁ = o := by
    have hSelf := @readMem_writeMem m out o
    rwa [hOut] at hSelf
  dsimp only
  rw [hThere, ← hNext]
  have hCall := @Computes.callRaw _ _ _ _ _ _ _ dec _ h iv₂ (inp + len₁) (out + len₁) len₂
    (writeMem (writeMem m out o) iv₂ fb) hMode₂
    ⟨by have := hPlace.1; omega, by have := hIv₂.2; omega⟩
  have hCarried : readMem (writeMem (writeMem m out o) iv₂ fb) iv₂ 16 = fb := by
    have hSelf := @readMem_writeMem (writeMem m out o) iv₂ fb
    rwa [hFb] at hSelf
  -- the rest of the input is as it was
  have hRest : readMem (writeMem (writeMem m out o) iv₂ fb) (inp + len₁) len₂ =
      readMem m (inp + len₁) len₂ := by
    rw [readMem_writeMem_apart (by omega), readMem_writeMem_apart (by have := hPlace.1; omega)]
  have hLen₂ := (@length_chain_mode E D dec mode _ (readMem m (inp + len₁) len₂) hFb
    (by rwa [length_readMem])).2
  rw [length_readMem] at hLen₂
  rw [hCarried, hRest] at hCall
  refine hCall.mono (fun _ hI => hI) ?_
  rintro _ s ⟨rfl, hI⟩
  refine ⟨?_, hI⟩
  generalize (chain 16 (modeStep E D dec mode) ((len₂ + 15) / 16) fb
    (readMem m (inp + len₁) len₂)).1 = o₂ at hLen₂ ⊢
  have hFirst :
      readMem (writeMem (writeMem (writeMem m out o) iv₂ fb) (out + len₁) o₂) out len₁ = o := by
    rw [readMem_writeMem_apart (by omega),
      readMem_writeMem_apart (by have := hIv₂.2; omega), hThere]
  have hSecond := @readMem_writeMem (writeMem (writeMem m out o) iv₂ fb) (out + len₁) o₂
  rw [hLen₂] at hSecond
  rw [readMem_add, hFirst, hSecond]

/-- One call on the whole. -/
theorem Computes.once (h : Computes steady I E D block) {iv inp out len : Nat} {m : HostMem}
    (hMode : mode.Accepts len) (hPlace : Placed iv inp out len) :
    Ends steady I (symCryptRaw block dec mode iv inp out len m) fun m' s =>
      readMem m' out len = (chain 16 (modeStep E D dec mode) ((len + 15) / 16) (readMem m iv 16)
        (readMem m inp len)).1 ∧ I s := by
  have hLen := (@length_chain_mode E D dec mode (readMem m iv 16) (readMem m inp len) length_readMem
    (by rwa [length_readMem])).2
  rw [length_readMem] at hLen
  refine (h.callRaw hMode hPlace).mono (fun _ hI => hI) ?_
  rintro _ s ⟨rfl, hI⟩
  refine ⟨?_, hI⟩
  have hSelf := @readMem_writeMem m out (chain 16 (modeStep E D dec mode) ((len + 15) / 16)
    (readMem m iv 16) (readMem m inp len)).1
  rwa [hLen] at hSelf

/-- Each mode undoes itself, in place or not, the counter counts in all its bytes, and two calls do what
one does where the second one has the IV that goes on behind the first. -/
theorem modes_inverse_and_split (h : Computes steady I E D block) (hInv : ∀ b, D (E b) = b)
    (mode : SymMode) :
    (∀ m iv inp out back len, mode.Accepts len → Placed iv inp out len → Placed iv out back len →
      Ends steady I (symBack block mode iv inp out back len m) fun m' s =>
        readMem m' back len = readMem m inp len ∧ I s) ∧
    (∀ b : Bytes, b.length = 16 → ofBe (ctrInc b) = (ofBe b + 1) % 2 ^ 128) ∧
    (∀ dec m iv iv₂ inp out len₁ len₂, len₁ % 16 = 0 → mode.Accepts (len₁ + len₂) →
      Placed iv inp out (len₁ + len₂) → Placed iv₂ inp out (len₁ + len₂) →
      (iv₂ + 16 ≤ inp ∨ inp + (len₁ + len₂) ≤ iv₂) → ∃ text : Bytes,
      (Ends steady I (symCryptRaw block dec mode iv inp out (len₁ + len₂) m) fun m' s =>
        readMem m' out (len₁ + len₂) = text ∧ I s) ∧
      Ends steady I (symTwice block (fun m m₁ =>
          nextIv dec mode (readMem m iv 16) (readMem m inp len₁) (readMem m₁ out len₁))
        dec mode iv iv₂ inp out len₁ len₂ m) fun m' s =>
          readMem m' out (len₁ + len₂) = text ∧ I s) := by
  refine ⟨?_, fun _ => ofBe_ctrInc, ?_⟩
  · intro m iv inp out back len hMode hPlace hBack
    exact h.back hInv hMode hPlace hBack
  · intro dec m iv iv₂ inp out len₁ len₂ hLen₁ hMode hPlace hIv₂ hApart
    exact ⟨_, h.once hMode hPlace, h.twice hLen₁ hMode hPlace hIv₂ hApart⟩

end Calls

/-! ### A machine that passes blocks through -/

def plainBlock : Bool → Bytes → Stateful Unit Unit (Except Int Bytes) := fun _ b => pure (.ok b)

theorem plainBlock_computes : Computes True (fun _ => True) id id plainBlock := by
  intro dec b e s hI
  cases dec <;> exact ⟨rfl, hI⟩

theorem ctr_in_place :
    Ends True (fun _ : Unit => True) (symBack plainBlock .ctr 64 0 0 0 20 fun p => p.toUInt8)
      fun m' _ => readMem m' 0 20 = readMem (fun p => p.toUInt8) 0 20 ∧ True :=
  (modes_inverse_and_split plainBlock_computes (fun _ => rfl) .ctr).1 _ 64 0 0 0 20 nofun
    ⟨.inl rfl, by decide⟩ ⟨.inl rfl, by decide⟩

/-- The buffer of the IV is as it was before the first call. -/
theorem iv_is_not_returned :
    ¬∀ (mode : SymMode) (dec : Bool) (m : HostMem) (iv inp out len₁ len₂ : Nat), len₁ % 16 = 0 →
      mode.Accepts (len₁ + len₂) → Placed iv inp out (len₁ + len₂) →
      ((symTwice plainBlock (fun _ m₁ => readMem m₁ iv 16) dec mode iv iv inp out len₁ len₂ m).run
          () ()).1.map (readMem · out (len₁ + len₂)) =
        ((symCryptRaw plainBlock dec mode iv inp out (len₁ + len₂) m).run () ()).1.map
          (readMem · out (len₁ + len₂)) := by
  intro h
  have hCtr := h .ctr false (fun _ => 0) 64 0 32 16 16 rfl nofun
    ⟨.inr (.inl (by decide)), .inr (by decide)⟩
  revert hCtr
  decide +kernel

end PqcHsm
