import PqcHsm.Rtl.VaultSlots

/-!
# The history of the key vault

The registers of the vault hold, in every cycle, what the actions so far make of empty slots. A write
reaches the vault one cycle after the front end has done it, as a pulse on the load port.
-/

namespace PqcHsm

/-! ### The registers of the vault -/

/-- The registers of a slot hold an abstract one. -/
structure KeyVault.Holds (v : KeyVault) (s : BitVec 3) (a : VaultSlot) : Prop where
  fill : (v.fill s).toNat = a.words.length
  keys : ∀ i (h : i < a.words.length), v.keys s (BitVec.ofNat 3 i) = a.words[i]
  valid : v.validMap s = a.committed
  lock : v.lockMap s = a.locked

section Holds

variable {v : KeyVault} {s sel : BitVec 3} {a : VaultSlot} {ld : LoadPort}

theorem KeyVault.Holds.of_eq {v' : KeyVault} (h : v.Holds s a) (hKeys : v'.keys s = v.keys s)
    (hFill : v'.fill s = v.fill s) (hValid : v'.validMap s = v.validMap s)
    (hLock : v'.lockMap s = v.lockMap s) : v'.Holds s a := by
  constructor
  · rw [hFill, h.fill]
  · rw [hKeys]
    exact h.keys
  · rw [hValid, h.valid]
  · rw [hLock, h.lock]

/-- The load port touches the selected slot only. -/
theorem KeyVault.load_other (hs : s ≠ ld.slot) :
    (v.load ld).keys s = v.keys s ∧ (v.load ld).fill s = v.fill s ∧
      (v.load ld).validMap s = v.validMap s ∧ (v.load ld).lockMap s = v.lockMap s := by
  unfold KeyVault.load
  dsimp only
  split_ifs <;> simp only [setAt, hs, if_false, and_self]

theorem setAt_self {α β : Type} [DecidableEq α] (f : α → β) (i : α) (b : β) : setAt f i b i = b :=
  if_pos rfl

theorem KeyVault.Holds.load_begin (h : v.Holds sel a) (wdata : BitVec 32) :
    (v.load ⟨sel, true, false, wdata, false, false, false⟩).Holds sel (a.after .begin) := by
  have hLock := h.lock
  cases hL : a.locked with
  | true =>
    rw [hL] at hLock
    have hLoad : v.load ⟨sel, true, false, wdata, false, false, false⟩ = { v with deny := true } := by
      simp only [KeyVault.load, hLock, if_true]
    have hAfter : a.after .begin = a := by simp only [VaultSlot.after, VaultSlot.step, hL]; rfl
    rw [hLoad, hAfter]
    exact h.of_eq rfl rfl rfl rfl
  | false =>
    rw [hL] at hLock
    have hLoad : v.load ⟨sel, true, false, wdata, false, false, false⟩ =
        { v with fill := setAt v.fill sel 0, validMap := setAt v.validMap sel false } := by
      simp only [KeyVault.load, hLock, Bool.false_eq_true, if_false, if_true]
    have hAfter : a.after .begin = .empty := by simp only [VaultSlot.after, VaultSlot.step, hL]; rfl
    rw [hLoad, hAfter]
    constructor
    · exact congrArg BitVec.toNat (setAt_self v.fill sel 0)
    · intro i hi
      cases hi
    · exact setAt_self v.validMap sel false
    · exact hLock

theorem KeyVault.Holds.load_word (h : v.Holds sel a) (w : BitVec 32) :
    (v.load ⟨sel, false, true, w, false, false, false⟩).Holds sel (a.after (.word w)) := by
  have hLock := h.lock
  have hFill := h.fill
  have hWords : WORDS ≤ v.fill sel ↔ 8 ≤ a.words.length := by
    rw [BitVec.le_def, hFill]
    rfl
  by_cases hLt : a.words.length < 8
  · have hOpen : a.committed = false ∧ a.locked = false := by
      have hC : a.committed = false := by
        rw [Bool.eq_false_iff]
        intro hC
        have hFull := a.full hC
        omega
      refine ⟨hC, ?_⟩
      rw [Bool.eq_false_iff]
      intro hL
      have hSealed := a.sealed hL
      rw [hC] at hSealed
      cases hSealed
    have hLoad : v.load ⟨sel, false, true, w, false, false, false⟩ =
        { v with
          keys := setAt v.keys sel (setAt (v.keys sel) ((v.fill sel).setWidth 3) w)
          fill := setAt v.fill sel (v.fill sel + 1) } := by
      simp only [KeyVault.load, hLock, hOpen.2, hWords, decide_eq_false (Nat.not_le.mpr hLt),
        Bool.or_self, Bool.false_eq_true, if_false, if_true]
    have hAfter : (a.after (.word w)).words = a.words ++ [w] ∧ (a.after (.word w)).committed = false ∧
        (a.after (.word w)).locked = false := by
      simp only [VaultSlot.after, VaultSlot.step, dif_pos hLt]
      exact ⟨rfl, rfl, rfl⟩
    have hIndex : (v.fill sel).setWidth 3 = BitVec.ofNat 3 a.words.length := by
      rw [← hFill]
      exact (BitVec.ofNat_toNat _ _).symm
    rw [hLoad]
    constructor
    · refine (congrArg BitVec.toNat (setAt_self v.fill sel (v.fill sel + 1))).trans ?_
      rw [hAfter.1, List.length_append, List.length_singleton, BitVec.toNat_add, hFill]
      exact Nat.mod_eq_of_lt (by simp; omega)
    · intro i hi
      have hLen : i < a.words.length + 1 := by simpa [hAfter.1] using hi
      simp only [hAfter.1, setAt_self, hIndex]
      by_cases hEq : i = a.words.length
      · subst hEq
        rw [setAt_self, List.getElem_concat_length rfl]
      · have hNe : BitVec.ofNat 3 i ≠ BitVec.ofNat 3 a.words.length := by
          intro hBits
          have hNat := congrArg BitVec.toNat hBits
          simp only [BitVec.toNat_ofNat] at hNat
          omega
        rw [setAt, if_neg hNe, h.keys i (by omega), List.getElem_append_left]
    · rw [hAfter.2.1]
      exact h.valid.trans hOpen.1
    · rw [hAfter.2.2]
      exact hLock.trans hOpen.2
  · have hLoad : v.load ⟨sel, false, true, w, false, false, false⟩ = { v with deny := true } := by
      simp only [KeyVault.load, hWords, decide_eq_true (Nat.not_lt.mp hLt), Bool.or_true,
        Bool.false_eq_true, if_false, if_true]
    have hAfter : a.after (.word w) = a := by
      simp only [VaultSlot.after, VaultSlot.step, dif_neg hLt]
      rfl
    rw [hLoad, hAfter]
    exact h.of_eq rfl rfl rfl rfl

theorem KeyVault.Holds.load_commit (h : v.Holds sel a) (wdata : BitVec 32) :
    (v.load ⟨sel, false, false, wdata, true, false, false⟩).Holds sel (a.after .commit) := by
  have hLock := h.lock
  have hWords : v.fill sel = WORDS ↔ a.words.length = 8 := by
    rw [← h.fill, ← BitVec.toNat_inj]
    rfl
  by_cases hOpen : a.words.length = 8 ∧ a.locked = false
  · have hLoad : v.load ⟨sel, false, false, wdata, true, false, false⟩ =
        { v with validMap := setAt v.validMap sel true } := by
      simp only [KeyVault.load, hLock, hOpen.2, ne_eq, hWords, hOpen.1, not_true, decide_false,
        Bool.or_self, Bool.false_eq_true, if_false, if_true]
    have hAfter : (a.after .commit).words = a.words ∧ (a.after .commit).committed = true ∧
        (a.after .commit).locked = false := by
      simp only [VaultSlot.after, VaultSlot.step, dif_pos hOpen]
      exact ⟨rfl, rfl, rfl⟩
    rw [hLoad]
    constructor
    · rw [hAfter.1]
      exact h.fill
    · simp only [hAfter.1]
      exact h.keys
    · exact (setAt_self v.validMap sel true).trans hAfter.2.1.symm
    · rw [hAfter.2.2]
      exact hLock.trans hOpen.2
  · have hLoad : v.load ⟨sel, false, false, wdata, true, false, false⟩ = { v with deny := true } := by
      have hRefused : (a.locked || decide ¬a.words.length = 8) = true := by
        rw [Bool.or_eq_true, decide_eq_true_eq]
        cases hL : a.locked with
        | true => exact .inl rfl
        | false => exact .inr fun hLen => hOpen ⟨hLen, hL⟩
      simp only [KeyVault.load, hLock, ne_eq, hWords, hRefused, Bool.false_eq_true, if_false, if_true]
    have hAfter : a.after .commit = a := by
      simp only [VaultSlot.after, VaultSlot.step, dif_neg hOpen]
      rfl
    rw [hLoad, hAfter]
    exact h.of_eq rfl rfl rfl rfl

theorem KeyVault.Holds.load_lock (h : v.Holds sel a) (wdata : BitVec 32) :
    (v.load ⟨sel, false, false, wdata, false, true, false⟩).Holds sel (a.after .lock) := by
  have hValid := h.valid
  cases hC : a.committed with
  | true =>
    rw [hC] at hValid
    have hLoad : v.load ⟨sel, false, false, wdata, false, true, false⟩ =
        { v with lockMap := setAt v.lockMap sel true } := by
      simp only [KeyVault.load, hValid, Bool.not_true, Bool.false_eq_true, if_false, if_true]
    have hAfter : (a.after .lock).words = a.words ∧ (a.after .lock).committed = true ∧
        (a.after .lock).locked = true := by
      simp only [VaultSlot.after, VaultSlot.step, dif_pos hC]
      exact ⟨rfl, rfl, rfl⟩
    rw [hLoad]
    constructor
    · rw [hAfter.1]
      exact h.fill
    · simp only [hAfter.1]
      exact h.keys
    · rw [hAfter.2.1]
      exact hValid
    · exact (setAt_self v.lockMap sel true).trans hAfter.2.2.symm
  | false =>
    rw [hC] at hValid
    have hLoad : v.load ⟨sel, false, false, wdata, false, true, false⟩ = { v with deny := true } := by
      simp only [KeyVault.load, hValid, Bool.not_false, Bool.false_eq_true, if_false, if_true]
    have hAfter : a.after .lock = a := by
      simp only [VaultSlot.after, VaultSlot.step, hC, Bool.false_eq_true, dif_neg, not_false_iff]
      rfl
    rw [hLoad, hAfter]
    exact h.of_eq rfl rfl rfl rfl

theorem KeyVault.Holds.load_erase (h : v.Holds sel a) (wdata : BitVec 32) :
    (v.load ⟨sel, false, false, wdata, false, false, true⟩).Holds sel (a.after .erase) := by
  have hLock := h.lock
  cases hL : a.locked with
  | true =>
    rw [hL] at hLock
    have hLoad : v.load ⟨sel, false, false, wdata, false, false, true⟩ = { v with deny := true } := by
      simp only [KeyVault.load, hLock, Bool.false_eq_true, if_false, if_true]
    have hAfter : a.after .erase = a := by simp only [VaultSlot.after, VaultSlot.step, hL]; rfl
    rw [hLoad, hAfter]
    exact h.of_eq rfl rfl rfl rfl
  | false =>
    rw [hL] at hLock
    have hLoad : v.load ⟨sel, false, false, wdata, false, false, true⟩ =
        { v with keys := setAt v.keys sel fun _ => 0
                 fill := setAt v.fill sel 0, validMap := setAt v.validMap sel false } := by
      simp only [KeyVault.load, hLock, Bool.false_eq_true, if_false, if_true]
    have hAfter : a.after .erase = .empty := by simp only [VaultSlot.after, VaultSlot.step, hL]; rfl
    rw [hLoad, hAfter]
    constructor
    · exact congrArg BitVec.toNat (setAt_self v.fill sel 0)
    · intro i hi
      cases hi
    · exact setAt_self v.validMap sel false
    · exact hLock

end Holds

/-! ### Runs -/

/-- The action of the write that is on its way to the vault. -/
def VaultSeen.action (m : VaultSeen) : Option VaultAction := m.pending.bind VaultWrite.action

theorem VaultWrite.action_ne_wipe (w : VaultWrite) : w.action ≠ some (.load .wipe) := by
  unfold VaultWrite.action
  dsimp only
  split_ifs <;> simp

theorem VaultSeen.action_ne_wipe (m : VaultSeen) : m.action ≠ some (.load .wipe) := by
  unfold VaultSeen.action
  cases m.pending with
  | none => nofun
  | some w => exact w.action_ne_wipe

/-- The trace with an action, if there is one. -/
def VaultTrace.acts (t : VaultTrace) (a : Option VaultAction) : VaultTrace := (a.map t.act).getD t

/-- The registers are what the events make of an empty vault, and the pulses of the front end are the
write on its way. -/
structure VaultAxi.Agrees (V : VaultAxi) (m : VaultSeen) : Prop where
  port : ∃ wdata, V.front.loadPort = VaultAction.port m.trace.sel wdata m.action
  zeroize : V.front.doZeroize = true ↔ m.action = some .zeroize
  tampered : V.vault.tamperLatched = m.trace.tampered
  slots : ∀ s, V.vault.Holds s (slotOf (m.trace.ops s))
  emptied : m.trace.tampered = true → ∀ s, slotOf (m.trace.ops s) = .empty

section Step

variable {p : VaultParams} {V : VaultAxi} {m : VaultSeen} {x : VaultIn}

/-- The write of the last cycle first, then the wipes. -/
theorem VaultSeen.trace_see : (m.see p V x).trace =
    (ifSome x.extZeroize VaultEvent.zeroize ++ ifSome x.tamper VaultEvent.tamper).foldl VaultTrace.add
      (m.trace.acts m.action) := by
  have hFirst : (m.pending.map VaultEvent.write).toList.foldl VaultTrace.add m.trace =
      m.trace.acts m.action := by
    rw [VaultSeen.action]
    cases m.pending with
    | none => rfl
    | some w => rfl
  show (m.events ++ m.now x).foldl VaultTrace.add .start = _
  rw [List.foldl_append, VaultSeen.now, List.append_assoc, List.foldl_append]
  exact congrArg (fun t => List.foldl VaultTrace.add t _) hFirst

theorem VaultSeen.trace_quiet (hE : x.extZeroize = false) (hT : x.tamper = false) :
    (m.see p V x).trace = m.trace.acts m.action := by
  rw [VaultSeen.trace_see, hE, hT]
  rfl

theorem VaultSeen.sel_see : (m.see p V x).trace.sel = (m.trace.acts m.action).sel := by
  rw [VaultSeen.trace_see]
  cases x.extZeroize <;> cases x.tamper <;> rfl

theorem VaultAction.port_slot (t : VaultTrace) (wdata : BitVec 32) (a : Option VaultAction) :
    (VaultAction.port t.sel wdata a).slot = (t.acts a).sel := by
  cases a with
  | none => rfl
  | some a =>
    cases a with
    | zeroize => rfl
    | select s => rfl
    | load op => cases op <;> simp only [VaultTrace.acts, VaultTrace.act, Option.map_some,
        Option.getD_some] <;> split <;> rfl

theorem VaultTrace.acts_tampered (t : VaultTrace) (a : Option VaultAction) :
    (t.acts a).tampered = t.tampered := by
  cases a with
  | none => rfl
  | some a =>
    cases a with
    | zeroize => rfl
    | select s => rfl
    | load op =>
      simp only [VaultTrace.acts, VaultTrace.act, Option.map_some, Option.getD_some]
      split <;> rfl

theorem VaultTrace.acts_ops {t : VaultTrace} {a : Option VaultAction} (h : t.tampered = true)
    (hZero : a ≠ some .zeroize) : (t.acts a).ops = t.ops := by
  cases a with
  | none => rfl
  | some a =>
    cases a with
    | zeroize => exact absurd rfl hZero
    | select n => rfl
    | load op => simp only [VaultTrace.acts, VaultTrace.act, Option.map_some, Option.getD_some, h, if_true]

theorem KeyVault.load_tamperLatched (v : KeyVault) (ld : LoadPort) :
    (v.load ld).tamperLatched = v.tamperLatched := by
  unfold KeyVault.load
  dsimp only
  split_ifs <;> rfl

theorem KeyVault.next_tamperLatched (v : KeyVault) (ld : LoadPort) (zeroize tamper : Bool) :
    (v.next ld zeroize tamper).tamperLatched = (v.tamperLatched || tamper) := by
  unfold KeyVault.next
  dsimp only
  split_ifs
  · rfl
  · rfl
  · rw [KeyVault.load_tamperLatched]

/-- The pulses that a cycle leaves are those of the write that it does. -/
theorem VaultAxi.Agrees.port_next (h : V.Agrees m) :
    (∃ wdata, (V.next p x).front.loadPort =
      VaultAction.port (m.see p V x).trace.sel wdata (m.see p V x).action) ∧
    ((V.next p x).front.doZeroize = true ↔ (m.see p V x).action = some .zeroize) := by
  obtain ⟨wdata, hPort⟩ := h.port
  have hSel : V.front.slotSel = (m.see p V x).trace.sel := by
    rw [VaultSeen.sel_see, ← VaultAction.port_slot, ← hPort]
    rfl
  have hAction : (m.see p V x).action = V.performed.bind VaultWrite.action := rfl
  rw [hAction, ← hSel, VaultAxi.performed]
  let low : VaultFront :=
    { V.front with ldBegin := false, ldWe := false, ldCommit := false, ldLock := false, ldErase := false
                   doZeroize := false
                   denySticky := (V.front.denySticky || V.vault.deny) && !x.extZeroize }
  have hNext : (V.next p x).front.loadPort =
      (if V.front.wrNow V.fw.toSlave then low.write V.fw.toSlave else low).loadPort := rfl
  have hZero : (V.next p x).front.doZeroize =
      (if V.front.wrNow V.fw.toSlave then low.write V.fw.toSlave else low).doZeroize := rfl
  rw [hNext, hZero]
  cases V.front.wrNow V.fw.toSlave with
  | false => exact ⟨⟨V.front.ldWdata, rfl⟩, by simp [low]⟩
  | true =>
    have hWrite := VaultFront.write_port (r := low) (m := V.fw.toSlave) rfl rfl rfl
    exact ⟨⟨V.front.ldWdata, hWrite.1⟩, hWrite.2⟩

/-- A wipe leaves every slot empty, on both sides. -/
theorem KeyVault.next_wiped (v : KeyVault) (ld : LoadPort) (s : BitVec 3) {zeroize tamper : Bool}
    (h : (zeroize || tamper) = true) : (v.next ld zeroize tamper).Holds s .empty := by
  unfold KeyVault.next
  dsimp only
  rw [if_pos h]
  constructor
  · rfl
  · intro i hi
    cases hi
  · rfl
  · rfl

theorem VaultSeen.wiped (h : (m.action = some .zeroize) ∨ x.extZeroize = true ∨ x.tamper = true)
    (s : BitVec 3) : slotOf ((m.see p V x).trace.ops s) = .empty := by
  rw [VaultSeen.trace_see]
  cases hT : x.tamper with
  | true => cases x.extZeroize <;> exact slotOf_wipe _
  | false =>
    cases hE : x.extZeroize with
    | true => exact slotOf_wipe _
    | false =>
      rw [hT, hE] at h
      obtain hA | hE | hT := h
      · rw [hA]
        exact slotOf_wipe _
      · cases hE
      · cases hT

/-- Without a wipe, the load port does to the registers what the action does to the slot. -/
theorem VaultAxi.Agrees.load (h : V.Agrees m) (hOpen : m.trace.tampered = false)
    (hZero : m.action ≠ some .zeroize) (v : KeyVault)
    (hV : ∀ s, v.Holds s (slotOf (m.trace.ops s))) (s : BitVec 3) :
    (v.load V.front.loadPort).Holds s (slotOf ((m.trace.acts m.action).ops s)) := by
  obtain ⟨wdata, hPort⟩ := h.port
  rw [hPort]
  cases hA : m.action with
  | none => exact hV s
  | some a =>
    cases a with
    | zeroize => exact absurd hA hZero
    | select n => exact hV s
    | load op =>
      have hOps : (m.trace.acts (some (.load op))).ops =
          setAt m.trace.ops m.trace.sel (m.trace.ops m.trace.sel ++ [op]) := by
        simp only [VaultTrace.acts, VaultTrace.act, Option.map_some, Option.getD_some, hOpen,
          Bool.false_eq_true, if_false]
      rw [hOps]
      by_cases hs : s = m.trace.sel
      · rw [hs, setAt_self, slotOf_concat]
        cases op with
        | begin => exact (hV _).load_begin wdata
        | word w => exact (hV _).load_word w
        | commit => exact (hV _).load_commit wdata
        | lock => exact (hV _).load_lock wdata
        | erase => exact (hV _).load_erase wdata
        | wipe => exact absurd hA m.action_ne_wipe
      · rw [setAt, if_neg hs]
        have hOther : s ≠ (VaultAction.port m.trace.sel wdata (some (.load op))).slot := by
          cases op <;> exact hs
        obtain ⟨hKeys, hFill, hValid, hLock⟩ := KeyVault.load_other (v := v) hOther
        exact (hV s).of_eq hKeys hFill hValid hLock

theorem VaultAxi.Agrees.slots_next (h : V.Agrees m) (s : BitVec 3) :
    (V.next p x).vault.Holds s (slotOf ((m.see p V x).trace.ops s)) := by
  show (V.vault.next V.front.loadPort (V.front.doZeroize || x.extZeroize) x.tamper).Holds s _
  cases hWipe : (V.front.doZeroize || x.extZeroize || x.tamper) with
  | true =>
    have hEmpty := VaultSeen.wiped (p := p) (V := V) (x := x) (m := m) (by
      rw [Bool.or_eq_true, Bool.or_eq_true, or_assoc] at hWipe
      exact hWipe.imp_left h.zeroize.mp) s
    rw [hEmpty]
    exact KeyVault.next_wiped _ _ s hWipe
  | false =>
    have hWipe' := hWipe
    rw [Bool.or_eq_false_iff, Bool.or_eq_false_iff] at hWipe'
    obtain ⟨⟨hZ, hE⟩, hT⟩ := hWipe'
    have hZero : m.action ≠ some .zeroize := fun hA => by
      rw [h.zeroize.mpr hA] at hZ
      cases hZ
    rw [VaultSeen.trace_quiet hE hT]
    unfold KeyVault.next
    dsimp only
    rw [if_neg (by rw [hWipe]; exact Bool.false_ne_true), KeyVault.tamperNow, hT, Bool.false_or,
      h.tampered]
    cases hOpen : m.trace.tampered with
    | false =>
      rw [if_neg Bool.false_ne_true]
      refine h.load hOpen hZero _ (fun s => ?_) s
      exact (h.slots s).of_eq rfl rfl rfl rfl
    | true =>
      rw [VaultTrace.acts_ops hOpen hZero, if_pos rfl]
      exact (h.slots s).of_eq rfl rfl rfl rfl

theorem VaultAxi.Agrees.emptied_next (h : V.Agrees m)
    (hT : (m.see p V x).trace.tampered = true) (s : BitVec 3) :
    slotOf ((m.see p V x).trace.ops s) = .empty := by
  by_cases hWipe : m.action = some .zeroize ∨ x.extZeroize = true ∨ x.tamper = true
  · exact VaultSeen.wiped hWipe s
  · rw [not_or, not_or, Bool.not_eq_true, Bool.not_eq_true] at hWipe
    obtain ⟨hZero, hE, hX⟩ := hWipe
    rw [VaultSeen.trace_quiet hE hX] at hT ⊢
    rw [VaultTrace.acts_tampered] at hT
    rw [VaultTrace.acts_ops hT hZero]
    exact h.emptied hT s

/-- Every edge keeps the agreement. -/
theorem VaultAxi.Agrees.next (h : V.Agrees m) : (V.next p x).Agrees (m.see p V x) := by
  constructor
  · exact h.port_next.1
  · exact h.port_next.2
  · show (V.vault.next _ _ _).tamperLatched = _
    rw [KeyVault.next_tamperLatched, h.tampered, VaultSeen.trace_see,
      ← VaultTrace.acts_tampered m.trace m.action]
    cases x.extZeroize <;> cases x.tamper <;> simp [ifSome, VaultTrace.add, VaultTrace.wipe]
  · exact h.slots_next
  · exact h.emptied_next

theorem VaultAxi.agrees_reset (p : VaultParams) : (VaultAxi.reset).Agrees ⟨.empty p.fw, [], none⟩ := by
  constructor
  · exact ⟨0, rfl⟩
  · exact ⟨nofun, nofun⟩
  · rfl
  · intro s
    constructor
    · rfl
    · intro i hi
      cases hi
    · rfl
    · rfl
  · nofun

theorem VaultSeen.writes_see : (m.see p V x).writes = m.writes ++ V.performed.toList := by
  have hNow : (m.now x).filterMap VaultEvent.write? = m.pending.toList := by
    rw [VaultSeen.now]
    cases m.pending <;> cases x.extZeroize <;> cases x.tamper <;> rfl
  simp only [VaultSeen.writes, VaultSeen.see, List.filterMap_append, hNow]

/-- The front end does the writes that the firewall has handed over. -/
theorem VaultAxi.handed_next (hIn : V.InStep)
    (h : m.writes.map Prod.fst = m.fw.wr.mAw ∧ m.writes.map Prod.snd = m.fw.wr.mW) :
    (m.see p V x).writes.map Prod.fst = (m.see p V x).fw.wr.mAw ∧
      (m.see p V x).writes.map Prod.snd = (m.see p V x).fw.wr.mW := by
  have hAw : (m.see p V x).fw.wr.mAw = m.fw.wr.mAw ++
      ifSome (V.fw.wr.mAwvalid && V.front.fAwready) (V.fw.wr.awAddr, V.fw.wr.awProt) := rfl
  have hW : (m.see p V x).fw.wr.mW = m.fw.wr.mW ++
      ifSome (V.fw.wr.mWvalid && V.front.fWready) (V.fw.wr.wData, V.fw.wr.wStrb) := rfl
  rw [VaultSeen.writes_see, List.map_append, List.map_append, h.1, h.2, hAw, hW, VaultAxi.performed,
    hIn.wrNow]
  by_cases hSt : V.fw.wr.wst = .fwd
  · obtain ⟨hAwv, hWv, hAwr, hWr⟩ := hIn.handshakes hSt
    simp [hSt, hAwv, hWv, hAwr, hWr, ifSome, VaultFront.wrAddr, VaultFront.wrProt, VaultFront.wrData,
      VaultFront.wrStrb, Firewall.toSlave]
  · have hPhase := hIn.phase
    have hOff : V.fw.wr.mAwvalid = false ∧ V.fw.wr.mWvalid = false := by
      cases hW : V.fw.wr.wst <;> simp only [hW] at hPhase
      · exact ⟨hPhase.1, hPhase.2.1⟩
      · exact absurd hW hSt
      · exact ⟨hPhase.1, hPhase.2.1⟩
      · exact ⟨hPhase.1, hPhase.2.1⟩
      · exact ⟨hPhase.1, hPhase.2.1⟩
    simp [hSt, hOff, ifSome]

/-- Without a secure write in flight, an edge leaves slots and selection alone but for a wipe. -/
theorem VaultAxi.Agrees.unsecured (h : V.Agrees m)
    (hAction : m.action = none ∨ m.action = some .zeroize) (hZero : V.zeroize x = false)
    (hTamper : x.tamper = false) :
    let v := (V.next p x).vault
    v.keys = V.vault.keys ∧ v.fill = V.vault.fill ∧ v.validMap = V.vault.validMap ∧
      v.lockMap = V.vault.lockMap := by
  obtain ⟨wdata, hPort⟩ := h.port
  have hQuiet : V.front.loadPort = ⟨m.trace.sel, false, false, wdata, false, false, false⟩ := by
    rw [hPort]
    obtain hNone | hZ := hAction
    · rw [hNone]
      rfl
    · rw [hZ]
      rfl
  simp only [VaultAxi.next, KeyVault.next, hZero, hTamper, Bool.or_self, Bool.false_eq_true, if_false,
    hQuiet, KeyVault.load]
  split <;> exact ⟨rfl, rfl, rfl, rfl⟩

end Step

theorem List.prefix_of_maps {α β : Type} {l l' : List (α × β)}
    (h₁ : l.map Prod.fst <+: l'.map Prod.fst) (h₂ : l.map Prod.snd <+: l'.map Prod.snd) : l <+: l' := by
  induction l generalizing l' with
  | nil => exact List.nil_prefix
  | cons a l ih =>
    cases l' with
    | nil => exact absurd h₁.length_le (by simp)
    | cons b l' =>
      rw [List.map_cons, List.map_cons, List.cons_prefix_cons] at h₁ h₂
      rw [List.cons_prefix_cons]
      exact ⟨Prod.ext h₁.1 h₂.1, ih h₁.2 h₂.2⟩

section History

variable {p : VaultParams} {ins : Nat → VaultIn} {k : Nat}

theorem VaultAxi.agrees (p : VaultParams) (ins : Nat → VaultIn) (k : Nat) :
    ((VaultAxi.circuit p).after ins k).Agrees (VaultAxi.history p ins k) :=
  Clocked.invariant_record (C := VaultAxi.circuit p) (I := VaultAxi.Agrees) (VaultAxi.agrees_reset p)
    (fun _ _ _ h => h.next) k

theorem VaultAxi.history_fw (p : VaultParams) (ins : Nat → VaultIn) (k : Nat) :
    (VaultAxi.history p ins k).fw = VaultAxi.seen p ins k := by
  induction k with
  | zero => rfl
  | succ k ih => exact congrArg (fun m => @FwSeen.see p.fw m _ _) ih

theorem VaultAxi.handed (p : VaultParams) (ins : Nat → VaultIn) (k : Nat) :
    (VaultAxi.history p ins k).writes.map Prod.fst = (VaultAxi.seen p ins k).wr.mAw ∧
      (VaultAxi.history p ins k).writes.map Prod.snd = (VaultAxi.seen p ins k).wr.mW := by
  rw [← VaultAxi.history_fw]
  induction k with
  | zero => exact ⟨rfl, rfl⟩
  | succ k ih => exact VaultAxi.handed_next (VaultAxi.inStep p ins k) ih

theorem VaultAxi.writes_passed (p : VaultParams) (ins : Nat → VaultIn) (k : Nat) :
    (VaultAxi.history p ins k).writes <+: Judged.passed (VaultAxi.seen p ins k).wr.judged := by
  have hFilters := (VaultAxi.tracks p ins k).filters
  obtain ⟨hAw, hW⟩ := VaultAxi.handed p ins k
  apply List.prefix_of_maps
  · exact ⟨_, (congrArg (· ++ _) hAw).trans hFilters.wrAddr.symm⟩
  · exact ⟨_, (congrArg (· ++ _) hW).trans hFilters.wrData.symm⟩

theorem VaultWrite.action_unsecured {w : VaultWrite} (h : w.1.2.getLsbD 1 = true) :
    w.action = none ∨ w.action = some .zeroize := by
  unfold VaultWrite.action
  dsimp only
  split_ifs <;> simp

/-- What one event adds to the actions on a slot: nothing, a wipe, or what a secure write asks for. -/
theorem VaultTrace.add_ops (t : VaultTrace) (e : VaultEvent) (s : BitVec 3) :
    (t.add e).ops s = t.ops s ∨ ∃ op, (t.add e).ops s = t.ops s ++ [op] ∧
      (op = .wipe ∨ ∃ w : VaultWrite, e = .write w ∧ w.1.2.getLsbD 1 = false ∧
        w.action = some (.load op)) := by
  cases e with
  | zeroize => exact .inr ⟨.wipe, rfl, .inl rfl⟩
  | tamper => exact .inr ⟨.wipe, rfl, .inl rfl⟩
  | write w =>
    simp only [VaultTrace.add]
    cases hA : w.action with
    | none => exact .inl rfl
    | some a =>
      cases a with
      | zeroize => exact .inr ⟨.wipe, rfl, .inl rfl⟩
      | select n => exact .inl rfl
      | load op =>
        simp only [VaultTrace.act, Option.map_some, Option.getD_some]
        split
        · exact .inl rfl
        · by_cases hs : s = t.sel
          · subst hs
            refine .inr ⟨op, setAt_self _ _ _, .inr ⟨w, rfl, ?_, hA⟩⟩
            rw [Bool.eq_false_iff]
            intro hProt
            obtain hNone | hZ := VaultWrite.action_unsecured hProt
            · rw [hA] at hNone
              cases hNone
            · rw [hA] at hZ
              cases hZ
          · exact .inl (if_neg hs)

/-- Every action on a slot that is not a wipe was asked for by a secure write. -/
theorem traceOf_secure (events : List VaultEvent) (s : BitVec 3) :
    ∀ op ∈ (traceOf events).ops s, op = .wipe ∨
      ∃ w : VaultWrite, .write w ∈ events ∧ w.1.2.getLsbD 1 = false ∧ w.action = some (.load op) := by
  induction events using List.reverseRecOn with
  | nil => nofun
  | append_singleton events e ih =>
    have hLater : ∀ op ∈ (traceOf events).ops s, op = .wipe ∨ ∃ w : VaultWrite,
        .write w ∈ events ++ [e] ∧ w.1.2.getLsbD 1 = false ∧ w.action = some (.load op) := by
      intro op hOp
      obtain hWipe | ⟨w, hMem, hRest⟩ := ih op hOp
      · exact .inl hWipe
      · exact .inr ⟨w, List.mem_append_left _ hMem, hRest⟩
    have hTrace : traceOf (events ++ [e]) = (traceOf events).add e := by
      rw [traceOf, List.foldl_append]
      rfl
    intro op hOp
    rw [hTrace] at hOp
    obtain hSame | ⟨new, hNew, hFrom⟩ := (traceOf events).add_ops e s
    · rw [hSame] at hOp
      exact hLater op hOp
    · rw [hNew, List.mem_append, List.mem_singleton] at hOp
      obtain hOld | rfl := hOp
      · exact hLater op hOld
      · refine hFrom.imp_right ?_
        rintro ⟨w, rfl, hRest⟩
        exact ⟨w, by simp, hRest⟩

theorem VaultTrace.foldl_ops (es : List VaultEvent) (t : VaultTrace) (s : BitVec 3) :
    t.ops s <+: (es.foldl VaultTrace.add t).ops s := by
  induction es generalizing t with
  | nil => exact List.prefix_rfl
  | cons e es ih =>
    refine List.IsPrefix.trans ?_ (ih (t.add e))
    obtain hSame | ⟨op, hOp, -⟩ := t.add_ops e s
    · exact hSame.symm ▸ List.prefix_refl _
    · exact hOp.symm ▸ List.prefix_append _ _

/-- The events of later cycles come after those of earlier ones. -/
theorem VaultAxi.ops_grow (p : VaultParams) (ins : Nat → VaultIn) (k n : Nat) (s : BitVec 3) :
    ∃ new, (VaultAxi.history p ins (k + n)).trace.ops s =
      (VaultAxi.history p ins k).trace.ops s ++ new := by
  induction n with
  | zero => exact ⟨[], (List.append_nil _).symm⟩
  | succ n ih =>
    obtain ⟨new, hNew⟩ := ih
    obtain ⟨more, hMore⟩ := VaultTrace.foldl_ops
      ((VaultAxi.history p ins (k + n)).now (ins (k + n))) (VaultAxi.history p ins (k + n)).trace s
    refine ⟨new ++ more, ?_⟩
    rw [← List.append_assoc, ← hNew, hMore]
    exact congrArg (fun t : VaultTrace => t.ops s) List.foldl_append

theorem VaultAxi.tampered_stays (p : VaultParams) (ins : Nat → VaultIn) (j n : Nat)
    (h : (ins j).tamper = true) :
    ((VaultAxi.circuit p).after ins (j + n + 1)).vault.tamperLatched = true := by
  have hNext : ∀ k, ((VaultAxi.circuit p).after ins (k + 1)).vault.tamperLatched =
      (((VaultAxi.circuit p).after ins k).vault.tamperLatched || (ins k).tamper) :=
    fun k => KeyVault.next_tamperLatched _ _ _ _
  induction n with
  | zero =>
    rw [Nat.add_zero, hNext, h, Bool.or_true]
  | succ n ih =>
    rw [hNext, ← Nat.add_assoc, ih, Bool.true_or]

end History

section Integrity

variable (p : VaultParams) (ins : Nat → VaultIn)

/-- What the slots of the vault promise, in a run with the given inputs. -/
structure VaultIntegrity : Prop where
  /-- A valid slot was given eight words since it was last empty, then a commit, and offers them. -/
  loaded : ∀ k s, ((VaultAxi.circuit p).after ins k).vault.validMap s = true →
    ∃ (pre : List LoadOp) (ws : List (BitVec 32)) (post : List LoadOp), taken ((VaultAxi.history p ins k).trace.ops s) =
        pre ++ ws.map LoadOp.word ++ .commit :: post ∧
      Clean pre ∧ (∀ op ∈ post, op = .commit ∨ op = .lock) ∧ ws.length = 8 ∧
      ((VaultAxi.circuit p).after ins k).vault.useKey s false = joinWords fun i => ws.getD i.toNat 0
  /-- What is done to a slot was asked for by secure writes, which the firewall has let through. -/
  secure : ∀ k s, ∀ op ∈ (VaultAxi.history p ins k).trace.ops s, op = .wipe ∨
    ∃ w : VaultWrite, .write w ∈ (VaultAxi.history p ins k).events ∧ w.1.2.getLsbD 1 = false ∧
      w.action = some (.load op)
  passed : ∀ k, (VaultAxi.history p ins k).writes <+: Judged.passed (VaultAxi.seen p ins k).wr.judged
  /-- A valid slot is the same until it is begun, erased or wiped, a locked one until it is wiped. -/
  stays : ∀ k n s, ∃ new, (VaultAxi.history p ins (k + n)).trace.ops s =
      (VaultAxi.history p ins k).trace.ops s ++ new ∧
    let v := ((VaultAxi.circuit p).after ins k).vault
    let v' := ((VaultAxi.circuit p).after ins (k + n)).vault
    (v.validMap s = true → (∀ op ∈ new, op.clears = false) →
      v'.validMap s = true ∧ v'.keys s = v.keys s) ∧
    (v.lockMap s = true → LoadOp.wipe ∉ new →
      v'.lockMap s = true ∧ v'.validMap s = true ∧ v'.keys s = v.keys s)
  locked : ∀ k s, ((VaultAxi.circuit p).after ins k).vault.lockMap s = true →
    ((VaultAxi.circuit p).after ins k).vault.validMap s = true
  /-- A cycle without a secure write changes nothing two edges later but by `CTRL.ZEROIZE`. -/
  unsecured : ∀ k,
    let V := (VaultAxi.circuit p).after ins
    (∀ w ∈ (V k).performed, w.1.2.getLsbD 1 = true) →
      (V (k + 1)).front.slotSel = (V k).front.slotSel ∧
      ((V (k + 1)).front.doZeroize = true → ∃ w ∈ (V k).performed, w.action = some .zeroize) ∧
      ((V (k + 1)).zeroize (ins (k + 1)) = false → (ins (k + 1)).tamper = false →
        (V (k + 2)).vault.keys = (V (k + 1)).vault.keys ∧
        (V (k + 2)).vault.fill = (V (k + 1)).vault.fill ∧
        (V (k + 2)).vault.validMap = (V (k + 1)).vault.validMap ∧
        (V (k + 2)).vault.lockMap = (V (k + 1)).vault.lockMap)
  /-- From the cycle of a tamper on, no key is offered. -/
  tampered : ∀ j n sel, (ins j).tamper = true →
    let v := ((VaultAxi.circuit p).after ins (j + n)).vault
    v.useValid sel (ins (j + n)).tamper = false ∧ v.useKey sel (ins (j + n)).tamper = 0

variable {p} {ins}

/-- A slot that holds eight words shows them, the first one highest. -/
theorem KeyVault.Holds.keys_eq {v : KeyVault} {s : BitVec 3} {a : VaultSlot} (h : v.Holds s a)
    (hLen : a.words.length = 8) : v.keys s = fun i => a.words.getD i.toNat 0 := by
  funext i
  have hLt : i.toNat < a.words.length := by
    rw [hLen]
    exact i.isLt
  have hKey := h.keys i.toNat hLt
  rw [BitVec.ofNat_toNat, BitVec.setWidth_eq] at hKey
  simp [hKey, hLt]

end Integrity

/-- The slots of the vault, in every run. -/
theorem vault_integrity (p : VaultParams) (ins : Nat → VaultIn) : VaultIntegrity p ins := by
  constructor
  · intro k s hValid
    have hAgrees := VaultAxi.agrees p ins k
    have hHolds := hAgrees.slots s
    have hCommitted := hHolds.valid.symm.trans hValid
    have hLen := (slotOf ((VaultAxi.history p ins k).trace.ops s)).full hCommitted
    obtain ⟨pre, post, hOps, hPre, hPost, hNe, hHead⟩ :=
      (loaded_slotOf ((VaultAxi.history p ins k).trace.ops s)).split
    obtain ⟨-, hCommit⟩ := hHead (hNe hCommitted)
    obtain ⟨rest, rfl⟩ := List.head?_eq_some_iff.mp hCommit
    refine ⟨pre, _, rest, hOps, hPre, fun op hOp => hPost op (List.mem_cons_of_mem _ hOp), hLen, ?_⟩
    have hLatched : ((VaultAxi.circuit p).after ins k).vault.tamperLatched = false := by
      rw [hAgrees.tampered, Bool.eq_false_iff]
      intro hT
      rw [hAgrees.emptied hT s] at hCommitted
      cases hCommitted
    rw [KeyVault.useKey, KeyVault.tamperNow, hLatched, hHolds.keys_eq hLen]
    rfl
  · exact fun k s => traceOf_secure _ s
  · exact VaultAxi.writes_passed p ins
  · intro k n s
    obtain ⟨new, hNew⟩ := VaultAxi.ops_grow p ins k n s
    have hBefore := (VaultAxi.agrees p ins k).slots s
    have hAfter := (VaultAxi.agrees p ins (k + n)).slots s
    rw [hNew, slotOf_append] at hAfter
    refine ⟨new, hNew, ?_, ?_⟩
    · intro hValid hClears
      have hCommitted := hBefore.valid.symm.trans hValid
      obtain ⟨hKept, hWords⟩ := committed_keeps hCommitted hClears
      have hLen := VaultSlot.full _ hCommitted
      refine ⟨hAfter.valid.trans hKept, ?_⟩
      rw [hAfter.keys_eq (hWords ▸ hLen), hBefore.keys_eq hLen, hWords]
    · intro hLock hWipe
      have hLocked := hBefore.lock.symm.trans hLock
      obtain ⟨hKept, hWords⟩ := locked_keeps hLocked hWipe
      have hLen := VaultSlot.full _ (VaultSlot.sealed _ hLocked)
      refine ⟨hAfter.lock.trans hKept, hAfter.valid.trans (VaultSlot.sealed _ hKept), ?_⟩
      rw [hAfter.keys_eq (hWords ▸ hLen), hBefore.keys_eq hLen, hWords]
  · intro k s hLock
    have hHolds := (VaultAxi.agrees p ins k).slots s
    exact hHolds.valid.trans (VaultSlot.sealed _ (hHolds.lock.symm.trans hLock))
  · intro k V hUnsecured
    have hNext := VaultAxi.agrees p ins (k + 1)
    have hAction : (VaultAxi.history p ins (k + 1)).action = (V k).performed.bind VaultWrite.action := rfl
    have hNone : (VaultAxi.history p ins (k + 1)).action = none ∨
        (VaultAxi.history p ins (k + 1)).action = some .zeroize := by
      rw [hAction]
      cases hW : (V k).performed with
      | none => exact .inl rfl
      | some w => exact VaultWrite.action_unsecured (hUnsecured w (by rw [hW]; rfl))
    refine ⟨?_, ?_, ?_⟩
    · obtain ⟨wdata, hPort⟩ := hNext.port
      obtain ⟨wdata', hPort'⟩ := (VaultAxi.agrees p ins k).port
      have hSel : (V (k + 1)).front.slotSel = (VaultAxi.history p ins (k + 1)).trace.sel := by
        refine (congrArg LoadPort.slot hPort).trans ?_
        obtain hA | hA := hNone <;> rw [hA] <;> rfl
      have hSlot := (VaultAction.port_slot _ wdata' _).symm.trans (congrArg LoadPort.slot hPort').symm
      exact hSel.trans (VaultSeen.sel_see.trans hSlot)
    · intro hZ
      have hA := hNext.zeroize.mp hZ
      rw [hAction] at hA
      obtain ⟨w, hW, hAct⟩ := Option.bind_eq_some_iff.mp hA
      exact ⟨w, hW, hAct⟩
    · exact fun hZ hT => hNext.unsecured hNone hZ hT
  · intro j n sel hTamper v
    have hNow : v.tamperNow (ins (j + n)).tamper = true := by
      cases n with
      | zero =>
        rw [KeyVault.tamperNow, Nat.add_zero, hTamper]
        rfl
      | succ n =>
        have hStays : v.tamperLatched = true := VaultAxi.tampered_stays p ins j n hTamper
        rw [KeyVault.tamperNow, hStays, Bool.or_true]
    rw [KeyVault.useValid, KeyVault.useKey, hNow]
    exact ⟨Bool.and_false _, if_pos rfl⟩

/-- A master that does the given writes one after the other, in four cycles each. -/
def writeSequence (ws : List VaultWrite) (k : Nat) : VaultIn :=
  let w := ws[k / 4]?
  let valid := k % 4 = 0 ∧ w.isSome
  let ((addr, prot), data, strb) := w.getD ((0, 0), (0, 0))
  ⟨⟨addr, prot, valid, data, strb, valid, true, 0, 0, false, true⟩, false, false, 0⟩

/-- A secure write of a whole word. -/
def secureWrite (addr : BitVec 8) (data : BitVec 32) : VaultWrite := ((addr, 0), (data, 0xF))

/-- A load that is given up after one word, and another one after an erase. -/
def reloaded : List VaultWrite :=
  [secureWrite 0x14 1, secureWrite 0x10 9, secureWrite 0x14 8] ++
    (List.range 8).map (fun i => secureWrite 0x10 i) ++ [secureWrite 0x14 2]

def LoadOp.isWord : LoadOp → Bool
  | .word _ => true
  | _ => false

/-- An erase starts a load as well as `BEGIN` does: since the last `BEGIN` there may be more words. -/
theorem vault_words_since_begin :
    ¬ ∀ (p : VaultParams) (ins : Nat → VaultIn) (k : Nat) (s : BitVec 3),
      ((VaultAxi.circuit p).after ins k).vault.validMap s = true →
        ((taken ((VaultAxi.history p ins k).trace.ops s)).reverse.takeWhile
          (· ≠ .begin)).countP LoadOp.isWord = 8 := by
  intro h
  have hValid : ((VaultAxi.circuit ⟨0x00010000, true⟩).after (writeSequence reloaded) 50).vault.validMap 0 =
      true := by decide +kernel
  have hEight := h _ _ _ _ hValid
  revert hEight
  decide

end PqcHsm
