import PqcHsm.Rtl.FirewallFilter
import PqcHsm.Rtl.KeyVault

/-!
# What the key vault shows

Two runs of `key_vault_axi` on inputs that differ in the data of writes to `KEY_IN` only. The
registers that may differ are the key array and the three that hold write data on its way there;
the two that other registers are also written from are compared again whenever a request is complete.
-/

namespace PqcHsm

/-- The same inputs with other write data. -/
def VaultIn.withData (x : VaultIn) (d : BitVec 32) : VaultIn := { x with s := { x.s with wdata := d } }

def FwIn.withData {aw : Nat} (x : FwIn aw) (d : BitVec 32) : FwIn aw :=
  { x with s := { x.s with wdata := d } }

def FwWrite.withData {aw : Nat} (w : FwWrite aw) (d : BitVec 32) : FwWrite aw := { w with wData := d }

def VaultFront.withData (r : VaultFront) (d l : BitVec 32) : VaultFront :=
  { r with wData := d, ldWdata := l }

def KeyVault.withKeys (v : KeyVault) (keys : BitVec 3 → BitVec 3 → BitVec 32) : KeyVault :=
  { v with keys }

/-- The same registers with other keys and other write data. -/
def VaultAxi.withSecrets (V : VaultAxi) (d e l : BitVec 32) (keys : BitVec 3 → BitVec 3 → BitVec 32) :
    VaultAxi where
  fw := { V.fw with wr := V.fw.wr.withData d }
  front := V.front.withData e l
  vault := V.vault.withKeys keys

/-- The registers without keys and write data. -/
def VaultAxi.blank (V : VaultAxi) : VaultAxi := V.withSecrets 0 0 0 fun _ _ => 0

theorem VaultAxi.eq_withSecrets {V V' : VaultAxi} (h : V'.blank = V.blank) :
    V' = V.withSecrets V'.fw.wr.wData V'.front.wData V'.front.ldWdata V'.vault.keys := by
  calc
    V' = V'.blank.withSecrets V'.fw.wr.wData V'.front.wData V'.front.ldWdata V'.vault.keys := rfl
    _ = V.blank.withSecrets V'.fw.wr.wData V'.front.wData V'.front.ldWdata V'.vault.keys := by rw [h]
    _ = V.withSecrets V'.fw.wr.wData V'.front.wData V'.front.ldWdata V'.vault.keys := rfl

/-- The registers agree but for keys and write data, and a word that is being forwarded to another
register than `KEY_IN` is the same. -/
structure SameButKeys (V V' : VaultAxi) : Prop where
  blank : V'.blank = V.blank
  forwarded : V.fw.wr.wst = .fwd →
    regOf V.fw.wr.awAddr = A_KEY_IN ∨ V'.fw.wr.wData = V.fw.wr.wData

section Vault

variable (v : KeyVault) (keys k : BitVec 3 → BitVec 3 → BitVec 32) (ld : LoadPort) (l : BitVec 32)

theorem KeyVault.load_withKeys :
    ((v.withKeys keys).load { ld with wdata := l }).withKeys k = (v.load ld).withKeys k := by
  simp only [load, apply_ite fun v => withKeys v k]
  rfl

theorem KeyVault.next_withKeys (zeroize tamper : Bool) :
    ((v.withKeys keys).next { ld with wdata := l } zeroize tamper).withKeys k =
      (v.next ld zeroize tamper).withKeys k := by
  have hLoad := load_withKeys { v with deny := false, tamperLatched := v.tamperLatched || tamper }
    keys k ld l
  simp only [next, apply_ite fun v => withKeys v k, ← hLoad]
  rfl

end Vault

section Firewall

variable {aw : Nat} (w : FwWrite aw) (d c e : BitVec 32) (x : FwIn aw) (permitted : Bool)

theorem FwWrite.next_withData :
    ((w.withData d).next permitted (x.withData c)).withData e = (w.next permitted x).withData e := by
  unfold next
  simp only [show (w.withData d).wst = w.wst from rfl]
  cases w.wst with
  | idle =>
    simp only [nextIdle, apply_ite fun w => withData w e]
    rfl
  | fwd =>
    simp only [nextFwd, apply_ite fun w => withData w e]
    rfl
  | waitb =>
    simp only [apply_ite fun w => withData w e]
    rfl
  | err => rfl
  | resp =>
    simp only [apply_ite fun w => withData w e]
    rfl

end Firewall

section Front

variable (r : VaultFront) (d l c e g : BitVec 32) (m : AxiMaster 8)

theorem VaultFront.write_withData
    (h : regOf (r.wrAddr m) = A_KEY_IN ∨ (r.withData d l).wrData { m with wdata := c } = r.wrData m) :
    ((r.withData d l).write { m with wdata := c }).withData e g = (r.write m).withData e g := by
  have hAddr : (r.withData d l).wrAddr { m with wdata := c } = r.wrAddr m := rfl
  unfold write
  rw [hAddr]
  obtain hKey | hData := h
  · have hCtrl : A_KEY_IN ≠ A_CTRL := by decide
    have hSel : A_KEY_IN ≠ A_SLOT_SEL := by decide
    simp only [hKey, hCtrl, hSel, if_false, if_true, apply_ite fun r => withData r e g]
    rfl
  · simp only [hData, apply_ite fun r => withData r e g]
    rfl

theorem VaultFront.next_withData (p : VaultParams) (v : KeyVault) (f : Firewall 8) (z : Bool)
    (keys : BitVec 3 → BitVec 3 → BitVec 32) (b : BitVec 32)
    (h : r.wrNow m = true →
      regOf (r.wrAddr m) = A_KEY_IN ∨ (r.withData d l).wrData { m with wdata := c } = r.wrData m) :
    ((r.withData d l).next { m with wdata := c } p (v.withKeys keys)
      { f with wr := f.wr.withData b } z).withData e g = (r.next m p v f z).withData e g := by
  have hNow : (r.withData d l).wrNow { m with wdata := c } = r.wrNow m := rfl
  unfold next nextWrite
  rw [hNow]
  cases hWr : r.wrNow m with
  | false => rfl
  | true =>
    have hWrite := VaultFront.write_withData
      { r with ldBegin := false, ldWe := false, ldCommit := false, ldLock := false, ldErase := false
               doZeroize := false
               denySticky := (r.denySticky || v.deny) && !z } d l c e g m (h hWr)
    have hField := fun {β : Type} (fld : VaultFront → β) => congrArg fld hWrite
    simp only [if_true]
    rw [VaultFront.withData, VaultFront.withData, VaultFront.mk.injEq]
    exact ⟨rfl, rfl, rfl, rfl, rfl, rfl, rfl, hField slotSel, hField ldBegin, hField ldWe,
      hField ldCommit, hField ldLock, hField ldErase, hField doZeroize, rfl, hField denySticky,
      hField loadRej, rfl, rfl⟩

end Front

/-- What is forwarded was being forwarded, or has just been complete. -/
theorem FwWrite.next_fwd {aw : Nat} {w : FwWrite aw} {x : FwIn aw} {permitted : Bool}
    (h : (w.next permitted x).wst = .fwd) :
    (w.wst = .fwd ∧ (w.next permitted x).awAddr = w.awAddr ∧
      (w.next permitted x).wData = w.wData) ∨
    (w.wst = .idle ∧ w.complete x = true ∧ (w.next permitted x).awAddr = w.reqAddr x ∧
      (w.next permitted x).wData = w.reqData x) := by
  cases hSt : w.wst with
  | idle =>
    right
    cases hC : w.complete x <;> cases permitted <;>
      simp_all [FwWrite.next, FwWrite.nextIdle]
  | fwd =>
    left
    simp only [FwWrite.next, hSt, FwWrite.nextFwd, true_and]
    split <;> exact ⟨rfl, rfl⟩
  | waitb => cases hB : x.m.bvalid <;> simp [FwWrite.next, hSt, hB] at h
  | err => simp [FwWrite.next, hSt] at h
  | resp => cases hB : w.sBvalid <;> cases hR : x.s.bready <;> simp [FwWrite.next, hSt, hB, hR] at h

section Step

variable {p : VaultParams} {V V' : VaultAxi} {x : VaultIn}

theorem SameButKeys.next (h : SameButKeys V V') (hIn : V.InStep) (c : BitVec 32)
    (hReq : V.fw.wr.wst = .idle → V.fw.wr.complete (V.fwIn x) = true →
      regOf (V.fw.wr.reqAddr (V.fwIn x)) = A_KEY_IN ∨
        V'.fw.wr.reqData (V'.fwIn (x.withData c)) = V.fw.wr.reqData (V.fwIn x)) :
    SameButKeys (V.next p x) (V'.next p (x.withData c)) := by
  obtain ⟨d, e, l, keys, hV⟩ : ∃ d e l keys, V' = V.withSecrets d e l keys :=
    ⟨_, _, _, _, VaultAxi.eq_withSecrets h.blank⟩
  have hForwarded := h.forwarded
  subst hV
  constructor
  · have hWr := FwWrite.next_withData V.fw.wr d c 0 (V.fwIn x) (V.fw.wrPermit p.fw (V.fwIn x))
    have hFront := VaultFront.next_withData V.front e l d 0 0 V.fw.toSlave p V.vault V.fw x.extZeroize
      keys d (by
        intro hNow
        rw [hIn.wrNow, decide_eq_true_eq] at hNow
        obtain ⟨hAwv, hWv, hAwr, hWr⟩ := hIn.handshakes hNow
        have hSent := hForwarded hNow
        simp only [VaultFront.wrAddr, VaultFront.wrData, Firewall.toSlave, hAwv, hWv, hAwr,
          show (V.front.withData e l).fWready = V.front.fWready from rfl, hWr, Bool.and_self, if_true]
        exact hSent)
    have hVault := KeyVault.next_withKeys V.vault keys (fun _ _ => 0) V.front.loadPort l
      (V.zeroize x) x.tamper
    simp only [VaultAxi.blank, VaultAxi.withSecrets]
    rw [VaultAxi.mk.injEq]
    refine ⟨?_, hFront, hVault⟩
    rw [Firewall.mk.injEq]
    exact ⟨hWr, rfl, rfl, rfl⟩
  · intro hFwd
    have hSame := FwWrite.next_withData V.fw.wr d c 0 (V.fwIn x) (V.fw.wrPermit p.fw (V.fwIn x))
    have hFwd' : ((V.withSecrets d e l keys).next p (x.withData c)).fw.wr.wst = .fwd :=
      (congrArg FwWrite.wst hSame).trans hFwd
    obtain ⟨hSt, hAddr, hData⟩ | ⟨hSt, hC, hAddr, hData⟩ := FwWrite.next_fwd hFwd
    · obtain ⟨-, -, hData'⟩ | ⟨hSt', -⟩ := FwWrite.next_fwd hFwd'
      · obtain hKey | hEq := hForwarded hSt
        · exact Or.inl ((congrArg regOf hAddr).trans hKey)
        · exact Or.inr (hData'.trans (hEq.trans hData.symm))
      · cases hSt.symm.trans hSt'
    · obtain ⟨hSt', -⟩ | ⟨-, -, -, hData'⟩ := FwWrite.next_fwd hFwd'
      · cases hSt.symm.trans hSt'
      · obtain hKey | hEq := hReq hSt hC
        · exact Or.inl ((congrArg regOf hAddr).trans hKey)
        · exact Or.inr (hData'.trans (hEq.trans hData.symm))

/-- What the bus can see of the vault. -/
theorem SameButKeys.visible (h : SameButKeys V V') :
    V'.fw.toMaster = V.fw.toMaster ∧ V'.vault.tamperLatched = V.vault.tamperLatched ∧
      V'.vault.useValid = V.vault.useValid ∧
      V'.front.readData p V'.vault V'.fw = V.front.readData p V.vault V.fw := by
  obtain ⟨d, e, l, keys, hV⟩ : ∃ d e l keys, V' = V.withSecrets d e l keys :=
    ⟨_, _, _, _, VaultAxi.eq_withSecrets h.blank⟩
  subst hV
  exact ⟨rfl, rfl, rfl, rfl⟩

end Step

/-! ### Runs -/

section Runs

variable {p : VaultParams} {ins ins' : Nat → VaultIn}

/-- What has passed the interfaces of the firewall before cycle `k`. -/
def VaultAxi.seen (p : VaultParams) (ins : Nat → VaultIn) (k : Nat) : FwSeen p.fw.aw :=
  (VaultAxi.circuit p).record (.empty p.fw) (fun m V x => m.see p.fw V.fw (V.fwIn x)) ins k

/-- Address, protection bits, data and strobes of a write. -/
abbrev VaultWrite := (BitVec 8 × BitVec 3) × (BitVec 32 × BitVec 4)

/-- The writes of the master: each address it has handed over, with the data of its turn. -/
def VaultAxi.writes (p : VaultParams) (ins : Nat → VaultIn) (k : Nat) : List VaultWrite :=
  (VaultAxi.seen p ins k).wr.sAw.zip (VaultAxi.seen p ins k).wr.sW

theorem VaultAxi.tracks (p : VaultParams) (ins : Nat → VaultIn) (k : Nat) :
    @Firewall.Tracks p.fw ((VaultAxi.circuit p).after ins k).fw (VaultAxi.seen p ins k) :=
  Clocked.invariant_record (C := VaultAxi.circuit p) (I := fun V m => @Firewall.Tracks p.fw V.fw m)
    Firewall.tracks_reset (fun _ _ _ h => h.next) k

theorem VaultAxi.inStep (p : VaultParams) (ins : Nat → VaultIn) (k : Nat) :
    ((VaultAxi.circuit p).after ins k).InStep :=
  Clocked.invariant (I := VaultAxi.InStep) VaultAxi.inStep_reset (fun _ _ h => h.next p) k

theorem VaultAxi.judged_succ (p : VaultParams) (ins : Nat → VaultIn) (k : Nat) :
    let V := (VaultAxi.circuit p).after ins k
    ∃ allowed, (VaultAxi.seen p ins (k + 1)).wr.judged = (VaultAxi.seen p ins k).wr.judged ++
      ifSome (V.fw.wr.complete (V.fwIn (ins k)))
        ⟨((V.fw.wr.reqAddr (V.fwIn (ins k)), V.fw.wr.reqProt (V.fwIn (ins k))),
          (V.fw.wr.reqData (V.fwIn (ins k)), V.fw.wr.reqStrb (V.fwIn (ins k)))), allowed⟩ := by
  intro V
  have hTracks := (VaultAxi.tracks p ins k).wr
  exact ⟨_, congrArg ((VaultAxi.seen p ins k).wr.judged ++ ·) (hTracks.request _ rfl rfl)⟩

/-- The request that a cycle completes is the newest one of the master after it. -/
theorem VaultAxi.writes_complete (p : VaultParams) (ins : Nat → VaultIn) (k : Nat) :
    let V := (VaultAxi.circuit p).after ins k
    V.fw.wr.complete (V.fwIn (ins k)) = true →
      (VaultAxi.writes p ins (k + 1))[(VaultAxi.seen p ins k).wr.judged.length]? =
        some ((V.fw.wr.reqAddr (V.fwIn (ins k)), V.fw.wr.reqProt (V.fwIn (ins k))),
          (V.fw.wr.reqData (V.fwIn (ins k)), V.fw.wr.reqStrb (V.fwIn (ins k)))) := by
  intro V hC
  have hWrites := (VaultAxi.tracks p ins (k + 1)).filters.wrRequests
  obtain ⟨allowed, hJudged⟩ := VaultAxi.judged_succ p ins k
  rw [hJudged, hC] at hWrites
  have hLen : (VaultAxi.seen p ins k).wr.judged.length =
      ((VaultAxi.seen p ins k).wr.judged.map Judged.req).length := by rw [List.length_map]
  rw [VaultAxi.writes, ← hWrites, List.map_append, hLen]
  exact List.getElem?_concat_length

/-- Two runs go through the same states but for keys and write data, when the words of corresponding
writes to other registers than `KEY_IN` are equal. -/
theorem VaultAxi.sameButKeys (hIn : ∀ k, ∃ c, ins' k = (ins k).withData c)
    (hData : ∀ (k n : Nat) (r r' : VaultWrite), (VaultAxi.writes p ins k)[n]? = some r →
      (VaultAxi.writes p ins' k)[n]? = some r' → regOf r.1.1 ≠ A_KEY_IN → r'.2.1 = r.2.1) (k : Nat) :
    SameButKeys ((VaultAxi.circuit p).after ins k) ((VaultAxi.circuit p).after ins' k) ∧
      (VaultAxi.seen p ins' k).wr.judged.length = (VaultAxi.seen p ins k).wr.judged.length := by
  induction k with
  | zero => exact ⟨⟨rfl, fun hFwd => by cases hFwd⟩, rfl⟩
  | succ k ih =>
    obtain ⟨hSame, hLen⟩ := ih
    obtain ⟨c, hc⟩ := hIn k
    have hC : ((VaultAxi.circuit p).after ins' k).fw.wr.complete
        (((VaultAxi.circuit p).after ins' k).fwIn (ins' k)) =
        ((VaultAxi.circuit p).after ins k).fw.wr.complete
          (((VaultAxi.circuit p).after ins k).fwIn (ins k)) := by
      rw [VaultAxi.eq_withSecrets hSame.blank, hc]
      rfl
    constructor
    · show SameButKeys (VaultAxi.next p _ _) (VaultAxi.next p _ (ins' k))
      rw [hc]
      refine hSame.next (VaultAxi.inStep p ins k) c fun _ hComplete => ?_
      have hReq := VaultAxi.writes_complete p ins k hComplete
      have hReq' := VaultAxi.writes_complete p ins' k (hC.trans hComplete)
      rw [hLen] at hReq'
      have hWord := hData (k + 1) _ _ _ hReq hReq'
      rw [hc] at hWord
      exact Decidable.or_iff_not_imp_left.mpr hWord
    · obtain ⟨a, hJudged⟩ := VaultAxi.judged_succ p ins k
      obtain ⟨a', hJudged'⟩ := VaultAxi.judged_succ p ins' k
      rw [hJudged, hJudged', hC, List.length_append, List.length_append, hLen]
      cases ((VaultAxi.circuit p).after ins k).fw.wr.complete _ <;> rfl

/-- On traces that differ in the data of `KEY_IN` writes only, all that the bus can see is the same in
every cycle: the signals to the master, what a read of any offset would return, the tamper output and
whether a slot offers a key. -/
theorem vault_shows_no_key (p : VaultParams) (ins ins' : Nat → VaultIn)
    (hIn : ∀ k, ∃ c, ins' k = (ins k).withData c)
    (hData : ∀ (k n : Nat) (r r' : VaultWrite), (VaultAxi.writes p ins k)[n]? = some r →
      (VaultAxi.writes p ins' k)[n]? = some r' → regOf r.1.1 ≠ A_KEY_IN → r'.2.1 = r.2.1) (k : Nat) :
    let V := (VaultAxi.circuit p).after ins k
    let V' := (VaultAxi.circuit p).after ins' k
    V'.fw.toMaster = V.fw.toMaster ∧ V'.vault.tamperLatched = V.vault.tamperLatched ∧
      V'.vault.useValid = V.vault.useValid ∧
      V'.front.readData p V'.vault V'.fw = V.front.readData p V.vault V.fw :=
  (VaultAxi.sameButKeys hIn hData k).1.visible

/-- A master that writes one word to `KEY_IN` in the first cycle. -/
def oneKeyWord (c : BitVec 32) : Nat → VaultIn
  | 0 => ⟨⟨0x10, 0, true, c, 0xF, true, true, 0, 0, false, true⟩, false, false, 0⟩
  | _ + 1 => ⟨⟨0, 0, false, 0, 0, false, true, 0, 0, false, true⟩, false, false, 0⟩

theorem oneKeyWord_addr (p : VaultParams) (c : BitVec 32) (k : Nat) :
    ∀ r ∈ VaultAxi.writes p (oneKeyWord c) k, r.1.1 = 0x10 := by
  have hAddr : ∀ a ∈ (VaultAxi.seen p (oneKeyWord c) k).wr.sAw, a.1 = 0x10 := by
    induction k with
    | zero => intro a hA; cases hA
    | succ k ih =>
      cases k with
      | zero =>
        intro a hA
        rw [List.eq_of_mem_singleton hA]
        rfl
      | succ k =>
        have hSame : (VaultAxi.seen p (oneKeyWord c) (k + 2)).wr.sAw =
            (VaultAxi.seen p (oneKeyWord c) (k + 1)).wr.sAw ++ [] := rfl
        rw [hSame, List.append_nil]
        exact ih
  intro r hR
  exact hAddr r.1 (List.of_mem_zip hR).1

theorem vault_shows_no_key_word :
    ((VaultAxi.circuit ⟨0x00010000, true⟩).after (oneKeyWord 7) 9).fw.toMaster =
      ((VaultAxi.circuit ⟨0x00010000, true⟩).after (oneKeyWord 5) 9).fw.toMaster := by
  refine (vault_shows_no_key ⟨0x00010000, true⟩ (oneKeyWord 5) (oneKeyWord 7) ?_ ?_ 9).1
  · intro k
    cases k with
    | zero => exact ⟨7, rfl⟩
    | succ k => exact ⟨0, rfl⟩
  · intro k n r r' hR _ hOther
    rw [oneKeyWord_addr _ 5 k r (List.mem_of_getElem? hR)] at hOther
    exact absurd rfl hOther

end Runs

end PqcHsm
