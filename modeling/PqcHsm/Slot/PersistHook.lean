import PqcHsm.Slot.CallStep

/-!
# What has reached the disk when an operation returns

Any number of threads. The history counts the changes of each slot, remembers at which
count a call of the persist hook serialized the slot, and takes that count for the disk when
the call puts its file in place. A change whose operation has returned is on the disk,
provided that no thread with a change of its own finds the hook busy.
-/

namespace PqcHsm

open Sections

abbrev DevTrace (ι : Type) := List (Entry ι Call Event Reply)

variable {n : Nat} {S : Setup} {ι : Type}

def changes (i : Nat) : Entry ι Call Event Reply → Nat
  | .emit _ (.slotChanged j) => if j = i then 1 else 0
  | _ => 0

/-- The number of changes of slot `i`. -/
def version (i : Nat) : DevTrace ι → Nat
  | [] => 0
  | x :: tr => changes i x + version i tr

section Histories

variable [DecidableEq ι] (t : ι)

/-- The version that the last change of slot `i` by the running operation of thread `t` made,
0 when it has changed nothing. -/
def owed (i : Nat) : DevTrace ι → Nat
  | [] => 0
  | x :: tr =>
    match x with
    | .call u _ => if u = t then 0 else owed i tr
    | .emit u (.slotChanged j) => if u = t ∧ j = i then version i tr + 1 else owed i tr
    | _ => owed i tr

/-- Thread `t` is in a call of the persist hook. -/
def holding : DevTrace ι → Bool
  | [] => false
  | x :: tr =>
    match x with
    | .emit u .persistEntered => if u = t then true else holding tr
    | .emit u (.persistLeft _) => if u = t then false else holding tr
    | _ => holding tr

/-- The version of slot `i` in the snapshot that thread `t` has been taking since it last
entered the hook. -/
def snapshot (i : Nat) : DevTrace ι → Option Nat
  | [] => none
  | x :: tr =>
    match x with
    | .emit u .persistEntered => if u = t then none else snapshot i tr
    | .emit u (.serialized j _ _) => if u = t ∧ j = i then some (version i tr) else snapshot i tr
    | _ => snapshot i tr

end Histories

variable [DecidableEq ι]

/-- The version of slot `i` in the snapshot that was last put in place. -/
def onDisk (i : Nat) : DevTrace ι → Nat
  | [] => 0
  | x :: tr =>
    match x with
    | .emit u .saved => (snapshot u i tr).getD 0
    | _ => onDisk i tr

/-- The operations whose return promises that their change is on the disk also when they
fail. -/
def Call.IsLogin : Call → Prop
  | sessionLogin .. => True
  | _ => False

/-- At the return of a successful operation, and of any login, every change it made is in the
snapshot last put in place. -/
def ReturnsPersisted (n : Nat) (trace : DevTrace ι) : Prop :=
  ∀ t k a older, .ret t k a :: older <:+ trace → a.st = .ok ∨ k.IsLogin →
    ∀ i : Fin n, owed t i older ≤ onDisk i older

/-- Files are written by the hook only, and every call of the hook succeeds. -/
def hookSucceeds : Pool.Cond ι Call Env (Device n) Event Reply := fun _ a evs =>
  (∀ t k, a = .call t k → ¬ k.WritesFiles) ∧ .persistLeft false ∉ evs

/-- No operation that has changed a slot finds the hook busy. -/
def persistCond : Pool.Cond ι Call Env (Device n) Event Reply := fun h a evs =>
  hookSucceeds h a evs ∧ ∀ t e, a = .sect t e → .persistSkipped ∈ evs →
    ∀ i : Fin n, owed t i h.trace = 0

section Facts

omit [DecidableEq ι] in
theorem version_cons_le (i : Nat) (x : Entry ι Call Event Reply) (tr : DevTrace ι) :
    version i tr ≤ version i (x :: tr) := Nat.le_add_left _ _

theorem owed_le_version (t : ι) (i : Nat) (tr : DevTrace ι) : owed t i tr ≤ version i tr := by
  induction tr with
  | nil => exact Nat.le_refl 0
  | cons x tr ih =>
    have hUp := version_cons_le i x tr
    unfold owed
    split
    · split <;> omega
    · split
      · rename_i hBoth
        rw [version, changes, if_pos hBoth.2]
        omega
      · omega
    · omega

theorem snapshot_le_version {t : ι} {i v : Nat} {tr : DevTrace ι}
    (h : snapshot t i tr = some v) : v ≤ version i tr := by
  induction tr with
  | nil => cases h
  | cons x tr ih =>
    have hUp := version_cons_le i x tr
    unfold snapshot at h
    split at h
    · split at h
      · cases h
      · exact (ih h).trans hUp
    · split at h
      · cases h
        exact hUp
      · exact (ih h).trans hUp
    · exact (ih h).trans hUp

theorem onDisk_le_version (i : Nat) (tr : DevTrace ι) : onDisk i tr ≤ version i tr := by
  induction tr with
  | nil => exact Nat.le_refl 0
  | cons x tr ih =>
    have hUp := version_cons_le i x tr
    unfold onDisk
    split
    · rename_i u
      cases hSnap : snapshot u i tr with
      | none => exact Nat.zero_le _
      | some v => exact (snapshot_le_version hSnap).trans hUp
    · exact ih.trans hUp

theorem owed_foreign {t : ι} (i : Nat) (x : Entry ι Call Event Reply) (tr : DevTrace ι)
    (hx : ¬ x.By t) : owed t i (x :: tr) = owed t i tr := by
  conv_lhs => unfold owed
  split
  · exact if_neg hx
  · exact if_neg fun hBoth => hx hBoth.1
  · rfl

theorem holding_foreign {t : ι} (x : Entry ι Call Event Reply) (tr : DevTrace ι)
    (hx : ¬ x.By t) : holding t (x :: tr) = holding t tr := by
  conv_lhs => unfold holding
  split
  · exact if_neg hx
  · exact if_neg hx
  · rfl

theorem snapshot_foreign {t : ι} (i : Nat) (x : Entry ι Call Event Reply) (tr : DevTrace ι)
    (hx : ¬ x.By t) : snapshot t i (x :: tr) = snapshot t i tr := by
  conv_lhs => unfold snapshot
  split
  · exact if_neg hx
  · exact if_neg fun hBoth => hx hBoth.1
  · rfl

end Facts

/-! ### The invariant -/

/-- One call of the hook at a time, whose snapshot is not behind the disk. -/
structure PersistInv (h : DevHist ι n) : Prop where
  hooked : h.shared.tok.persistFn = true
  busy : ∀ t, holding t h.trace = true → h.shared.tok.persistBusy = true
  alone : ∀ t u, holding t h.trace = true → holding u h.trace = true → t = u
  ahead : ∀ t i v, holding t h.trace = true → snapshot t i h.trace = some v →
    onDisk i h.trace ≤ v
  returned : ReturnsPersisted n h.trace

def DiskGrows (h h' : DevHist ι n) : Prop := ∀ i : Fin n, onDisk i h.trace ≤ onDisk i h'.trace

/-- The thread has nothing left to commit. -/
def Settled (t : ι) (h : DevHist ι n) : Prop :=
  holding t h.trace = false ∧ ∀ i : Fin n, owed t i h.trace ≤ onDisk i h.trace

/-- The thread is in the hook and its snapshot has its own changes of the given slots. -/
def Covered (t : ι) (ids : List Nat) (h : DevHist ι n) : Prop :=
  holding t h.trace = true ∧ ∀ i ∈ ids, ∃ v, snapshot t i h.trace = some v ∧ owed t i h.trace ≤ v

/-- The thread is in the hook and its changes are on the disk. -/
def InPlace (t : ι) (h : DevHist ι n) : Prop :=
  holding t h.trace = true ∧ ∀ i : Fin n, owed t i h.trace ≤ onDisk i h.trace

abbrev HookSafe {β : Type} (t : ι) (p : DevProg n β) (Q : β → DevHist ι n → Prop)
    (h : DevHist ι n) : Prop :=
  Safe persistCond PersistInv DiskGrows t p Q h

section Stability

variable {t : ι}

theorem foreign_holding {h h' : DevHist ι n} (hF : Foreign t h h') :
    holding t h'.trace = holding t h.trace := hF.local holding_foreign

theorem foreign_owed {h h' : DevHist ι n} (hF : Foreign t h h') (i : Nat) :
    owed t i h'.trace = owed t i h.trace := hF.local (owed_foreign i)

theorem foreign_snapshot {h h' : DevHist ι n} (hF : Foreign t h h') (i : Nat) :
    snapshot t i h'.trace = snapshot t i h.trace := hF.local (snapshot_foreign i)

theorem stable_holding (b : Bool) :
    Stable PersistInv DiskGrows t fun h : DevHist ι n => holding t h.trace = b :=
  fun _ _ hHold hF _ _ => (foreign_holding hF).trans hHold

theorem stable_owed : Stable PersistInv DiskGrows t
    fun h : DevHist ι n => ∀ i : Fin n, owed t i h.trace ≤ onDisk i h.trace := by
  intro h h' hOwed hF hG _ i
  rw [foreign_owed hF]
  exact (hOwed i).trans (hG i)

theorem stable_settled : Stable PersistInv DiskGrows t (Settled (n := n) t) :=
  fun h h' hA hF hG hi => ⟨stable_holding false h h' hA.1 hF hG hi, stable_owed h h' hA.2 hF hG hi⟩

theorem stable_inPlace : Stable PersistInv DiskGrows t (InPlace (n := n) t) :=
  fun h h' hA hF hG hi => ⟨stable_holding true h h' hA.1 hF hG hi, stable_owed h h' hA.2 hF hG hi⟩

theorem stable_covered (ids : List Nat) :
    Stable PersistInv DiskGrows t (Covered (n := n) t ids) := by
  intro h h' hA hF _ _
  refine ⟨(foreign_holding hF).trans hA.1, fun i hi => ?_⟩
  rw [foreign_snapshot hF, foreign_owed hF]
  exact hA.2 i hi

end Stability

/-! ### Sections outside the hook -/

/-- Events that neither enter or leave the hook nor put a snapshot in place. -/
def Event.OffHook : Event → Prop
  | .persistEntered => False
  | .persistLeft _ => False
  | .saved => False
  | _ => True

section Emits

variable {t u : ι} {x : Event} {tr : DevTrace ι}

theorem holding_emit (hx : x.OffHook) : holding u (.emit t x :: tr) = holding u tr := by
  cases x <;> first | rfl | exact hx.elim

theorem onDisk_emit (hx : x.OffHook) (i : Nat) : onDisk i (.emit t x :: tr) = onDisk i tr := by
  cases x <;> first | rfl | exact hx.elim

theorem owed_emit (i : Nat) (hx : ∀ j, x ≠ .slotChanged j) :
    owed u i (.emit t x :: tr) = owed u i tr := by
  cases x <;> first | rfl | exact absurd rfl (hx _)

theorem snapshot_emit (hx : x.OffHook) (i : Nat) (hSerialized : ∀ j m r, x ≠ .serialized j m r) :
    snapshot u i (.emit t x :: tr) = snapshot u i tr := by
  cases x <;> first | rfl | exact hx.elim | exact absurd rfl (hSerialized _ _ _)

end Emits

section Quiet

variable {t : ι} {h : DevHist ι n} {r : Device n × List Event}

theorem holding_emits (hEvs : ∀ x ∈ r.2, x.OffHook) (u : ι) :
    holding u (h.emits t r).trace = holding u h.trace :=
  Hist.unchanged_emits (fun x hx _ => holding_emit (hEvs x hx)) h

theorem onDisk_emits (hEvs : ∀ x ∈ r.2, x.OffHook) (i : Nat) :
    onDisk i (h.emits t r).trace = onDisk i h.trace :=
  Hist.unchanged_emits (fun x hx _ => onDisk_emit (hEvs x hx) i) h

theorem PersistInv.of_offHook (hInv : PersistInv h)
    (hFn : r.1.tok.persistFn = h.shared.tok.persistFn)
    (hBusy : r.1.tok.persistBusy = h.shared.tok.persistBusy) (hEvs : ∀ x ∈ r.2, x.OffHook)
    (hSnap : ∀ u i, holding u h.trace = true →
      snapshot u i (h.emits t r).trace = snapshot u i h.trace) :
    PersistInv (h.emits t r) ∧ DiskGrows h (h.emits t r) := by
  refine ⟨⟨hFn.trans hInv.hooked, fun u hu => ?_, fun u w hu hw => ?_, fun u i v hu hv => ?_,
    fun u k a older hRet => ?_⟩, fun i => (onDisk_emits hEvs i).ge⟩
  · rw [holding_emits hEvs] at hu
    exact hBusy.trans (hInv.busy u hu)
  · rw [holding_emits hEvs] at hu hw
    exact hInv.alone u w hu hw
  · rw [holding_emits hEvs] at hu
    rw [hSnap u i hu] at hv
    rw [onDisk_emits hEvs]
    exact hInv.ahead u i v hu hv
  · exact hInv.returned u k a older (Hist.ret_suffix_emits.mp hRet)

/-- A thread outside the hook does not touch the snapshot of the thread inside. -/
theorem snapshot_emits_of_outside (hOut : holding t h.trace = false) (u : ι) (i : Nat)
    (hu : holding u h.trace = true) :
    snapshot u i (h.emits t r).trace = snapshot u i h.trace := by
  have hNe : t ≠ u := by
    rintro rfl
    rw [hOut] at hu
    cases hu
  exact Hist.unchanged_emits (fun x _ tr => snapshot_foreign i _ tr hNe) h

theorem Event.OnSlot.offHook {x : Event} (h : x.OnSlot) : x.OffHook := by
  cases x <;> trivial

theorem Event.OnDraft.ne_serialized {x : Event} (h : x.OnDraft) (j : Nat) (m : SlotMeta)
    (r : SlotRecord) : x ≠ .serialized j m r := by
  rintro rfl
  exact h

theorem Event.OnDraft.ne_slotChanged {x : Event} (h : x.OnDraft) (j : Nat) :
    x ≠ .slotChanged j := by
  rintro rfl
  exact h

theorem Event.OnDraft.offHook {x : Event} (h : x.OnDraft) : x.OffHook := by
  cases x <;> trivial

/-- What a section that leaves nothing to commit does to the flags and to the history. -/
theorem QuietStep.offHook {all loads : Bool} {e : Env} {d : Device n} {r : Device n × List Event}
    (hStep : QuietStep S all loads e d r) : r.1.tok.persistFn = d.tok.persistFn ∧
      r.1.tok.persistBusy = d.tok.persistBusy ∧
      ∀ x ∈ r.2, x.OffHook ∧ ∀ j, x ≠ .slotChanged j := by
  cases hStep with
  | read => exact ⟨rfl, rfl, by simp⟩
  | token r h => cases h <;> exact ⟨rfl, rfl, by simp [Event.OffHook]⟩
  | use i h => cases h <;> exact ⟨rfl, rfl, by simp [Event.OffHook]⟩
  | publicKey i h hCheck => exact ⟨rfl, rfl, by simp [Event.OffHook]⟩
  | serialize i hSealed => exact ⟨rfl, rfl, by simp [Event.OffHook]⟩
  | deserialize i m r => exact ⟨rfl, rfl, by simp [Event.OffHook]⟩
  | hwDrop => exact ⟨rfl, rfl, by simp [Event.OffHook]⟩

theorem settled_quietStep {all loads : Bool} {e : Env} (hInv : PersistInv h)
    (hOut : holding t h.trace = false) (hStep : QuietStep S all loads e h.shared r) :
    PersistInv (h.emits t r) ∧ DiskGrows h (h.emits t r) ∧
      holding t (h.emits t r).trace = false ∧ (Settled t h → Settled t (h.emits t r)) := by
  obtain ⟨hFn, hBusy, hEvs⟩ := hStep.offHook
  have hOff := fun x hx => (hEvs x hx).1
  obtain ⟨hNew, hGrow⟩ := hInv.of_offHook hFn hBusy hOff (snapshot_emits_of_outside hOut)
  have hHold : holding t (h.emits t r).trace = false := (holding_emits hOff t).trans hOut
  refine ⟨hNew, hGrow, hHold, fun hSettled => ⟨hHold, fun i => ?_⟩⟩
  have hOwed : owed t i (h.emits t r).trace = owed t i h.trace :=
    Hist.unchanged_emits (fun x hx _ => owed_emit _ (hEvs x hx).2) h
  rw [hOwed, onDisk_emits hOff]
  exact hSettled.2 i

theorem outside_change {i : Fin n} {w : HwTable} {s : Slot} {evs : List Event}
    (hInv : PersistInv h) (hOut : holding t h.trace = false) (hEvs : ∀ x ∈ evs, x.OnSlot) :
    PersistInv (h.emits t ({ h.shared.setSlot i s with hw := w }, evs)) ∧
      DiskGrows h (h.emits t ({ h.shared.setSlot i s with hw := w }, evs)) ∧
      holding t (h.emits t ({ h.shared.setSlot i s with hw := w }, evs)).trace = false := by
  have hOff : ∀ x ∈ evs, x.OffHook := fun x hx => (hEvs x hx).offHook
  obtain ⟨hNew, hGrow⟩ := hInv.of_offHook (t := t)
    (r := ({ h.shared.setSlot i s with hw := w }, evs)) rfl rfl hOff (snapshot_emits_of_outside hOut)
  exact ⟨hNew, hGrow, (holding_emits hOff t).trans hOut⟩

end Quiet

/-! ### Sections inside the hook -/

section Inside

variable {t : ι} {h : DevHist ι n}

/-- A step on the temporary file or the anchor keeps what the thread asserts. -/
theorem inside_draftStep {r : Device n × List Event} (hInv : PersistInv h)
    (hStep : DraftStep h.shared r) : PersistInv (h.emits t r) ∧ DiskGrows h (h.emits t r) ∧
      (∀ ids, Covered t ids h → Covered t ids (h.emits t r)) ∧
      (InPlace t h → InPlace t (h.emits t r)) := by
  obtain ⟨fs, evs, -, hEvs⟩ := hStep
  have hOff : ∀ x ∈ evs, x.OffHook := fun x hx => (hEvs x hx).offHook
  have hSnap : ∀ u i, snapshot u i (h.emits t ({ h.shared with fs }, evs)).trace =
      snapshot u i h.trace := fun u i => Hist.unchanged_emits (fun x hx _ =>
    snapshot_emit (hOff x hx) i (hEvs x hx).ne_serialized) h
  have hOwed : ∀ i, owed t i (h.emits t ({ h.shared with fs }, evs)).trace = owed t i h.trace :=
    fun i => Hist.unchanged_emits (fun x hx _ => owed_emit i (hEvs x hx).ne_slotChanged) h
  obtain ⟨hNew, hGrow⟩ := hInv.of_offHook (t := t) (r := ({ h.shared with fs }, evs)) rfl rfl hOff
    fun u i _ => hSnap u i
  refine ⟨hNew, hGrow, fun ids hCovered => ⟨?_, fun i hi => ?_⟩, fun hPlace => ⟨?_, fun i => ?_⟩⟩
  · rw [holding_emits hOff]
    exact hCovered.1
  · rw [hSnap, hOwed]
    exact hCovered.2 i hi
  · rw [holding_emits hOff]
    exact hPlace.1
  · rw [hOwed, onDisk_emits hOff]
    exact hPlace.2 i

/-- Serializing a slot takes its present version into the snapshot. -/
theorem inside_serialize {i : Fin n} {m : SlotMeta} {r : SlotRecord} {ids : List Nat}
    (hInv : PersistInv h) (hCovered : Covered t ids h) :
    PersistInv (h.emits t (h.shared, [.serialized i m r])) ∧
      DiskGrows h (h.emits t (h.shared, [.serialized i m r])) ∧
      Covered t (ids ++ [i.val]) (h.emits t (h.shared, [.serialized i m r])) := by
  have hOff : ∀ x ∈ [Event.serialized i m r], x.OffHook := by simp [Event.OffHook]
  have hSnap : ∀ u k, snapshot u k (h.emits t (h.shared, [.serialized i m r])).trace =
      if t = u ∧ i.val = k then some (version k h.trace) else snapshot u k h.trace :=
    fun _ _ => rfl
  refine ⟨⟨hInv.hooked, hInv.busy, hInv.alone, fun u k v hu hv => ?_, fun u k a older hRet => ?_⟩,
    fun k => (onDisk_emits hOff k).ge, hCovered.1, fun k hk => ?_⟩
  · rw [onDisk_emits hOff]
    rw [hSnap] at hv
    split at hv
    · cases hv
      exact onDisk_le_version k h.trace
    · exact hInv.ahead u k v hu hv
  · exact hInv.returned u k a older (Hist.ret_suffix_emits.mp hRet)
  · rw [hSnap]
    change ∃ v, _ ∧ owed t k h.trace ≤ v
    by_cases hki : i.val = k
    · exact ⟨_, if_pos ⟨rfl, hki⟩, owed_le_version t k h.trace⟩
    · rw [if_neg fun hBoth => hki hBoth.2]
      rcases List.mem_append.mp hk with hOld | hNew
      · exact hCovered.2 k hOld
      · exact absurd (List.mem_singleton.mp hNew).symm hki

/-- Putting the file in place brings a complete snapshot to the disk. -/
theorem inside_saved {d : Device n} (hInv : PersistInv h)
    (hFn : d.tok.persistFn = h.shared.tok.persistFn)
    (hBusy : d.tok.persistBusy = h.shared.tok.persistBusy)
    (hCovered : Covered t (List.range n) h) : PersistInv (h.emits t (d, [.saved])) ∧
      DiskGrows h (h.emits t (d, [.saved])) ∧ InPlace t (h.emits t (d, [.saved])) := by
  have hDisk : ∀ k, onDisk k (h.emits t (d, [.saved])).trace = (snapshot t k h.trace).getD 0 :=
    fun _ => rfl
  have hAll : ∀ i : Fin n, ∃ v, snapshot t i h.trace = some v ∧ owed t i h.trace ≤ v :=
    fun i => hCovered.2 i (List.mem_range.mpr i.isLt)
  refine ⟨⟨hFn.trans hInv.hooked, fun u hu => hBusy.trans (hInv.busy u hu), hInv.alone,
    fun u k v hu hv => ?_, fun u k a older hRet => ?_⟩, fun i => ?_, hCovered.1, fun i => ?_⟩
  · obtain rfl := hInv.alone t u hCovered.1 hu
    rw [hDisk]
    change snapshot t k h.trace = some v at hv
    rw [hv]
    exact Nat.le_refl v
  · exact hInv.returned u k a older (Hist.ret_suffix_emits.mp hRet)
  · obtain ⟨v, hv, -⟩ := hAll i
    rw [hDisk, hv]
    exact hInv.ahead t i v hCovered.1 hv
  · obtain ⟨v, hv, hOwed⟩ := hAll i
    rw [hDisk, hv]
    exact hOwed

theorem safe_drafts {β : Type} {p : DevProg n β} (hp : DevProg.Drafts p) {ids : List Nat}
    (hCovered : Covered t ids h) : HookSafe t p (fun _ => Covered t ids) h :=
  safe_of_within hp (stable_covered ids) (fun _ _ _ hStep hInv hA _ =>
    have hNew := inside_draftStep hInv hStep
    ⟨hNew.1, hNew.2.1, hNew.2.2.1 ids hA⟩) hCovered

end Inside

/-! ### The hook -/

section Hook

variable {t : ι}

/-- What a serialization leaves: its slots in the snapshot, if it succeeded. -/
def Taken {β : Type} (t : ι) (ids : List Nat) (r : Except HsmStatus β) (h : DevHist ι n) : Prop :=
  match r with
  | .ok _ => Covered t ids h
  | .error st => st ≠ .ok ∧ holding t h.trace = true

/-- What a save leaves: the changes of the thread on the disk, if it succeeded. -/
def Outcome (t : ι) (done : Bool) (h : DevHist ι n) : Prop :=
  match done with
  | true => InPlace t h
  | false => holding t h.trace = true

theorem stable_taken {β : Type} (ids : List Nat) (r : Except HsmStatus β) :
    Stable PersistInv DiskGrows t (Taken (n := n) t ids r) := by
  cases r with
  | ok b => exact stable_covered ids
  | error st => exact fun h h' hA hF hG hi => ⟨hA.1, stable_holding true h h' hA.2 hF hG hi⟩

theorem stable_outcome (done : Bool) : Stable PersistInv DiskGrows t (Outcome (n := n) t done) := by
  cases done with
  | true => exact stable_inPlace
  | false => exact stable_holding true

theorem safe_hsmSlotSerialize {h : DevHist ι n} {ids : List Nat} (hCovered : Covered t ids h)
    (id : Nat) (kek : ByteCodec.ByteVec 32) (cap : Nat) :
    HookSafe t (hsmSlotSerialize S id kek cap) (Taken t (ids ++ [id])) h := by
  unfold hsmSlotSerialize
  split
  · exact safe_ret (stable_taken _ (.error _)) ⟨HsmStatus.noConfusion, hCovered.1⟩
  · rename_i i hAt
    obtain rfl := slotAt_val hAt
    refine safe_atomic (stable_covered ids) hCovered (stable_taken _) fun h e hInv hCovered _ => ?_
    have hRead : ∀ st : HsmStatus, st ≠ .ok → PersistInv (h.emits t (h.shared, [])) ∧
        DiskGrows h (h.emits t (h.shared, [])) ∧ Taken t (ids ++ [i.val])
          (.error st : Except HsmStatus ByteCodec.Bytes) (h.emits t (h.shared, [])) :=
      fun _ hSt => ⟨hInv, fun _ => Nat.le_refl _, hSt, hCovered.1⟩
    dsimp only
    split
    · split
      · rw [setSlot_self]
        exact inside_serialize hInv hCovered
      · rename_i st hError
        simpa using hRead st (slotSerializeLocked_eq_error hError)
    · rename_i st hSt
      simpa using hRead _ hSt

theorem safe_serializeSlots {h : DevHist ι n} (hInv : PersistInv h) {done : List Nat}
    (hCovered : Covered t done h) (kek : ByteCodec.ByteVec 32) (ids : List Nat) :
    HookSafe t (serializeSlots S kek ids) (Taken t (done ++ ids)) h := by
  induction ids generalizing done h with
  | nil =>
    rw [List.append_nil]
    exact safe_ret (stable_taken done (.ok [])) hCovered
  | cons id ids ih =>
    refine Safe.bind (fun _ _ => Nat.le_refl _) hInv
      ((safe_hsmSlotSerialize hCovered id kek _).mono fun r h₁ hInv₁ hTaken => ?_)
    rcases r with st | blob
    · exact safe_ret (stable_taken _ (.error st)) hTaken
    · have hRest := ih hInv₁ hTaken
      rw [List.append_assoc, List.singleton_append] at hRest
      refine Safe.bind (fun _ _ => Nat.le_refl _) hInv₁ (hRest.mono fun r h₂ _ hTaken => ?_)
      rcases r with st | blobs
      · exact safe_ret (stable_taken _ (.error st)) hTaken
      · exact safe_ret (stable_taken _ (.ok (blob :: blobs))) hTaken

theorem safe_renameTmp {h : DevHist ι n} (hCovered : Covered t (List.range n) h) :
    HookSafe t (renameTmp : DevProg n Bool) (Outcome t) h := by
  refine safe_atomic (stable_covered _) hCovered stable_outcome fun h e hInv hCovered _ => ?_
  dsimp only
  split
  · exact inside_saved hInv rfl rfl hCovered
  · exact ⟨hInv, fun _ => Nat.le_refl _, hCovered.1⟩

/-- A failed step leaves the thread in the hook with nothing in place. -/
theorem safe_unlinkTmp {h : DevHist ι n} (hHold : holding t h.trace = true) {st : HsmStatus}
    (hInv : PersistInv h) (hSt : st ≠ .ok) :
    HookSafe t (unlinkTmp.bind fun _ => .ret st : DevProg n HsmStatus)
      (fun st => Outcome t (decide (st = .ok))) h := by
  have hCovered : Covered t [] h := ⟨hHold, nofun⟩
  refine Safe.bind (fun _ _ => Nat.le_refl _) hInv
    ((safe_drafts drafts_unlinkTmp hCovered).mono fun _ h₁ _ hCovered => ?_)
  refine safe_ret (stable_outcome _) ?_
  rw [decide_eq_false hSt]
  exact hCovered.1

theorem safe_drafts_inPlace {β : Type} {p : DevProg n β} (hp : DevProg.Drafts p)
    {h : DevHist ι n} (hPlace : InPlace t h) : HookSafe t p (fun _ => InPlace t) h := by
  refine safe_of_within hp stable_inPlace (fun _ _ _ hStep hInv hA _ => ?_) hPlace
  have hNew := inside_draftStep (t := t) hInv hStep
  exact ⟨hNew.1, hNew.2.1, hNew.2.2.2 hA⟩

theorem safe_commitFile {h : DevHist ι n} (hInv : PersistInv h)
    (hCovered : Covered t (List.range n) h) (chunks : List ByteCodec.Bytes) :
    HookSafe t (commitFile S chunks) (fun st => Outcome t (decide (st = .ok))) h := by
  have hRefl : ∀ h : DevHist ι n, DiskGrows h h := fun _ _ => Nat.le_refl _
  refine Safe.bind hRefl hInv
    ((safe_drafts drafts_openTmp hCovered).mono fun opened h₁ hInv₁ hCovered₁ => ?_)
  split
  · refine Safe.bind hRefl hInv₁ ((safe_drafts (drafts_ksWriteAll chunks) hCovered₁).mono
      fun written h₂ hInv₂ hCovered₂ => ?_)
    have hSync : DevProg.Drafts (if written then fsyncTmp else pure false : DevProg n Bool) := by
      split
      · exact drafts_fsyncTmp
      · trivial
    refine Safe.bind hRefl hInv₂
      ((safe_drafts hSync hCovered₂).mono fun synced h₃ hInv₃ hCovered₃ => ?_)
    have hRename : HookSafe t (if synced then renameTmp else pure false) (Outcome t) h₃ := by
      split
      · exact safe_renameTmp hCovered₃
      · exact safe_ret (stable_outcome false) hCovered₃.1
    refine Safe.bind hRefl hInv₃ (hRename.mono fun renamed h₄ hInv₄ hOutcome => ?_)
    cases renamed with
    | true =>
      refine Safe.bind hRefl hInv₄
        ((safe_drafts_inPlace drafts_fsyncDir hOutcome).mono fun _ h₅ hInv₅ hPlace₅ => ?_)
      refine Safe.bind hRefl hInv₅
        ((safe_drafts_inPlace drafts_rbanchorBump hPlace₅).mono fun _ h₆ _ hPlace₆ => ?_)
      exact safe_ret (stable_outcome true) hPlace₆
    | false => exact safe_unlinkTmp hOutcome hInv₄ HsmStatus.noConfusion
  · exact safe_unlinkTmp hCovered₁.1 hInv₁ HsmStatus.noConfusion

theorem safe_hsmKeystoreSave {h : DevHist ι n} (hInv : PersistInv h)
    (hHold : holding t h.trace = true) :
    HookSafe t (hsmKeystoreSave S) (fun st => Outcome t (decide (st = .ok))) h := by
  have hRefl : ∀ h : DevHist ι n, DiskGrows h h := fun _ _ => Nat.le_refl _
  have hFail : ∀ {h : DevHist ι n} {st : HsmStatus}, holding t h.trace = true → st ≠ .ok →
      HookSafe t (.ret st : DevProg n HsmStatus) (fun st => Outcome t (decide (st = .ok))) h := by
    intro h st hHold hSt
    refine safe_ret (stable_outcome _) ?_
    rw [decide_eq_false hSt]
    exact hHold
  have hCovered : Covered t [] h := ⟨hHold, nofun⟩
  refine Safe.bind hRefl hInv
    ((safe_drafts (drafts_ask _) hCovered).mono fun entry h₁ hInv₁ hCovered₁ => ?_)
  obtain ⟨salt, keysOk, allocOk⟩ := entry
  cases salt with
  | none => exact hFail hCovered₁.1 HsmStatus.noConfusion
  | some salt =>
    cases keysOk with
    | false => exact hFail hCovered₁.1 HsmStatus.noConfusion
    | true =>
      cases allocOk with
      | false => exact hFail hCovered₁.1 HsmStatus.noConfusion
      | true =>
        refine Safe.bind hRefl hInv₁ ((safe_drafts drafts_rbanchorRead hCovered₁).mono
          fun seen h₂ hInv₂ hCovered₂ => ?_)
        cases seen with
        | none => exact hFail hCovered₂.1 HsmStatus.noConfusion
        | some seen =>
          refine Safe.bind hRefl hInv₂ ((safe_serializeSlots hInv₂ hCovered₂ _ _).mono
            fun r h₃ hInv₃ hTaken => ?_)
          rcases r with st | blobs
          · exact hFail hTaken.2 hTaken.1
          · refine Safe.bind hRefl hInv₃
              ((safe_drafts (drafts_ask _) hTaken).mono fun macOk h₄ hInv₄ hCovered₄ => ?_)
            split
            · exact safe_commitFile hInv₄ hCovered₄ _
            · exact hFail hCovered₄.1 HsmStatus.noConfusion

theorem safe_persistKeystore {h : DevHist ι n} (hInv : PersistInv h)
    (hHold : holding t h.trace = true) : HookSafe t (persistKeystore S) (Outcome t) h :=
  Safe.bind (fun _ _ => Nat.le_refl _) hInv ((safe_hsmKeystoreSave hInv hHold).mono
    fun _ _ _ hOutcome => safe_ret (stable_outcome _) hOutcome)

/-- The thread has entered the hook, or had nothing to commit. -/
def Entered (t : ι) (enter : Bool) (h : DevHist ι n) : Prop :=
  match enter with
  | true => holding t h.trace = true
  | false => Settled t h

theorem stable_entered (enter : Bool) : Stable PersistInv DiskGrows t (Entered (n := n) t enter) := by
  cases enter with
  | true => exact stable_holding true
  | false => exact stable_settled

theorem enter_hook {h : DevHist ι n} (hInv : PersistInv h)
    (hFree : h.shared.tok.persistBusy = false) {d : Device n}
    (hFn : d.tok.persistFn = h.shared.tok.persistFn) (hBusy : d.tok.persistBusy = true) :
    PersistInv (h.emits t (d, [.persistEntered])) ∧ DiskGrows h (h.emits t (d, [.persistEntered])) ∧
      holding t (h.emits t (d, [.persistEntered])).trace = true := by
  have hNone : ∀ u, holding u h.trace = false := by
    intro u
    rw [Bool.eq_false_iff]
    intro hu
    rw [hInv.busy u hu] at hFree
    cases hFree
  have hHold : ∀ u, holding u (h.emits t (d, [.persistEntered])).trace = decide (t = u) := by
    intro u
    change (if t = u then true else holding u h.trace) = _
    rw [hNone]
    split <;> simp_all
  refine ⟨⟨hFn.trans hInv.hooked, fun _ _ => hBusy, fun u w hu hw => ?_, fun u i v hu hv => ?_,
    fun u k a older hRet => ?_⟩, fun i => Nat.le_refl _, ?_⟩
  · rw [hHold, decide_eq_true_eq] at hu hw
    exact hu.symm.trans hw
  · rw [hHold, decide_eq_true_eq] at hu
    subst hu
    change (if t = t then none else snapshot t i h.trace) = some v at hv
    rw [if_pos rfl] at hv
    cases hv
  · exact hInv.returned u k a older (Hist.ret_suffix_emits.mp hRet)
  · rw [hHold, decide_eq_true rfl]

theorem leave_hook {h : DevHist ι n} (hInv : PersistInv h) (hPlace : InPlace t h) {d : Device n}
    (hFn : d.tok.persistFn = h.shared.tok.persistFn) :
    PersistInv (h.emits t (d, [.persistLeft true])) ∧
      DiskGrows h (h.emits t (d, [.persistLeft true])) ∧
      Settled t (h.emits t (d, [.persistLeft true])) := by
  have hHold : ∀ u, holding u (h.emits t (d, [.persistLeft true])).trace = false := by
    intro u
    change (if t = u then false else holding u h.trace) = false
    split
    · rfl
    · rename_i hNe
      rw [Bool.eq_false_iff]
      exact fun hu => hNe (hInv.alone t u hPlace.1 hu)
  refine ⟨⟨hFn.trans hInv.hooked, fun u hu => ?_, fun u w hu _ => ?_, fun u i v hu _ => ?_,
    fun u k a older hRet => ?_⟩, fun i => Nat.le_refl _, hHold t, hPlace.2⟩
  · exact absurd ((hHold u).symm.trans hu) Bool.false_ne_true
  · exact absurd ((hHold u).symm.trans hu) Bool.false_ne_true
  · exact absurd ((hHold u).symm.trans hu) Bool.false_ne_true
  · exact hInv.returned u k a older (Hist.ret_suffix_emits.mp hRet)

/-- The commit of a change leaves nothing to commit. -/
theorem safe_slotPersist {h : DevHist ι n} (hInv : PersistInv h)
    (hOut : holding t h.trace = false) :
    HookSafe t (slotPersist (persistKeystore S)) (fun _ => Settled t) h := by
  have hRefl : ∀ h : DevHist ι n, DiskGrows h h := fun _ _ => Nat.le_refl _
  refine Safe.bind hRefl hInv ((safe_atomic (Q := Entered t) (stable_holding false) hOut
    stable_entered fun h e hInv hOut hok => ?_).mono fun enter h₁ hInv₁ hEntered => ?_)
  · dsimp only at hok ⊢
    cases hBusy : h.shared.tok.persistBusy with
    | false =>
      have hEnter := enter_hook (t := t) hInv hBusy
        (d := { h.shared with tok := { h.shared.tok with persistBusy := true } }) rfl rfl
      simpa [hInv.hooked, hBusy, Entered] using hEnter
    | true =>
      simp only [hBusy, hInv.hooked, Bool.not_true, Bool.and_true, Bool.false_eq_true,
        if_false] at hok ⊢
      have hNothing := hok.2 t e rfl List.mem_cons_self
      refine ⟨⟨hInv.hooked, hInv.busy, hInv.alone, hInv.ahead, fun u k a older hRet => ?_⟩,
        hRefl h, hOut, fun i => ?_⟩
      · exact hInv.returned u k a older (Hist.ret_suffix_emits.mp hRet)
      · change owed t i h.trace ≤ _
        rw [hNothing i]
        exact Nat.zero_le _
  · cases enter with
    | false => exact safe_ret stable_settled hEntered
    | true =>
      refine Safe.bind hRefl hInv₁ ((safe_persistKeystore hInv₁ hEntered).mono
        fun rc h₂ hInv₂ hOutcome => ?_)
      refine safe_atomic (stable_outcome rc) hOutcome (fun _ => stable_settled)
        fun h e hInv hOutcome hok => ?_
      -- a hook that failed is excluded
      cases rc with
      | true => exact leave_hook hInv hOutcome rfl
      | false => exact absurd List.mem_cons_self hok.1.2

end Hook

/-- Operations that commit what they change leave nothing to commit. -/
theorem safe_of_commits {t : ι} {β : Type} {owing : Bool} {p : DevProg n β}
    (hp : Commits S (persistKeystore S) true true owing p) {h : DevHist ι n} (hInv : PersistInv h)
    (hOut : holding t h.trace = false) (hSettled : owing = false → Settled t h) :
    HookSafe t p (fun _ => Settled t) h := by
  have hRefl : ∀ h : DevHist ι n, DiskGrows h h := fun _ _ => Nat.le_refl _
  have hStable : ∀ owing : Bool, Stable PersistInv DiskGrows t fun h : DevHist ι n =>
      holding t h.trace = false ∧ (owing = false → Settled t h) :=
    fun owing h h' hA hF hG hi => ⟨stable_holding false h h' hA.1 hF hG hi,
      fun hOwing => stable_settled h h' (hA.2 hOwing) hF hG hi⟩
  induction hp generalizing h with
  | ret b => exact safe_ret stable_settled (hSettled rfl)
  | @quiet owing β γ p f hQuiet _ ih =>
    have hFirst : HookSafe t p (fun _ h' => holding t h'.trace = false ∧
        (owing = false → Settled t h')) h := by
      refine safe_of_within hQuiet (hStable owing) (fun h e r hStep hInv hA _ => ?_) ⟨hOut, hSettled⟩
      obtain ⟨hNew, hGrow, hHold, hKeep⟩ := settled_quietStep (t := t) hInv hA.1 hStep
      exact ⟨hNew, hGrow, hHold, fun hOwing => hKeep (hA.2 hOwing)⟩
    refine Safe.bind hRefl hInv (hFirst.mono fun c h₁ hInv₁ hA => ?_)
    exact ih c hInv₁ hA.1 hA.2
  | @change β γ i owing body f hBody hOwing _ ih =>
    have hFirst : HookSafe t (hwSection i body) (fun c h' => holding t h'.trace = false ∧
        (owing c = false → Settled t h')) h := by
      refine safe_atomic stable_settled (hSettled rfl) (fun c => hStable (owing c))
        fun h e hInv hA _ => ?_
      have hEvs := (hBody e h.shared.hw (h.shared.tok.slots i)).slotStep.onSlot
      obtain ⟨hNew, hGrow, hHold⟩ := outside_change (t := t) (i := i)
        (w := (body e h.shared.hw (h.shared.tok.slots i)).2.1.1)
        (s := (body e h.shared.hw (h.shared.tok.slots i)).2.1.2) hInv hA.1 hEvs
      refine ⟨hNew, hGrow, hHold, fun hNot => ?_⟩
      dsimp only at hNot ⊢
      rw [hOwing e _ _ hNot]
      exact hA
    refine Safe.bind hRefl hInv (hFirst.mono fun c h₁ hInv₁ hA => ?_)
    exact ih c hInv₁ hA.1 hA.2
  | @commit β st f _ ih =>
    refine Safe.bind hRefl hInv (Safe.bind hRefl hInv ((safe_slotPersist hInv hOut).mono
      fun rc h₁ hInv₁ hSettled₁ => ?_))
    exact safe_ret (fun h h' hA hF hG hi => Safe.of_foreign (fun _ _ _ h₁ h₂ i =>
      (h₁ i).trans (h₂ i)) hA hF hG) (ih _ hInv₁ hSettled₁.1 fun _ => hSettled₁)

/-- The outline of the slot layer under the persist hook. -/
def persistOutline (S : Setup) : Outline (slotPool S n ι) persistCond where
  inv := PersistInv
  grows := DiskGrows
  idle := Settled
  grows_refl _ _ := Nat.le_refl _
  grows_trans _ _ _ h₁ h₂ i := (h₁ i).trans (h₂ i)
  stable _ := stable_settled
  start := by
    rintro d ⟨-, -, hTok, -⟩
    refine ⟨⟨by rw [hTok]; rfl, nofun, nofun, nofun, fun t k a older hRet => ?_⟩,
      fun t => ⟨rfl, fun _ => Nat.le_refl _⟩⟩
    exact absurd (List.suffix_nil.mp hRet) (List.cons_ne_nil _ _)
  call := by
    intro t k h hInv hSettled hok
    have hNew : PersistInv (h.calls t k) := by
      refine ⟨hInv.hooked, hInv.busy, hInv.alone, hInv.ahead, fun u k' a older hRet => ?_⟩
      refine hInv.returned u k' a older ?_
      rcases List.suffix_cons_iff.mp hRet with hEq | hRet
      · cases hEq
      · exact hRet
    refine ⟨hNew, fun _ => Nat.le_refl _, safe_of_commits (Call.prog_commits (hok.1.1 t k rfl)
      (fun _ => rfl) fun _ => rfl) hNew hSettled.1 fun _ => ⟨hSettled.1, fun i => ?_⟩⟩
    change (if t = t then 0 else _) ≤ _
    rw [if_pos rfl]
    exact Nat.zero_le _
  ret := by
    intro t k a h hInv hSettled _
    refine ⟨⟨hInv.hooked, hInv.busy, hInv.alone, hInv.ahead, fun u k' a' older hRet => ?_⟩,
      fun _ => Nat.le_refl _, hSettled⟩
    rcases List.suffix_cons_iff.mp hRet with hEq | hRet
    · cases hEq
      exact fun _ => hSettled.2
    · exact hInv.returned u k' a' older hRet
  crash _ _ hReset := hReset

/-- In every run of any number of threads, whatever the interleaving: when every call of the hook
succeeds and no operation with a change of its own finds the hook busy, each operation has its
changes in the snapshot last put in place when it returns. -/
theorem returns_persisted {c : DevConfig ι n} (h : (slotPool S n ι).Reaches persistCond c) :
    ReturnsPersisted n c.hist.trace :=
  ((persistOutline S).reaches h).1.returned

section Runs

/-! ### Concrete runs -/

/-- Every call of the hook succeeds and files are written by the hook only. -/
def hookWorks {ι : Type} (_ : DevHist ι 1) (a : Act ι Call Env) (evs : List Event) : Bool :=
  (match a with
    | .call _ .keystoreSave => false
    | .call _ (.replaceFile _) => false
    | _ => true) && decide (.persistLeft false ∉ evs)

omit [DecidableEq ι] in
theorem hookSucceeds_of_hookWorks (h : DevHist ι 1) (a : Act ι Call Env) (evs : List Event)
    (hWorks : hookWorks h a evs = true) : hookSucceeds h a evs := by
  simp only [hookWorks, Bool.and_eq_true, decide_eq_true_eq] at hWorks
  refine ⟨?_, hWorks.2⟩
  rintro t k rfl
  cases k <;> first | exact id | cases hWorks.1

def hookWorksAlone {ι : Type} (h : DevHist ι 1) (a : Act ι Call Env) (evs : List Event) : Bool :=
  hookWorks h a evs && decide (.persistSkipped ∉ evs)

theorem persistCond_of_hookWorksAlone (h : DevHist ι 1) (a : Act ι Call Env) (evs : List Event)
    (hWorks : hookWorksAlone h a evs = true) : persistCond h a evs := by
  simp only [hookWorksAlone, Bool.and_eq_true, decide_eq_true_eq] at hWorks
  exact ⟨hookSucceeds_of_hookWorks h a evs hWorks.1, fun _ _ _ hSkip => absurd hSkip hWorks.2⟩

theorem returns_persisted_login : ∃ c : DevConfig Bool 1, 0 < onDisk 0 c.hist.trace ∧
    ReturnsPersisted 1 c.hist.trace := by
  obtain ⟨c, hRun, hDisk⟩ := Pool.exists_scheduleAll hookWorksAlone persistCond_of_hookWorksAlone
    (powerUp_init Setup.clear Nat.one_pos (by decide)) (userRun false)
    (fun c : DevConfig Bool 1 => 0 < onDisk 0 c.hist.trace) (by decide +kernel)
  exact ⟨c, hDisk, returns_persisted hRun⟩

/-- One thread logs in and its hook has serialized the slot; another fails a login meanwhile. -/
def racingLogins : List (Act Bool Call Env) :=
  userRun false ++
  .call false (.sessionLogin firstSession .user (some [5, 6, 7, 8])) ::
    List.replicate 6 (.sect false (.calm 7)) ++
  Pool.calling true (.sessionLogin firstSession .user (some [6, 6, 6, 6])) 3 (.calm 7)

/-- The last entry is the return of a login whose change is not on the disk. -/
def lostChange : DevTrace Bool → Bool
  | .ret t (.sessionLogin ..) _ :: older => decide (onDisk 0 older < owed t 0 older)
  | _ => false

theorem failed_login_not_on_disk : ∃ c : DevConfig Bool 1,
    (slotPool .clear 1 Bool).Reaches hookSucceeds c ∧ ¬ ReturnsPersisted 1 c.hist.trace := by
  obtain ⟨c, hRun, hLost⟩ := Pool.exists_scheduleAll hookWorks hookSucceeds_of_hookWorks
    (powerUp_init Setup.clear Nat.one_pos (by decide)) racingLogins
    (fun c : DevConfig Bool 1 => lostChange c.hist.trace = true) (by decide +kernel)
  refine ⟨c, hRun, fun hAll => ?_⟩
  unfold lostChange at hLost
  split at hLost
  · rename_i t sess role pin a older hTrace
    have hRet : .ret t (.sessionLogin sess role pin) a :: older <:+ c.hist.trace :=
      hTrace ▸ List.suffix_rfl
    have hOn := hAll t _ a older hRet (.inr trivial) 0
    exact absurd hOn (Nat.not_le_of_gt (of_decide_eq_true hLost))
  · cases hLost

end Runs

end PqcHsm
