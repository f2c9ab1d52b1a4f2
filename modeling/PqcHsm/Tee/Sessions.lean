import PqcHsm.Tee.BlobBinding

/-!
# Sessions of the trusted application

All sessions of an instance share one KEK. A blob is sealed under the salt that was set last, in
whichever session, and every instance on the device that sets this salt opens it.
-/

namespace PqcHsm

open ByteCodec Transition Wrap

/-- A command that was answered, and the session it came from. -/
structure TaEntry (ι : Type) where
  sess : ι
  cmd : TaCmd
  out : TaOut

/-- An instance with the commands it has answered, newest first. -/
structure TaInstance (ι : Type) where
  st : TaState
  past : List (TaEntry ι)

variable {ι : Type}

def TaInstance.next (T : TaLib) (r : TaInstance ι) (a : ι × TaCmd × TaEnv) : TaInstance ι :=
  let o := taStep T r.st a.2.2 a.2.1
  ⟨o.2, ⟨a.1, a.2.1, o.1⟩ :: r.past⟩

def TaInstance.fresh : TaInstance ι := ⟨⟨none, none⟩, []⟩

/-- The sessions of one instance; a command of one of them is a step. -/
def taSessions (T : TaLib) (ι : Type) : System (TaInstance ι) (ι × TaCmd × TaEnv) :=
  .ofFun (· = .fresh) (TaInstance.next T)

/-- The unique key that the system derives is the one of the device. -/
def OnDevice (device : ByteVec 32) (_ : TaInstance ι) (a : ι × TaCmd × TaEnv)
    (_ : TaInstance ι) : Prop :=
  match a.2.2.kdr with
  | .ok kdr => kdr = device
  | .error _ => True

instance (device : ByteVec 32) (r : TaInstance ι) (a : ι × TaCmd × TaEnv) (r' : TaInstance ι) :
    Decidable (OnDevice device r a r') := by
  unfold OnDevice
  split <;> infer_instance

/-- The salt of a KEK_SET that succeeded. -/
def TaEntry.saltSet (x : TaEntry ι) : Option Span :=
  match x.cmd with
  | .kekSet salt => if x.out.rc = .success then some salt else none
  | _ => none

/-- The salt that the sessions that count have set last. -/
def lastSalt (counts : ι → Bool) : List (TaEntry ι) → Option Span
  | [] => none
  | x :: past =>
    if x.cmd = .destroy then none
    else if counts x.sess then x.saltSet.or (lastSalt counts past)
    else lastSalt counts past

/-- Each command for blobs of the purpose takes the plaintext as its key. -/
def TaState.Opens (T : TaLib) (st : TaState) (maker : TaMaker) (blob pt : Bytes) : Prop :=
  match maker with
  | .keygen a => ∀ alg d e, taPqcDims alg = some (a, d) → e.lib = true →
      (∀ ct ssCap, d.kind = .kem → ct.isNull = false → ct.len = d.ctLen → d.ssLen ≤ ssCap →
        (cmdDecaps T st e alg (.mem blob) ct ssCap).keyUsed = some pt) ∧
      ∀ frame sigCap, d.kind = .sig → (parseFrame frame).isSome → d.sigLen ≤ sigCap →
        (cmdSign T st e alg (.mem blob) frame sigCap).keyUsed = some pt
  | .seedNew tgt => ∀ e, e.lib = true → (cmdSeedReplay T st e tgt (.mem blob)).keyUsed = some pt
  | .symkeyNew => ∀ slot e, e.lib = true → slot ≤ TA_SYM_SLOT_MAX →
      (cmdSymkeyLoad T st e slot (.mem blob)).keyUsed = some pt

/-- An instance that has just started on the device and sets the salt opens the blob. -/
def Reopens (T : TaLib) (device : ByteVec 32) (salt : Span) (s : TaSealing) : Prop :=
  ∀ e, e.kdr = .ok device →
    (cmdKekSet T ⟨none, none⟩ e salt).1.rc = .success ∧
      (cmdKekSet T ⟨none, none⟩ e salt).2.Opens T s.maker (s.blob T.gcm) s.pt

/-! ### The KEK of an instance -/

section Kek

variable {T : TaLib} {st : TaState} {e : TaEnv} {device : ByteVec 32} {r : TaInstance ι}

/-- A salt that KEK_SET accepts. -/
def Span.IsSalt (salt : Span) : Prop :=
  salt.isNull = false ∧ salt.len ≠ 0 ∧ salt.len ≤ TA_PQCHSM_MAX_SALT

theorem cmdKekSet_success {salt : Span} (h : (cmdKekSet T st e salt).1.rc = .success) :
    salt.IsSalt ∧ ∃ kdr, st.gKdr.elim e.kdr .ok = .ok kdr ∧
      (cmdKekSet T st e salt).2 = ⟨some kdr, some (T.kdf kdr salt.toBytes PQCHSM_KEK_LABEL)⟩ := by
  unfold cmdKekSet at h ⊢
  split at h
  · cases h
  rename_i hArgs
  rw [if_neg hArgs]
  split at h
  · cases h
  · rename_i kdr hKdr
    rw [hKdr]
    simp at hArgs
    exact ⟨⟨hArgs.1.1, hArgs.1.2, hArgs.2⟩, kdr, rfl, rfl⟩

theorem cmdKekSet_failed {salt : Span} (h : (cmdKekSet T st e salt).1.rc ≠ .success) :
    (cmdKekSet T st e salt).2 = st := by
  unfold cmdKekSet at h ⊢
  split at h
  · rename_i hArgs
    rw [if_pos hArgs]
  rename_i hArgs
  rw [if_neg hArgs]
  split at h
  · rfl
  · exact absurd rfl h

theorem cmdKekSet_accepts {salt : Span} (hSalt : salt.IsSalt) (hKdr : e.kdr = .ok device) :
    cmdKekSet T ⟨none, none⟩ e salt = ({ rc := .success },
      ⟨some device, some (T.kdf device salt.toBytes PQCHSM_KEK_LABEL)⟩) := by
  obtain ⟨hNull, hZero, hMax⟩ := hSalt
  have hArgs : ¬ (salt.isNull || salt.len = 0 || TA_PQCHSM_MAX_SALT < salt.len) = true := by
    simp [hNull, hZero, hMax]
  unfold cmdKekSet
  rw [if_neg hArgs]
  dsimp only [Option.elim]
  rw [hKdr]

/-- The KEK is the one of the salt set last, for the key of the device. -/
structure TaInstance.Keyed (T : TaLib) (device : ByteVec 32) (r : TaInstance ι) : Prop where
  kdr : ∀ kdr, r.st.gKdr = some kdr → kdr = device
  kek : r.st.gKek = (lastSalt (fun _ => true) r.past).map fun salt =>
    T.kdf device salt.toBytes PQCHSM_KEK_LABEL
  salt : ∀ salt, lastSalt (fun _ => true) r.past = some salt → salt.IsSalt

theorem lastSalt_all_cons {x : TaEntry ι} {past : List (TaEntry ι)} (hCmd : x.cmd ≠ .destroy)
    (hSalt : x.saltSet = none) :
    lastSalt (fun _ => true) (x :: past) = lastSalt (fun _ => true) past := by
  rw [lastSalt, if_neg hCmd, if_pos rfl, hSalt]
  rfl

theorem Keyed.skip {x : TaEntry ι} (h : r.Keyed T device) (hCmd : x.cmd ≠ .destroy)
    (hSalt : x.saltSet = none) : TaInstance.Keyed T device ⟨r.st, x :: r.past⟩ where
  kdr := h.kdr
  kek := by rw [lastSalt_all_cons hCmd hSalt, h.kek]
  salt := by rw [lastSalt_all_cons hCmd hSalt]; exact h.salt

theorem kdr_of_device {kdr : ByteVec 32} {t : ι} {c : TaCmd} {r' : TaInstance ι}
    (h : r.Keyed T device) (hDev : OnDevice device r (t, c, e) r')
    (hKdr : r.st.gKdr.elim e.kdr .ok = .ok kdr) : kdr = device := by
  cases hKnown : r.st.gKdr with
  | none =>
    rw [hKnown] at hKdr
    rw [OnDevice, show e.kdr = .ok kdr from hKdr] at hDev
    exact hDev
  | some known =>
    rw [hKnown] at hKdr
    cases hKdr
    exact h.kdr _ hKnown

theorem keyed_next {a : ι × TaCmd × TaEnv} {r' : TaInstance ι} (h : r.Keyed T device)
    (hDev : OnDevice device r a r') : (r.next T a).Keyed T device := by
  obtain ⟨t, c, e⟩ := a
  cases c with
  | kekSet salt =>
    by_cases hRc : (cmdKekSet T r.st e salt).1.rc = .success
    · obtain ⟨hSalt, kdr, hKdr, hSt⟩ := cmdKekSet_success hRc
      obtain rfl := kdr_of_device h hDev hKdr
      have hLast : lastSalt (fun _ => true) (r.next T (t, .kekSet salt, e)).past = some salt := by
        simp [TaInstance.next, taStep, lastSalt, TaEntry.saltSet, hRc]
      have hNext : (r.next T (t, .kekSet salt, e)).st =
          ⟨some kdr, some (T.kdf kdr salt.toBytes PQCHSM_KEK_LABEL)⟩ := hSt
      constructor
      · rw [hNext]
        rintro _ ⟨⟩
        rfl
      · rw [hNext, hLast]
        rfl
      · rw [hLast]
        rintro _ ⟨⟩
        exact hSalt
    · have hNext : r.next T (t, .kekSet salt, e) =
          ⟨r.st, ⟨t, .kekSet salt, (cmdKekSet T r.st e salt).1⟩ :: r.past⟩ :=
        congrArg (TaInstance.mk · _) (cmdKekSet_failed hRc)
      rw [hNext]
      exact Keyed.skip h (by simp) (if_neg hRc)
  | destroy =>
    constructor
    · rintro kdr ⟨⟩
    · rfl
    · rintro salt ⟨⟩
  | _ => exact Keyed.skip h (by simp) rfl

theorem keyed_of_reachable (h : Reachable (taSessions T ι) (OnDevice device) r) :
    r.Keyed T device := by
  induction h with
  | init hFresh =>
    obtain rfl := hFresh
    constructor
    · rintro kdr ⟨⟩
    · rfl
    · rintro salt ⟨⟩
  | step _ hNext hDev ih =>
    obtain rfl := hNext
    exact keyed_next ih hDev

end Kek

/-! ### Opening again -/

section Opening

variable {T : TaLib} {st : TaState} {s : TaSealing} {e : TaEnv}

theorem limit_of_fits (b : GcmBackend) (h : s.Fits) :
    s.aad.length < b.limit ∧ s.pt.length < b.limit ∧
      s.pt.length + PWRP_OVERHEAD ≤ TA_PQCHSM_MAX_BLOB := by
  have hLimit : 2 ^ 31 ≤ b.limit := by
    cases b <;> decide
  have hOver : PWRP_OVERHEAD = 44 := rfl
  have hMax : TA_PQCHSM_MAX_BLOB = 8256 := rfl
  unfold TaSealing.Fits at h
  cases hMaker : s.maker with
  | keygen a =>
    rw [hMaker] at h
    obtain ⟨hAad, d, hDims, hLen⟩ := h
    have hSk : d.skLen ≤ 4896 := by
      cases a <;> cases hDims <;> decide
    rw [hAad, List.length_nil]
    omega
  | seedNew tgt =>
    rw [hMaker] at h
    obtain ⟨hAad, words, hWords⟩ := h
    have hSeed : TA_SEED_LEN_MLKEM = 64 ∧ TA_SEED_LEN_MLDSA = 32 := ⟨rfl, rfl⟩
    have hLen := length_of_seedWords hWords
    rw [hAad, List.length_nil]
    omega
  | symkeyNew =>
    rw [hMaker] at h
    obtain ⟨hAad, hLen⟩ := h
    rw [hAad, TA_SYMKEY_AAD]
    simp only [List.length_cons, List.length_nil]
    omega

/-- Opening with the associated data of the sealing. -/
theorem taWrapOpen_sealed {a : Span} {buf : Bytes} {n : Nat} (h : s.Fits)
    (hAad : a.dangling = false) (hEq : a.toBytes = s.aad) (hRoom : s.pt.length ≤ buf.length) :
    taWrapOpen T.backend T.gcm true s.kek a (.mem (s.blob T.gcm)) (.mem buf) n =
      ⟨0, .mem (s.pt ++ buf.drop s.pt.length), s.pt.length⟩ := by
  obtain ⟨hAadLen, hPtLen, -⟩ := limit_of_fits T.backend h
  have hLen : s.aad.length = a.len := by rw [← hEq, Span.length_toBytes hAad]
  rw [TaSealing.blob, ← hEq, Span.length_toBytes hAad]
  rw [hLen] at hAadLen
  exact taWrapOpen_pwrpBlob hAad hAadLen hPtLen hRoom

/-- The argument checks of the commands let the blob pass. -/
theorem blob_not_refused (h : s.Fits) : ¬ (Span.isNull (.mem (s.blob T.gcm)) ||
    TA_PQCHSM_MAX_BLOB < Span.len (.mem (s.blob T.gcm))) = true := by
  have hLen : (s.blob T.gcm).length ≤ TA_PQCHSM_MAX_BLOB := by
    rw [TaSealing.blob, length_pwrpBlob]
    exact (limit_of_fits T.backend h).2.2
  rw [Span.isNull_mem, Bool.false_or, decide_eq_true_eq]
  exact Nat.not_lt.mpr hLen

theorem unwrapSk_sealed {d : PqcAlgInfo} (hLib : e.lib = true) (h : s.Fits) (hAad : s.aad = [])
    (hLen : s.pt.length = d.skLen) :
    unwrapSk T e s.kek (.mem (s.blob T.gcm)) d.skLen = .ok s.pt := by
  have hBuf : (e.buffer d.skLen).length = d.skLen := length_stream ..
  have hOpen := taWrapOpen_sealed (T := T) (n := d.skLen) (a := .null 0) h rfl hAad.symm
    (Nat.le_of_eq (hLen.trans hBuf.symm))
  unfold unwrapSk
  rw [if_neg (blob_not_refused h), hLib]
  dsimp only
  rw [hOpen, if_pos rfl, hLen, List.drop_eq_nil_of_le (Nat.le_of_eq hBuf), List.append_nil]
  rfl

theorem info_unique {alg : UInt32} {a : PqcAlg} {d d' : PqcAlgInfo}
    (hAlg : taPqcDims alg = some (a, d)) (hInfo : pqcAlgInfo a = some d') : d = d' :=
  Option.some.inj ((dims_of_taPqcDims hAlg).symm.trans hInfo)

theorem cmdDecaps_sealed {alg : UInt32} {a : PqcAlg} {d : PqcAlgInfo} {ct : Span} {ssCap : Nat}
    (hKek : st.gKek = some s.kek) (hAlg : taPqcDims alg = some (a, d)) (hKind : d.kind = .kem)
    (hNull : ct.isNull = false) (hCt : ct.len = d.ctLen) (hCap : d.ssLen ≤ ssCap)
    (hOpen : unwrapSk T e s.kek (.mem (s.blob T.gcm)) d.skLen = .ok s.pt) :
    (cmdDecaps T st e alg (.mem (s.blob T.gcm)) ct ssCap).keyUsed = some s.pt := by
  have hArgs : ¬ (ct.isNull || ct.len ≠ d.ctLen) = true := by
    simp [hNull, hCt]
  unfold cmdDecaps
  rw [hKek, hAlg]
  dsimp only
  rw [if_neg (not_not_intro hKind), if_neg hArgs, if_neg (Nat.not_lt.mpr hCap), hOpen]
  dsimp only
  split <;> rfl

theorem cmdSign_sealed {alg : UInt32} {a : PqcAlg} {d : PqcAlgInfo} {frame : Span} {sigCap : Nat}
    (hKek : st.gKek = some s.kek) (hAlg : taPqcDims alg = some (a, d)) (hKind : d.kind = .sig)
    (hFrame : (parseFrame frame).isSome) (hCap : d.sigLen ≤ sigCap)
    (hOpen : unwrapSk T e s.kek (.mem (s.blob T.gcm)) d.skLen = .ok s.pt) :
    (cmdSign T st e alg (.mem (s.blob T.gcm)) frame sigCap).keyUsed = some s.pt := by
  obtain ⟨⟨ctx, msg⟩, hParsed⟩ := Option.isSome_iff_exists.mp hFrame
  unfold cmdSign
  rw [hKek, hAlg]
  dsimp only
  rw [if_neg (not_not_intro hKind), hParsed]
  dsimp only
  rw [if_neg (Nat.not_lt.mpr hCap), hOpen]
  dsimp only
  split <;> rfl

theorem cmdSeedReplay_sealed {tgt words : UInt32} (hKek : st.gKek = some s.kek) (h : s.Fits)
    (hLib : e.lib = true) (hAad : s.aad = []) (hWords : seedWords tgt = some (words, s.pt.length)) :
    (cmdSeedReplay T st e tgt (.mem (s.blob T.gcm))).keyUsed = some s.pt := by
  have hRoom : s.pt.length ≤ (e.buffer 64).length := by
    have hSeed : TA_SEED_LEN_MLKEM = 64 ∧ TA_SEED_LEN_MLDSA = 32 := ⟨rfl, rfl⟩
    have hLen := length_of_seedWords hWords
    rw [TaEnv.buffer, length_stream]
    omega
  have hOpen := taWrapOpen_sealed (T := T) (n := 0) (a := .null 0) h rfl hAad.symm hRoom
  unfold cmdSeedReplay
  rw [hKek, hWords, hLib]
  dsimp only
  rw [hOpen, if_neg (not_not_intro rfl), if_neg (not_not_intro rfl), four_mul_seedWords hWords,
    Span.toBytes_mem, List.take_left' rfl]
  split <;> rfl

theorem cmdSymkeyLoad_sealed {slot : UInt32} (hKek : st.gKek = some s.kek) (h : s.Fits)
    (hLib : e.lib = true) (hSlot : slot ≤ TA_SYM_SLOT_MAX) (hAad : s.aad = TA_SYMKEY_AAD)
    (hLen : s.pt.length = 16 ∨ s.pt.length = 32) :
    (cmdSymkeyLoad T st e slot (.mem (s.blob T.gcm))).keyUsed = some s.pt := by
  have hRoom : s.pt.length ≤ (e.buffer 32).length := by
    rw [TaEnv.buffer, length_stream]
    omega
  have hOpen := taWrapOpen_sealed (T := T) (n := 0) (a := .mem TA_SYMKEY_AAD) h rfl hAad.symm hRoom
  have hSize : ¬ (s.pt.length ≠ 16 ∧ s.pt.length ≠ 32) := by omega
  unfold cmdSymkeyLoad
  rw [hKek, hLib]
  dsimp only
  rw [if_neg (UInt32.not_lt.mpr hSlot), if_neg (blob_not_refused h), hOpen,
    if_neg (not_not_intro rfl), if_neg hSize, Span.toBytes_mem, List.take_left' rfl]

theorem opens_sealed (hKek : st.gKek = some s.kek) (h : s.Fits) :
    st.Opens T s.maker (s.blob T.gcm) s.pt := by
  have hFits := h
  unfold TaSealing.Fits at hFits
  cases hMaker : s.maker with
  | keygen a =>
    rw [hMaker] at hFits
    obtain ⟨hAad, d', hInfo, hLen⟩ := hFits
    intro alg d e hAlg hLib
    obtain rfl := info_unique hAlg hInfo
    have hOpen := unwrapSk_sealed (T := T) hLib h hAad hLen
    constructor
    · intro ct ssCap hKind hNull hCt hCap
      exact cmdDecaps_sealed hKek hAlg hKind hNull hCt hCap hOpen
    · intro frame sigCap hKind hFrame hCap
      exact cmdSign_sealed hKek hAlg hKind hFrame hCap hOpen
  | seedNew tgt =>
    rw [hMaker] at hFits
    obtain ⟨hAad, words, hWords⟩ := hFits
    intro e hLib
    exact cmdSeedReplay_sealed hKek h hLib hAad hWords
  | symkeyNew =>
    rw [hMaker] at hFits
    obtain ⟨hAad, hLen⟩ := hFits
    intro slot e hLib hSlot
    exact cmdSymkeyLoad_sealed hKek h hLib hSlot hAad hLen

end Opening

/-! ### Main results -/

section Concrete

/-- A KEK shows its salt, and a tag its key. -/
def TaLib.salted : TaLib :=
  { TaLib.clear with
    gcm :=
      { AesGcm.clear with tag := fun key _ _ _ => takeVec PWRP_TAG_LEN key.toList }
    kdf := fun _ salt _ => takeVec PQC_KEK_LEN salt }

/-- Session 1 sets its salt, session 2 another one, and session 1 has a seed sealed. -/
def twoSaltsRun : TaInstance Nat :=
  replay (TaInstance.next .salted) .fresh
    [(1, .kekSet (.mem [1]), calmTa), (2, .kekSet (.mem [2]), calmTa), (1, .seedNew 1 76, calmTa)]

theorem reachable_twoSaltsRun :
    Reachable (taSessions .salted Nat) (OnDevice (zeros 32)) twoSaltsRun :=
  (Reachable.init rfl).leads (leads_replay (by decide))

theorem twoSaltsRun_answered : twoSaltsRun.past ≠ [] := by decide

theorem twoSaltsRun_newest :
    twoSaltsRun.past.head twoSaltsRun_answered :: twoSaltsRun.past.tail <:+ twoSaltsRun.past :=
  ⟨[], by rw [List.nil_append, List.cons_head_tail]⟩

/-- What the run has sealed. -/
def twoSaltsSealing : TaSealing :=
  ⟨.seedNew 1, takeVec PQC_KEK_LEN [2], zeros PWRP_NONCE_LEN, [], List.replicate 32 7⟩

end Concrete

end PqcHsm
