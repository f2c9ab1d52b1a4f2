import PqcHsm.P11.Attributes

/-!
# Stale handles and attributes

The slot of a handle answers for its current key, whatever key the handle was made for. Only the
public key itself is refused.
-/

namespace PqcHsm

open ByteCodec Sections Transition

variable {n : Nat}

/-- An answer is about the attribute `v` of an object: what was copied, and what was counted. -/
structure AttrAnswer.Describes (r : AttrAnswer) (v : Option Bytes) : Prop where
  value : ∀ w, r.value = some w → v = some w
  len : r.rv = .ok → ∃ w, v = some w ∧ r.len = UInt64.ofNat w.length

/-- A call of `C_GetAttributeValue` in session `i` refuses a handle that denotes no object of the slot
of the session, and otherwise describes the object. -/
def AnswersRightly (S : Setup) (st : P11State n) (i : Fin MAX_P11_SESSIONS) (hs h : CkHandle)
    (t : List AttrQuery) (env : Nat → Env) : Prop :=
  let out := (cGetAttributeValue S st hs h (some t) env).1
  match st.objectAt i h with
  | none => out.rv = .objectHandleInvalid ∧ ∀ r ∈ out.attrs, r.value = none
  | some o => ∀ p ∈ t.zip out.attrs, p.2.Describes (st.attrOf o p.1.type)

/-! ### Attributes -/

section Attributes

variable {a : AttrQuery} {v : Bytes} {isPub : Bool} {m : SlotMeta}

theorem describes_refused {r : AttrAnswer} (hRv : r.rv ≠ .ok) (hValue : r.value = none)
    (v : Option Bytes) : r.Describes v where
  value w h := by
    rw [hValue] at h
    cases h
  len h := absurd h hRv

theorem describes_unavailable {rv : CkRv} (h : rv ≠ .ok) (v : Option Bytes) :
    (AttrAnswer.unavailable rv).Describes v :=
  describes_refused h rfl v

theorem describes_fillAttr (a : AttrQuery) (v : Bytes) : (fillAttr a v).Describes (some v) := by
  unfold fillAttr
  split
  · constructor
    · intro w h
      cases h
    · intro _
      exact ⟨v, rfl, rfl⟩
  split
  · exact describes_refused (by simp) rfl _
  · constructor
    · intro w h
      exact h
    · intro _
      exact ⟨v, rfl, rfl⟩

theorem describes_secretAttr (k : P11Secret) (a : AttrQuery) :
    (secretAttr k a).Describes (k.attrOf a.type) := by
  unfold secretAttr P11Secret.attrOf
  split
  · cases k.extractable <;> cases k.sensitive
    · exact describes_unavailable (by decide) _
    · exact describes_unavailable (by decide) _
    · exact describes_fillAttr a k.val
    · exact describes_unavailable (by decide) _
  · split
    · rename_i v hValue
      rw [hValue]
      exact describes_fillAttr a v
    · exact describes_unavailable (by decide) _

theorem describes_keyAttr (isPub : Bool) (m : SlotMeta) (a : AttrQuery) :
    (keyAttr isPub m a).Describes (keyValue isPub m a.type) := by
  unfold keyAttr
  split
  · rename_i v hValue
    rw [hValue]
    exact describes_fillAttr a v
  · exact describes_unavailable (by decide) _

theorem fillAttr_ne_invalid (a : AttrQuery) (v : Bytes) :
    (fillAttr a v).rv ≠ .objectHandleInvalid := by
  unfold fillAttr
  split
  · simp
  split <;> simp

theorem keyAttr_ne_invalid (isPub : Bool) (m : SlotMeta) (a : AttrQuery) :
    (keyAttr isPub m a).rv ≠ .objectHandleInvalid := by
  unfold keyAttr
  split
  · exact fillAttr_ne_invalid a _
  · simp [AttrAnswer.unavailable]

theorem secretAttr_ne_invalid (k : P11Secret) (a : AttrQuery) :
    (secretAttr k a).rv ≠ .objectHandleInvalid := by
  unfold secretAttr
  split
  · split
    · simp [AttrAnswer.unavailable]
    · exact fillAttr_ne_invalid a _
  · split
    · exact fillAttr_ne_invalid a _
    · simp [AttrAnswer.unavailable]

theorem firstError_ne_invalid {rs : List AttrAnswer} (h : ∀ r ∈ rs, r.rv ≠ .objectHandleInvalid) :
    firstError rs ≠ .objectHandleInvalid := by
  induction rs with
  | nil => simp [firstError]
  | cons r rs ih =>
    unfold firstError
    split
    · exact h r List.mem_cons_self
    · exact ih fun r' hr' => h r' (List.mem_cons_of_mem r hr')

end Attributes

/-! ### The public key of a stale handle -/

section PublicKey

variable {S : Setup} {d : Device n} {env : Nat → Env} {sess : HsmSession} {s : Fin n}
  {h : CkHandle}

theorem index_of_slotOfHandle (hn : n ≤ TOKEN_MAX_SLOTS) (hSlot : slotOfHandle h = s) :
    h &&& P11_IDX_MASK ≠ 0 ∧ (h &&& P11_IDX_MASK).toUInt32 = UInt32.ofNat (s + 1) := by
  have hLt := s.isLt
  unfold TOKEN_MAX_SLOTS at hn
  unfold slotOfHandle at hSlot
  generalize hIdx : h &&& P11_IDX_MASK = idx at hSlot
  have hLe : idx.toNat ≤ 4095 := by
    rw [← hIdx, UInt64.toNat_and]
    exact Nat.and_le_right
  have hNe : idx ≠ 0 := by
    rintro rfl
    have hBig : ((0 - 1 : UInt64).toUInt32).toNat = 4294967295 := by decide
    omega
  have hPos : 0 < idx.toNat := by
    rcases Nat.eq_zero_or_pos idx.toNat with hZero | hPos
    · exact absurd (UInt64.toNat_inj.mp hZero) hNe
    · exact hPos
  have hSub : (idx - 1).toNat = idx.toNat - 1 :=
    UInt64.toNat_sub_of_le _ _ (UInt64.le_iff_toNat_le.mpr hPos)
  rw [UInt64.toNat_toUInt32, hSub, Nat.mod_eq_of_lt (by omega)] at hSlot
  refine ⟨hNe, UInt32.toNat_inj.mp ?_⟩
  rw [UInt64.toNat_toUInt32, UInt32.toNat_ofNat', Nat.mod_eq_of_lt (by omega),
    Nat.mod_eq_of_lt (by omega)]
  omega

/-- What the token is asked with: a handle of the present key of the slot, or no handle. -/
theorem run_coreHandleOf (env : Nat → Env) (d : Device n) (hn : n ≤ TOKEN_MAX_SLOTS)
    (hSecret : h &&& SECRET_BIT = 0) (hSlot : slotOfHandle h = s) :
    ∃ priv, (coreHandleOf S h).run env d = (priv, d, fun k => env (k + 1)) ∧
      (priv ≠ HSM_INVALID_HANDLE → (∃ gen, priv = ⟨gen, UInt32.ofNat (s + 1)⟩) ∧
        (h >>> P11_IDX_BITS) &&& P11_GEN_MASK =
          (d.tok.slots s).metadata.generation.toUInt64 &&& P11_GEN_MASK) := by
  obtain ⟨hIdx, hSid⟩ := index_of_slotOfHandle hn hSlot
  have hSlot' : ((h &&& P11_IDX_MASK) - 1).toUInt32.toNat = s.val := hSlot
  unfold coreHandleOf
  rw [if_neg (by simp [hSecret])]
  dsimp only
  rw [if_neg hIdx, hSlot', Prog.bind_eq_bind, Prog.run_bind, run_hsmSlotGetMeta]
  cases hCheck : slotCheckIntegrity S.crypto (env 0) 0 (d.tok.slots s) with
  | ok =>
    dsimp only
    split
    · exact ⟨_, rfl, fun hNe => absurd rfl hNe⟩
    · rename_i hGen
      exact ⟨_, rfl, fun _ => ⟨⟨_, by rw [hSid]⟩, not_not.mp hGen⟩⟩
  | _ => exact ⟨_, rfl, fun hNe => absurd rfl hNe⟩

theorem publicKeyLocked_ok {id : Nat} {priv : HsmHandle} {cap : Option Nat} {e : Env} {sl : Slot}
    (h : (publicKeyLocked S id priv cap e sl).1.1 = .ok) :
    checkHandle S e sl priv = .ok ∧
      (publicKeyLocked S id priv cap e sl).1.2 = some (sl.pk.getD []) := by
  unfold publicKeyLocked at h ⊢
  cases hCheck : checkHandle S e sl priv with
  | ok =>
    simp only [hCheck] at h ⊢
    cases cap with
    | none => cases h
    | some cap =>
      dsimp only at h ⊢
      split at h
      · cases h
      · rename_i hRoom
        simp [hRoom]
  | _ =>
    rw [hCheck] at h
    cases h

theorem run_hsmObjectPublicKey_closed (env : Nat → Env) (priv : HsmHandle) (cap : Option Nat)
    (h : d.tok.slotOf sess = none) : ∃ r env',
    (hsmObjectPublicKey S sess priv cap).run env d = (r, d, env') ∧ r.1 ≠ .ok := by
  unfold Token.slotOf at h
  simp only [hsmObjectPublicKey, sessionInfo, Prog.bind_eq_bind, Prog.run_bind]
  cases hIndex : sessionIndex sess with
  | none => exact ⟨_, _, rfl, by simp⟩
  | some k =>
    rw [hIndex, Option.bind_some] at h
    simp only [tokenSection, Prog.run_atomic]
    cases hMatches : (d.tok.sessions k).matches sess with
    | false => exact ⟨_, _, rfl, by simp⟩
    | true =>
      rw [hMatches, if_pos rfl] at h
      simp only [if_true, h]
      exact ⟨_, _, rfl, by simp⟩

/-- The public key of the slot of the session is read, or nothing. -/
theorem run_hsmObjectPublicKey_any (env : Nat → Env) (d : Device n) (sess : HsmSession)
    (priv : HsmHandle) (cap : Option Nat) : ∃ r env',
    (hsmObjectPublicKey S sess priv cap).run env d = (r, d, env') ∧ (r.1 = .ok →
      ∃ s e, d.tok.slotOf sess = some s ∧ checkHandle S e (d.tok.slots s) priv = .ok ∧
        r.2 = some ((d.tok.slots s).pk.getD [])) := by
  cases hSlot : d.tok.slotOf sess with
  | none =>
    obtain ⟨r, env', hRun, hRefused⟩ := run_hsmObjectPublicKey_closed (S := S) env priv cap hSlot
    exact ⟨r, env', hRun, fun h => absurd h hRefused⟩
  | some s =>
    refine ⟨_, _, run_hsmObjectPublicKey hSlot priv cap, fun h => ?_⟩
    obtain ⟨hCheck, hPk⟩ := publicKeyLocked_ok h
    exact ⟨s, _, rfl, hCheck, hPk⟩

/-- A handle that denotes no key of the slot of the session gets no public key. -/
theorem publicKey_refused (env : Nat → Env) (cap : Option Nat) (hn : n ≤ TOKEN_MAX_SLOTS)
    (hNumbered : d.Numbered) {priv : HsmHandle}
    (hPriv : priv ≠ HSM_INVALID_HANDLE → (∃ gen, priv = ⟨gen, UInt32.ofNat (s + 1)⟩) ∧
      (h >>> P11_IDX_BITS) &&& P11_GEN_MASK =
        (d.tok.slots s).metadata.generation.toUInt64 &&& P11_GEN_MASK)
    (hStale : d.tok.slotOf sess = some s → ¬(d.tok.slots s).metadata.NamedBy h) : ∃ r env',
    (hsmObjectPublicKey S sess priv cap).run env d = (r, d, env') ∧ r.1 ≠ .ok := by
  obtain ⟨r, env', hRun, hOk⟩ := run_hsmObjectPublicKey_any (S := S) env d sess priv cap
  refine ⟨r, env', hRun, fun hSt => ?_⟩
  obtain ⟨s', e, hSlot, hCheck, -⟩ := hOk hSt
  have hValid : priv ≠ HSM_INVALID_HANDLE := by
    rintro rfl
    rw [checkHandle, if_pos (.inl rfl)] at hCheck
    cases hCheck
  obtain ⟨⟨gen, rfl⟩, hGen⟩ := hPriv hValid
  by_cases hSame : s.val = s'.val
  · obtain rfl := Fin.ext hSame
    refine hStale hSlot ⟨?_, hGen⟩
    by_contra hState
    rw [not_or] at hState
    unfold checkHandle at hCheck
    rw [if_pos hState, ite_self] at hCheck
    cases hCheck
  · rw [checkHandle_other hn (hNumbered s') s.isLt hSame] at hCheck
    cases hCheck

end PublicKey

/-! ### What a stale handle gets -/

/-- The attribute of a public key gets no value from a stale handle: it is the key itself, it is
unknown, or there is no room for it. -/
def Unserved (m : SlotMeta) (a : AttrQuery) : Prop :=
  a.type = CKA_VALUE ∨
    ∀ v, keyValue true m a.type = some v → a.ptr = true → a.len.toNat < v.length

/-- The template asks for the public key, before it for lengths of other attributes only, and after it
for nothing that gets a value. -/
def AsksKeyFirst (m : SlotMeta) : List AttrQuery → Prop
  | [] => False
  | a :: t =>
    if a.type = CKA_VALUE then ∀ b ∈ t, Unserved m b
    else a.ptr = false ∧ (keyValue true m a.type).isSome ∧ AsksKeyFirst m t

theorem unserved_iff {m : SlotMeta} {a : AttrQuery} (hType : a.type ≠ CKA_VALUE) :
    Unserved m a ↔ (keyAttr true m a).value = none := by
  unfold Unserved keyAttr
  rw [or_iff_right hType]
  cases keyValue true m a.type with
  | none => simp [AttrAnswer.unavailable]
  | some v =>
    unfold fillAttr
    cases a.ptr with
    | false => simp
    | true =>
      simp only [Bool.not_true, Bool.false_eq_true, if_false]
      split <;> simp_all

theorem lengthOnly_iff (isPub : Bool) (m : SlotMeta) (a : AttrQuery) :
    (keyAttr isPub m a).rv = .ok ∧ (keyAttr isPub m a).value = none ↔
      a.ptr = false ∧ (keyValue isPub m a.type).isSome := by
  unfold keyAttr
  cases keyValue isPub m a.type with
  | none => simp [AttrAnswer.unavailable]
  | some v =>
    unfold fillAttr
    cases a.ptr with
    | false => simp
    | true =>
      simp only [Bool.not_true, Bool.false_eq_true, if_false]
      split <;> simp

section Stale

variable {S : Setup} {d : Device n} {env : Nat → Env} {sess : HsmSession} {priv : HsmHandle}
  {info : PqcAlgInfo} {m : SlotMeta} {isPub : Bool}

/-- The token gives no public key for the handle. -/
def RefusesKey (S : Setup) (d : Device n) (sess : HsmSession) (priv : HsmHandle) : Prop :=
  ∀ env cap, ∃ r env', (hsmObjectPublicKey S sess priv cap).run env d = (r, d, env') ∧ r.1 ≠ .ok

theorem run_slotAttrs_cons (isPub : Bool) (info : PqcAlgInfo) (m : SlotMeta) (a : AttrQuery)
    (t : List AttrQuery) {r : AttrAnswer} {rs : List AttrAnswer} {env env₁ env₂ : Nat → Env}
    (hHead : (slotAttr S sess isPub priv m info a).run env d = (r, d, env₁))
    (hTail : (slotAttrs S sess isPub priv m info t).run env₁ d = (rs, d, env₂)) :
    (slotAttrs S sess isPub priv m info (a :: t)).run env d = (r :: rs, d, env₂) := by
  simp only [slotAttrs, Prog.bind_eq_bind, Prog.pure_eq_ret, Prog.run_bind, Prog.run_ret, hHead,
    hTail]

theorem run_slotAttr_of_ne (isPub : Bool) (info : PqcAlgInfo) (m : SlotMeta) {a : AttrQuery}
    (hType : a.type ≠ CKA_VALUE) (env : Nat → Env) :
    (slotAttr S sess isPub priv m info a).run env d = (keyAttr isPub m a, d, env) := by
  rw [slotAttr, if_neg hType, Prog.pure_eq_ret, Prog.run_ret]

theorem run_slotAttr_private (info : PqcAlgInfo) (m : SlotMeta) {a : AttrQuery}
    (hType : a.type = CKA_VALUE) (env : Nat → Env) :
    (slotAttr S sess false priv m info a).run env d =
      (.unavailable .attributeSensitive, d, env) := by
  rw [slotAttr, if_pos hType]
  rfl

theorem run_slotAttr_refused (h : RefusesKey S d sess priv) (info : PqcAlgInfo) (m : SlotMeta)
    {a : AttrQuery} (hType : a.type = CKA_VALUE) (env : Nat → Env) :
    ∃ env', (slotAttr S sess true priv m info a).run env d =
      (⟨if (env 0).allocOk then .objectHandleInvalid else .hostMemory, none, a.len⟩, d, env') := by
  rw [slotAttr, if_pos hType, keyValueAttr]
  rcases Bool.eq_false_or_eq_true (env 0).allocOk with hAlloc | hAlloc
  · obtain ⟨⟨st, pk⟩, env', hRun, hRefused⟩ := h (fun k => env (k + 1)) (some info.pkLen)
    refine ⟨env', ?_⟩
    simp only [Bool.not_true, Bool.false_eq_true, if_false, Prog.bind_eq_bind, Prog.run_bind,
      Prog.run_ask, hAlloc, hRun, if_true]
    cases st with
    | ok => exact absurd rfl hRefused
    | _ => rfl
  · refine ⟨fun k => env (k + 1), ?_⟩
    simp only [Bool.not_true, Bool.not_false, Bool.false_eq_true, if_false, if_true,
      Prog.bind_eq_bind, Prog.run_bind, Prog.run_ask, hAlloc]
    rfl

/-- No attribute changes the token, and the public key gets no value. -/
theorem run_slotAttrs_stale (h : RefusesKey S d sess priv) (info : PqcAlgInfo) (m : SlotMeta)
    (t : List AttrQuery) (env : Nat → Env) : ∃ rs env',
    (slotAttrs S sess true priv m info t).run env d = (rs, d, env') ∧
      ((∀ r ∈ rs, r.value = none) ↔ ∀ a ∈ t, Unserved m a) := by
  induction t generalizing env with
  | nil => exact ⟨[], env, rfl, by simp⟩
  | cons a t ih =>
    by_cases hType : a.type = CKA_VALUE
    · obtain ⟨env₁, hHead⟩ := run_slotAttr_refused h info m hType env
      obtain ⟨rs, env₂, hTail, hServed⟩ := ih env₁
      exact ⟨_, env₂, run_slotAttrs_cons true info m a t hHead hTail, by
        simp [hServed, Unserved, hType]⟩
    · obtain ⟨rs, env₂, hTail, hServed⟩ := ih env
      exact ⟨_, env₂, run_slotAttrs_cons true info m a t (run_slotAttr_of_ne _ _ _ hType env)
        hTail, by simp [hServed, unserved_iff hType]⟩

/-- The refusal comes first, and nothing else is served, for some templates. -/
theorem run_slotAttrs_refused_iff (h : RefusesKey S d sess priv) (info : PqcAlgInfo) (m : SlotMeta)
    (t : List AttrQuery) (env : Nat → Env) : ∃ rs env',
    (slotAttrs S sess true priv m info t).run env d = (rs, d, env') ∧
      ((firstError rs = .objectHandleInvalid ∧ ∀ r ∈ rs, r.value = none) ↔
        (env 0).allocOk = true ∧ AsksKeyFirst m t) := by
  induction t with
  | nil => exact ⟨[], env, rfl, by simp [firstError, AsksKeyFirst]⟩
  | cons a t ih =>
    unfold AsksKeyFirst
    by_cases hType : a.type = CKA_VALUE
    · obtain ⟨env₁, hHead⟩ := run_slotAttr_refused h info m hType env
      obtain ⟨rs, env₂, hTail, hServed⟩ := run_slotAttrs_stale h info m t env₁
      refine ⟨_, env₂, run_slotAttrs_cons true info m a t hHead hTail, ?_⟩
      rw [if_pos hType]
      cases (env 0).allocOk <;> simp [firstError, hServed]
    · obtain ⟨rs, env₂, hTail, hFirst⟩ := ih
      refine ⟨_, env₂, run_slotAttrs_cons true info m a t (run_slotAttr_of_ne _ _ _ hType env)
        hTail, ?_⟩
      rw [if_neg hType, List.forall_mem_cons]
      by_cases hRv : (keyAttr true m a).rv = .ok
      · have hNext : firstError (keyAttr true m a :: rs) = firstError rs := by
          simp [firstError, hRv]
        rw [hNext]
        constructor
        · rintro ⟨hErr, hNone, hAll⟩
          obtain ⟨hAlloc, hAsks⟩ := hFirst.mp ⟨hErr, hAll⟩
          obtain ⟨hPtr, hKnown⟩ := (lengthOnly_iff true m a).mp ⟨hRv, hNone⟩
          exact ⟨hAlloc, hPtr, hKnown, hAsks⟩
        · rintro ⟨hAlloc, hPtr, hKnown, hAsks⟩
          obtain ⟨hErr, hAll⟩ := hFirst.mpr ⟨hAlloc, hAsks⟩
          exact ⟨hErr, ((lengthOnly_iff true m a).mpr ⟨hPtr, hKnown⟩).2, hAll⟩
      · have hHere : firstError (keyAttr true m a :: rs) = (keyAttr true m a).rv := by
          simp [firstError, hRv]
        rw [hHere]
        constructor
        · rintro ⟨hErr, -⟩
          exact absurd hErr (keyAttr_ne_invalid true m a)
        · rintro ⟨-, hPtr, hKnown, -⟩
          exact absurd ((lengthOnly_iff true m a).mpr ⟨hPtr, hKnown⟩).1 hRv

/-- A private key is never found out to be stale. -/
theorem run_slotAttrs_private (S : Setup) (d : Device n) (sess : HsmSession) (priv : HsmHandle)
    (info : PqcAlgInfo) (m : SlotMeta) (t : List AttrQuery)
    (env : Nat → Env) : ∃ rs,
    (slotAttrs S sess false priv m info t).run env d = (rs, d, env) ∧
      firstError rs ≠ .objectHandleInvalid := by
  induction t with
  | nil => exact ⟨[], rfl, by simp [firstError]⟩
  | cons a t ih =>
    obtain ⟨rs, hTail, hNe⟩ := ih
    by_cases hType : a.type = CKA_VALUE
    · refine ⟨_, run_slotAttrs_cons false info m a t (run_slotAttr_private info m hType env) hTail,
        ?_⟩
      simp [firstError, AttrAnswer.unavailable]
    · refine ⟨_, run_slotAttrs_cons false info m a t (run_slotAttr_of_ne _ _ _ hType env) hTail, ?_⟩
      unfold firstError
      split
      · exact keyAttr_ne_invalid false m a
      · exact hNe

end Stale

/-! ### What a live handle gets -/

section Live

variable {S : Setup} {d : Device n} {sess : HsmSession} {s : Fin n}

theorem run_slotAttr_live (hSlot : d.tok.slotOf sess = some s) (isPub : Bool) (priv : HsmHandle)
    (info : PqcAlgInfo) (a : AttrQuery) (env : Nat → Env) : ∃ r env',
    (slotAttr S sess isPub priv (d.tok.slots s).metadata info a).run env d = (r, d, env') ∧
      r.Describes ((d.tok.slots s).attrOf isPub a.type) := by
  unfold Slot.attrOf
  by_cases hType : a.type = CKA_VALUE
  · rw [if_pos hType]
    cases isPub with
    | false =>
      exact ⟨_, env, run_slotAttr_private info _ hType env, describes_unavailable (by decide) _⟩
    | true =>
      rw [slotAttr, if_pos hType, keyValueAttr]
      simp only [Bool.not_true, Bool.false_eq_true, if_false, Prog.bind_eq_bind, Prog.run_bind,
        Prog.run_ask]
      rcases Bool.eq_false_or_eq_true (env 0).allocOk with hAlloc | hAlloc
      · obtain ⟨⟨st, pk⟩, env', hRun, hOk⟩ := run_hsmObjectPublicKey_any (S := S)
          (fun k => env (k + 1)) d sess priv (some info.pkLen)
        simp only [hAlloc, Bool.not_true, Bool.false_eq_true, if_false, Prog.run_bind, hRun]
        cases st with
        | ok =>
          obtain ⟨s', e, hSlot', -, hPk⟩ := hOk rfl
          obtain rfl := Option.some.inj (hSlot.symm.trans hSlot')
          obtain rfl : pk = some ((d.tok.slots s).pk.getD []) := hPk
          exact ⟨_, env', rfl, describes_fillAttr a _⟩
        | _ => exact ⟨_, env', rfl, describes_refused (by simp) rfl _⟩
      · simp only [hAlloc, Bool.not_false, if_true]
        exact ⟨_, _, rfl, describes_refused (by simp) rfl _⟩
  · rw [if_neg hType]
    exact ⟨_, env, run_slotAttr_of_ne isPub info _ hType env, describes_keyAttr isPub _ a⟩

theorem run_slotAttrs_live (hSlot : d.tok.slotOf sess = some s) (isPub : Bool) (priv : HsmHandle)
    (info : PqcAlgInfo) (t : List AttrQuery) (env : Nat → Env) : ∃ rs env',
    (slotAttrs S sess isPub priv (d.tok.slots s).metadata info t).run env d = (rs, d, env') ∧
      ∀ p ∈ t.zip rs, p.2.Describes ((d.tok.slots s).attrOf isPub p.1.type) := by
  induction t generalizing env with
  | nil => exact ⟨[], env, rfl, by simp⟩
  | cons a t ih =>
    obtain ⟨r, env₁, hHead, hDescribes⟩ := run_slotAttr_live hSlot isPub priv info a env
    obtain ⟨rs, env₂, hTail, hAll⟩ := ih env₁
    refine ⟨r :: rs, env₂, run_slotAttrs_cons isPub info _ a t hHead hTail, ?_⟩
    rw [List.zip_cons_cons, List.forall_mem_cons]
    exact ⟨hDescribes, hAll⟩

end Live

/-! ### The whole call -/

/-- The call stops at the object: no secret object, no readable slot, or a slot without a key. -/
def Unanswered (S : Setup) (st : P11State n) (h : CkHandle) (env : Nat → Env) : Prop :=
  if h &&& SECRET_BIT ≠ 0 then st.secretAt h = none
  else ∀ s : Fin n, slotOfHandle h = s →
    slotCheckIntegrity S.crypto (env 1) 0 (st.gTok.tok.slots s) ≠ .ok ∨
      pqcAlgInfo (st.gTok.tok.slots s).metadata.alg = none

/-- The call asks a slot for its public key first, and for nothing else that has a value. -/
def AsksForKey (st : P11State n) (h : CkHandle) (t : List AttrQuery) (env : Nat → Env) : Prop :=
  h &&& SECRET_BIT = 0 ∧ h &&& PUB_BIT ≠ 0 ∧ (env 2).allocOk = true ∧
    ∃ s : Fin n, slotOfHandle h = s ∧ AsksKeyFirst (st.gTok.tok.slots s).metadata t

section Call

variable {S : Setup} {st : P11State n} {d : Device n} {env : Nat → Env} {sess : HsmSession}
  {s : Fin n} {h : CkHandle} {t : List AttrQuery}

theorem run_slotAttributes_no_slot (hNone : ∀ s : Fin n, slotOfHandle h ≠ s) :
    ((slotAttributes S sess h t).run env d).1 = ⟨.objectHandleInvalid, []⟩ := by
  have hSlot : slotAt n (slotOfHandle h) = none := by
    unfold slotAt
    split
    · rename_i hLt
      exact absurd rfl (hNone ⟨_, hLt⟩)
    · rfl
  simp only [slotAttributes, hsmSlotGetMeta, hSlot, Prog.bind_eq_bind, Prog.run_bind,
    Prog.pure_eq_ret, Prog.run_ret]

theorem run_slotAttributes_unreadable (hn : n ≤ TOKEN_MAX_SLOTS) (hSecret : h &&& SECRET_BIT = 0)
    (hSlot : slotOfHandle h = s)
    (hNone : slotCheckIntegrity S.crypto (env 1) 0 (d.tok.slots s) ≠ .ok ∨
      pqcAlgInfo (d.tok.slots s).metadata.alg = none) :
    ((slotAttributes S sess h t).run env d).1 = ⟨.objectHandleInvalid, []⟩ := by
  obtain ⟨priv, hPriv, -⟩ := run_coreHandleOf (S := S) env d hn hSecret hSlot
  simp only [slotAttributes, hSlot, Prog.bind_eq_bind, Prog.run_bind, hPriv, run_hsmSlotGetMeta]
  cases hCheck : slotCheckIntegrity S.crypto (env 1) 0 (d.tok.slots s) with
  | ok =>
    have hInfo := hNone.resolve_left (not_not.mpr hCheck)
    simp only [hInfo, Prog.pure_eq_ret, Prog.run_ret]
  | _ => rfl

theorem run_slotAttributes (sess : HsmSession) (t : List AttrQuery) (hn : n ≤ TOKEN_MAX_SLOTS) (hSecret : h &&& SECRET_BIT = 0)
    (hSlot : slotOfHandle h = s) {info : PqcAlgInfo}
    (hCheck : slotCheckIntegrity S.crypto (env 1) 0 (d.tok.slots s) = .ok)
    (hInfo : pqcAlgInfo (d.tok.slots s).metadata.alg = some info) :
    ∃ priv, (priv ≠ HSM_INVALID_HANDLE → (∃ gen, priv = ⟨gen, UInt32.ofNat (s + 1)⟩) ∧
        (h >>> P11_IDX_BITS) &&& P11_GEN_MASK =
          (d.tok.slots s).metadata.generation.toUInt64 &&& P11_GEN_MASK) ∧
      ∀ rs env', (slotAttrs S sess (h &&& PUB_BIT ≠ 0) priv (d.tok.slots s).metadata info t).run
          (fun k => env (k + 2)) d = (rs, d, env') →
        ((slotAttributes S sess h t).run env d).1 = ⟨firstError rs, rs⟩ := by
  obtain ⟨priv, hRun, hPriv⟩ := run_coreHandleOf (S := S) env d hn hSecret hSlot
  refine ⟨priv, hPriv, fun rs env' hAttrs => ?_⟩
  simp only [slotAttributes, hSlot, Prog.bind_eq_bind, Prog.run_bind, hRun, run_hsmSlotGetMeta,
    hCheck, hInfo, hAttrs, Prog.pure_eq_ret, Prog.run_ret]

end Call

section Main

variable {S : Setup} {st : P11State n} {i : Fin MAX_P11_SESSIONS} {hs h : CkHandle}
  {t : List AttrQuery} {env : Nat → Env}

theorem cGetAttributeValue_secret (hEnter : st.enter hs true = .ok i)
    (hSecret : h &&& SECRET_BIT ≠ 0) :
    (cGetAttributeValue S st hs h (some t) env).1 = match st.secretAt h with
      | none => ⟨.objectHandleInvalid, []⟩
      | some k => ⟨firstError (t.map (secretAttr k)), t.map (secretAttr k)⟩ := by
  unfold cGetAttributeValue
  simp only [Option.isSome_some, hEnter, if_pos hSecret, Option.getD_some]
  cases st.secretAt h <;> rfl

theorem cGetAttributeValue_slot (hEnter : st.enter hs true = .ok i)
    (hSecret : h &&& SECRET_BIT = 0) :
    (cGetAttributeValue S st hs h (some t) env).1 =
      ((slotAttributes S (st.gSessions i).sess h t).run env st.gTok).1 := by
  unfold cGetAttributeValue
  simp only [Option.isSome_some, hEnter, hSecret, ne_eq, not_true, if_false, Option.getD_some]

theorem objectAt_secret (hSecret : h &&& SECRET_BIT ≠ 0) {o : P11Object n}
    (hObject : st.objectAt i h = some o) :
    ∃ j k, o = .secret j ∧ st.gSecrets j = some k ∧ st.secretAt h = some k := by
  obtain ⟨s, -, hOf⟩ := Option.bind_eq_some_iff.mp hObject
  unfold P11State.objectOf at hOf
  rw [if_pos hSecret] at hOf
  obtain ⟨j, hSlot, hOf⟩ := Option.bind_eq_some_iff.mp hOf
  obtain ⟨k, hAt, hOf⟩ := Option.bind_eq_some_iff.mp hOf
  split at hOf
  · cases hOf
    refine ⟨j, k, rfl, hAt, ?_⟩
    rw [P11State.secretAt, hSlot, Option.bind_some, hAt]
  · cases hOf

theorem answersRightly_secret (hEnter : st.enter hs true = .ok i)
    (hSecret : h &&& SECRET_BIT ≠ 0) :
    AnswersRightly S st i hs h t env ↔
      (st.objectAt i h).isSome ∨ Unanswered S st h env ∨ AsksForKey st h t env := by
  have hNoKey : ¬AsksForKey st h t env := fun hKey => hSecret hKey.1
  unfold AnswersRightly Unanswered
  simp only [cGetAttributeValue_secret hEnter hSecret, if_pos hSecret, or_iff_left hNoKey]
  cases hObject : st.objectAt i h with
  | some o =>
    obtain ⟨j, k, rfl, hAt, hSome⟩ := objectAt_secret hSecret hObject
    simp only [hSome, Option.isSome_some, true_or, iff_true]
    have hZip : t.zip (t.map (secretAttr k)) = t.map fun a => (a, secretAttr k a) := by
      simpa using List.zip_map' (f := id) (g := secretAttr k) (l := t)
    intro p hp
    rw [hZip] at hp
    obtain ⟨a, -, rfl⟩ := List.mem_map.mp hp
    simp only [P11State.attrOf, hAt, Option.bind_some]
    exact describes_secretAttr k a
  | none =>
    cases hAt : st.secretAt h with
    | none => simp
    | some k =>
      simp only [Option.isSome_none, Bool.false_eq_true, false_or, reduceCtorEq, iff_false]
      rintro ⟨hRv, -⟩
      refine firstError_ne_invalid ?_ hRv
      intro r hr
      obtain ⟨a, -, rfl⟩ := List.mem_map.mp hr
      exact secretAttr_ne_invalid k a

/-- A handle of a slot denotes nothing in the slot of the session, or the key of that slot. -/
theorem objectAt_slot (hSecret : h &&& SECRET_BIT = 0) {s : Fin n} (hSlot : slotOfHandle h = s) :
    (st.objectAt i h = none ∧ (st.slotOf i = some s → ¬(st.gTok.tok.slots s).metadata.NamedBy h)) ∨
      (st.objectAt i h = some (.key s (h &&& PUB_BIT ≠ 0)) ∧ st.slotOf i = some s) := by
  unfold P11State.objectAt
  cases hOwn : st.slotOf i with
  | none => simp
  | some s' =>
    rw [Option.bind_some, P11State.objectOf, if_neg (by simp [hSecret])]
    by_cases hSame : s = s'
    · subst hSame
      by_cases hNamed : (st.gTok.tok.slots s).metadata.NamedBy h
      · rw [if_pos ⟨hSlot, hNamed⟩]
        exact .inr ⟨rfl, rfl⟩
      · rw [if_neg fun hBoth => hNamed hBoth.2]
        exact .inl ⟨rfl, fun _ => hNamed⟩
    · rw [if_neg fun hBoth => hSame (Fin.ext (hSlot.symm.trans hBoth.1))]
      refine .inl ⟨rfl, fun h => ?_⟩
      exact absurd (Option.some.inj h).symm hSame

theorem answersRightly_unanswered (hEnter : st.enter hs true = .ok i)
    (hSecret : h &&& SECRET_BIT = 0)
    (hOut : ((slotAttributes S (st.gSessions i).sess h t).run env st.gTok).1 =
      ⟨.objectHandleInvalid, []⟩) : AnswersRightly S st i hs h t env := by
  unfold AnswersRightly
  simp only [cGetAttributeValue_slot hEnter hSecret, hOut]
  cases st.objectAt i h with
  | none => simp
  | some o => simp

theorem answersRightly_slot (hn : n ≤ TOKEN_MAX_SLOTS) (hNumbered : st.gTok.Numbered)
    (hEnter : st.enter hs true = .ok i) (hSecret : h &&& SECRET_BIT = 0) {s : Fin n}
    (hSlot : slotOfHandle h = s) {info : PqcAlgInfo}
    (hCheck : slotCheckIntegrity S.crypto (env 1) 0 (st.gTok.tok.slots s) = .ok)
    (hInfo : pqcAlgInfo (st.gTok.tok.slots s).metadata.alg = some info) :
    AnswersRightly S st i hs h t env ↔ (st.objectAt i h).isSome ∨ AsksForKey st h t env := by
  obtain ⟨priv, hPriv, hRun⟩ := run_slotAttributes (st.gSessions i).sess t hn
    hSecret hSlot hCheck hInfo
  unfold AnswersRightly
  simp only [cGetAttributeValue_slot hEnter hSecret]
  rcases objectAt_slot (i := i) hSecret hSlot with ⟨hNone, hStale⟩ | ⟨hKey, hOwn⟩
  · have hRefuses : RefusesKey S st.gTok (st.gSessions i).sess priv := fun env cap =>
      publicKey_refused env cap hn hNumbered hPriv hStale
    have hAsks : AsksForKey st h t env ↔ h &&& PUB_BIT ≠ 0 ∧ (env 2).allocOk = true ∧
        AsksKeyFirst (st.gTok.tok.slots s).metadata t := by
      unfold AsksForKey
      constructor
      · rintro ⟨-, hPub, hAlloc, s', hSlot', hFirst⟩
        obtain rfl := Fin.ext (hSlot'.symm.trans hSlot)
        exact ⟨hPub, hAlloc, hFirst⟩
      · rintro ⟨hPub, hAlloc, hFirst⟩
        exact ⟨hSecret, hPub, hAlloc, s, hSlot, hFirst⟩
    rw [hAsks]
    simp only [hNone, Option.isSome_none, Bool.false_eq_true, false_or]
    by_cases hPub : h &&& PUB_BIT ≠ 0
    · rw [decide_eq_true hPub] at hRun
      obtain ⟨rs, env', hAttrs, hFirst⟩ := run_slotAttrs_refused_iff hRefuses info
        (st.gTok.tok.slots s).metadata t fun k => env (k + 2)
      rw [hRun rs env' hAttrs]
      simpa [hPub] using hFirst
    · rw [decide_eq_false hPub] at hRun
      obtain ⟨rs, hAttrs, hNe⟩ := run_slotAttrs_private S st.gTok (st.gSessions i).sess priv info
        (st.gTok.tok.slots s).metadata t fun k => env (k + 2)
      rw [hRun rs _ hAttrs]
      simp [hPub, hNe]
  · obtain ⟨rs, env', hAttrs, hAll⟩ := run_slotAttrs_live (S := S) hOwn
      (h &&& PUB_BIT ≠ 0) priv info t fun k => env (k + 2)
    rw [hRun rs env' hAttrs]
    simp only [hKey, Option.isSome_some, true_or, iff_true]
    exact hAll

theorem gInit_of_enter {b : Bool} (hEnter : st.enter hs b = .ok i) : st.gInit = true := by
  unfold P11State.enter at hEnter
  split at hEnter
  · cases hEnter
  · rename_i hInit
    simpa using hInit

theorem slots_le_of_reachable {L : P11Lib}
    {ok : P11Run n → P11Call × (Nat → Env) → P11Run n → Prop} {r : P11Run n}
    (hr : Reachable (p11System S L n) ok r) : n ≤ TOKEN_MAX_SLOTS := by
  refine Reachable.invariant (I := fun _ => n ≤ TOKEN_MAX_SLOTS) ?_ ?_ hr
  · rintro _ ⟨-, hn, -⟩
    exact hn
  · intro _ _ _ hn _ _
    exact hn

end Main

/-- In every run, an answer of `C_GetAttributeValue` is right exactly for a handle that denotes an
object of the slot of the session, for a call that stops at the object, and for a call that asks the
slot of a stale handle for its public key first and for nothing else that has a value. -/
theorem attributes_answered_rightly_iff (S : Setup) (L : P11Lib)
    {ok : P11Run n → P11Call × (Nat → Env) → P11Run n → Prop} {r : P11Run n}
    (hr : Reachable (p11System S L n) ok r) {hs : CkHandle} {i : Fin MAX_P11_SESSIONS}
    (hEnter : r.st.enter hs true = .ok i) (h : CkHandle) (t : List AttrQuery) (env : Nat → Env) :
    AnswersRightly S r.st i hs h t env ↔
      (r.st.objectAt i h).isSome ∨ Unanswered S r.st h env ∨ AsksForKey r.st h t env := by
  have hn := slots_le_of_reachable hr
  have hNumbered := numbered_reachable hr (gInit_of_enter hEnter)
  by_cases hSecret : h &&& SECRET_BIT = 0
  · have hUnanswered : Unanswered S r.st h env ↔ ∀ s : Fin n, slotOfHandle h = s →
        slotCheckIntegrity S.crypto (env 1) 0 (r.st.gTok.tok.slots s) ≠ .ok ∨
          pqcAlgInfo (r.st.gTok.tok.slots s).metadata.alg = none := by
      rw [Unanswered, if_neg (by simp [hSecret])]
    by_cases hSlot : ∃ s : Fin n, slotOfHandle h = s
    · obtain ⟨s, hSlot⟩ := hSlot
      by_cases hNone : slotCheckIntegrity S.crypto (env 1) 0 (r.st.gTok.tok.slots s) ≠ .ok ∨
          pqcAlgInfo (r.st.gTok.tok.slots s).metadata.alg = none
      · refine iff_of_true (answersRightly_unanswered hEnter hSecret
          (run_slotAttributes_unreadable hn hSecret hSlot hNone)) (.inr (.inl ?_))
        rw [hUnanswered]
        intro s' hSlot'
        obtain rfl := Fin.ext (hSlot'.symm.trans hSlot)
        exact hNone
      · have hAnswered : ¬Unanswered S r.st h env := fun hAll => hNone (hUnanswered.mp hAll s hSlot)
        rw [not_or, not_not] at hNone
        obtain ⟨info, hInfo⟩ := Option.ne_none_iff_exists'.mp hNone.2
        rw [or_iff_right hAnswered]
        exact answersRightly_slot hn hNumbered hEnter hSecret hSlot hNone.1 hInfo
    · rw [not_exists] at hSlot
      refine iff_of_true (answersRightly_unanswered hEnter hSecret
        (run_slotAttributes_no_slot hSlot)) (.inr (.inl ?_))
      rw [hUnanswered]
      exact fun s hs => absurd hs (hSlot s)
  · exact answersRightly_secret hEnter hSecret

/-- A slot gets a key for signatures, which is destroyed, and then one for encapsulation. -/
def regeneratedRun : P11Run 1 :=
  replay (P11Run.next .clear .clear) (.loaded .clear 1) (calmly (userCalls ++
    [.onToken (.generate firstSession .mlDsa44 KEY_USAGE_SIGN 0),
      .onToken (.destroy firstSession ⟨0, 1⟩),
      .onToken (.generate firstSession .mlKem512 KEY_USAGE_DECAP 0)]))

def firstEntry : Fin MAX_P11_SESSIONS := ⟨0, by decide⟩

theorem reachable_regeneratedRun : Reachable (p11System .clear .clear 1) anyStep regeneratedRun :=
  reachable_replay (.init init_loaded) _

theorem enter_regeneratedRun : regeneratedRun.st.enter 1 true = .ok firstEntry := by
  have hInit : regeneratedRun.st.gInit = true := by decide +kernel
  have hAt : regeneratedRun.st.sessAt 1 = some firstEntry := by decide +kernel
  simp [P11State.enter, hInit, hAt]

theorem present_key_answers :
    AnswersRightly .clear regeneratedRun.st firstEntry 1 0x1001 [⟨CKA_CLASS, true, 8⟩]
      (fun _ => .calm 7) := by
  have hObject : (regeneratedRun.st.objectAt firstEntry 0x1001).isSome = true := by decide +kernel
  rw [attributes_answered_rightly_iff .clear .clear reachable_regeneratedRun enter_regeneratedRun]
  exact .inl hObject

/-- The handle of the destroyed key is answered with the type of the key after it. -/
theorem stale_handle_answers_for_new_key :
    Reachable (p11System .clear .clear 1) anyStep regeneratedRun ∧
      regeneratedRun.st.enter 1 true = .ok firstEntry ∧
      ¬AnswersRightly .clear regeneratedRun.st firstEntry 1 0x0001 [⟨CKA_KEY_TYPE, true, 8⟩]
        (fun _ => .calm 7) := by
  refine ⟨reachable_regeneratedRun, enter_regeneratedRun, ?_⟩
  have hStale : regeneratedRun.st.objectAt firstEntry 0x0001 = none := by decide +kernel
  have hOut : (cGetAttributeValue .clear regeneratedRun.st 1 0x0001
      (some [⟨CKA_KEY_TYPE, true, 8⟩]) (fun _ => .calm 7)).1 =
        ⟨.ok, [⟨.ok, some (putU64 CKK_ML_KEM), 8⟩]⟩ := by decide +kernel
  unfold AnswersRightly
  rw [hStale, hOut]
  rintro ⟨hRv, -⟩
  cases hRv

end PqcHsm
