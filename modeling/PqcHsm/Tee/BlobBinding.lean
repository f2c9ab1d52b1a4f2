import PqcHsm.Tee.Commands

/-!
# What a blob of the trusted application is bound to

If no tag is forged, a blob that opens was sealed in the run under the same key, with the same
associated data and plaintext. Its kind then follows from the associated data and from the length of
the plaintext, where a command looks at it.
-/

namespace PqcHsm

open ByteCodec Transition Wrap

def TaSealing.blob (G : AesGcm) (s : TaSealing) : Bytes :=
  pwrpBlob G s.kek s.nonce (UInt32.ofNat s.aad.length) s.aad s.pt

/-- The associated data of the cipher: the header of the blob, and what the sealing adds. -/
def TaSealing.cipherAad (s : TaSealing) : Bytes :=
  pwrpHdrPut (UInt32.ofNat s.aad.length) (UInt32.ofNat s.pt.length) ++ s.aad

/-- What was encrypted in a sealing: key, nonce, associated data and ciphertext. -/
def TaSealing.query (G : AesGcm) (s : TaSealing) :
    ByteVec PQC_KEK_LEN × ByteVec PWRP_NONCE_LEN × Bytes × Bytes :=
  (s.kek, s.nonce, s.cipherAad, G.crypt s.kek s.nonce s.pt)

/-- The cipher accepts the blob only if its ciphertext comes from an encryption of the run, under
the same key and nonce and with the same associated data. -/
def Authentic (G : AesGcm) (seals : List TaSealing) (kek : ByteVec PQC_KEK_LEN)
    (aad blob : Bytes) : Prop :=
  (blobOpen G kek aad blob (blob.length - PWRP_OVERHEAD)).isSome →
    (kek, blobNonce blob, blob.take PWRP_HDR_LEN ++ aad,
      blobCt blob (blob.length - PWRP_OVERHEAD)) ∈ seals.map (TaSealing.query G)

instance (G : AesGcm) (seals : List TaSealing) (kek : ByteVec PQC_KEK_LEN) (aad blob : Bytes) :
    Decidable (Authentic G seals kek aad blob) :=
  inferInstanceAs (Decidable (_ → _))

/-- The blob a command opens, with the associated data it expects. -/
def TaCmd.opening : TaCmd → Option (Bytes × Span)
  | .decaps _ blob _ _ => some ([], blob)
  | .sign _ blob _ _ => some ([], blob)
  | .seedReplay _ blob => some ([], blob)
  | .symkeyLoad _ blob => some (TA_SYMKEY_AAD, blob)
  | _ => none

/-- No command of the run opens a forged blob. -/
def authenticStep (T : TaLib) (r : TaRun) (a : TaCmd × TaEnv) (_ : TaRun) : Prop :=
  match r.st.gKek, a.1.opening with
  | some kek, some (aad, blob) => Authentic T.gcm r.seals kek aad blob.toBytes
  | _, _ => True

instance (T : TaLib) (r : TaRun) (a : TaCmd × TaEnv) (r' : TaRun) :
    Decidable (authenticStep T r a r') := by
  unfold authenticStep
  split <;> infer_instance

/-! ### Opened blobs were sealed -/

section Opened

variable {T : TaLib} {seals : List TaSealing} {kek : ByteVec PQC_KEK_LEN} {aad : Bytes}

theorem header_append_inj {a a' p p' : UInt32} {aad aad' : Bytes}
    (h : pwrpHdrPut a p ++ aad = pwrpHdrPut a' p' ++ aad') : aad = aad' :=
  (List.append_inj h ((length_pwrpHdrPut ..).trans (length_pwrpHdrPut ..).symm)).2

theorem sealed_of_authentic {nonce : ByteVec PWRP_NONCE_LEN} {pt : Bytes}
    (h : Authentic T.gcm seals kek aad
      (pwrpBlob T.gcm kek nonce (UInt32.ofNat aad.length) aad pt)) :
    ∃ s ∈ seals, s.kek = kek ∧ s.aad = aad ∧ s.pt = pt ∧
      s.blob T.gcm = pwrpBlob T.gcm kek nonce (UInt32.ofNat aad.length) aad pt := by
  unfold Authentic at h
  rw [length_pwrpBlob, Nat.add_sub_cancel, blobOpen_pwrpBlob, blobNonce_pwrpBlob, take_pwrpBlob,
    blobCt_pwrpBlob] at h
  obtain ⟨s, hMem, hQuery⟩ := List.mem_map.mp (h rfl)
  obtain ⟨rfl, hRest⟩ := Prod.mk.inj hQuery
  obtain ⟨rfl, hRest⟩ := Prod.mk.inj hRest
  obtain ⟨hAad, hCt⟩ := Prod.mk.inj hRest
  obtain rfl : s.aad = aad := header_append_inj hAad
  have hPt : s.pt = pt := by
    rw [← T.gcm.crypt_crypt s.kek s.nonce s.pt, hCt, T.gcm.crypt_crypt]
  exact ⟨s, hMem, rfl, rfl, hPt, by rw [TaSealing.blob, hPt]⟩

/-- A command that opens a blob gets the plaintext of a sealing, over the start of its buffer. -/
theorem sealed_of_open {aad blob : Span} {lib : Bool} {buf : Bytes} {n : Nat}
    (hAuth : Authentic T.gcm seals kek aad.toBytes blob.toBytes)
    (hRc : (taWrapOpen T.backend T.gcm lib kek aad blob (.mem buf) n).rc = 0) :
    ∃ s ∈ seals, s.kek = kek ∧ s.aad = aad.toBytes ∧ .mem (s.blob T.gcm) = blob ∧
      s.pt.length ≤ buf.length ∧ taWrapOpen T.backend T.gcm lib kek aad blob (.mem buf) n =
        ⟨0, .mem (s.pt ++ buf.drop s.pt.length), s.pt.length⟩ := by
  obtain ⟨nonce, pt, hOpen, hOut, hAad, hRoom, -, hBlob⟩ := taWrapOpen_success hRc
  rw [← Span.length_toBytes hAad] at hBlob
  rw [hBlob, Span.toBytes_mem] at hAuth
  obtain ⟨s, hMem, hKek, hSAad, rfl, hSBlob⟩ := sealed_of_authentic hAuth
  exact ⟨s, hMem, hKek, hSAad, by rw [hSBlob, hBlob], (Span.room_iff hOut).mp hRoom, hOpen⟩

end Opened

/-! ### What is sealed for what -/

/-- The associated data and the length of the plaintext that a sealing for a purpose has. -/
def TaMaker.Fits : TaMaker → Bytes → Nat → Prop
  | keygen alg, aad, len => aad = [] ∧ ∃ d, pqcAlgInfo alg = some d ∧ len = d.skLen
  | seedNew tgt, aad, len => aad = [] ∧ ∃ words, seedWords tgt = some (words, len)
  | symkeyNew, aad, len => aad = TA_SYMKEY_AAD ∧ (len = 16 ∨ len = 32)

def TaSealing.Fits (s : TaSealing) : Prop := s.maker.Fits s.aad s.pt.length

/-- What a command has sealed, and where it put the blob. -/
structure TaOut.Sealed (T : TaLib) (st : TaState) (o : TaOut) (s : TaSealing) : Prop where
  fits : s.Fits
  kek : st.gKek = some s.kek
  written : ∃ param, (param, s.blob T.gcm) ∈ o.written

section Seals

variable {T : TaLib} {st : TaState} {e : TaEnv} {s : TaSealing}

theorem length_stream (len : Nat) (f : Nat → UInt8) : (ofStream len f).toList.length = len :=
  List.Vector.toList_length _

theorem sealed_of_keygenFinish {kek : ByteVec PQC_KEK_LEN} {alg : PqcAlg} {d : PqcAlgInfo}
    {pk sk : Bytes} {param cap : Nat} (hKek : st.gKek = some kek) (hDims : pqcAlgInfo alg = some d)
    (hLen : sk.length = d.skLen) :
    (keygenFinish T e kek alg pk sk param cap).sealing = some s →
      (keygenFinish T e kek alg pk sk param cap).Sealed T st s := by
  unfold keygenFinish
  split
  · rintro ⟨⟩
  split
  · rintro ⟨⟩
  · rename_i blob hSeal
    rintro ⟨⟩
    exact ⟨⟨rfl, d, hDims, hLen⟩, hKek, param,
      List.mem_cons_of_mem _ (List.mem_singleton.mpr (by rw [blob_of_taWrapSeal hSeal]; rfl))⟩

theorem dims_of_taPqcDims {alg : UInt32} {a : PqcAlg} {d : PqcAlgInfo}
    (h : taPqcDims alg = some (a, d)) : pqcAlgInfo a = some d := by
  obtain ⟨a', -, hMap⟩ := Option.bind_eq_some_iff.mp h
  obtain ⟨d', hInfo, hEq⟩ := Option.map_eq_some_iff.mp hMap
  cases hEq
  exact hInfo

theorem sealed_of_cmdKeygen {alg : UInt32} {pkCap blobCap : Nat} :
    (cmdKeygen T st e alg pkCap blobCap).sealing = some s →
      (cmdKeygen T st e alg pkCap blobCap).Sealed T st s := by
  unfold cmdKeygen
  split
  · rintro ⟨⟩
  · rintro ⟨⟩
  rename_i hKek hDims
  split
  · rintro ⟨⟩
  split
  · rintro ⟨⟩
  · rename_i hKeys
    have hInfo := dims_of_taPqcDims hDims
    exact sealed_of_keygenFinish hKek hInfo (T.length_keypair _ _ _ _ _ hInfo hKeys)

theorem sealed_of_cmdKeygenFromSeed {alg : UInt32} {seed : Span} {pkCap blobCap : Nat} :
    (cmdKeygenFromSeed T st e alg seed pkCap blobCap).sealing = some s →
      (cmdKeygenFromSeed T st e alg seed pkCap blobCap).Sealed T st s := by
  unfold cmdKeygenFromSeed
  split
  · rintro ⟨⟩
  · rintro ⟨⟩
  rename_i hKek hDims
  split
  · rintro ⟨⟩
  split
  · rintro ⟨⟩
  split
  · rintro ⟨⟩
  · rename_i hKeys
    have hInfo := dims_of_taPqcDims hDims
    exact sealed_of_keygenFinish hKek hInfo (T.length_keypairFromSeed _ _ _ _ _ hInfo hKeys)

theorem sealed_of_seedNewOrToPl {tgt : UInt32} {wantBlob : Option Nat} :
    (seedNewOrToPl T st e tgt wantBlob).sealing = some s →
      (seedNewOrToPl T st e tgt wantBlob).Sealed T st s := by
  unfold seedNewOrToPl
  split
  · rintro ⟨⟩
  · rintro ⟨⟩
  rename_i hWords _
  split
  · rintro ⟨⟩
  dsimp only
  split
  · rename_i hKek _
    split
    · rintro ⟨⟩
    · rename_i blob hSeal
      rintro ⟨⟩
      exact ⟨⟨rfl, _, by rw [length_stream]; exact hWords⟩, hKek, 1,
        List.mem_singleton.mpr (by rw [blob_of_taWrapSeal hSeal]; rfl)⟩
  · rintro ⟨⟩
  · rintro ⟨⟩

theorem sealed_of_cmdSymkeyNew {slot : UInt32} {len blobCap : Nat} :
    (cmdSymkeyNew T st e slot len blobCap).sealing = some s →
      (cmdSymkeyNew T st e slot len blobCap).Sealed T st s := by
  unfold cmdSymkeyNew
  split
  · rintro ⟨⟩
  rename_i hKek
  split
  · rintro ⟨⟩
  rename_i hArgs
  split
  · rintro ⟨⟩
  split
  · rintro ⟨⟩
  dsimp only
  split
  · rintro ⟨⟩
  · rename_i blob hSeal
    rintro ⟨⟩
    refine ⟨⟨rfl, ?_⟩, hKek, 1,
      List.mem_singleton.mpr (by rw [blob_of_taWrapSeal hSeal]; rfl)⟩
    dsimp only
    rw [length_stream]
    omega

theorem cmdDecaps_seals_none {alg : UInt32} {blob ct : Span} {ssCap : Nat} :
    (cmdDecaps T st e alg blob ct ssCap).sealing = none := by
  unfold cmdDecaps
  repeat' split
  all_goals rfl

theorem cmdSign_seals_none {alg : UInt32} {blob frame : Span} {sigCap : Nat} :
    (cmdSign T st e alg blob frame sigCap).sealing = none := by
  unfold cmdSign
  repeat' split
  all_goals rfl

theorem cmdSeedReplay_seals_none {tgt : UInt32} {blob : Span} :
    (cmdSeedReplay T st e tgt blob).sealing = none := by
  unfold cmdSeedReplay
  dsimp only
  repeat' split
  all_goals rfl

theorem cmdSymkeyLoad_seals_none {slot : UInt32} {blob : Span} :
    (cmdSymkeyLoad T st e slot blob).sealing = none := by
  unfold cmdSymkeyLoad
  dsimp only
  repeat' split
  all_goals rfl

theorem cmdKekSet_seals_none {salt : Span} : (cmdKekSet T st e salt).1.sealing = none := by
  unfold cmdKekSet
  repeat' split
  all_goals rfl

theorem cmdSymkeyKat_seals_none {slot id : UInt32} : (cmdSymkeyKat e slot id).sealing = none := by
  unfold cmdSymkeyKat
  repeat' split
  all_goals rfl

theorem sealed_of_taStep {c : TaCmd} (h : (taStep T st e c).1.sealing = some s) :
    (taStep T st e c).1.Sealed T st s := by
  cases c with
  | getInfo => cases h
  | kekSet salt => cases cmdKekSet_seals_none.symm.trans h
  | keygen alg pkCap blobCap => exact sealed_of_cmdKeygen h
  | keygenFromSeed alg seed pkCap blobCap => exact sealed_of_cmdKeygenFromSeed h
  | decaps alg blob ct ssCap => cases cmdDecaps_seals_none.symm.trans h
  | sign alg blob frame sigCap => cases cmdSign_seals_none.symm.trans h
  | seedToPl tgt => exact sealed_of_seedNewOrToPl h
  | seedNew tgt blobCap => exact sealed_of_seedNewOrToPl h
  | seedReplay tgt blob => cases cmdSeedReplay_seals_none.symm.trans h
  | symkeyNew slot len blobCap => exact sealed_of_cmdSymkeyNew h
  | symkeyLoad slot blob => cases cmdSymkeyLoad_seals_none.symm.trans h
  | symkeyKat slot id => cases cmdSymkeyKat_seals_none.symm.trans h
  | destroy => cases h

end Seals

/-- In every run, whatever blobs the commands open, each sealing fits its purpose. -/
theorem seals_fit {T : TaLib} {ok : TaRun → TaCmd × TaEnv → TaRun → Prop} {r : TaRun}
    (h : Reachable (taSystem T) ok r) : ∀ s ∈ r.seals, s.Fits := by
  refine h.invariant (I := fun r => ∀ s ∈ r.seals, s.Fits) ?_ ?_
  · rintro r rfl s hMem
    cases hMem
  · rintro r a _ hInv rfl - s hMem
    rcases List.mem_append.mp hMem with hNew | hOld
    · exact (sealed_of_taStep (Option.mem_toList.mp hNew)).fits
    · exact hInv s hOld

/-! ### Main results -/

/-- The key bytes are the plaintext of a blob that was sealed in the run for the purpose, under the
present KEK. -/
def TaRun.Bound (r : TaRun) (T : TaLib) (maker : TaMaker) (blob : Span) (key : Bytes) : Prop :=
  ∃ s ∈ r.seals, s.maker = maker ∧ r.st.gKek = some s.kek ∧ blob = .mem (s.blob T.gcm) ∧
    key = s.pt

section Main

variable {T : TaLib} {r : TaRun} {e : TaEnv} {blob : Span} {key : Bytes}

theorem pt_length_of_blob {s : TaSealing} {G : AesGcm} (h : .mem (s.blob G) = blob) :
    blob.len = taWrapBlobLen s.pt.length := by
  rw [← h, Span.len_mem, TaSealing.blob, length_pwrpBlob, taWrapBlobLen]

theorem length_of_seedWords {tgt words : UInt32} {len : Nat}
    (h : seedWords tgt = some (words, len)) :
    len = TA_SEED_LEN_MLKEM ∨ len = TA_SEED_LEN_MLDSA := by
  unfold seedWords at h
  split at h
  · cases h
    exact .inl rfl
  split at h
  · cases h
    exact .inr rfl
  · cases h

theorem seedWords_inj {tgt tgt' words words' : UInt32} {len : Nat}
    (h : seedWords tgt = some (words, len)) (h' : seedWords tgt' = some (words', len)) :
    tgt' = tgt := by
  unfold seedWords at h h'
  split at h <;> split at h' <;> grind [TA_SEED_LEN_MLKEM, TA_SEED_LEN_MLDSA]

theorem skLen_ne_seed {alg : PqcAlg} {d : PqcAlgInfo} (h : pqcAlgInfo alg = some d) :
    d.skLen ≠ TA_SEED_LEN_MLKEM ∧ d.skLen ≠ TA_SEED_LEN_MLDSA := by
  cases alg <;> cases h <;> exact ⟨by decide, by decide⟩

/-- No two purposes without associated data share a length. -/
theorem maker_of_length {s : TaSealing} {alg : PqcAlg} {d : PqcAlgInfo} (hFits : s.Fits)
    (hAad : s.aad = []) (hDims : pqcAlgInfo alg = some d) (hLen : s.pt.length = d.skLen) :
    s.maker = .keygen alg := by
  unfold TaSealing.Fits at hFits
  cases hMaker : s.maker with
  | keygen alg' =>
    rw [hMaker, hLen] at hFits
    obtain ⟨-, d', hDims', hEq⟩ := hFits
    cases alg <;> cases alg' <;> cases hDims <;> cases hDims' <;> first | rfl | cases hEq
  | seedNew tgt =>
    rw [hMaker, hLen] at hFits
    obtain ⟨-, words, hWords⟩ := hFits
    rcases length_of_seedWords hWords with h64 | h32
    · exact ((skLen_ne_seed hDims).1 h64).elim
    · exact ((skLen_ne_seed hDims).2 h32).elim
  | symkeyNew =>
    rw [hMaker, hAad] at hFits
    cases hFits.1

theorem maker_of_seed {s : TaSealing} {tgt words : UInt32} (hFits : s.Fits)
    (hAad : s.aad = []) (hWords : seedWords tgt = some (words, s.pt.length)) :
    s.maker = .seedNew tgt := by
  unfold TaSealing.Fits at hFits
  cases hMaker : s.maker with
  | keygen alg =>
    rw [hMaker] at hFits
    obtain ⟨-, d, hDims, hLen⟩ := hFits
    rcases length_of_seedWords hWords with h64 | h32
    · exact (skLen_ne_seed hDims).1 (hLen.symm.trans h64) |>.elim
    · exact (skLen_ne_seed hDims).2 (hLen.symm.trans h32) |>.elim
  | seedNew tgt' =>
    rw [hMaker] at hFits
    obtain ⟨-, words', hWords'⟩ := hFits
    rw [seedWords_inj hWords hWords']
  | symkeyNew =>
    rw [hMaker, hAad] at hFits
    cases hFits.1

theorem maker_of_symkey {s : TaSealing} (hFits : s.Fits) (hAad : s.aad = TA_SYMKEY_AAD) :
    s.maker = .symkeyNew := by
  unfold TaSealing.Fits at hFits
  cases hMaker : s.maker with
  | keygen alg =>
    rw [hMaker, hAad] at hFits
    cases hFits.1
  | seedNew tgt =>
    rw [hMaker, hAad] at hFits
    cases hFits.1
  | symkeyNew => rfl

/-- What the key bytes of a command that opens a blob should be bound to. -/
def TaRun.KeyBound (r : TaRun) (T : TaLib) (c : TaCmd) (key : Bytes) : Prop :=
  match c with
  | .decaps alg blob _ _ =>
    ∃ a d, taPqcDims alg = some (a, d) ∧ r.Bound T (.keygen a) blob key
  | .sign alg blob _ _ =>
    ∃ a d, taPqcDims alg = some (a, d) ∧ r.Bound T (.keygen a) blob key
  | .seedReplay tgt blob => r.Bound T (.seedNew tgt) blob key
  | .symkeyLoad _ blob => r.Bound T .symkeyNew blob key
  | _ => False

/-- The blob of a private key has the length of a blob for its algorithm. -/
def TaCmd.WholeKey : TaCmd → Prop
  | decaps alg blob _ _ => ∀ a d, taPqcDims alg = some (a, d) → blob.len = taWrapBlobLen d.skLen
  | sign alg blob _ _ => ∀ a d, taPqcDims alg = some (a, d) → blob.len = taWrapBlobLen d.skLen
  | _ => True

theorem sealed_of_unwrapSk {kek : ByteVec PQC_KEK_LEN} {skLen : Nat} {seals : List TaSealing}
    (hAuth : Authentic T.gcm seals kek [] blob.toBytes)
    (h : unwrapSk T e kek blob skLen = .ok key) :
    ∃ s ∈ seals, s.kek = kek ∧ s.aad = [] ∧ .mem (s.blob T.gcm) = blob ∧
      key = s.pt ++ (e.buffer skLen).drop s.pt.length := by
  unfold unwrapSk at h
  split at h
  · cases h
  dsimp only at h
  split at h
  · rename_i hRc
    obtain ⟨s, hMem, hKek, hAad, hBlob, -, hOpen⟩ := sealed_of_open hAuth hRc
    rw [hOpen] at h
    cases h
    exact ⟨s, hMem, hKek, hAad, hBlob, rfl⟩
  split at h
  · cases h
  · cases h

/-- The key that `unwrap_sk` returns is bound to the algorithm if the blob has its length. -/
theorem bound_unwrapSk_iff {alg : PqcAlg} {d : PqcAlgInfo} {kek : ByteVec PQC_KEK_LEN}
    (hFit : ∀ s ∈ r.seals, s.Fits) (hKek : r.st.gKek = some kek)
    (hDims : pqcAlgInfo alg = some d) (hAuth : Authentic T.gcm r.seals kek [] blob.toBytes)
    (h : unwrapSk T e kek blob d.skLen = .ok key) :
    r.Bound T (.keygen alg) blob key ↔ blob.len = taWrapBlobLen d.skLen := by
  obtain ⟨s, hMem, rfl, hAad, hBlob, hKey⟩ := sealed_of_unwrapSk hAuth h
  constructor
  · rintro ⟨s', hMem', hMaker, -, rfl, -⟩
    have hFits := hFit s' hMem'
    rw [TaSealing.Fits, hMaker] at hFits
    obtain ⟨-, d', hDims', hLen⟩ := hFits
    cases hDims.symm.trans hDims'
    rw [pt_length_of_blob rfl, hLen]
  · intro hLen
    have hPt : s.pt.length = d.skLen :=
      Nat.add_right_cancel ((pt_length_of_blob hBlob).symm.trans hLen)
    refine ⟨s, hMem, maker_of_length (hFit s hMem) hAad hDims hPt, hKek, hBlob.symm, ?_⟩
    rw [hKey, hPt, List.drop_eq_nil_of_le (by rw [TaEnv.buffer, length_stream]), List.append_nil]

theorem error_unwrapSk {kek : ByteVec PQC_KEK_LEN} {skLen : Nat} {rc : TaResult}
    (h : unwrapSk T e kek blob skLen = .error rc) : rc ≠ .success := by
  rintro rfl
  unfold unwrapSk at h
  split at h
  · cases h
  dsimp only at h
  split at h
  · cases h
  split at h
  · cases h
  · cases h

theorem cmdDecaps_keyUsed {st : TaState} {alg : UInt32} {ct : Span} {ssCap : Nat} :
    ((cmdDecaps T st e alg blob ct ssCap).rc = .success →
      (cmdDecaps T st e alg blob ct ssCap).keyUsed.isSome) ∧
    ∀ key, (cmdDecaps T st e alg blob ct ssCap).keyUsed = some key →
      ∃ kek a d, st.gKek = some kek ∧ taPqcDims alg = some (a, d) ∧
        unwrapSk T e kek blob d.skLen = .ok key := by
  unfold cmdDecaps
  repeat' split
  all_goals grind [error_unwrapSk]

theorem cmdSign_keyUsed {st : TaState} {alg : UInt32} {frame : Span} {sigCap : Nat} :
    ((cmdSign T st e alg blob frame sigCap).rc = .success →
      (cmdSign T st e alg blob frame sigCap).keyUsed.isSome) ∧
    ∀ key, (cmdSign T st e alg blob frame sigCap).keyUsed = some key →
      ∃ kek a d, st.gKek = some kek ∧ taPqcDims alg = some (a, d) ∧
        unwrapSk T e kek blob d.skLen = .ok key := by
  unfold cmdSign
  repeat' split
  all_goals grind [error_unwrapSk]

theorem cmdSeedReplay_keyUsed {st : TaState} {tgt : UInt32} :
    ((cmdSeedReplay T st e tgt blob).rc = .success →
      (cmdSeedReplay T st e tgt blob).keyUsed.isSome) ∧
    ∀ key, (cmdSeedReplay T st e tgt blob).keyUsed = some key →
      ∃ kek words o, st.gKek = some kek ∧
        taWrapOpen T.backend T.gcm e.lib kek (.null 0) blob (.mem (e.buffer 64)) 0 = o ∧
        o.rc = 0 ∧ seedWords tgt = some (words, o.ptLen) ∧
        key = o.pt.toBytes.take (4 * words.toNat) := by
  unfold cmdSeedReplay
  dsimp only
  repeat' split
  all_goals grind

theorem cmdSymkeyLoad_keyUsed {st : TaState} {slot : UInt32} :
    ((cmdSymkeyLoad T st e slot blob).rc = .success →
      (cmdSymkeyLoad T st e slot blob).keyUsed.isSome) ∧
    ∀ key, (cmdSymkeyLoad T st e slot blob).keyUsed = some key →
      ∃ kek o, st.gKek = some kek ∧
        taWrapOpen T.backend T.gcm e.lib kek (.mem TA_SYMKEY_AAD) blob
          (.mem (e.buffer 32)) 0 = o ∧
        o.rc = 0 ∧ key = o.pt.toBytes.take o.ptLen := by
  unfold cmdSymkeyLoad
  dsimp only
  repeat' split
  all_goals grind

theorem four_mul_seedWords {tgt words : UInt32} {len : Nat} (h : seedWords tgt = some (words, len)) :
    4 * words.toNat = len := by
  unfold seedWords at h
  split at h
  · cases h
    rfl
  split at h
  · cases h
    rfl
  · cases h

theorem authentic_of_step {c : TaCmd} {r' : TaRun} {kek : ByteVec PQC_KEK_LEN} {aad : Bytes}
    (hAuth : authenticStep T r (c, e) r') (hKek : r.st.gKek = some kek)
    (hOpens : c.opening = some (aad, blob)) : Authentic T.gcm r.seals kek aad blob.toBytes := by
  rw [authenticStep, hKek, hOpens] at hAuth
  exact hAuth

theorem bound_cmdSeedReplay {tgt : UInt32} (hFit : ∀ s ∈ r.seals, s.Fits)
    (hAuth : authenticStep T r (.seedReplay tgt blob, e) (r.next T (.seedReplay tgt blob, e)))
    (hKey : (cmdSeedReplay T r.st e tgt blob).keyUsed = some key) :
    r.Bound T (.seedNew tgt) blob key := by
  obtain ⟨kek, words, o, hKek, rfl, hRc, hWords, rfl⟩ := cmdSeedReplay_keyUsed.2 key hKey
  have hOpened : Authentic T.gcm r.seals kek (Span.null 0).toBytes blob.toBytes :=
    authentic_of_step hAuth hKek rfl
  obtain ⟨s, hMem, rfl, hAad, hBlob, -, hOpen⟩ := sealed_of_open hOpened hRc
  rw [hOpen] at hWords ⊢
  refine ⟨s, hMem, maker_of_seed (hFit s hMem) hAad hWords, hKek, hBlob.symm, ?_⟩
  rw [four_mul_seedWords hWords]
  exact List.take_left

theorem bound_cmdSymkeyLoad {slot : UInt32} (hFit : ∀ s ∈ r.seals, s.Fits)
    (hAuth : authenticStep T r (.symkeyLoad slot blob, e) (r.next T (.symkeyLoad slot blob, e)))
    (hKey : (cmdSymkeyLoad T r.st e slot blob).keyUsed = some key) :
    r.Bound T .symkeyNew blob key := by
  obtain ⟨kek, o, hKek, rfl, hRc, rfl⟩ := cmdSymkeyLoad_keyUsed.2 key hKey
  have hOpened : Authentic T.gcm r.seals kek (Span.mem TA_SYMKEY_AAD).toBytes blob.toBytes :=
    authentic_of_step hAuth hKek rfl
  obtain ⟨s, hMem, rfl, hAad, hBlob, -, hOpen⟩ := sealed_of_open hOpened hRc
  rw [hOpen]
  exact ⟨s, hMem, maker_of_symkey (hFit s hMem) hAad, hKek, hBlob.symm, List.take_left⟩

/-- The shared argument for DECAPS and SIGN. -/
theorem keyBound_unwrapSk_iff {alg : UInt32} (hFit : ∀ s ∈ r.seals, s.Fits)
    (hAuth : ∀ kek, r.st.gKek = some kek → Authentic T.gcm r.seals kek [] blob.toBytes)
    (h : ∃ kek a d, r.st.gKek = some kek ∧ taPqcDims alg = some (a, d) ∧
      unwrapSk T e kek blob d.skLen = .ok key) :
    (∃ a d, taPqcDims alg = some (a, d) ∧ r.Bound T (.keygen a) blob key) ↔
      ∀ a d, taPqcDims alg = some (a, d) → blob.len = taWrapBlobLen d.skLen := by
  obtain ⟨kek, a, d, hKek, hAlg, hOpen⟩ := h
  have hIff := bound_unwrapSk_iff hFit hKek (dims_of_taPqcDims hAlg) (hAuth kek hKek) hOpen
  constructor
  · rintro ⟨a', d', hAlg', hBound⟩ a'' d'' hAlg''
    cases hAlg.symm.trans hAlg'
    cases hAlg.symm.trans hAlg''
    exact hIff.mp hBound
  · intro hLen
    exact ⟨a, d, hAlg, hIff.mpr (hLen a d hAlg)⟩

/-- In every run without a forged tag, a command that opens a blob succeeds only with key bytes from
it; they are those of a blob that was sealed for the command, under the same KEK, exactly if the
blob of a private key has the length for its algorithm. -/
theorem blobs_bound_to_type {c : TaCmd} (hRun : Reachable (taSystem T) (authenticStep T) r)
    (hAuth : authenticStep T r (c, e) (r.next T (c, e))) (hOpens : c.opening.isSome) :
    ((taStep T r.st e c).1.rc = .success → (taStep T r.st e c).1.keyUsed.isSome) ∧
      ∀ key, (taStep T r.st e c).1.keyUsed = some key → (r.KeyBound T c key ↔ c.WholeKey) := by
  constructor
  · cases c with
    | decaps alg blob ct ssCap => exact cmdDecaps_keyUsed.1
    | sign alg blob frame sigCap => exact cmdSign_keyUsed.1
    | seedReplay tgt blob => exact cmdSeedReplay_keyUsed.1
    | symkeyLoad slot blob => exact cmdSymkeyLoad_keyUsed.1
    | _ => cases hOpens
  · intro key hKey
    have hFit := seals_fit hRun
    cases c with
    | decaps alg blob ct ssCap =>
      exact keyBound_unwrapSk_iff hFit (fun kek hKek => authentic_of_step hAuth hKek rfl)
        (cmdDecaps_keyUsed.2 key hKey)
    | sign alg blob frame sigCap =>
      exact keyBound_unwrapSk_iff hFit (fun kek hKek => authentic_of_step hAuth hKek rfl)
        (cmdSign_keyUsed.2 key hKey)
    | seedReplay tgt blob => exact iff_of_true (bound_cmdSeedReplay hFit hAuth hKey) trivial
    | symkeyLoad slot blob => exact iff_of_true (bound_cmdSymkeyLoad hFit hAuth hKey) trivial
    | _ => cases hOpens

end Main

section Concrete

/-! ### Concrete inputs for runs -/

/-- Cryptography without secrets, whose keys and signatures are zeros. -/
def TaLib.clear : TaLib where
  gcm := .clear
  backend := .tee
  kdf _ _ _ := zeros PQC_KEK_LEN
  keypair alg _ :=
    (pqcAlgInfo alg).map fun d => (List.replicate d.pkLen 0, List.replicate d.skLen 0)
  keypairFromSeed alg _ :=
    (pqcAlgInfo alg).map fun d => (List.replicate d.pkLen 0, List.replicate d.skLen 0)
  decaps alg _ _ := (pqcAlgInfo alg).map fun d => List.replicate d.ssLen 0
  sign alg _ _ _ _ := (pqcAlgInfo alg).map fun d => List.replicate d.sigLen 0
  length_keypair alg info rnd pk sk hInfo hKeys := by
    rw [hInfo] at hKeys
    cases hKeys
    exact List.length_replicate
  length_keypairFromSeed alg info seed pk sk hInfo hKeys := by
    rw [hInfo] at hKeys
    cases hKeys
    exact List.length_replicate

/-- Every call succeeds, and the stack holds no zeros. -/
def calmTa : TaEnv where
  kdr := .ok (zeros 32)
  random _ := 0
  nonce := zeros PWRP_NONCE_LEN
  lib := true
  entropy := .ok fun _ => 7
  push := none
  stack _ := 9

/-- The application seals an ML-DSA-44 key. -/
def keygenRun : TaRun :=
  replay (TaRun.next .clear) .fresh
    [(.kekSet (.mem [1]), calmTa), (.keygen 4 1312 2604, calmTa)]

theorem reachable_keygenRun : Reachable (taSystem .clear) (authenticStep .clear) keygenRun :=
  (Reachable.init rfl).leads (leads_replay (by decide))

/-- SIGN with the blob of that key. -/
def signCmd (alg : UInt32) : TaCmd :=
  .sign alg (.mem (pwrpBlob .clear (zeros 32) (zeros 12) 0 [] (List.replicate 2560 0)))
    (.mem [0, 1]) 5000

theorem wholeKey_signCmd : (signCmd 4).WholeKey := by
  rintro a d hDims
  cases hDims
  decide +kernel

theorem signing_key_is_bound :
    keygenRun.KeyBound .clear (signCmd 4) (List.replicate 2560 0) :=
  ((blobs_bound_to_type reachable_keygenRun (e := calmTa) (by decide +kernel) rfl).2 _
    (by decide +kernel)).mpr wholeKey_signCmd

/-- An ML-DSA-65 signature is made with an ML-DSA-44 key and what the stack holds behind it. -/
theorem shorter_key_signs :
    Reachable (taSystem .clear) (authenticStep .clear) keygenRun ∧
    authenticStep .clear keygenRun (signCmd 5, calmTa)
      (keygenRun.next .clear (signCmd 5, calmTa)) ∧
    (taStep .clear keygenRun.st calmTa (signCmd 5)).1.rc = .success ∧
    (taStep .clear keygenRun.st calmTa (signCmd 5)).1.keyUsed.map List.length = some 4032 ∧
    (∀ s ∈ keygenRun.seals, s.maker = .keygen .mlDsa44 ∧ s.pt.length = 2560) ∧
    ∀ key, ¬ keygenRun.KeyBound .clear (signCmd 5) key := by
  have hSeals : ∀ s ∈ keygenRun.seals, s.maker = .keygen .mlDsa44 ∧ s.pt.length = 2560 := by
    decide +kernel
  refine ⟨reachable_keygenRun, by decide +kernel, by decide +kernel, by decide +kernel, hSeals, ?_⟩
  rintro key ⟨a, d, hDims, s, hMem, hMaker, -⟩
  cases hDims
  cases (hSeals s hMem).1.symm.trans hMaker

end Concrete

end PqcHsm
