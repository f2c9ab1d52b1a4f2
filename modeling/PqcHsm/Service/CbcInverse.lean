import Mathlib.Data.List.GetD
import PqcHsm.Service.SymOps

/-!
# Decryption inverts encryption

The chunks of a text and the IVs that they carry over make CBC of the whole text. The padding is the
only thing that decides between the plaintext and an error.
-/

namespace PqcHsm

open ByteCodec BlockModes Stateful

variable {ε σ : Type}

/-- The device opens the key of the name and computes its cipher while it is in the slot, or fails. A
steady one never fails. -/
structure HsmHost.Ciphers (host : HsmHost ε σ) (steady : Prop) (I : σ → Prop) (name : Bytes)
    (k : HsmKey) (E D : ByteVec 16 → ByteVec 16) : Prop where
  usable : steady → k.kind = HSM_KIND_SYM ∧ k.param ≤ 2 ∧ k.blob.val ≠ [] ∧
    k.blob.len ≤ PQCS_SYMKEY_BLOB_MAX
  keyFile : Spec (fun _ => True) (host.keyFile name) fun file _ =>
    (∀ k', hsmKeyLoad name file = .ok k' → k' = k) ∧ (steady → hsmKeyLoad name file = .ok k)
  ses : Spec (fun _ => True) host.ses fun r _ => steady → r = none
  malloc : ∀ n, Spec I (host.malloc n) fun r s => I s ∧ (steady → r = true)
  connected : Spec (fun _ => True) host.link fun r _ => steady → r = .served
  link : Spec I host.link fun r s => r = .served → I s
  load : ∀ q, q.op = OP_SYMKEY_LOAD → q.a0 = SYM_SLOT → q.payload = k.blob →
    Spec (fun _ => True) (host.reply q) fun r s =>
      (r.status = SDR_OK → I s) ∧ (steady → r = .bare SDR_OK)
  random : ∀ q, q.op = OP_RANDOM → q.a0 = 16 →
    Spec I (host.reply q) fun r s =>
      (r.status = SDR_OK → r.out.length = 16 ∧ I s) ∧ (steady → r.status = SDR_OK ∧ r.out.length = 16)
  block : Computes steady I E D (host.block k.param.toUInt32 SYM_SLOT)

/-- CBC of the padded text under some IV, which stands before it. -/
def CbcOf (E : ByteVec 16 → ByteVec 16) (m c : Bytes) : Prop :=
  ∃ iv bs, ofBlocks bs = pad 16 m ∧ c = iv.toList ++ ofBlocks (cbcEncrypt xorVec E iv bs)

/-- An IV and at least one block that decrypt to the text and valid padding. -/
def Opens (D : ByteVec 16 → ByteVec 16) (c m : Bytes) : Prop :=
  ∃ iv cs, cs ≠ [] ∧ c = iv.toList ++ ofBlocks cs ∧
    ofBlocks (cbcDecrypt xorVec D iv cs) = pad 16 m

section Exchanges

variable {host : HsmHost ε σ} {steady : Prop} {I : σ → Prop} {name : Bytes} {k : HsmKey}
  {E D : ByteVec 16 → ByteVec 16}

theorem sdfeSymMode_cbc {dec : Bool} {iv : ByteVec 16} {data : Buf32} (param : UInt8)
    (hPos : data.val ≠ []) (hFit : data.val.length ≤ CHUNK) :
    ∃ hLen : (iv.toList ++ data.val).length < 2 ^ 32,
      sdfeSymMode param.toUInt32 SDFE_MODE_CBC SYM_SLOT dec (some iv) (some data) true =
        .ask ⟨⟨OP_SYM_CRYPT, cbcArg param dec, SYM_SLOT, ⟨iv.toList ++ data.val, hLen⟩⟩, data.len⟩
          fun rv out => (takeExact data.val.length rv out, out) := by
  have hLength : (iv.toList ++ data.val).length = 16 + data.val.length := by
    rw [List.length_append, iv.toList_length]
  rw [CHUNK] at hFit
  have hMax : PQCS_MAXPAY.toNat = 16384 := rfl
  have hZero : ¬((!true) = true ∨ data.len = 0) := by
    rintro (h | h)
    · exact Bool.false_ne_true h
    · exact hPos ((Buf32.len_eq_zero_iff data).mp h)
  have hSum : (data.len + 16).toNat = data.val.length + 16 := by
    rw [UInt32.toNat_add, Buf32.toNat_len]
    show (data.val.length + 16) % 2 ^ 32 = _
    omega
  have hRoom : ¬PQCS_MAXPAY < data.len + 16 := by
    intro h
    have h : PQCS_MAXPAY.toNat < (data.len + 16).toNat := h
    omega
  have hBuf : ¬PQCS_MAXPAY.toNat < (iv.toList ++ data.val).length := by omega
  refine ⟨by omega, ?_⟩
  rw [sdfeSymMode, if_neg hZero, if_neg hRoom, dif_neg hBuf]
  rfl

/-- What an exchange returns, from what the daemon answers. -/
theorem HsmHost.spec_exchange {P : σ → Prop} {Q : OpReply → σ → Prop} {x : Exchange}
    (hLink : Spec P host.link fun r s => (r = .served → P s) ∧ (steady → r = .served))
    (hServe : Spec P (host.serve x.req) Q) :
    Spec P (host.exchange x) fun r s =>
      (r.1 = SDR_OK → ∃ reply, Q reply s ∧ reply.status = SDR_OK ∧ r.2 = reply.out) ∧
        (steady → ∃ reply, Q reply s ∧ (reply.out.length ≤ x.outCap.toNat →
          r = (reply.status, reply.out))) := by
  have hComm : SDR_COMMFAIL ≠ SDR_OK := by decide
  have hHard : SDR_HARDFAIL ≠ SDR_OK := by decide
  have hArg : SDR_INARGERR ≠ SDR_OK := by decide
  intro e s hP
  have h := hLink e s hP
  simp only [HsmHost.exchange, Stateful.run_bind]
  cases hEnd : (host.link.run e s).1 with
  | cut =>
    rw [hEnd] at h
    exact ⟨fun hOk => absurd hOk hComm, fun hSteady => nomatch h.2 hSteady⟩
  | hardFault =>
    rw [hEnd] at h
    exact ⟨fun hOk => absurd hOk hHard, fun hSteady => nomatch h.2 hSteady⟩
  | served =>
    rw [hEnd] at h
    have hReply := hServe e _ (h.1 rfl)
    simp only [Stateful.run_bind, Stateful.run_ite, Stateful.run_pure]
    split
    · next hLong => exact ⟨fun hOk => absurd hOk hArg, fun _ => ⟨_, hReply, fun hFit => by omega⟩⟩
    · exact ⟨fun hOk => ⟨_, hReply, hOk, rfl⟩, fun _ => ⟨_, hReply, fun _ => rfl⟩⟩

theorem HsmHost.Ciphers.served (h : host.Ciphers steady I name k E D) :
    Spec I host.link fun r s => (r = .served → I s) ∧ (steady → r = .served) :=
  fun e s hI => ⟨h.link e s hI, h.connected e s trivial⟩

/-- One chunk of whole blocks. -/
theorem HsmHost.Ciphers.ends_modeChunk (h : host.Ciphers steady I name k E D) (dec : Bool)
    (iv : ByteVec 16) {data : Buf32} {bs : List (ByteVec 16)} (hData : data.val = ofBlocks bs)
    (hPos : bs ≠ []) (hFit : 16 * bs.length ≤ CHUNK) :
    Ends steady I (host.modeChunk k dec iv data).run fun out s =>
      out = ofBlocks (cbc E D dec iv bs) ∧ I s := by
  have hLength : data.val.length = 16 * bs.length := by rw [hData, length_ofBlocks]
  have hBlocks : bs.length ≠ 0 := fun h0 => hPos (List.length_eq_zero_iff.mp h0)
  have hNe : data.val ≠ [] := by
    intro hNil
    rw [hNil, List.length_nil] at hLength
    omega
  obtain ⟨hLen, hAsk⟩ := @sdfeSymMode_cbc dec iv data k.param hNe (by omega)
  have hProg : (if dec then
      sdfeDecryptMode k.param.toUInt32 SDFE_MODE_CBC SYM_SLOT (some iv) (some data) true
    else sdfeEncryptMode k.param.toUInt32 SDFE_MODE_CBC SYM_SLOT (some iv) (some data) true) =
      sdfeSymMode k.param.toUInt32 SDFE_MODE_CBC SYM_SLOT dec (some iv) (some data) true := by
    cases dec <;> rfl
  have hServe : Spec I (host.serve ⟨OP_SYM_CRYPT, cbcArg k.param dec, SYM_SLOT,
      ⟨iv.toList ++ data.val, hLen⟩⟩) fun r s =>
      (r.status = SDR_OK → r.out = ofBlocks (cbc E D dec iv bs) ∧ I s) ∧
        (steady → r.status = SDR_OK) := by
    rw [CHUNK] at hFit
    have hServes := h.block.serves (by decide) (by decide) dec iv hPos (by omega)
    rw [← hData] at hServes
    exact hServes.mono (fun _ hI => hI) fun r s hr =>
      ⟨hr.1, fun hSteady => hr.2 hSteady (h.usable hSteady).2.1⟩
  have hCbc : (ofBlocks (cbc E D dec iv bs)).length = data.val.length := by
    rw [length_ofBlocks, hLength]
    cases dec
    · exact congrArg _ (length_cbcEncrypt ..)
    · exact congrArg _ (length_cbcDecrypt ..)
  have hSdfe : Ends steady I (host.sdfe (.ask ⟨⟨OP_SYM_CRYPT, cbcArg k.param dec, SYM_SLOT,
      ⟨iv.toList ++ data.val, hLen⟩⟩, data.len⟩
        fun rv out => (takeExact data.val.length rv out, out))).run fun r s =>
      (r.1 = SDR_OK → r.2 = ofBlocks (cbc E D dec iv bs) ∧ I s) ∧ (steady → r.1 = SDR_OK) := by
    refine ends_bind (ends_lift (HsmHost.spec_exchange h.served hServe)) fun r =>
      ends_pure fun s hr => ?_
    constructor
    · intro hOk
      have hStatus : r.1 = SDR_OK := by
        by_contra hNot
        exact hNot ((if_pos hNot).symm.trans hOk)
      obtain ⟨reply, hReply, hOkReply, hOut⟩ := hr.1 hStatus
      exact hOut ▸ hReply.1 hOkReply
    · intro hSteady
      obtain ⟨reply, hReply, hFits⟩ := hr.2 hSteady
      have hStatus := hReply.2 hSteady
      have hOut := (hReply.1 hStatus).1
      have hEq := hFits (by rw [hOut, hCbc, Buf32.toNat_len])
      show takeExact data.val.length r.1 r.2 = SDR_OK
      rw [hEq, takeExact, if_neg (not_not.mpr hStatus), hOut, if_pos hCbc]
  rw [HsmHost.modeChunk, hProg, hAsk]
  refine ends_bind hSdfe fun r => ?_
  split
  · next hBad => exact ends_throw fun _ hr hSteady => hBad (hr.2 hSteady)
  · next hOk => exact ends_pure fun _ hr => hr.1 (not_not.mp hOk)

end Exchanges

section Chunks

variable {host : HsmHost ε σ} {steady : Prop} {I : σ → Prop} {name : Bytes} {k : HsmKey}
  {E D : ByteVec 16 → ByteVec 16}

/-- The blocks of one request. -/
def CHUNK_BLOCKS : Nat := 1023

theorem chunkLen_blocks (n j : Nat) :
    chunkLen (16 * n) (16 * j) = 16 * min CHUNK_BLOCKS (n - j) := by
  rw [chunkLen, CHUNK, CHUNK_BLOCKS]
  split <;> omega

/-- The sixteen bytes after some blocks of ciphertext that stand behind the IV. -/
theorem takeVec_feedback (iv : ByteVec 16) (cs rest : List (ByteVec 16)) :
    takeVec 16 ((iv.toList ++ ofBlocks (cs ++ rest)).drop (16 * cs.length)) = feedback iv cs := by
  induction cs generalizing iv with
  | nil => exact takeVec_append iv _
  | cons c cs ih =>
    have hDrop : (iv.toList ++ ofBlocks (c :: cs ++ rest)).drop (16 * (c :: cs).length) =
        (c.toList ++ ofBlocks (cs ++ rest)).drop (16 * cs.length) := by
      rw [List.length_cons, Nat.mul_succ, Nat.add_comm, ← List.drop_drop,
        List.drop_left' iv.toList_length]
      rfl
    rw [hDrop, ih, feedback_cons]

theorem HsmHost.Ciphers.ends_encryptChunks (h : host.Ciphers steady I name k E D)
    (iv : ByteVec 16) (bs : List (ByteVec 16)) (j : Nat) (hj : j ≤ bs.length) :
    Ends steady I (encryptChunks host k iv (ofBlocks bs) (16 * bs.length) (16 * j)
      (iv.toList ++ ofBlocks (cbcEncrypt xorVec E iv (bs.take j)))).run fun out s =>
        out = iv.toList ++ ofBlocks (cbcEncrypt xorVec E iv bs) ∧ I s := by
  rw [encryptChunks]
  split
  · next hMore =>
    have hCt : (cbcEncrypt xorVec E iv (bs.take j)).length = j := by
      rw [length_cbcEncrypt, List.length_take, Nat.min_eq_left hj]
    -- at the first chunk nothing has been written, and the IV is the feedback
    have hIv : (if 16 * j ≠ 0 then
          takeVec 16 ((iv.toList ++ ofBlocks (cbcEncrypt xorVec E iv (bs.take j))).drop (16 * j))
        else iv) = feedback iv (cbcEncrypt xorVec E iv (bs.take j)) := by
      split
      · have hFeedback := takeVec_feedback iv (cbcEncrypt xorVec E iv (bs.take j)) []
        rwa [List.append_nil, hCt] at hFeedback
      · next hZero =>
        have hNil : cbcEncrypt xorVec E iv (bs.take j) = [] := List.length_eq_zero_iff.mp (by omega)
        rw [hNil]
        rfl
    -- the blocks of this chunk
    obtain ⟨c, hc⟩ : ∃ c, min CHUNK_BLOCKS (bs.length - j) = c := ⟨_, rfl⟩
    have hLen : chunkLen (16 * bs.length) (16 * j) = 16 * c := by rw [chunkLen_blocks, hc]
    have hSome : 0 < c ∧ c ≤ bs.length - j := by
      rw [CHUNK_BLOCKS] at hc
      omega
    have hCount : ((bs.drop j).take c).length = c := by
      rw [List.length_take, List.length_drop, Nat.min_eq_left hSome.2]
    have hData : (chunkAt (ofBlocks bs) (16 * j) (chunkLen (16 * bs.length) (16 * j))
        (chunkLen_le _ _)).val = ofBlocks ((bs.drop j).take c) := by
      show ((ofBlocks bs).drop (16 * j)).take _ = _
      rw [hLen, drop_ofBlocks, take_ofBlocks]
    rw [hIv]
    refine ends_bind (h.ends_modeChunk false _ hData ?_ ?_) fun out => ?_
    · intro hNil
      rw [hNil, List.length_nil] at hCount
      omega
    · rw [hCount, ← hLen]
      exact chunkLen_le _ _
    · rintro e s ⟨rfl, hI⟩
      have hNext : 16 * j + chunkLen (16 * bs.length) (16 * j) = 16 * (j + c) := by omega
      have hDst : iv.toList ++ ofBlocks (cbcEncrypt xorVec E iv (bs.take j)) ++
          ofBlocks (cbc E D false (feedback iv (cbcEncrypt xorVec E iv (bs.take j)))
            ((bs.drop j).take c)) =
          iv.toList ++ ofBlocks (cbcEncrypt xorVec E iv (bs.take (j + c))) := by
        rw [List.take_add, cbcEncrypt_append, ofBlocks_append, List.append_assoc]
        rfl
      rw [hNext, hDst]
      exact h.ends_encryptChunks iv bs _ (by omega) e s hI
  · next hDone =>
    have hAll : bs.take j = bs := List.take_of_length_le (by omega)
    rw [hAll]
    exact ends_pure fun _ hI => ⟨rfl, hI⟩
termination_by bs.length - j

theorem HsmHost.Ciphers.ends_decryptChunks (h : host.Ciphers steady I name k E D)
    (iv : ByteVec 16) (cs : List (ByteVec 16)) (j : Nat) (hj : j ≤ cs.length) :
    Ends steady I (decryptChunks host k (iv.toList ++ ofBlocks cs) (16 * cs.length) (16 * j)
      (ofBlocks (cbcDecrypt xorVec D iv (cs.take j)))).run fun out s =>
        out = ofBlocks (cbcDecrypt xorVec D iv cs) ∧ I s := by
  rw [decryptChunks]
  split
  · next hMore =>
    have hIv : takeVec 16 ((iv.toList ++ ofBlocks cs).drop (16 * j)) = feedback iv (cs.take j) := by
      have hFeedback := takeVec_feedback iv (cs.take j) (cs.drop j)
      rwa [List.take_append_drop, List.length_take, Nat.min_eq_left hj] at hFeedback
    obtain ⟨c, hc⟩ : ∃ c, min CHUNK_BLOCKS (cs.length - j) = c := ⟨_, rfl⟩
    have hLen : chunkLen (16 * cs.length) (16 * j) = 16 * c := by rw [chunkLen_blocks, hc]
    have hSome : 0 < c ∧ c ≤ cs.length - j := by
      rw [CHUNK_BLOCKS] at hc
      omega
    have hCount : ((cs.drop j).take c).length = c := by
      rw [List.length_take, List.length_drop, Nat.min_eq_left hSome.2]
    have hData : (chunkAt (iv.toList ++ ofBlocks cs) (16 + 16 * j)
        (chunkLen (16 * cs.length) (16 * j)) (chunkLen_le _ _)).val =
          ofBlocks ((cs.drop j).take c) := by
      show ((iv.toList ++ ofBlocks cs).drop (16 + 16 * j)).take _ = _
      rw [hLen, ← List.drop_drop, List.drop_left' iv.toList_length, drop_ofBlocks, take_ofBlocks]
    rw [hIv]
    refine ends_bind (h.ends_modeChunk true _ hData ?_ ?_) fun out => ?_
    · intro hNil
      rw [hNil, List.length_nil] at hCount
      omega
    · rw [hCount, ← hLen]
      exact chunkLen_le _ _
    · rintro e s ⟨rfl, hI⟩
      have hNext : 16 * j + chunkLen (16 * cs.length) (16 * j) = 16 * (j + c) := by omega
      have hDst : ofBlocks (cbcDecrypt xorVec D iv (cs.take j)) ++
          ofBlocks (cbc E D true (feedback iv (cs.take j)) ((cs.drop j).take c)) =
          ofBlocks (cbcDecrypt xorVec D iv (cs.take (j + c))) := by
        rw [List.take_add, cbcDecrypt_append, ofBlocks_append]
        rfl
      rw [hNext, hDst]
      exact h.ends_decryptChunks iv cs _ (by omega) e s hI
  · next hDone =>
    have hAll : cs.take j = cs := List.take_of_length_le (by omega)
    rw [hAll]
    exact ends_pure fun _ hI => ⟨rfl, hI⟩
termination_by cs.length - j

end Chunks

section Opening

variable {host : HsmHost ε σ} {steady : Prop} {I : σ → Prop} {name : Bytes} {k : HsmKey}
  {E D : ByteVec 16 → ByteVec 16}

theorem HsmHost.Ciphers.ends_loadKind (h : host.Ciphers steady I name k E D) (what : String) :
    Ends steady (fun _ => True) (host.loadKind name HSM_KIND_SYM what).run fun k' _ => k' = k := by
  refine ends_bind (ends_lift h.keyFile) fun file => ?_
  cases hLoad : hsmKeyLoad name file with
  | error =>
    exact ends_throw fun _ hFile hSteady => nomatch hFile.2 hSteady
  | ok k' =>
    simp only
    split
    · next hKind =>
      refine ends_throw fun _ hFile hSteady => hKind ?_
      rw [hFile.1 k' rfl]
      exact (h.usable hSteady).1
    · exact ends_pure fun _ hFile => hFile.1 k' rfl

theorem HsmHost.Ciphers.ends_openSession (h : host.Ciphers steady I name k E D) :
    Ends steady (fun _ => True) host.openSession.run fun _ _ => True := by
  refine ends_bind (ends_lift h.ses) fun r => ?_
  cases r with
  | none => exact ends_pure fun _ _ => trivial
  | some f => exact ends_throw fun _ hSes hSteady => nomatch hSes hSteady

theorem HsmHost.Ciphers.ends_symLoad (h : host.Ciphers steady I name k E D) :
    Ends steady (fun _ => True) (host.symLoad k).run fun _ => I := by
  have hArg : SDR_INARGERR ≠ SDR_OK := by decide
  have hSdfe : Ends steady (fun _ => True) (host.sdfe (sdfeLoadKey SYM_SLOT (some k.blob))).run
      fun rv s => (rv = SDR_OK → I s) ∧ (steady → rv = SDR_OK) := by
    rw [sdfeLoadKey]
    split
    · next hBad =>
      refine ends_pure fun _ _ => ⟨fun hOk => absurd hOk hArg, fun hSteady => ?_⟩
      obtain ⟨-, -, hNe, hMax⟩ := h.usable hSteady
      rcases hBad with hEmpty | hLong
      · exact absurd ((Buf32.len_eq_zero_iff _).mp hEmpty) hNe
      · exact absurd hMax (UInt32.not_le.mpr hLong)
    · have hExch := HsmHost.spec_exchange (x := ⟨⟨OP_SYMKEY_LOAD, SYM_SLOT, 0, k.blob⟩, 0⟩)
        (fun e s _ => ⟨fun _ => trivial, h.connected e s trivial⟩) (h.load _ rfl rfl rfl)
      refine ends_bind (ends_lift hExch) fun r => ends_pure fun s hr => ⟨fun hOk => ?_, fun hSteady => ?_⟩
      · obtain ⟨reply, hReply, hStatus, -⟩ := hr.1 hOk
        exact hReply.1 hStatus
      · obtain ⟨reply, hReply, hFits⟩ := hr.2 hSteady
        rw [hReply.2 hSteady] at hFits
        exact congrArg Prod.fst (hFits (Nat.zero_le _))
  refine ends_bind hSdfe fun rv => ?_
  split
  · next hBad => exact ends_throw fun _ hr hSteady => hBad (hr.2 hSteady)
  · next hOk => exact ends_pure fun _ hr => hr.1 (not_not.mp hOk)

theorem HsmHost.Ciphers.ends_alloc (h : host.Ciphers steady I name k E D) (n : Nat) :
    Ends steady I (host.alloc n).run fun _ => I := by
  refine ends_bind (ends_lift (h.malloc n)) fun r => ?_
  cases r with
  | true => exact ends_pure fun _ hI => hI.1
  | false => exact ends_throw fun _ hI hSteady => absurd (hI.2 hSteady) Bool.false_ne_true

theorem HsmHost.Ciphers.ends_random (h : host.Ciphers steady I name k E D) :
    Ends steady I (host.sdfe (sdfeGenerateRandom 16)).run fun r s =>
      (r.1 = SDR_OK → r.2.length = 16 ∧ I s) ∧ (steady → r.1 = SDR_OK) := by
  have hServe : Spec I (host.serve ⟨OP_RANDOM, 16, 0, .empty⟩) fun r s =>
      (r.status = SDR_OK → r.out.length = 16 ∧ I s) ∧
        (steady → r.status = SDR_OK ∧ r.out.length = 16) := h.random _ rfl rfl
  refine ends_bind (ends_lift (HsmHost.spec_exchange (x := ⟨⟨OP_RANDOM, 16, 0, .empty⟩, 16⟩)
    h.served hServe)) fun r => ends_pure fun s hr => ⟨fun hOk => ?_, fun hSteady => ?_⟩
  · obtain ⟨reply, hReply, hStatus, hOut⟩ := hr.1 hOk
    exact hOut ▸ hReply.1 hStatus
  · obtain ⟨reply, hReply, hFits⟩ := hr.2 hSteady
    obtain ⟨hStatus, hLen⟩ := hReply.2 hSteady
    exact (congrArg Prod.fst (hFits (Nat.le_of_eq hLen))).trans hStatus

/-- What `hsm_encrypt` returns is CBC of the padded text. -/
theorem HsmHost.Ciphers.ends_encrypt (h : host.Ciphers steady I name k E D) {m : Bytes}
    (hm : m.length + 32 < 2 ^ 32) :
    Ends steady (fun _ => True) (hsmEncrypt host name m).run fun out _ => CbcOf E m out := by
  have hLength := length_pad 16 m
  have hMod := Nat.mod_lt m.length (show 0 < 16 by decide)
  obtain ⟨n, hn⟩ := dvd_length_pad (show 0 < 16 by decide) m
  obtain ⟨bs, hCount, hBs⟩ := exists_ofBlocks hn
  have hNe : bs ≠ [] := by
    intro hNil
    rw [hNil, List.length_nil] at hCount
    omega
  have hLen : (m.length + (16 - m.length % 16)) % 2 ^ 32 = 16 * bs.length := by
    rw [hCount, ← hn, hLength, Nat.mod_eq_of_lt (by omega)]
  have hSrc : m ++ List.replicate (16 - m.length % 16) (UInt8.ofNat (16 - m.length % 16)) =
      ofBlocks bs := hBs.symm
  refine ends_bind (h.ends_loadKind _) fun k' => ?_
  refine ends_of_true fun hKey => ?_
  subst hKey
  refine ends_bind h.ends_openSession fun _ => ?_
  refine ends_bind h.ends_symLoad fun _ => ?_
  refine ends_bind h.ends_random fun r => ?_
  obtain ⟨rv, random⟩ := r
  simp only
  split
  · next hBad => exact ends_throw fun _ hr hSteady => hBad (hr.2 hSteady)
  · next hOk =>
    refine ends_bind ((h.ends_alloc _).mono (fun _ hr => (hr.1 (not_not.mp hOk)).2) fun _ _ hI => hI)
      fun _ => ends_bind (h.ends_alloc _) fun _ => ?_
    rw [hLen, hSrc]
    have hChunks := h.ends_encryptChunks (takeVec 16 random) bs 0 (Nat.zero_le _)
    simp only [Nat.mul_zero, List.take_zero, cbcEncrypt, ofBlocks_nil, List.append_nil] at hChunks
    refine hChunks.mono (fun _ hI => hI) fun out s hOut => ?_
    exact ⟨_, bs, hBs, hOut.1⟩

theorem end_replicate {dst : Bytes} {p : Nat} {b : UInt8} (hp : p ≤ dst.length) :
    dst = dst.take (dst.length - p) ++ List.replicate p b ↔
      ∀ i < p, dst.getD (dst.length - 1 - i) 0 = b := by
  have hLen : (dst.drop (dst.length - p)).length = p := by
    rw [List.length_drop]
    omega
  have hSplit : dst = dst.take (dst.length - p) ++ List.replicate p b ↔
      dst.drop (dst.length - p) = List.replicate p b := by
    conv_lhs => lhs; rw [← List.take_append_drop (dst.length - p) dst]
    exact List.append_right_inj _
  rw [hSplit, List.eq_replicate_iff]
  constructor
  · rintro ⟨-, hAll⟩ i hi
    have hIdx : dst.length - 1 - i = dst.length - p + (p - 1 - i) := by omega
    rw [List.getD_eq_getElem _ _ (by omega)]
    refine hAll _ (List.mem_iff_getElem.mpr ⟨p - 1 - i, by omega, ?_⟩)
    simp only [List.getElem_drop, hIdx]
  · intro hAll
    refine ⟨hLen, fun x hx => ?_⟩
    obtain ⟨i, hi, rfl⟩ := List.mem_iff_getElem.mp hx
    have hIdx : dst.length - 1 - (p - 1 - i) = dst.length - p + i := by omega
    have hByte := hAll (p - 1 - i) (by omega)
    rw [hIdx, List.getD_eq_getElem _ _ (by omega)] at hByte
    rw [List.getElem_drop]
    exact hByte

/-- The check of the padding from the last byte on finds the one text that was padded. -/
theorem stripPadding_eq_ok_iff {dst m : Bytes} (hDvd : 16 ∣ dst.length) (hPos : dst ≠ []) :
    stripPadding dst = .ok m ↔ dst = pad 16 m := by
  have hLen : 16 ≤ dst.length :=
    Nat.le_of_dvd (Nat.pos_of_ne_zero fun h0 => hPos (List.length_eq_zero_iff.mp h0)) hDvd
  rw [eq_pad_iff (by decide) hDvd]
  constructor
  · intro h
    simp only [stripPadding] at h
    split at h
    · cases h
    · next hRange =>
      split at h
      · cases h
      · next hAny =>
        cases h
        have hZero : (dst.getD (dst.length - 1) 0).toNat ≠ 0 :=
          fun h0 => hRange (.inl (UInt8.toNat_inj.mp h0))
        have hMax : (dst.getD (dst.length - 1) 0).toNat ≤ 16 :=
          Nat.not_lt.mp fun h16 => hRange (.inr h16)
        refine ⟨(dst.getD (dst.length - 1) 0).toNat, by omega, hMax, ?_⟩
        rw [UInt8.ofNat_toNat]
        exact (end_replicate (by omega)).mpr fun i hi => by
          by_contra hNe
          exact hAny (List.any_eq_true.mpr ⟨i, List.mem_range.mpr hi, decide_eq_true hNe⟩)
  · rintro ⟨p, hLow, hHigh, hDst⟩
    have hNat : (UInt8.ofNat p).toNat = p := UInt8.toNat_ofNat_of_lt (show p < 256 by omega)
    have hSum : dst.length = m.length + p := by
      rw [hDst, List.length_append, List.length_replicate]
    have hTake : dst.take (dst.length - p) = m := by
      rw [hSum, Nat.add_sub_cancel]
      conv_lhs => rw [hDst]
      exact List.take_left' rfl
    have hAll : ∀ i < p, dst.getD (dst.length - 1 - i) 0 = UInt8.ofNat p :=
      (end_replicate (by omega)).mp (hTake.symm ▸ hDst)
    have hLast : dst.getD (dst.length - 1) 0 = UInt8.ofNat p := hAll 0 hLow
    have hRange : ¬(UInt8.ofNat p = 0 ∨ UInt8.ofNat p > 16) := by
      rintro (h0 | h16)
      · have hZero : p = 0 := by
          rw [← hNat, h0]
          rfl
        omega
      · have h16 : 16 < (UInt8.ofNat p).toNat := h16
        omega
    have hAny : ((List.range p).any fun i =>
        decide (dst.getD (dst.length - 1 - i) 0 ≠ UInt8.ofNat p)) ≠ true := by
      intro h
      obtain ⟨i, hi, hNe⟩ := List.any_eq_true.mp h
      exact of_decide_eq_true hNe (hAll i (List.mem_range.mp hi))
    simp only [stripPadding, hLast, if_neg hRange, hNat, if_neg hAny, hTake]

theorem HsmHost.Ciphers.ends_decrypt (h : host.Ciphers steady I name k E D) (iv : ByteVec 16)
    {cs : List (ByteVec 16)} (hNe : cs ≠ []) :
    Ends (steady ∧ ∃ m, stripPadding (ofBlocks (cbcDecrypt xorVec D iv cs)) = .ok m)
      (fun _ => True) (hsmDecrypt host name (iv.toList ++ ofBlocks cs)).run fun m _ =>
        stripPadding (ofBlocks (cbcDecrypt xorVec D iv cs)) = .ok m := by
  have hBlocks : cs.length ≠ 0 := fun h0 => hNe (List.length_eq_zero_iff.mp h0)
  have hLength : (iv.toList ++ ofBlocks cs).length = 16 + 16 * cs.length := by
    rw [List.length_append, iv.toList_length, length_ofBlocks]
  have hData : (iv.toList ++ ofBlocks cs).length - 16 = 16 * cs.length := by omega
  have hFits : ¬((iv.toList ++ ofBlocks cs).length < 32 ∨ 16 * cs.length % 16 ≠ 0) := by omega
  simp only [hsmDecrypt, hData]
  rw [if_neg hFits]
  refine ends_bind ((h.ends_loadKind _).of_steady And.left) fun k' => ?_
  refine ends_of_true fun hKey => ?_
  subst hKey
  refine ends_bind (h.ends_openSession.of_steady And.left) fun _ => ?_
  refine ends_bind (h.ends_symLoad.of_steady And.left) fun _ => ?_
  refine ends_bind ((h.ends_alloc _).of_steady And.left) fun _ => ?_
  refine ends_bind ((h.ends_decryptChunks iv cs 0 (Nat.zero_le _)).of_steady And.left) fun dst => ?_
  cases hStrip : stripPadding dst with
  | error f =>
    refine ends_throw ?_
    rintro s ⟨rfl, -⟩ ⟨-, m, hm⟩
    rw [hStrip] at hm
    cases hm
  | ok m =>
    refine ends_pure ?_
    rintro s ⟨rfl, -⟩
    exact hStrip

theorem Opens.strip {c m : Bytes} {iv : ByteVec 16} {cs : List (ByteVec 16)} (hNe : cs ≠ [])
    (hc : c = iv.toList ++ ofBlocks cs) :
    Opens D c m ↔ stripPadding (ofBlocks (cbcDecrypt xorVec D iv cs)) = .ok m := by
  have hLen : (ofBlocks (cbcDecrypt xorVec D iv cs)).length = 16 * cs.length := by
    rw [length_ofBlocks, length_cbcDecrypt]
  have hBlocks : cs.length ≠ 0 := fun h0 => hNe (List.length_eq_zero_iff.mp h0)
  rw [stripPadding_eq_ok_iff ⟨_, hLen⟩ (fun hNil => by rw [hNil, List.length_nil] at hLen; omega)]
  constructor
  · rintro ⟨iv', cs', -, hc', hPad⟩
    obtain ⟨hIv, hCs⟩ := List.append_inj (hc.symm.trans hc')
      (iv.toList_length.trans iv'.toList_length.symm)
    rw [List.Vector.eq iv iv' hIv, ofBlocks_inj (by decide) hCs]
    exact hPad
  · intro hPad
    exact ⟨iv, cs, hNe, hc, hPad⟩

/-- A ciphertext that opens is an IV and whole blocks. -/
theorem Opens.length {c m : Bytes} (h : Opens D c m) : 32 ≤ c.length ∧ (c.length - 16) % 16 = 0 := by
  obtain ⟨iv, cs, hNe, rfl, -⟩ := h
  have hBlocks : cs.length ≠ 0 := fun h0 => hNe (List.length_eq_zero_iff.mp h0)
  rw [List.length_append, iv.toList_length, length_ofBlocks]
  omega

theorem exists_blocks {c : Bytes} (hLow : 32 ≤ c.length) (hMod : (c.length - 16) % 16 = 0) :
    ∃ (iv : ByteVec 16) (cs : List (ByteVec 16)), cs ≠ [] ∧ c = iv.toList ++ ofBlocks cs := by
  obtain ⟨n, hn⟩ := Nat.dvd_of_mod_eq_zero hMod
  obtain ⟨cs, hCount, hCs⟩ := exists_ofBlocks (k := 16) (l := c.drop 16) (n := n)
    (by rw [List.length_drop, hn])
  refine ⟨takeVec 16 c, cs, ?_, ?_⟩
  · rintro rfl
    rw [List.length_nil] at hCount
    omega
  · rw [hCs, toList_takeVec (by omega), List.take_append_drop]

/-- CBC of a padded text opens to it. -/
theorem CbcOf.opens {m c : Bytes} (hInv : ∀ b, D (E b) = b) (h : CbcOf E m c) : Opens D c m := by
  obtain ⟨iv, bs, hBs, rfl⟩ := h
  refine ⟨iv, cbcEncrypt xorVec E iv bs, ?_, rfl, ?_⟩
  · intro hNil
    have hLen := congrArg List.length hNil
    rw [length_cbcEncrypt, List.length_nil] at hLen
    rw [List.length_eq_zero_iff.mp hLen, ofBlocks_nil] at hBs
    have hPad := congrArg List.length hBs
    rw [length_pad, List.length_nil] at hPad
    have := Nat.mod_lt m.length (show 0 < 16 by decide)
    omega
  · rw [cbcDecrypt_cbcEncrypt xorVec_xorVec hInv, hBs]

end Opening

/-- The texts that the callers pass have at most 4 MiB; the 32-bit sums hold for all of less than
`2 ^ 32 - 32` bytes. -/
structure HsmHost.Inverts (host : HsmHost ε σ) (steady : Prop) (name : Bytes)
    (E D : ByteVec 16 → ByteVec 16) : Prop where
  encrypts : ∀ m : Bytes, m.length + 32 < 2 ^ 32 →
    Ends steady (fun _ => True) (hsmEncrypt host name m).run fun c _ => CbcOf E m c
  decrypts : ∀ m c, CbcOf E m c →
    Ends steady (fun _ => True) (hsmDecrypt host name c).run fun m' _ => m' = m
  opens : ∀ c m e s, (((hsmDecrypt host name c).run.run e s).1 = .ok m → Opens D c m) ∧
    (steady → Opens D c m → ((hsmDecrypt host name c).run.run e s).1 = .ok m)

/-- Encryption is CBC of the padded text, and decryption its inverse: it returns a text exactly where the
blocks decrypt to it and its padding. -/
theorem hsm_decrypt_inverts {host : HsmHost ε σ} {steady : Prop} {I : σ → Prop} {name : Bytes}
    {k : HsmKey} {E D : ByteVec 16 → ByteVec 16} (h : host.Ciphers steady I name k E D)
    (hInv : ∀ b, D (E b) = b) : host.Inverts steady name E D := by
  have hOpens : ∀ c m e s, (((hsmDecrypt host name c).run.run e s).1 = .ok m → Opens D c m) ∧
      (steady → Opens D c m → ((hsmDecrypt host name c).run.run e s).1 = .ok m) := by
    intro c m e s
    by_cases hLength : 32 ≤ c.length ∧ (c.length - 16) % 16 = 0
    · obtain ⟨iv, cs, hNe, hc⟩ := exists_blocks hLength.1 hLength.2
      have hEnds := h.ends_decrypt iv hNe
      rw [← hc] at hEnds
      rw [Opens.strip hNe hc]
      refine ⟨fun hOk => hEnds.ok trivial hOk, fun hSteady hStrip => ?_⟩
      obtain ⟨m', hOk, hStrip'⟩ := hEnds.exists_ok (e := e) (s := s) trivial ⟨hSteady, m, hStrip⟩
      rw [hOk]
      exact hStrip'.symm.trans hStrip
    · have hBad : c.length < 32 ∨ (c.length - 16) % 16 ≠ 0 := by
        by_contra hNot
        exact hLength (by omega)
      have hRun : ((hsmDecrypt host name c).run.run e s).1 = .error .badLength := by
        simp only [hsmDecrypt, if_pos hBad]
        rfl
      refine ⟨fun hOk => ?_, fun _ hm => absurd hm.length hLength⟩
      rw [hRun] at hOk
      cases hOk
  refine ⟨fun m hm => h.ends_encrypt hm, fun m c hc e s _ => ?_, hOpens⟩
  have hOpen := hc.opens hInv
  cases hRun : ((hsmDecrypt host name c).run.run e s).1 with
  | error f =>
    intro hSteady
    have hOk := (hOpens c m e s).2 hSteady hOpen
    rw [hRun] at hOk
    cases hOk
  | ok m' =>
    obtain ⟨iv, cs, hNe, hc', -⟩ := id hOpen
    have hStrip := (Opens.strip hNe hc').mp ((hOpens c m' e s).1 hRun)
    rw [(Opens.strip hNe hc').mp hOpen] at hStrip
    cases hStrip
    rfl

/-- A device whose cipher adds one key to every block, with the key under a name. -/
def plainHost (key : ByteVec 16) (file : Bytes) : HsmHost Unit Unit where
  keyFile _ := pure (some file)
  ses := pure none
  malloc _ := pure true
  link := pure .served
  block _ _ _ input := pure (.ok (xorVec (takeVec 16 input) key).toList)
  reply q := pure (if q.op = OP_RANDOM then ⟨SDR_OK, (zeros 16).toList⟩ else .bare SDR_OK)

def plainFile : Bytes := PQK1 ++ [2, 2, 16, 0] ++ putU32 0 ++ putU32 0 ++ putU32 1 ++ [7]

def plainKey : HsmKey := ⟨HSM_KIND_SYM, 2, 0, [], ⟨[7], by decide⟩⟩

theorem plainHost_ciphers (key : ByteVec 16) :
    (plainHost key plainFile).Ciphers True (fun _ => True) [107] plainKey (xorVec · key)
      (xorVec · key) where
  usable _ := ⟨rfl, by decide, by decide, by decide⟩
  keyFile e s _ := by
    have hLoad : hsmKeyLoad [107] (some plainFile) = .ok plainKey := by decide
    exact ⟨fun k' hk' => Except.ok.inj (hk'.symm.trans hLoad), fun _ => hLoad⟩
  ses _ _ _ _ := rfl
  malloc _ _ _ _ := ⟨trivial, fun _ => rfl⟩
  connected _ _ _ _ := rfl
  link _ _ _ _ := trivial
  load q hOp _ _ e s _ := by
    have hNe : q.op ≠ OP_RANDOM := by
      rw [hOp]
      decide
    exact ⟨fun _ => trivial, fun _ => if_neg hNe⟩
  random q hOp _ e s _ := by
    have hReply : (((plainHost key plainFile).reply q).run e s).1 = ⟨SDR_OK, (zeros 16).toList⟩ :=
      if_pos hOp
    rw [hReply]
    exact ⟨fun _ => ⟨rfl, trivial⟩, fun _ => ⟨rfl, rfl⟩⟩
  block dec b e s _ := by
    have hTake : takeVec 16 b.toList = b := by
      have h := takeVec_append b []
      rwa [List.append_nil] at h
    refine ⟨?_, trivial⟩
    cases dec <;> exact congrArg (fun v => (xorVec v key).toList) hTake

theorem hsm_decrypt_inverts_plain :
    (plainHost (zeros 16) plainFile).Inverts True [107] (xorVec · (zeros 16))
      (xorVec · (zeros 16)) :=
  hsm_decrypt_inverts (plainHost_ciphers (zeros 16)) fun _ => xorVec_xorVec _ _

end PqcHsm
