import PqcHsm.Service.Httpd

/-!
# Responses are JSON

Every response writes the members of one object. The object is what a decoder finds, unless a text that
was taken in from outside is not UTF-8.
-/

namespace PqcHsm

open ByteCodec JsonText Utf8

/-- What a response says: the members of its object, and those texts in it that were taken in from
outside. -/
structure HttpAnswer where
  fields : List (Bytes × Json)
  raw : List Bytes

/-! ### Writing members -/

theorem bjchar_eq (c : UInt8) : bjchar c = escapeByte c := by
  rfl

theorem cstr_of_forall {s : Bytes} (h : ∀ c ∈ s, c ≠ 0) : cstr s = s :=
  List.takeWhile_eq_self_iff.mpr fun c hc => by simpa using h c hc

theorem bjstr_eq (s : Bytes) : bjstr s = quote (cstr s) := rfl

theorem members_append (fs : List (Bytes × Json)) (hNe : fs ≠ []) (k : Bytes) (v : Json) :
    members (fs ++ [(k, v)]) = members fs ++ 44 :: (quote k ++ 58 :: render v) := by
  induction fs with
  | nil => exact absurd rfl hNe
  | cons f fs ih =>
    obtain ⟨k', w⟩ := f
    cases fs with
    | nil => rw [List.singleton_append, members_cons, members, members]; simp
    | cons f fs =>
      have hRest := ih (List.cons_ne_nil _ _)
      rw [List.cons_append] at hRest
      rw [List.cons_append, List.cons_append, members_cons, members_cons, hRest]
      simp

/-- The buffer holds the beginning of an object with these members. -/
def Written (buf : Bytes) (fs : List (Bytes × Json)) : Prop := fs ≠ [] ∧ buf = 123 :: members fs

theorem Written.first {k w : Bytes} {v : Json} (hKey : cstr k = k) (hv : render v = w) :
    Written ([123] ++ bkey k true ++ w) [(k, v)] := by
  refine ⟨List.cons_ne_nil _ _, ?_⟩
  rw [bkey, bjstr_eq, hKey, members, hv]
  simp

theorem Written.next {buf : Bytes} {fs : List (Bytes × Json)} (h : Written buf fs) {k w : Bytes}
    {v : Json} (hKey : cstr k = k) (hv : render v = w) :
    Written (buf ++ bkey k false ++ w) (fs ++ [(k, v)]) := by
  refine ⟨by simp, ?_⟩
  rw [h.2, members_append fs h.1, bkey, bjstr_eq, hKey, hv]
  simp

/-- A field that is a text from outside. -/
theorem render_raw (s : Bytes) : render (.str (cstr s)) = bjstr s := by rw [render, bjstr_eq]

theorem render_fixed {s : Bytes} (h : cstr s = s) : render (.str s) = bjstr s := by
  rw [render, bjstr_eq, h]

theorem render_num (n : Nat) : render (.num n) = fmtU n := by rw [render, fmtU]

/-- A string without anything to escape. -/
theorem render_plain {s : Bytes} (h : ∀ c ∈ s, c ≠ 34 ∧ c ≠ 92 ∧ ¬c < 32) :
    render (.str s) = [34] ++ s ++ [34] := by
  have hEscape : escape s = s := by
    induction s with
    | nil => rfl
    | cons c s ih =>
      obtain ⟨hQuote, hSlash, hControl⟩ := h c List.mem_cons_self
      have hNe : ∀ d : UInt8, d < 32 → c ≠ d := by
        rintro d hd rfl
        exact hControl hd
      rw [escape, List.flatMap_cons, ← escape, ih fun d hd => h d (List.mem_cons_of_mem _ hd),
        escapeByte, if_neg hQuote, if_neg hSlash, if_neg (hNe 10 (by decide)),
        if_neg (hNe 13 (by decide)), if_neg (hNe 9 (by decide)), if_neg hControl]
      rfl
  rw [render, quote, hEscape]
  rfl

def hexText (d : Bytes) : Bytes := d.flatMap hex2

theorem hexText_plain (d : Bytes) : ∀ c ∈ hexText d, IsAscii c ∧ c ≠ 34 ∧ c ≠ 92 ∧ ¬c < 32 := by
  have hDigit : ∀ n, n < 16 → IsAscii (hexDigitOf n) ∧ hexDigitOf n ≠ 34 ∧ hexDigitOf n ≠ 92 ∧
      ¬hexDigitOf n < 32 := by
    have hAll : ∀ n : Fin 16, IsAscii (hexDigitOf n) ∧ hexDigitOf n ≠ 34 ∧ hexDigitOf n ≠ 92 ∧
        ¬hexDigitOf n < 32 := by
      decide
    exact fun n hn => hAll ⟨n, hn⟩
  intro c hc
  obtain ⟨b, -, hb⟩ := List.mem_flatMap.mp hc
  have hLt := b.toNat_lt
  simp only [hex2, List.mem_cons, List.not_mem_nil, or_false] at hb
  rcases hb with rfl | rfl
  · exact hDigit _ (by omega)
  · exact hDigit _ (by omega)

theorem render_hex (d : Bytes) : render (.str (hexText d)) = bhex d :=
  render_plain fun c hc => (hexText_plain d c hc).2

/-- The encoder of the library writes Base64. -/
def Backend.Encodes (b : Backend) : Prop := ∀ d, b.encodeBlock d = Base64.encode d

theorem render_b64 {b : Backend} (h : b.Encodes) (d : Bytes) :
    render (.str (Base64.encode d)) = bb64 b d := by
  have hPlain : ∀ c ∈ Base64.encode d, c ≠ 34 ∧ c ≠ 92 ∧ ¬c < 32 := by
    intro c hc
    obtain ⟨-, hLow, hSlash⟩ := Base64.plain_encode d c hc
    refine ⟨?_, hSlash, ?_⟩
    · rintro rfl
      exact absurd hLow (by decide)
    · intro hControl
      have hControl : c.toNat < 32 := hControl
      omega
  rw [bb64, h d]
  exact render_plain hPlain

@[simp] theorem isText_b64 (d : Bytes) : IsText (Base64.encode d) :=
  isText_of_ascii fun c hc => (Base64.plain_encode d c hc).1

@[simp] theorem isText_hex (d : Bytes) : IsText (hexText d) :=
  isText_of_ascii fun c hc => (hexText_plain d c hc).1

theorem isText_lit (s : String) : IsText (lit s) := isText_encode _

/-- A name that is admitted is ASCII. -/
theorem isText_name {name : Bytes} (h : hsmNameOk name = true) : IsText name ∧ cstr name = name := by
  have hAll : ∀ c ∈ name, IsAscii c ∧ c ≠ 0 := by
    intro c hc
    rw [hsmNameOk, Bool.and_eq_true] at h
    have hChar := List.all_eq_true.mp h.2 c hc
    simp only [nameChar, Bool.or_eq_true, Bool.and_eq_true, decide_eq_true_eq, beq_iff_eq] at hChar
    have hLow : ∀ d e : UInt8, d ≤ e → d.toNat ≤ e.toNat := fun _ _ h => h
    have hBounds : 0 < c.toNat ∧ c.toNat < 128 := by
      rcases hChar with (((⟨h1, h2⟩ | ⟨h1, h2⟩) | ⟨h1, h2⟩) | rfl) | rfl
      · exact ⟨Nat.lt_of_lt_of_le (by decide) (hLow _ _ h1), Nat.lt_of_le_of_lt (hLow _ _ h2) (by decide)⟩
      · exact ⟨Nat.lt_of_lt_of_le (by decide) (hLow _ _ h1), Nat.lt_of_le_of_lt (hLow _ _ h2) (by decide)⟩
      · exact ⟨Nat.lt_of_lt_of_le (by decide) (hLow _ _ h1), Nat.lt_of_le_of_lt (hLow _ _ h2) (by decide)⟩
      · decide
      · decide
    refine ⟨hBounds.2, ?_⟩
    rintro rfl
    exact absurd hBounds.1 (by decide)
  exact ⟨isText_of_ascii fun c hc => (hAll c hc).1, cstr_of_forall fun c hc => (hAll c hc).2⟩

/-! ### The answers -/

structure Says (r : Resp) (a : HttpAnswer) : Prop where
  written : Written r.body a.fields
  texts : (∀ s ∈ textsOfMembers a.fields, IsText s) ↔ ∀ t ∈ a.raw, IsText t

/-- An error with a text of the gateway itself. -/
def errAnswer (msg : Bytes) : HttpAnswer := ⟨[(lit "error", .str msg)], []⟩

/-- An error with the text that the operation left. -/
def failAnswer (e : Bytes) : HttpAnswer := ⟨[(lit "error", .str (cstr e))], [cstr e]⟩

theorem written_err (code : Nat) {msg msg' : Bytes} (h : cstr msg = msg') :
    Written (err code msg).body [(lit "error", .str msg')] := by
  subst h
  have hKey : ([123] : Bytes) ++ lit "\"error\":" = [123] ++ bkey (lit "error") true := by
    decide
  rw [err, hKey]
  exact .first (by decide) (render_raw msg)

theorem says_err (code : Nat) {s : String} (h : cstr (lit s) = lit s) :
    Says (err code (lit s)) (errAnswer (lit s)) where
  written := written_err code h
  texts := by
    simp [errAnswer, textsOfMembers, texts]

theorem says_fail (code : Nat) (e : Bytes) : Says (err code e) (failAnswer e) where
  written := written_err code rfl
  texts := by
    simp [failAnswer, textsOfMembers, texts]

/-! ### Keys -/

def keyFields (name : Bytes) (k : HsmKey) (withPk : Bool) : List (Bytes × Json) :=
  [(lit "name", .str (cstr name)), (lit "alg", .str (hsmAlgName k)), (lit "type", .str (keyType k)),
    (lit "public_key_bytes", .num k.pk.length), (lit "blob_bytes", .num k.blob.val.length),
    (lit "created", .num k.created.toNat)] ++
  if withPk ∧ k.pk.length ≠ 0 then [(lit "public_key_b64", .str (Base64.encode k.pk))] else []

theorem cstr_algName (k : HsmKey) : cstr (hsmAlgName k) = hsmAlgName k := by
  unfold hsmAlgName
  split_ifs <;> decide

@[simp] theorem isText_algName (k : HsmKey) : IsText (hsmAlgName k) := by
  unfold hsmAlgName
  split_ifs <;> exact isText_lit _

theorem cstr_keyType (k : HsmKey) : cstr (keyType k) = keyType k := by
  unfold keyType
  split_ifs <;> decide

@[simp] theorem isText_keyType (k : HsmKey) : IsText (keyType k) := by
  unfold keyType
  split_ifs <;> exact isText_lit _

theorem written_keyJson {b : Backend} (hb : b.Encodes) (name : Bytes) (k : HsmKey) (withPk : Bool) :
    Written ([123] ++ keyJson b name k withPk) (keyFields name k withPk) := by
  have hName : Written ([123] ++ bkey (lit "name") true ++ bjstr name) _ :=
    .first (by decide) (render_raw name)
  have hAlg := hName.next (k := lit "alg") (by decide) (render_fixed (cstr_algName k))
  have hType := hAlg.next (k := lit "type") (by decide) (render_fixed (cstr_keyType k))
  have hPk := hType.next (k := lit "public_key_bytes") (by decide) (render_num k.pk.length)
  have hBlob := hPk.next (k := lit "blob_bytes") (by decide) (render_num k.blob.val.length)
  have hCreated := hBlob.next (k := lit "created") (by decide) (render_num k.created.toNat)
  rw [keyJson, keyFields]
  split
  · have hAll := hCreated.next (k := lit "public_key_b64") (by decide) (render_b64 hb k.pk)
    simpa only [List.append_assoc, List.cons_append, List.nil_append] using hAll
  · simpa only [List.append_assoc, List.cons_append, List.nil_append, List.append_nil] using hCreated

theorem texts_keyFields (name : Bytes) (k : HsmKey) (withPk : Bool) :
    (∀ s ∈ textsOfMembers (keyFields name k withPk), IsText s) ↔ IsText (cstr name) := by
  rw [keyFields]
  split <;> simp [textsOfMembers, texts]

def keyObject (x : Bytes × HsmKey) : Json := .obj (keyFields x.1 x.2 false)

theorem render_keyObject {b : Backend} (hb : b.Encodes) (x : Bytes × HsmKey) :
    render (keyObject x) = [123] ++ keyJson b x.1 x.2 false ++ [125] := by
  rw [(written_keyJson hb x.1 x.2 false).2, keyObject, render]
  rfl

/-- The last byte of a key in the list is its closing brace. -/
theorem foldl_listCb {b : Backend} (hb : b.Encodes) (keys : List (Bytes × HsmKey)) (buf : Bytes) :
    keys.foldl (listCb b) (buf ++ [125]) =
      buf ++ [125] ++ keys.flatMap fun x => 44 :: render (keyObject x) := by
  induction keys generalizing buf with
  | nil => simp
  | cons x keys ih =>
    have hStep : listCb b (buf ++ [125]) x =
        buf ++ [125] ++ [44] ++ [123] ++ keyJson b x.1 x.2 false ++ [125] := by
      rw [listCb, if_pos (by simp)]
    rw [List.foldl_cons, hStep, ih, List.flatMap_cons, render_keyObject hb]
    simp

theorem foldl_listCb_first {b : Backend} (hb : b.Encodes) (keys : List (Bytes × HsmKey))
    (buf : Bytes) :
    keys.foldl (listCb b) (buf ++ [91]) = buf ++ [91] ++ elements (keys.map keyObject) := by
  cases keys with
  | nil => simp [elements]
  | cons x keys =>
    have hStep : listCb b (buf ++ [91]) x =
        (buf ++ [91] ++ [123] ++ keyJson b x.1 x.2 false) ++ [125] := by
      rw [listCb, if_neg (by simp)]
    rw [List.foldl_cons, hStep, foldl_listCb hb, List.map_cons, elements_flatMap, render_keyObject hb,
      List.flatMap_map]
    simp

theorem texts_keyObjects (keys : List (Bytes × HsmKey)) :
    (∀ s ∈ textsOfList (keys.map keyObject), IsText s) ↔ ∀ x ∈ keys, IsText (cstr x.1) := by
  induction keys with
  | nil => simp [textsOfList]
  | cons x keys ih =>
    rw [List.map_cons, textsOfList, keyObject, texts, List.forall_mem_append, texts_keyFields, ih,
      List.forall_mem_cons]

/-! ### The branches of `route` -/

section Branches

variable (b : Backend)

def infoAnswer : HttpAnswer :=
  match b.info with
  | .error e => failAnswer e
  | .ok info => ⟨[(lit "device", .str (cstr info)), (lit "keystore", .str (cstr b.keystore)),
      (lit "architecture", .str (lit "密钥在 TEE（OP-TEE TA）里生成、包裹、装载；运算在 FPGA（PL）里做；本网关与 daemon 只搬句柄和密文 blob"))],
      [cstr info, cstr b.keystore]⟩

theorem says_getInfo : Says (getInfo b) (infoAnswer b) := by
  rw [getInfo, infoAnswer]
  cases b.info with
  | error e => exact says_fail 503 e
  | ok info =>
    constructor
    · exact ((Written.first (by decide) (render_raw info)).next (by decide)
        (render_raw b.keystore)).next (by decide) (render_fixed (by decide +kernel))
    · simp [textsOfMembers, texts]

def randomAnswer (body : Bytes) : HttpAnswer :=
  match jget body (lit "length") with
  | none => errAnswer (lit "缺 length")
  | some v =>
    match b.random (atoi v) with
    | .error e => failAnswer e
    | .ok o => ⟨[(lit "random_hex", .str (hexText o)),
        (lit "source", .str (lit "FPGA 环振 TRNG + SP 800-90B 健康检测"))], []⟩

theorem says_postRandom (body : Bytes) : Says (postRandom b body) (randomAnswer b body) := by
  rw [postRandom, randomAnswer]
  cases jget body (lit "length") with
  | none => exact says_err 400 (by decide)
  | some v =>
    simp only
    cases b.random (atoi v) with
    | error e => exact says_fail _ e
    | ok o =>
      constructor
      · exact (Written.first (by decide) (render_hex o)).next (by decide)
          (render_fixed (by decide))
      · simp [textsOfMembers, texts]

def sm3Answer (body : Bytes) : HttpAnswer :=
  match jbytes b body (lit "data") with
  | none => errAnswer (lit "缺 data 或 data_b64")
  | some input =>
    match b.sm3 input with
    | .error e => failAnswer e
    | .ok d => ⟨[(lit "sm3_hex", .str (hexText d)), (lit "bytes", .num input.length)], []⟩

theorem says_postSm3 (body : Bytes) : Says (postSm3 b body) (sm3Answer b body) := by
  rw [postSm3, sm3Answer]
  cases jbytes b body (lit "data") with
  | none => exact says_err 400 (by decide)
  | some input =>
    simp only
    cases b.sm3 input with
    | error e => exact says_fail _ e
    | ok d =>
      constructor
      · exact (Written.first (by decide) (render_hex d)).next (by decide)
          (render_num input.length)
      · simp [textsOfMembers, texts]

def listAnswer : HttpAnswer :=
  ⟨[(lit "keystore", .str (cstr b.keystore)), (lit "keys", .arr (b.keyList.map keyObject))],
    cstr b.keystore :: b.keyList.map fun x => cstr x.1⟩

theorem says_listKeys (hb : b.Encodes) : Says (listKeys b) (listAnswer b) where
  written := by
    have hKeys : render (.arr (b.keyList.map keyObject)) =
        [91] ++ elements (b.keyList.map keyObject) ++ [93] := by
      rw [render]
      rfl
    have hStore := Written.first (k := lit "keystore") (by decide) (render_raw b.keystore)
    have hAll := hStore.next (k := lit "keys") (by decide) hKeys
    rw [listKeys, foldl_listCb_first hb]
    simp only [List.append_assoc] at hAll ⊢
    exact hAll
  texts := by
    simp only [listAnswer, textsOfMembers, texts, List.singleton_append, List.append_nil,
      List.forall_mem_cons, texts_keyObjects, List.forall_mem_map, isText_encode, true_and]

def postKeyAnswer (body : Bytes) : HttpAnswer :=
  match jget body (lit "name"), jget body (lit "alg") with
  | some name, some alg =>
    match b.keyGen alg name with
    | .error e => failAnswer e
    | .ok k => ⟨keyFields name k true ++ [(lit "note", .str
        (if k.kind = HSM_KIND_SYM then lit "密钥由 TA 生成并用 KEK 包裹；本网关只保存密文 blob"
          else lit "私钥种子由 TA 生成并用 KEK 包裹；本网关只保存公钥与密文 blob"))], [cstr name]⟩
  | _, _ => errAnswer (lit "需要 name 与 alg")

theorem textsOfMembers_append (fs gs : List (Bytes × Json)) :
    textsOfMembers (fs ++ gs) = textsOfMembers fs ++ textsOfMembers gs := by
  induction fs with
  | nil => rw [textsOfMembers, List.nil_append, List.nil_append]
  | cons f fs ih =>
    rw [List.cons_append, textsOfMembers, textsOfMembers, ih, List.cons_append, List.append_assoc]

theorem says_postKey (hb : b.Encodes) (body : Bytes) :
    Says (postKey b body) (postKeyAnswer b body) := by
  rw [postKey, postKeyAnswer]
  cases jget body (lit "name") with
  | none => exact says_err 400 (by decide)
  | some name =>
    cases jget body (lit "alg") with
    | none => exact says_err 400 (by decide)
    | some alg =>
      simp only
      cases b.keyGen alg name with
      | error e => exact says_fail _ e
      | ok k =>
        constructor
        · refine (written_keyJson hb name k true).next (by decide) (render_fixed ?_)
          split <;> decide
        · simp only [textsOfMembers_append, List.forall_mem_append, texts_keyFields]
          split <;> simp [textsOfMembers, texts]

def getKeyAnswer (name : Bytes) : HttpAnswer :=
  match b.keyLoad name with
  | .error e => failAnswer e
  | .ok k => ⟨keyFields name k true ++
      [(lit "blob_head_hex", .str (hexText (k.blob.val.take 24)))], []⟩

theorem says_getKey (hb : b.Encodes) {name : Bytes} (hName : hsmNameOk name = true) :
    Says (getKey b name) (getKeyAnswer b name) := by
  obtain ⟨hText, hCstr⟩ := isText_name hName
  rw [getKey, getKeyAnswer]
  cases b.keyLoad name with
  | error e => exact says_fail _ e
  | ok k =>
    constructor
    · exact (written_keyJson hb name k true).next (by decide) (render_hex _)
    · simp [textsOfMembers_append, texts_keyFields, hCstr, hText, textsOfMembers, texts, or_imp,
        forall_and]

def deleteKeyAnswer (name : Bytes) : HttpAnswer :=
  match b.keyDestroy name with
  | .error e => failAnswer e
  | .ok _ => ⟨[(lit "destroyed", .str name)], []⟩

theorem says_deleteKey {name : Bytes} (hName : hsmNameOk name = true) :
    Says (deleteKey b name) (deleteKeyAnswer b name) := by
  obtain ⟨hText, hCstr⟩ := isText_name hName
  rw [deleteKey, deleteKeyAnswer]
  cases b.keyDestroy name with
  | error e => exact says_fail _ e
  | ok =>
    constructor
    · exact .first (by decide) (render_fixed hCstr)
    · simp [textsOfMembers, texts, hText]

def encryptAnswer (name body : Bytes) : HttpAnswer :=
  match jbytes b body (lit "plaintext") with
  | none => errAnswer (lit "缺 plaintext 或 plaintext_b64")
  | some input =>
    match b.encrypt name input with
    | .error e => failAnswer e
    | .ok o => ⟨[(lit "ciphertext_b64", .str (Base64.encode o)),
        (lit "format", .str (lit "IV(16) ‖ CBC 密文（PKCS#7）")), (lit "bytes", .num o.length)], []⟩

theorem says_encryptOp (hb : b.Encodes) (name body : Bytes) :
    Says (encryptOp b name body) (encryptAnswer b name body) := by
  rw [encryptOp, encryptAnswer]
  cases jbytes b body (lit "plaintext") with
  | none => exact says_err 400 (by decide)
  | some input =>
    simp only
    cases b.encrypt name input with
    | error e => exact says_fail _ e
    | ok o =>
      constructor
      · exact ((Written.first (by decide) (render_b64 hb o)).next (by decide)
          (render_fixed (by decide))).next (by decide) (render_num o.length)
      · simp [textsOfMembers, texts]

/-- The members for a plaintext: Base64 always, and the text itself where it looks like one. -/
def plaintextFields (o : Bytes) : List (Bytes × Json) :=
  (lit "plaintext_b64", .str (Base64.encode o)) ::
    ((if isPlainText o then [(lit "plaintext", .str o)] else []) ++ [(lit "bytes", .num o.length)])

def decryptAnswer (name body : Bytes) : HttpAnswer :=
  match jbytes b body (lit "ciphertext") with
  | none => errAnswer (lit "缺 ciphertext_b64")
  | some input =>
    match b.decrypt name input with
    | .error e => failAnswer e
    | .ok o => ⟨plaintextFields o, if isPlainText o then [o] else []⟩

theorem cstr_plainText {o : Bytes} (h : isPlainText o = true) : cstr o = o := by
  refine cstr_of_forall fun c hc => ?_
  rintro rfl
  exact absurd (List.all_eq_true.mp h 0 hc) (by decide)

theorem says_decryptOp (hb : b.Encodes) (name body : Bytes) :
    Says (decryptOp b name body) (decryptAnswer b name body) := by
  rw [decryptOp, decryptAnswer]
  cases jbytes b body (lit "ciphertext") with
  | none => exact says_err 400 (by decide)
  | some input =>
    simp only
    cases b.decrypt name input with
    | error e => exact says_fail _ e
    | ok o =>
      have hB64 := Written.first (k := lit "plaintext_b64") (by decide) (render_b64 hb o)
      cases hPlain : isPlainText o with
      | false =>
        constructor
        · have hAll := hB64.next (k := lit "bytes") (by decide) (render_num o.length)
          simpa [plaintextFields, hPlain] using hAll
        · simp [plaintextFields, hPlain, textsOfMembers, texts]
      | true =>
        constructor
        · have hAll := (hB64.next (k := lit "plaintext") (by decide)
            (render_fixed (cstr_plainText hPlain))).next (k := lit "bytes") (by decide)
              (render_num o.length)
          simpa [plaintextFields, hPlain] using hAll
        · simp [plaintextFields, hPlain, textsOfMembers, texts]

def signAnswer (name body : Bytes) : HttpAnswer :=
  match jbytes b body (lit "message") with
  | none => errAnswer (lit "缺 message 或 message_b64")
  | some msg =>
    match b.sign name msg with
    | .error e => failAnswer e
    | .ok sig => ⟨[(lit "signature_b64", .str (Base64.encode sig)),
        (lit "signature_bytes", .num sig.length)], []⟩

theorem says_signOp (hb : b.Encodes) (name body : Bytes) :
    Says (signOp b name body) (signAnswer b name body) := by
  rw [signOp, signAnswer]
  cases jbytes b body (lit "message") with
  | none => exact says_err 400 (by decide)
  | some msg =>
    simp only
    cases b.sign name msg with
    | error e => exact says_fail _ e
    | ok sig =>
      constructor
      · exact (Written.first (by decide) (render_b64 hb sig)).next (by decide)
          (render_num sig.length)
      · simp [textsOfMembers, texts]

def verifyAnswer (name body : Bytes) : HttpAnswer :=
  match jbytes b body (lit "message"), jget body (lit "signature_b64") with
  | some msg, some s64 =>
    match b64dec b s64 with
    | none => errAnswer (lit "signature_b64 不是合法 base64")
    | some sig =>
      match b.verify name msg sig with
      | .error e => failAnswer e
      | .ok v => ⟨[(lit "valid", .bool v)], []⟩
  | _, _ => errAnswer (lit "需要 message 与 signature_b64")

theorem says_verifyOp (name body : Bytes) :
    Says (verifyOp b name body) (verifyAnswer b name body) := by
  rw [verifyOp, verifyAnswer]
  cases jbytes b body (lit "message") with
  | none => exact says_err 400 (by decide)
  | some msg =>
    cases jget body (lit "signature_b64") with
    | none => exact says_err 400 (by decide)
    | some s64 =>
      simp only
      cases b64dec b s64 with
      | none => exact says_err 400 (by decide)
      | some sig =>
        simp only
        cases b.verify name msg sig with
        | error e => exact says_fail _ e
        | ok v =>
          have hBool : render (.bool v) = if v then lit "true" else lit "false" := by
            cases v <;> decide
          constructor
          · exact .first (by decide) hBool
          · simp [textsOfMembers, texts]

def encapsulateAnswer (name : Bytes) : HttpAnswer :=
  match b.encap name with
  | .error e => failAnswer e
  | .ok (ct, ss) => ⟨[(lit "ciphertext_b64", .str (Base64.encode ct)),
      (lit "shared_secret_hex", .str (hexText ss))], []⟩

theorem says_encapsulateOp (hb : b.Encodes) (name : Bytes) :
    Says (encapsulateOp b name) (encapsulateAnswer b name) := by
  rw [encapsulateOp, encapsulateAnswer]
  cases b.encap name with
  | error e => exact says_fail _ e
  | ok r =>
    constructor
    · exact (Written.first (by decide) (render_b64 hb r.1)).next (by decide)
        (render_hex r.2)
    · simp [textsOfMembers, texts]

def decapsulateAnswer (name body : Bytes) : HttpAnswer :=
  match jget body (lit "ciphertext_b64") with
  | none => errAnswer (lit "缺 ciphertext_b64")
  | some c64 =>
    match b64dec b c64 with
    | none => errAnswer (lit "ciphertext_b64 不是合法 base64")
    | some ct =>
      match b.decap name ct with
      | .error e => failAnswer e
      | .ok ss => ⟨[(lit "shared_secret_hex", .str (hexText ss))], []⟩

theorem says_decapsulateOp (name body : Bytes) :
    Says (decapsulateOp b name body) (decapsulateAnswer b name body) := by
  rw [decapsulateOp, decapsulateAnswer]
  cases jget body (lit "ciphertext_b64") with
  | none => exact says_err 400 (by decide)
  | some c64 =>
    simp only
    cases b64dec b c64 with
    | none => exact says_err 400 (by decide)
    | some ct =>
      simp only
      cases b.decap name ct with
      | error e => exact says_fail _ e
      | ok ss =>
        constructor
        · exact .first (by decide) (render_hex ss)
        · simp [textsOfMembers, texts]

def routeAnswer (m path body : Bytes) : HttpAnswer :=
  if path = lit "/v1/info" ∧ m = lit "GET" then infoAnswer b
  else if path = lit "/v1/random" ∧ m = lit "POST" then randomAnswer b body
  else if path = lit "/v1/sm3" ∧ m = lit "POST" then sm3Answer b body
  else if path = lit "/v1/keys" then
    if m = lit "GET" then listAnswer b
    else if m = lit "POST" then postKeyAnswer b body
    else errAnswer (lit "只支持 GET / POST")
  else if !(lit "/v1/keys/").isPrefixOf path then errAnswer (lit "没有这个接口")
  else
    let name := scanName (path.drop 9)
    let op := scanOp (path.drop 9)
    if !hsmNameOk name then errAnswer (lit "密钥名不合法")
    else if op = [] then
      if m = lit "GET" then getKeyAnswer b name
      else if m = lit "DELETE" then deleteKeyAnswer b name
      else errAnswer (lit "只支持 GET / DELETE")
    else if m ≠ lit "POST" then errAnswer (lit "只支持 POST")
    else if op = lit "encrypt" then encryptAnswer b name body
    else if op = lit "decrypt" then decryptAnswer b name body
    else if op = lit "sign" then signAnswer b name body
    else if op = lit "verify" then verifyAnswer b name body
    else if op = lit "encapsulate" then encapsulateAnswer b name
    else if op = lit "decapsulate" then decapsulateAnswer b name body
    else errAnswer (lit "没有这个操作")

/-- A choice between branches, each of which says its answer. -/
theorem Says.ite {c : Prop} [Decidable c] {r r' : Resp} {a a' : HttpAnswer} (h : c → Says r a)
    (h' : ¬c → Says r' a') : Says (if c then r else r') (if c then a else a') := by
  split
  · exact h ‹_›
  · exact h' ‹_›

theorem says_route (hb : b.Encodes) (m path body : Bytes) :
    Says (route b m path body) (routeAnswer b m path body) := by
  rw [route, routeAnswer]
  refine .ite (fun _ => says_getInfo b) fun _ => ?_
  refine .ite (fun _ => says_postRandom b body) fun _ => ?_
  refine .ite (fun _ => says_postSm3 b body) fun _ => ?_
  refine .ite (fun _ => ?_) fun _ => ?_
  · refine .ite (fun _ => says_listKeys b hb) fun _ => ?_
    exact .ite (fun _ => says_postKey b hb body) fun _ => says_err 405 (by decide)
  · refine .ite (fun _ => says_err 404 (by decide)) fun _ => ?_
    refine .ite (fun _ => says_err 400 (by decide)) fun hName => ?_
    have hName : hsmNameOk (scanName (path.drop 9)) = true := by simpa using hName
    refine .ite (fun _ => ?_) fun _ => ?_
    · refine .ite (fun _ => says_getKey b hb hName) fun _ => ?_
      exact .ite (fun _ => says_deleteKey b hName) fun _ => says_err 405 (by decide)
    · refine .ite (fun _ => says_err 405 (by decide)) fun _ => ?_
      refine .ite (fun _ => says_encryptOp b hb _ body) fun _ => ?_
      refine .ite (fun _ => says_decryptOp b hb _ body) fun _ => ?_
      refine .ite (fun _ => says_signOp b hb _ body) fun _ => ?_
      refine .ite (fun _ => says_verifyOp b _ body) fun _ => ?_
      refine .ite (fun _ => says_encapsulateOp b hb _) fun _ => ?_
      exact .ite (fun _ => says_decapsulateOp b _ body) fun _ => says_err 404 (by decide)

end Branches

/-! ### The trace and the whole response -/

def traceObject (x : Bytes × Bytes) : Json :=
  .obj [(lit "layer", .str (cstr x.1)), (lit "detail", .str (cstr x.2))]

theorem traceBytes_eq (x : Bytes × Bytes) : traceBytes x = render (traceObject x) := by
  have hLayer : lit "\"layer\":" = bkey (lit "layer") true := by decide
  have hDetail : lit ",\"detail\":" = bkey (lit "detail") false := by decide
  have hWritten := (Written.first (k := lit "layer") (by decide) (render_raw x.1)).next
    (k := lit "detail") (by decide) (render_raw x.2)
  rw [traceBytes, hLayer, hDetail, hWritten.2, traceObject, render]
  rfl

theorem traceItems_false (xs : List (Bytes × Bytes)) :
    traceItems false xs = xs.flatMap fun x => 44 :: render (traceObject x) := by
  induction xs with
  | nil => rfl
  | cons x xs ih =>
    rw [traceItems, ih, List.flatMap_cons, traceBytes_eq]
    rfl

theorem traceItems_true (xs : List (Bytes × Bytes)) :
    traceItems true xs = elements (xs.map traceObject) := by
  cases xs with
  | nil => rw [traceItems, List.map_nil, elements]
  | cons x xs =>
    rw [traceItems, traceItems_false, List.map_cons, elements_flatMap, traceBytes_eq,
      List.flatMap_map]
    rfl

/-- The layer of an entry is one of the tags. -/
theorem isText_layer {line : Bytes} {x : Bytes × Bytes} (h : traceEntry line = some x) :
    IsText (cstr x.1) := by
  rw [traceEntry] at h
  split at h
  · cases h
  · obtain ⟨t, hMem, hTag⟩ := List.exists_of_findSome?_eq_some h
    split at hTag
    · cases hTag
      have hTags : ∀ t ∈ traceTags, cstr t.2 = t.2 ∧ ∃ s, t.2 = lit s := by
        simp only [traceTags, List.forall_mem_cons]
        exact ⟨⟨by decide, _, rfl⟩, ⟨by decide, _, rfl⟩,
          ⟨by decide, _, rfl⟩, ⟨by decide, _, rfl⟩, List.forall_mem_nil _⟩
      obtain ⟨hCstr, s, hs⟩ := hTags t hMem
      rw [hCstr, hs]
      exact isText_lit s
    · cases hTag

theorem texts_trace (xs : List (Bytes × Bytes)) (hLayer : ∀ x ∈ xs, IsText (cstr x.1)) :
    (∀ s ∈ textsOfList (xs.map traceObject), IsText s) ↔ ∀ x ∈ xs, IsText (cstr x.2) := by
  induction xs with
  | nil => simp [textsOfList]
  | cons x xs ih =>
    have hHead := hLayer x List.mem_cons_self
    have hTail := ih fun y hy => hLayer y (List.mem_cons_of_mem _ hy)
    rw [List.map_cons, textsOfList, List.forall_mem_append, hTail, List.forall_mem_cons]
    simp [traceObject, texts, textsOfMembers, hHead]

/-- The answer to a request, with the name of the client and the new lines of the log. -/
def serveAnswer (b : Backend) (cn : Bytes) (log : List Bytes) (q : HttpReq) : HttpAnswer :=
  if q.contentLength > BODY_MAX then errAnswer (lit "请求体太大")
  else
    let a := routeAnswer b q.method q.path (cstr q.body)
    if q.trace then
      let entries := log.filterMap traceEntry
      ⟨a.fields ++ [(lit "request", .str (cstr q.text))] ++ [(lit "client_cn", .str (cstr cn))] ++
        [(lit "trace", .arr (entries.map traceObject))],
        a.raw ++ [cstr q.text, cstr cn] ++ entries.map fun x => cstr x.2⟩
    else a

/-- The whole response is the object of the answer. -/
theorem httpServe_body {b : Backend} (hb : b.Encodes) (cn : Bytes) (log : List Bytes) (q : HttpReq) :
    (httpServe b cn log q).body = render (.obj (serveAnswer b cn log q).fields) ++ [10] ∧
      ((∀ s ∈ texts (.obj (serveAnswer b cn log q).fields), IsText s) ↔
        ∀ t ∈ (serveAnswer b cn log q).raw, IsText t) := by
  have hEnd : ∀ {r : Resp} {a : HttpAnswer}, Says r a →
      r.body ++ [125, 10] = render (.obj a.fields) ++ [10] ∧
        ((∀ s ∈ texts (.obj a.fields), IsText s) ↔ ∀ t ∈ a.raw, IsText t) := by
    intro r a h
    refine ⟨?_, by rw [texts]; exact h.texts⟩
    rw [h.written.2, render]
    simp
  rw [httpServe, serveAnswer]
  split
  · exact hEnd (says_err 413 (by decide))
  · have hRoute := says_route b hb q.method q.path (cstr q.body)
    simp only
    split
    · refine hEnd (r := ⟨_, _⟩) (a := ⟨_, _⟩) ⟨?_, ?_⟩
      · have hTrace : render (.arr ((log.filterMap traceEntry).map traceObject)) =
            [91] ++ traceItems true (log.filterMap traceEntry) ++ [93] := by
          rw [render, traceItems_true]
          rfl
        have hKey : lit ",\"trace\":[" = bkey (lit "trace") false ++ [91] := by decide
        have hAll := ((hRoute.written.next (k := lit "request") (by decide)
          (render_raw q.text)).next (k := lit "client_cn") (by decide) (render_raw cn)).next
            (k := lit "trace") (by decide) hTrace
        rw [addTrace, hKey]
        simp only [List.append_assoc] at hAll ⊢
        exact hAll
      · have hLayer : ∀ x ∈ log.filterMap traceEntry, IsText (cstr x.1) := by
          intro x hx
          obtain ⟨line, -, hLine⟩ := List.mem_filterMap.mp hx
          exact isText_layer hLine
        simp only [textsOfMembers_append, textsOfMembers, texts, List.forall_mem_append,
          List.forall_mem_cons, List.append_nil, isText_encode, true_and, texts_trace _ hLayer,
          List.forall_mem_map, hRoute.texts, List.not_mem_nil, false_imp_iff, implies_true, and_true,
          and_assoc]
    · exact hEnd hRoute

theorem isText_httpServe {b : Backend} (hb : b.Encodes) (cn : Bytes) (log : List Bytes)
    (q : HttpReq) :
    IsText (httpServe b cn log q).body ↔ ∀ t ∈ (serveAnswer b cn log q).raw, IsText t := by
  obtain ⟨hBody, hTexts⟩ := httpServe_body hb cn log q
  have hCut := isText_cut (a := render (.obj (serveAnswer b cn log q).fields)) (b := []) (x := 10)
    (by decide)
  rw [hBody, ← hTexts, ← isText_render]
  exact hCut.trans (and_iff_left isText_nil)

/-- A response is JSON in UTF-8 exactly if the texts taken in from outside are UTF-8. It then decodes to the
members of the answer and to nothing else; of a plaintext these are its Base64 text, from which it comes
back, and where it has no control byte the plaintext itself. -/
theorem response_decodes_iff {b : Backend} (hb : b.Encodes) (cn : Bytes) (log : List Bytes)
    (q : HttpReq) :
    ((∃ v, Decodes (httpServe b cn log q).body v) ↔
        ∀ t ∈ (serveAnswer b cn log q).raw, IsText t) ∧
      (∀ v, Decodes (httpServe b cn log q).body v → v = .obj (serveAnswer b cn log q).fields) ∧
      ∀ o, (lit "plaintext_b64", .str (Base64.encode o)) ∈ plaintextFields o ∧
        Base64.decode (Base64.encode o) = some o ∧
        (isPlainText o → (lit "plaintext", .str o) ∈ plaintextFields o) := by
  obtain ⟨hBody, hTexts⟩ := httpServe_body hb cn log q
  have hIff := decodes_render (v := .obj (serveAnswer b cn log q).fields) (r := [10]) (by decide)
    (by simp [IsAscii]) (by simp [isDigit])
  rw [← hBody, hTexts] at hIff
  refine ⟨⟨?_, fun hRaw => ⟨_, hIff.mpr hRaw⟩⟩, ?_, fun o => ⟨List.mem_cons_self, ?_, fun hPlain => ?_⟩⟩
  · rintro ⟨v, hText, -⟩
    exact (isText_httpServe hb cn log q).mp hText
  · rintro v ⟨hText, r, hValue, -⟩
    obtain ⟨-, r', hValue', -⟩ := hIff.mpr ((isText_httpServe hb cn log q).mp hText)
    rw [hValue] at hValue'
    exact congrArg Prod.fst (Option.some.inj hValue')
  · exact Base64.decode_encode o
  · simp [plaintextFields, hPlain]

/-- Operations of which only decryption succeeds, with one plaintext. -/
def plaintextBackend (o : Bytes) : Backend where
  keystore := lit "keystore"
  info := .error []
  random _ := .error []
  sm3 _ := .error []
  keyList := []
  keyGen _ _ := .error []
  keyLoad _ := .error []
  keyDestroy _ := .error []
  encrypt _ _ := .error []
  decrypt _ _ := .ok o
  sign _ _ := .error []
  verify _ _ _ := .error []
  encap _ := .error []
  decap _ _ := .error []
  encodeBlock := Base64.encode
  decodeBlock := Base64.decode

def decryptRequest : HttpReq :=
  ⟨lit "POST", lit "/v1/keys/k/decrypt", 26, lit "\x7b\"ciphertext_b64\":\"AAAA\"\x7d"⟩

theorem response_decodes_quote :
    ∃ v, Decodes (httpServe (plaintextBackend (lit "a\"b")) [] [] decryptRequest).body v := by
  have hRaw : (serveAnswer (plaintextBackend (lit "a\"b")) [] [] decryptRequest).raw =
      [lit "a\"b"] := by
    decide
  refine (response_decodes_iff (fun _ => rfl) [] [] decryptRequest).1.mpr ?_
  rw [hRaw]
  exact List.forall_mem_singleton.mpr (isText_lit _)

theorem encodeChar_ne (c : Char) : (255 : UInt8) ∉ String.utf8EncodeChar c := by
  have hNe : ∀ n, n < 255 → UInt8.ofNat n ≠ 255 := by
    intro n hn h
    have hNat : (UInt8.ofNat n).toNat = n := UInt8.toNat_ofNat_of_lt (show n < 256 by omega)
    rw [h] at hNat
    have hVal : (255 : UInt8).toNat = 255 := rfl
    omega
  intro h
  rw [String.utf8EncodeChar] at h
  split at h
  · rw [List.mem_singleton] at h
    exact hNe _ (by omega) h.symm
  · split at h
    · simp only [List.mem_cons, List.not_mem_nil, or_false] at h
      rcases h with h | h
      · exact hNe _ (by omega) h.symm
      · exact hNe _ (by omega) h.symm
    · split at h
      · simp only [List.mem_cons, List.not_mem_nil, or_false] at h
        rcases h with h | h | h
        · exact hNe _ (by omega) h.symm
        · exact hNe _ (by omega) h.symm
        · exact hNe _ (by omega) h.symm
      · simp only [List.mem_cons, List.not_mem_nil, or_false] at h
        rcases h with h | h | h | h
        · exact hNe _ (by omega) h.symm
        · exact hNe _ (by omega) h.symm
        · exact hNe _ (by omega) h.symm
        · exact hNe _ (by omega) h.symm

/-- The plaintext of one byte `0xff` has no control byte and is written as it is. -/
theorem response_not_utf8 :
    ¬∃ v, Decodes (httpServe (plaintextBackend [255]) [] [] decryptRequest).body v := by
  rintro ⟨v, hText, -⟩
  have hRaw : (serveAnswer (plaintextBackend [255]) [] [] decryptRequest).raw = [[255]] := by
    decide
  have hAll := (isText_httpServe (b := plaintextBackend [255]) (fun _ => rfl) [] []
    decryptRequest).mp hText
  have hByte : IsText [255] := hAll _ (by rw [hRaw]; exact List.mem_singleton_self _)
  obtain ⟨cs, hcs⟩ := hByte
  have hMem : (255 : UInt8) ∈ encode cs := hcs ▸ List.mem_singleton_self _
  obtain ⟨c, -, hc⟩ := List.mem_flatMap.mp hMem
  exact encodeChar_ne c hc

end PqcHsm
