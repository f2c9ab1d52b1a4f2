import PqcHsm.Library.Base64
import PqcHsm.Library.JsonText
import PqcHsm.Service.SymOps

/-!
# The HTTPS gateway

One request is one call of `route`: the body is searched for its fields, an operation is run, and the
response is put together member by member in a buffer. What the operations return and what their
error texts are is arbitrary.
-/

namespace PqcHsm

open ByteCodec

abbrev lit (s : String) : Bytes := Utf8.encode s.toList

/-- The bytes of a C string. -/
def cstr (s : Bytes) : Bytes := s.takeWhile (· ≠ 0)

def BODY_MAX : Nat := 256 * 1024

/-- The operations behind the gateway; an error is the text that `hsm_err` returns. -/
structure Backend where
  keystore : Bytes
  info : Except Bytes Bytes
  random : UInt32 → Except Bytes Bytes
  sm3 : Bytes → Except Bytes Bytes
  keyList : List (Bytes × HsmKey)
  keyGen : Bytes → Bytes → Except Bytes HsmKey
  keyLoad : Bytes → Except Bytes HsmKey
  keyDestroy : Bytes → Except Bytes Unit
  encrypt : Bytes → Bytes → Except Bytes Bytes
  decrypt : Bytes → Bytes → Except Bytes Bytes
  sign : Bytes → Bytes → Except Bytes Bytes
  verify : Bytes → Bytes → Bytes → Except Bytes Bool
  encap : Bytes → Except Bytes (Bytes × Bytes)
  decap : Bytes → Bytes → Except Bytes Bytes
  /-- `EVP_EncodeBlock` -/
  encodeBlock : Bytes → Bytes
  /-- `EVP_DecodeBlock` -/
  decodeBlock : Bytes → Option Bytes

/-! ### JSON output -/

def hexDigitOf (n : Nat) : UInt8 := UInt8.ofNat (if n < 10 then 48 + n else 87 + n)

/-- `"%02x"` -/
def hex2 (b : UInt8) : Bytes := [hexDigitOf (b.toNat / 16), hexDigitOf (b.toNat % 16)]

/-- `"%u"` -/
def fmtU (n : Nat) : Bytes := JsonText.decimal n

def bjchar (c : UInt8) : Bytes :=
  if c = 34 then [92, 34]
  else if c = 92 then [92, 92]
  else if c = 10 then [92, 110]
  else if c = 13 then [92, 114]
  else if c = 9 then [92, 116]
  -- `"\\u%04x"`
  else if c < 0x20 then [92, 117, 48, 48] ++ hex2 c
  else [c]

def bjstr (s : Bytes) : Bytes := [34] ++ (cstr s).flatMap bjchar ++ [34]

def bkey (k : Bytes) (first : Bool) : Bytes := (if first then [] else [44]) ++ bjstr k ++ [58]

def bb64 (k : Backend) (d : Bytes) : Bytes := [34] ++ k.encodeBlock d ++ [34]

def bhex (d : Bytes) : Bytes := [34] ++ d.flatMap hex2 ++ [34]

/-! ### JSON input -/

/-- What is behind the first place of a pattern. -/
def strstrAfter (pat : Bytes) : Bytes → Option Bytes
  | [] => if pat = [] then some [] else none
  | c :: r => if pat.isPrefixOf (c :: r) then some ((c :: r).drop pat.length) else strstrAfter pat r

def jsonSpace (c : UInt8) : Bool := c = 32 || c = 9 || c = 10 || c = 13

def unescape (c : UInt8) : UInt8 :=
  if c = 110 then 10 else if c = 116 then 9 else if c = 114 then 13 else c

/-- The characters up to the closing quotation mark. -/
def jgetString : Bytes → Option Bytes
  | [] => none
  | 34 :: _ => some []
  | 92 :: c :: r => (jgetString r).map (unescape c :: ·)
  | c :: r => (jgetString r).map (c :: ·)

def jget (body key : Bytes) : Option Bytes :=
  match strstrAfter (([34] ++ key ++ [34]).take 79) body with
  | none => none
  | some p =>
    match p.dropWhile jsonSpace with
    | 58 :: p =>
      match p.dropWhile jsonSpace with
      | 34 :: p => jgetString p
      | p =>
        let digits := p.takeWhile fun c => (48 ≤ c && c ≤ 57) || c = 45
        if digits = [] then none else some digits
    | _ => none

def b64dec (k : Backend) (s : Bytes) : Option Bytes :=
  let l := s.length
  if l % 4 ≠ 0 then none
  else
    let pad := (if l ≠ 0 ∧ s.getD (l - 1) 0 = 61 then 1 else 0) +
      (if l > 1 ∧ s.getD (l - 2) 0 = 61 then 1 else 0)
    (k.decodeBlock s).map fun o => o.take (o.length - pad)

def jbytes (k : Backend) (body key : Bytes) : Option Bytes :=
  match jget body ((key ++ lit "_b64").take 63) with
  | some v => b64dec k v
  | none => jget body key

def isSpaceC (c : UInt8) : Bool := c = 32 || (9 ≤ c && c ≤ 13)

/-- `(uint32_t)atoi(v)` -/
def atoi (v : Bytes) : UInt32 :=
  let v := v.dropWhile isSpaceC
  let (neg, v) := match v with
    | 45 :: v => (true, v)
    | 43 :: v => (false, v)
    | v => (false, v)
  let n := (v.takeWhile fun c => 48 ≤ c && c ≤ 57).foldl (fun n c => n * 10 + (c.toNat - 48)) 0
  if neg then 0 - UInt32.ofNat n else UInt32.ofNat n

/-! ### Responses -/

structure Resp where
  code : Nat
  body : Bytes
  deriving DecidableEq

def err (code : Nat) (msg : Bytes) : Resp := ⟨code, [123] ++ lit "\"error\":" ++ bjstr msg⟩

def strstr (s pat : Bytes) : Bool := (strstrAfter pat (cstr s)).isSome

def errCode (e : Bytes) : Nat :=
  if strstr e (lit "没有这把密钥") then 404
  else if strstr e (lit "已存在") then 409
  else if strstr e (lit "不合法") || strstr e (lit "不认识") || strstr e (lit "不是") ||
      strstr e (lit "长度不对") || strstr e (lit "太长") || strstr e (lit "字节数") then 400
  else if strstr e (lit "TA 拒绝") || strstr e (lit "解密失败") then 422
  else 500

/-- `err(r, err_code(), hsm_err())` -/
def errOf (e : Bytes) : Resp := err (errCode e) e

def HSM_KIND_MLKEM : UInt8 := 0
def HSM_KIND_MLDSA : UInt8 := 1

def hsmAlgName (k : HsmKey) : Bytes :=
  if k.kind = HSM_KIND_MLKEM ∧ k.param < 3 then
    if k.param = 0 then lit "ML-KEM-512" else if k.param = 1 then lit "ML-KEM-768"
    else lit "ML-KEM-1024"
  else if k.kind = HSM_KIND_MLDSA ∧ k.param < 3 then
    if k.param = 0 then lit "ML-DSA-44" else if k.param = 1 then lit "ML-DSA-65"
    else lit "ML-DSA-87"
  else if k.kind = HSM_KIND_SYM ∧ k.param < 3 then
    if k.param = 0 then lit "AES-128" else if k.param = 1 then lit "AES-256" else lit "SM4"
  else lit "?"

def keyType (k : HsmKey) : Bytes :=
  if k.kind = HSM_KIND_SYM then lit "symmetric"
  else if k.kind = HSM_KIND_MLDSA then lit "signature" else lit "kem"

def keyJson (b : Backend) (name : Bytes) (k : HsmKey) (withPk : Bool) : Bytes :=
  bkey (lit "name") true ++ bjstr name ++
  bkey (lit "alg") false ++ bjstr (hsmAlgName k) ++
  bkey (lit "type") false ++ bjstr (keyType k) ++
  bkey (lit "public_key_bytes") false ++ fmtU k.pk.length ++
  bkey (lit "blob_bytes") false ++ fmtU k.blob.val.length ++
  bkey (lit "created") false ++ fmtU k.created.toNat ++
  if withPk ∧ k.pk.length ≠ 0 then bkey (lit "public_key_b64") false ++ bb64 b k.pk else []

/-- `list_cb`: a comma stands before every key but the first. -/
def listCb (b : Backend) (buf : Bytes) (x : Bytes × HsmKey) : Bytes :=
  (if buf.getLast? ≠ some 91 then buf ++ [44] else buf) ++ [123] ++ keyJson b x.1 x.2 false ++ [125]

/-! ### The branches of `route` -/

section Branches

variable (b : Backend)

def getInfo : Resp :=
  match b.info with
  | .error e => err 503 e
  | .ok info => ⟨200, [123] ++ bkey (lit "device") true ++ bjstr info ++
      bkey (lit "keystore") false ++ bjstr b.keystore ++
      bkey (lit "architecture") false ++
      bjstr (lit "密钥在 TEE（OP-TEE TA）里生成、包裹、装载；运算在 FPGA（PL）里做；本网关与 daemon 只搬句柄和密文 blob")⟩

def postRandom (body : Bytes) : Resp :=
  match jget body (lit "length") with
  | none => err 400 (lit "缺 length")
  | some v =>
    match b.random (atoi v) with
    | .error e => errOf e
    | .ok o => ⟨200, [123] ++ bkey (lit "random_hex") true ++ bhex o ++
        bkey (lit "source") false ++ bjstr (lit "FPGA 环振 TRNG + SP 800-90B 健康检测")⟩

def postSm3 (body : Bytes) : Resp :=
  match jbytes b body (lit "data") with
  | none => err 400 (lit "缺 data 或 data_b64")
  | some input =>
    match b.sm3 input with
    | .error e => errOf e
    | .ok d => ⟨200, [123] ++ bkey (lit "sm3_hex") true ++ bhex d ++
        bkey (lit "bytes") false ++ fmtU input.length⟩

def listKeys : Resp :=
  ⟨200, b.keyList.foldl (listCb b) ([123] ++ bkey (lit "keystore") true ++ bjstr b.keystore ++
    bkey (lit "keys") false ++ [91]) ++ [93]⟩

def postKey (body : Bytes) : Resp :=
  match jget body (lit "name"), jget body (lit "alg") with
  | some name, some alg =>
    match b.keyGen alg name with
    | .error e => errOf e
    | .ok k => ⟨201, [123] ++ keyJson b name k true ++ bkey (lit "note") false ++
        bjstr (if k.kind = HSM_KIND_SYM then lit "密钥由 TA 生成并用 KEK 包裹；本网关只保存密文 blob"
          else lit "私钥种子由 TA 生成并用 KEK 包裹；本网关只保存公钥与密文 blob")⟩
  | _, _ => err 400 (lit "需要 name 与 alg")

def getKey (name : Bytes) : Resp :=
  match b.keyLoad name with
  | .error e => errOf e
  | .ok k => ⟨200, [123] ++ keyJson b name k true ++
      bkey (lit "blob_head_hex") false ++ bhex (k.blob.val.take 24)⟩

def deleteKey (name : Bytes) : Resp :=
  match b.keyDestroy name with
  | .error e => errOf e
  | .ok _ => ⟨200, [123] ++ bkey (lit "destroyed") true ++ bjstr name⟩

def encryptOp (name body : Bytes) : Resp :=
  match jbytes b body (lit "plaintext") with
  | none => err 400 (lit "缺 plaintext 或 plaintext_b64")
  | some input =>
    match b.encrypt name input with
    | .error e => errOf e
    | .ok o => ⟨200, [123] ++ bkey (lit "ciphertext_b64") true ++ bb64 b o ++
        bkey (lit "format") false ++ bjstr (lit "IV(16) ‖ CBC 密文（PKCS#7）") ++
        bkey (lit "bytes") false ++ fmtU o.length⟩

/-- `text`: no control byte but white space. -/
def isPlainText (o : Bytes) : Bool := o.all fun c => !(c < 0x09 || (c > 0x0d && c < 0x20))

def decryptOp (name body : Bytes) : Resp :=
  match jbytes b body (lit "ciphertext") with
  | none => err 400 (lit "缺 ciphertext_b64")
  | some input =>
    match b.decrypt name input with
    | .error e => errOf e
    | .ok o => ⟨200, [123] ++ bkey (lit "plaintext_b64") true ++ bb64 b o ++
        (if isPlainText o then bkey (lit "plaintext") false ++ bjstr o else []) ++
        bkey (lit "bytes") false ++ fmtU o.length⟩

def signOp (name body : Bytes) : Resp :=
  match jbytes b body (lit "message") with
  | none => err 400 (lit "缺 message 或 message_b64")
  | some msg =>
    match b.sign name msg with
    | .error e => errOf e
    | .ok sig => ⟨200, [123] ++ bkey (lit "signature_b64") true ++ bb64 b sig ++
        bkey (lit "signature_bytes") false ++ fmtU sig.length⟩

def verifyOp (name body : Bytes) : Resp :=
  match jbytes b body (lit "message"), jget body (lit "signature_b64") with
  | some msg, some s64 =>
    match b64dec b s64 with
    | none => err 400 (lit "signature_b64 不是合法 base64")
    | some sig =>
      match b.verify name msg sig with
      | .error e => errOf e
      | .ok v => ⟨200, [123] ++ bkey (lit "valid") true ++ if v then lit "true" else lit "false"⟩
  | _, _ => err 400 (lit "需要 message 与 signature_b64")

def encapsulateOp (name : Bytes) : Resp :=
  match b.encap name with
  | .error e => errOf e
  | .ok (ct, ss) => ⟨200, [123] ++ bkey (lit "ciphertext_b64") true ++ bb64 b ct ++
      bkey (lit "shared_secret_hex") false ++ bhex ss⟩

def decapsulateOp (name body : Bytes) : Resp :=
  match jget body (lit "ciphertext_b64") with
  | none => err 400 (lit "缺 ciphertext_b64")
  | some c64 =>
    match b64dec b c64 with
    | none => err 400 (lit "ciphertext_b64 不是合法 base64")
    | some ct =>
      match b.decap name ct with
      | .error e => errOf e
      | .ok ss => ⟨200, [123] ++ bkey (lit "shared_secret_hex") true ++ bhex ss⟩

/-- `sscanf(rest, "%63[^/]/%31s", name, op)` -/
def scanName (rest : Bytes) : Bytes := (rest.takeWhile (· ≠ 47)).take 63

def scanOp (rest : Bytes) : Bytes :=
  match rest.drop (scanName rest).length with
  | 47 :: r =>
    if scanName rest = [] then [] else ((r.dropWhile isSpaceC).takeWhile (!isSpaceC ·)).take 31
  | _ => []

def route (m path body : Bytes) : Resp :=
  if path = lit "/v1/info" ∧ m = lit "GET" then getInfo b
  else if path = lit "/v1/random" ∧ m = lit "POST" then postRandom b body
  else if path = lit "/v1/sm3" ∧ m = lit "POST" then postSm3 b body
  else if path = lit "/v1/keys" then
    if m = lit "GET" then listKeys b
    else if m = lit "POST" then postKey b body
    else err 405 (lit "只支持 GET / POST")
  else if !(lit "/v1/keys/").isPrefixOf path then err 404 (lit "没有这个接口")
  else
    let name := scanName (path.drop 9)
    let op := scanOp (path.drop 9)
    if !hsmNameOk name then err 400 (lit "密钥名不合法")
    else if op = [] then
      if m = lit "GET" then getKey b name
      else if m = lit "DELETE" then deleteKey b name
      else err 405 (lit "只支持 GET / DELETE")
    else if m ≠ lit "POST" then err 405 (lit "只支持 POST")
    else if op = lit "encrypt" then encryptOp b name body
    else if op = lit "decrypt" then decryptOp b name body
    else if op = lit "sign" then signOp b name body
    else if op = lit "verify" then verifyOp b name body
    else if op = lit "encapsulate" then encapsulateOp b name
    else if op = lit "decapsulate" then decapsulateOp b name body
    else err 404 (lit "没有这个操作")

end Branches

/-! ### The trace and the response -/

def traceTags : List (Bytes × Bytes) :=
  [(lit "[TEE→PL]", lit "TEE→PL"), (lit "[TEE]", lit "TEE"), (lit "[PL]", lit "PL"),
    (lit "[NW]", lit "NW")]

/-- The layer and the text of a line of the log. -/
def traceEntry (line : Bytes) : Option (Bytes × Bytes) :=
  match ((cstr line).takeWhile (· ≠ 10)).dropWhile (· ≠ 93) with
  | [] => none
  | _ :: p =>
    let p := p.dropWhile (· = 32)
    traceTags.findSome? fun t =>
      if t.1.isPrefixOf p then some (t.2, (p.drop t.1.length).dropWhile (· = 32)) else none

def traceBytes (x : Bytes × Bytes) : Bytes :=
  [123] ++ lit "\"layer\":" ++ bjstr x.1 ++ lit ",\"detail\":" ++ bjstr x.2 ++ [125]

def traceItems : Bool → List (Bytes × Bytes) → Bytes
  | _, [] => []
  | first, x :: xs => (if first then [] else [44]) ++ traceBytes x ++ traceItems false xs

/-- `add_trace` on the lines of the log behind the mark. -/
def addTrace (log : List Bytes) : Bytes :=
  lit ",\"trace\":[" ++ traceItems true (log.filterMap traceEntry) ++ [93]

/-- A request whose head has been read: `sscanf` took the method and the target from it. -/
structure HttpReq where
  method : Bytes
  target : Bytes
  contentLength : Nat
  body : Bytes
  deriving DecidableEq

def HttpReq.path (q : HttpReq) : Bytes := (q.target.take 511).takeWhile (· ≠ 63)

def HttpReq.trace (q : HttpReq) : Bool :=
  strstr ((q.target.take 511).dropWhile (· ≠ 63)) (lit "trace=1")

/-- The text of the request in the trace. -/
def HttpReq.text (q : HttpReq) : Bytes := (q.method ++ [32] ++ q.path).take 599

/-- `serve`: the response, with the name of the client and the new lines of the log. -/
def httpServe (b : Backend) (cn : Bytes) (log : List Bytes) (q : HttpReq) : Resp :=
  let r :=
    if q.contentLength > BODY_MAX then err 413 (lit "请求体太大")
    else
      let r := route b q.method q.path (cstr q.body)
      if q.trace then
        ⟨r.code, r.body ++ bkey (lit "request") false ++ bjstr q.text ++
          bkey (lit "client_cn") false ++ bjstr cn ++ addTrace log⟩
      else r
  ⟨r.code, r.body ++ [125, 10]⟩

end PqcHsm
