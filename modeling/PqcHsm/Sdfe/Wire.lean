import PqcHsm.Library.ByteCodec

/-!
# The wire between the client library and the hardware daemon

Requests and responses as byte strings, and a connection as two byte streams. A transfer of the
client is complete or cut on the way. The daemon takes one request after the other off its
stream and answers each with one response.
-/

namespace PqcHsm

open ByteCodec

/-- A buffer with a length of type `uint32_t`. -/
abbrev Buf32 := { b : Bytes // b.length < 2 ^ 32 }

namespace Buf32

def len (b : Buf32) : UInt32 := UInt32.ofNat b.val.length

def empty : Buf32 := ⟨[], Nat.pow_pos (by decide)⟩

@[simp] theorem toNat_len (b : Buf32) : b.len.toNat = b.val.length := by
  rw [len, UInt32.toNat_ofNat', Nat.mod_eq_of_lt b.property]

theorem len_eq_zero_iff (b : Buf32) : b.len = 0 ↔ b.val = [] := by
  rw [← UInt32.toNat_inj, toNat_len]
  exact List.length_eq_zero_iff

end Buf32

def SDR_OK : UInt32 := 0
def SDR_UNKNOWERR : UInt32 := 0x01000001
def SDR_OPENDEVICE : UInt32 := 0x01000002
def SDR_COMMFAIL : UInt32 := 0x01000003
def SDR_INARGERR : UInt32 := 0x01000004
def SDR_KEYNOTEXIST : UInt32 := 0x01000005
def SDR_HARDFAIL : UInt32 := 0x01000006
def SDR_NOTSUPPORT : UInt32 := 0x01000009

def PQCS_MAGIC : UInt32 := 0x53434750
def PQCS_MAXPAY : UInt32 := 16384

def OP_PING : UInt32 := 1
def OP_RANDOM : UInt32 := 2
def OP_MLKEM_KEYGEN : UInt32 := 3
def OP_MLKEM_ENCAPS : UInt32 := 4
def OP_MLKEM_DECAPS : UInt32 := 5
def OP_SYM_BLOCK : UInt32 := 7
def OP_MLDSA_KEYGEN : UInt32 := 9
def OP_MLDSA_SIGN : UInt32 := 10
def OP_MLDSA_VERIFY : UInt32 := 11
def OP_SYM_CRYPT : UInt32 := 12
def OP_SM3 : UInt32 := 13
def OP_DEVICE_DNA : UInt32 := 14
def OP_SYMKEY_GEN : UInt32 := 15
def OP_SYMKEY_LOAD : UInt32 := 16
def OP_SYMKEY_KAT : UInt32 := 17
def OP_PQC_BLOB_EXPORT : UInt32 := 18
def OP_PQC_BLOB_IMPORT : UInt32 := 19

structure PqcsReq where
  op : UInt32
  a0 : UInt32
  a1 : UInt32
  payload : Buf32
  deriving DecidableEq

structure PqcsResp where
  status : UInt32
  payload : Buf32
  deriving DecidableEq

/-- `sizeof(struct pqcs_req)`. -/
def REQ_HDR : Nat := 20
/-- `sizeof(struct pqcs_resp)`. -/
def RESP_HDR : Nat := 12

def PqcsReq.header (q : PqcsReq) : Bytes :=
  putU32 PQCS_MAGIC ++ (putU32 q.op ++ (putU32 q.a0 ++ (putU32 q.a1 ++ putU32 q.payload.len)))

def PqcsResp.header (r : PqcsResp) : Bytes :=
  putU32 PQCS_MAGIC ++ (putU32 r.status ++ putU32 r.payload.len)

@[simp] theorem PqcsReq.length_header (q : PqcsReq) : q.header.length = REQ_HDR := by
  simp only [header, List.length_append, length_putU32, REQ_HDR]

@[simp] theorem PqcsResp.length_header (r : PqcsResp) : r.header.length = RESP_HDR := by
  simp only [header, List.length_append, length_putU32, RESP_HDR]

/-- What the front of the daemon's stream holds. -/
inductive Scan where
  | more
  | bad
  | frame (q : PqcsReq) (rest : Bytes)

/-- The reads and the checks of the serve loop. -/
def takeReq (s : Bytes) : Scan :=
  if s.length < REQ_HDR then .more
  else
    let (magic, p) := getU32 s
    let (op, p) := getU32 p
    let (a0, p) := getU32 p
    let (a1, p) := getU32 p
    let (len, p) := getU32 p
    if magic ≠ PQCS_MAGIC ∨ PQCS_MAXPAY < len then .bad
    else if p.length < len.toNat then .more
    else .frame ⟨op, a0, a1, p.take len.toNat, by
      rw [List.length_take]
      exact Nat.lt_of_le_of_lt (Nat.min_le_left ..) len.toNat_lt⟩ (p.drop len.toNat)

theorem takeReq_short {s : Bytes} (h : s.length < REQ_HDR) : takeReq s = .more := if_pos h

theorem takeReq_header (q : PqcsReq) (p : Bytes) : takeReq (q.header ++ p) =
    if PQCS_MAXPAY < q.payload.len then .bad
    else if p.length < q.payload.val.length then .more
    else .frame ⟨q.op, q.a0, q.a1, p.take q.payload.val.length, by
      rw [List.length_take]
      exact Nat.lt_of_le_of_lt (Nat.min_le_left ..) q.payload.property⟩
        (p.drop q.payload.val.length) := by
  have hLong : ¬ (q.header ++ p).length < REQ_HDR := by
    rw [List.length_append, PqcsReq.length_header]
    omega
  rw [takeReq, if_neg hLong]
  simp only [PqcsReq.header, List.append_assoc, getU32_putU32, ne_eq, not_true_eq_false, false_or,
    Buf32.toNat_len]

theorem takeReq_whole (q : PqcsReq) : takeReq (q.header ++ q.payload.val) =
    if PQCS_MAXPAY < q.payload.len then .bad else .frame q [] := by
  rw [takeReq_header, if_neg (Nat.lt_irrefl _)]
  simp only [List.take_length, List.drop_length]

/-- A response the daemon has sent. -/
structure Answer where
  /-- The place of the request in the stream to the daemon. -/
  reqAt : Nat
  req : PqcsReq
  /-- The place of the response in the stream to the client. -/
  respAt : Nat
  resp : PqcsResp
  deriving DecidableEq

/-- A connection, with its past. -/
structure Link where
  toDaemon : Bytes
  toClient : Bytes
  /-- The daemon has closed its end. -/
  hungUp : Bool
  /-- The number of bytes the client has sent. -/
  sent : Nat
  /-- The number of bytes the client has taken. -/
  taken : Nat
  answers : List Answer
  /-- A transfer was cut when a part of a request was already on the wire. -/
  cut : Bool

def Link.fresh : Link := ⟨[], [], false, 0, 0, [], false⟩

/-- What the daemon answers to its k-th request. -/
abbrev Daemon := Nat → PqcsReq → PqcsResp

section Serve

variable (daemon : Daemon)

/-- The serve loop, as far as it gets with the bytes it has. -/
def serveLoop : Nat → Link → Link
  | 0, l => l
  | fuel + 1, l =>
    match takeReq l.toDaemon with
    | .more => l
    | .bad => { l with toDaemon := [], hungUp := true }
    | .frame q rest =>
      let resp := daemon l.answers.length q
      serveLoop fuel { l with
        toDaemon := rest
        toClient := l.toClient ++ (resp.header ++ resp.payload.val)
        answers := ⟨l.sent - l.toDaemon.length, q, l.taken + l.toClient.length, resp⟩ :: l.answers }

/-- Each turn of the loop takes a header, so the length of the stream bounds their number. -/
def serve (l : Link) : Link := serveLoop daemon l.toDaemon.length l

/-- Bytes go to a daemon that has not closed its end. -/
def Link.push (b : Bytes) (l : Link) : Link :=
  { l with toDaemon := if l.hungUp then [] else l.toDaemon ++ b, sent := l.sent + b.length }

/-- Bytes reach the daemon, which goes on with its loop. -/
def Link.send (b : Bytes) (l : Link) : Link := serve daemon (l.push b)

def Link.markCut (b : Bool) (l : Link) : Link := { l with cut := l.cut || b }

/-- Writing with `dev_rw`; `some k` cuts the transfer after `k` bytes. -/
def devWrite (first : Bool) (io : Option Nat) (b : Bytes) (l : Link) : Bool × Link :=
  match io with
  | none => (true, l.send daemon b)
  | some k =>
    let part := b.take (min k (b.length - 1))
    (false, (l.send daemon part).markCut (!first || part ≠ []))

end Serve

def Link.take (k : Nat) (l : Link) : Link :=
  { l with toClient := l.toClient.drop k, taken := l.taken + min k l.toClient.length }

/-- Reading with `dev_rw`; `some k` cuts the transfer after `k` bytes. Where the stream has fewer
bytes, the read ends with the connection. -/
def devRead (io : Option Nat) (len : Nat) (l : Link) : Option Bytes × Link :=
  match io with
  | none =>
    if len ≤ l.toClient.length then (some (l.toClient.take len), l.take len)
    else (none, l.take l.toClient.length)
  | some k => (none, (l.take (min k (len - 1))).markCut true)

end PqcHsm
