import PqcHsm.Library.Transition
import PqcHsm.Sdfe.Client

/-!
# Responses and the calls they belong to

Between two calls nothing is left in either stream, so the response a call takes is the one to its
own request. A response that exceeds the buffer of its call, or a transfer that is cut,
leaves bytes in the streams; every later call on the handle then reads what is not its own.
-/

namespace PqcHsm

open ByteCodec Transition

/-- What a use of the handle returned, and what it took for the response to its request. A process
that has overrun a buffer returns nothing. -/
structure SdfeEntry where
  api : SdfeApi
  rv : Option UInt32
  request : Option PqcsReq
  reading : Option Reading

structure SdfeRun where
  link : Link
  log : List SdfeEntry

def SdfeRun.next (daemon : Daemon) (s : SdfeRun) (a : SdfeApi × (Nat → Option Nat)) : SdfeRun :=
  match a.1.prog with
  | .ret rv => ⟨s.link, ⟨a.1, some rv, none, none⟩ :: s.log⟩
  | .overrun => ⟨s.link, ⟨a.1, none, none, none⟩ :: s.log⟩
  | .ask x finish =>
    let r := call daemon x a.2 s.link
    ⟨r.2, ⟨a.1, some (finish r.1.rv r.1.out), some x.req, r.1.reading⟩ :: s.log⟩

/-- The uses of one device handle, in any order and with any course of the transfers. -/
def sdfeSystem (daemon : Daemon) : System SdfeRun (SdfeApi × (Nat → Option Nat)) :=
  System.ofFun (· = ⟨.fresh, []⟩) (SdfeRun.next daemon)

/-- What was taken is the response to the request, whole and from its place in the stream. -/
def TookOwn (answers : List Answer) (q : PqcsReq) (r : Reading) : Prop :=
  ∃ a ∈ answers, a.reqAt = r.sentAt ∧ a.req = q ∧ a.respAt = r.takenAt ∧
    a.resp.status = r.status ∧ a.resp.payload.len = r.len ∧ a.resp.payload.val = r.payload

instance (answers : List Answer) (q : PqcsReq) (r : Reading) : Decidable (TookOwn answers q r) :=
  inferInstanceAs (Decidable (∃ a ∈ answers, _))

/-- Every use that sent a request and did not report a failed communication took the response to
its own request. -/
def OwnResponses (s : SdfeRun) : Prop :=
  ∀ e ∈ s.log, ∀ q rv, e.request = some q → e.rv = some rv → rv ≠ SDR_COMMFAIL →
    rv ≠ SDR_OPENDEVICE → ∃ r, e.reading = some r ∧ TookOwn s.link.answers q r

/-- One of the transfers up to the header of the response is cut. -/
def Severed (x : Exchange) (io : Nat → Option Nat) : Prop :=
  io 0 ≠ none ∨ (x.req.payload.len ≠ 0 ∧ io 1 ≠ none) ∨ io 2 ≠ none

/-- The response fits the buffer of its call, and a connection on which a transfer has been cut
stays broken. -/
structure Undisturbed (daemon : Daemon) (s : SdfeRun) (a : SdfeApi × (Nat → Option Nat)) : Prop where
  fits : ∀ x, a.1.prog.exchange = some x → s.link.hungUp = false →
    x.req.payload.len ≤ PQCS_MAXPAY →
      (daemon s.link.answers.length x.req).payload.len ≤ x.outCap
  broken : s.link.cut = true → ∀ x, a.1.prog.exchange = some x → Severed x a.2

/-- Nothing is left over between two calls. -/
structure Link.Quiet (l : Link) : Prop where
  toDaemon : l.toDaemon = []
  toClient : l.toClient = []

section Transfers

variable {daemon : Daemon} {l : Link}

theorem serveLoop_more (fuel : Nat) (h : takeReq l.toDaemon = .more) :
    serveLoop daemon fuel l = l := by
  cases fuel with
  | zero => rfl
  | succ fuel => rw [serveLoop, h]

theorem serveLoop_empty (fuel : Nat) (h : l.toDaemon = []) : serveLoop daemon fuel l = l := by
  apply serveLoop_more
  rw [h]
  exact takeReq_short (by decide)

theorem serveLoop_keeps (fuel : Nat) : l.answers ⊆ (serveLoop daemon fuel l).answers ∧
    (serveLoop daemon fuel l).cut = l.cut := by
  induction fuel generalizing l with
  | zero => exact ⟨fun _ => id, rfl⟩
  | succ fuel ih =>
    rw [serveLoop]
    split
    · exact ⟨fun _ => id, rfl⟩
    · exact ⟨fun _ => id, rfl⟩
    · obtain ⟨hAnswers, hCut⟩ := ih
      exact ⟨fun a ha => hAnswers (List.mem_cons_of_mem _ ha), hCut⟩

theorem send_keeps (b : Bytes) : l.answers ⊆ (l.send daemon b).answers ∧
    (l.send daemon b).cut = l.cut := serveLoop_keeps (l := l.push b) _

theorem devWrite_keeps (first : Bool) (io : Option Nat) (b : Bytes) :
    l.answers ⊆ (devWrite daemon first io b l).2.answers ∧
      (l.cut = true → (devWrite daemon first io b l).2.cut = true) := by
  cases io with
  | none =>
    obtain ⟨hAnswers, hCut⟩ := @send_keeps daemon l b
    exact ⟨hAnswers, fun h => hCut.trans h⟩
  | some k =>
    obtain ⟨hAnswers, hCut⟩ := @send_keeps daemon l (b.take (min k (b.length - 1)))
    refine ⟨hAnswers, fun h => ?_⟩
    simp only [devWrite, Link.markCut, hCut, h, Bool.true_or]

theorem devRead_keeps (io : Option Nat) (len : Nat) :
    (devRead io len l).2.answers = l.answers ∧
      (l.cut = true → (devRead io len l).2.cut = true) := by
  unfold devRead
  split
  · split
    · exact ⟨rfl, id⟩
    · exact ⟨rfl, id⟩
  · refine ⟨rfl, fun _ => ?_⟩
    simp only [Link.markCut, Bool.or_true]

end Transfers

section Calls

variable {daemon : Daemon} {q : PqcsReq} {io : Nat → Option Nat} {l : Link}

/-- The connection when the daemon has answered the request. -/
def Link.answered (daemon : Daemon) (q : PqcsReq) (l : Link) : Link :=
  let resp := daemon l.answers.length q
  { l with
    toClient := resp.header ++ resp.payload.val
    sent := l.sent + (REQ_HDR + q.payload.val.length)
    answers := ⟨l.sent, q, l.taken, resp⟩ :: l.answers }

theorem push_hungUp (hUp : l.hungUp = true) (b : Bytes) :
    l.push b = { l with toDaemon := [], sent := l.sent + b.length } := by
  rw [Link.push, hUp, if_pos rfl]

theorem push_quiet (hUp : l.hungUp = false) (hQuiet : l.Quiet) (b : Bytes) :
    l.push b = { l with toDaemon := b, sent := l.sent + b.length } := by
  rw [Link.push, hUp, if_neg Bool.false_ne_true, hQuiet.toDaemon, List.nil_append]

theorem send_hungUp (hUp : l.hungUp = true) (b : Bytes) :
    l.send daemon b = { l with toDaemon := [], sent := l.sent + b.length } := by
  rw [Link.send, push_hungUp hUp]
  exact serveLoop_empty _ rfl

theorem serve_frame (h : takeReq l.toDaemon = .frame q []) : serve daemon l = { l with
    toDaemon := []
    toClient := l.toClient ++ ((daemon l.answers.length q).header ++
      (daemon l.answers.length q).payload.val)
    answers := ⟨l.sent - l.toDaemon.length, q, l.taken + l.toClient.length,
      daemon l.answers.length q⟩ :: l.answers } := by
  rw [serve]
  cases hFuel : l.toDaemon.length with
  | zero =>
    rw [List.eq_nil_of_length_eq_zero hFuel, takeReq_short (by decide)] at h
    cases h
  | succ fuel =>
    rw [serveLoop, h, hFuel]
    exact serveLoop_empty _ rfl

theorem serve_bad (h : takeReq l.toDaemon = .bad) :
    serve daemon l = { l with toDaemon := [], hungUp := true } := by
  rw [serve]
  cases hFuel : l.toDaemon.length with
  | zero =>
    rw [List.eq_nil_of_length_eq_zero hFuel, takeReq_short (by decide)] at h
    cases h
  | succ fuel => rw [serveLoop, h]

/-- The header of a request with a payload waits for it. -/
theorem send_header (hQuiet : l.Quiet) (hUp : l.hungUp = false)
    (hLen : ¬ PQCS_MAXPAY < q.payload.len) (hPayload : q.payload.len ≠ 0) :
    l.send daemon q.header = { l with toDaemon := q.header, sent := l.sent + REQ_HDR } := by
  have hMore : takeReq q.header = .more := by
    have hHeader := takeReq_header q []
    rw [List.append_nil, if_neg hLen] at hHeader
    rw [hHeader, if_pos]
    exact List.length_pos_iff.mpr fun hNil => hPayload ((Buf32.len_eq_zero_iff _).mpr hNil)
  rw [Link.send, push_quiet hUp hQuiet, serve, PqcsReq.length_header]
  exact serveLoop_more _ hMore

/-- A whole request on a quiet connection is answered. -/
theorem callSend_answered (hQuiet : l.Quiet) (hUp : l.hungUp = false)
    (hLen : q.payload.len ≤ PQCS_MAXPAY) (h₀ : io 0 = none)
    (h₁ : q.payload.len = 0 ∨ io 1 = none) :
    callSend daemon q io l = (true, l.answered daemon q) := by
  have hFit : ¬ PQCS_MAXPAY < q.payload.len := UInt32.not_lt.mpr hLen
  have hWhole := takeReq_whole q
  rw [if_neg hFit] at hWhole
  rw [callSend, h₀]
  dsimp only [devWrite]
  by_cases hEmpty : q.payload.len = 0
  · have hNil := (Buf32.len_eq_zero_iff _).mp hEmpty
    rw [hNil, List.append_nil] at hWhole
    rw [if_pos hEmpty, Link.send, push_quiet hUp hQuiet]
    refine congrArg (Prod.mk true) ((serve_frame (q := q) hWhole).trans ?_)
    simp only [Link.answered, hQuiet.toDaemon, hQuiet.toClient, PqcsReq.length_header, hNil,
      List.length_nil, Nat.add_zero, Nat.add_sub_cancel, List.nil_append]
  · rw [if_neg hEmpty, h₁.resolve_left hEmpty, send_header hQuiet hUp hFit hEmpty]
    refine congrArg (Prod.mk true) ((serve_frame (q := q) ?_).trans ?_)
    · simp only [Link.push, hUp, Bool.false_eq_true, if_false]
      exact hWhole
    · simp only [Link.answered, Link.push, hUp, hQuiet.toDaemon, hQuiet.toClient,
        Bool.false_eq_true, if_false, List.length_append, PqcsReq.length_header, List.nil_append,
        List.length_nil, Nat.add_zero, Nat.add_assoc, Nat.add_sub_cancel]

/-- A transfer has been cut, or nothing is left over. -/
def Link.Settled (l : Link) : Prop := l.cut = true ∨ l.Quiet

theorem send_lost (hUp : l.hungUp = true) (hQuiet : l.Quiet) (b : Bytes) :
    (l.send daemon b).Quiet ∧ (l.send daemon b).hungUp = true := by
  rw [send_hungUp hUp]
  exact ⟨⟨rfl, hQuiet.toClient⟩, hUp⟩

theorem devWrite_lost (hUp : l.hungUp = true) (hQuiet : l.Quiet) (i : Option Nat) (b : Bytes) :
    (devWrite daemon false i b l).2.Settled ∧
      ((devWrite daemon false i b l).1 = true → (devWrite daemon false i b l).2.Quiet) := by
  cases i with
  | none =>
    obtain ⟨hSent, -⟩ := @send_lost daemon _ hUp hQuiet b
    exact ⟨.inr hSent, fun _ => hSent⟩
  | some k =>
    refine ⟨.inl ?_, fun h => Bool.noConfusion h⟩
    simp only [devWrite, Link.markCut, Bool.not_false, Bool.or_true, Bool.true_or]

/-- Sending fails, reaches a daemon that has closed, or is answered. -/
inductive SendCase (daemon : Daemon) (q : PqcsReq) (l : Link) : Bool × Link → Prop where
  | failed (l' : Link) : l'.Settled → SendCase daemon q l (false, l')
  | lost (l' : Link) : l'.Quiet → SendCase daemon q l (true, l')
  | answered : l.hungUp = false → q.payload.len ≤ PQCS_MAXPAY →
      SendCase daemon q l (true, l.answered daemon q)

theorem SendCase.of_lost {r : Bool × Link} (hSettled : r.2.Settled) (hLost : r.1 = true → r.2.Quiet) :
    SendCase daemon q l r := by
  obtain ⟨good, l'⟩ := r
  cases good with
  | false => exact .failed l' hSettled
  | true => exact .lost l' (hLost rfl)

theorem callSend_cases (hQuiet : l.Quiet) : SendCase daemon q l (callSend daemon q io l) := by
  cases h₀ : io 0 with
  | some k =>
    have hSend : callSend daemon q io l = devWrite daemon true (some k) q.header l := by
      rw [callSend, h₀]
      rfl
    rw [hSend]
    refine .failed _ ?_
    by_cases hPart : q.header.take (min k (q.header.length - 1)) = []
    · refine .inr ?_
      have hStart : (l.push []).toDaemon = [] := by
        rw [Link.push, hQuiet.toDaemon, List.append_nil, ite_self]
      rw [hPart, Link.send, serve, serveLoop_empty _ hStart]
      exact ⟨hStart, hQuiet.toClient⟩
    · refine .inl ?_
      simp only [Link.markCut, decide_eq_true hPart, Bool.or_true]
  | none =>
    -- what is left of the request finds a daemon that has closed
    have hRest : ∀ l' : Link, l'.Quiet → l'.hungUp = true → l.send daemon q.header = l' →
        SendCase daemon q l (callSend daemon q io l) := by
      rintro l' hQuiet' hUp' rfl
      rw [callSend, h₀]
      dsimp only [devWrite]
      split
      · exact .lost _ hQuiet'
      · obtain ⟨hSettled, hLost⟩ :=
          @devWrite_lost daemon _ hUp' hQuiet' (io 1) q.payload.val
        exact .of_lost hSettled hLost
    cases hUp : l.hungUp with
    | true =>
      obtain ⟨hQuiet', hUp'⟩ := @send_lost daemon _ hUp hQuiet q.header
      exact hRest _ hQuiet' hUp' rfl
    | false =>
      by_cases hLen : q.payload.len ≤ PQCS_MAXPAY
      · by_cases h₁ : q.payload.len = 0 ∨ io 1 = none
        · rw [callSend_answered hQuiet hUp hLen h₀ h₁]
          exact .answered hUp hLen
        · push Not at h₁
          obtain ⟨k, hCut⟩ := Option.ne_none_iff_exists'.mp h₁.2
          rw [callSend, h₀]
          dsimp only [devWrite]
          rw [if_neg h₁.1, hCut]
          refine .failed _ (.inl ?_)
          simp only [Link.markCut, Bool.not_false, Bool.or_true, Bool.true_or]
      · have hBad : takeReq q.header = .bad := by
          have hHeader := takeReq_header q []
          rwa [List.append_nil, if_pos (UInt32.not_le.mp hLen)] at hHeader
        have hSend : l.send daemon q.header =
            { l with toDaemon := [], hungUp := true, sent := l.sent + q.header.length } := by
          rw [Link.send, push_quiet hUp hQuiet]
          exact serve_bad hBad
        exact hRest { l with toDaemon := [], hungUp := true, sent := l.sent + q.header.length }
          ⟨rfl, hQuiet.toClient⟩ rfl hSend

/-- Reading changes neither the answers nor a past cut. -/
theorem callTake_keeps (outCap : UInt32) (sentAt : Nat) :
    (callTake outCap sentAt io l).2.answers = l.answers ∧
      (l.cut = true → (callTake outCap sentAt io l).2.cut = true) := by
  obtain ⟨hAnswers, hCut⟩ := devRead_keeps (l := l) (io 2) RESP_HDR
  unfold callTake
  split
  · rename_i hRead
    rw [hRead] at hAnswers hCut
    exact ⟨hAnswers, hCut⟩
  · rename_i l₁ hRead
    rw [hRead] at hAnswers hCut
    dsimp only at hAnswers hCut ⊢
    split
    · exact ⟨hAnswers, hCut⟩
    · split
      · exact ⟨hAnswers, hCut⟩
      · split
        · exact ⟨hAnswers, hCut⟩
        · obtain ⟨hAnswers', hCut'⟩ := devRead_keeps (l := l₁) (io 3)
            (getU32 (getU32 (getU32 _).2).2).1.toNat
          split
          · rename_i hRead'
            rw [hRead'] at hAnswers' hCut'
            exact ⟨hAnswers'.trans hAnswers, fun h => hCut' (hCut h)⟩
          · rename_i hRead'
            rw [hRead'] at hAnswers' hCut'
            exact ⟨hAnswers'.trans hAnswers, fun h => hCut' (hCut h)⟩

/-- Nothing comes from a daemon that has closed. -/
theorem callTake_lost (hQuiet : l.Quiet) (outCap : UInt32) (sentAt : Nat) :
    (callTake outCap sentAt io l).1 = .failed SDR_COMMFAIL ∧
      (callTake outCap sentAt io l).2.Settled := by
  unfold callTake
  cases h₂ : io 2 with
  | none =>
    have hShort : ¬ RESP_HDR ≤ l.toClient.length := by
      rw [hQuiet.toClient]
      decide
    dsimp only [devRead]
    rw [if_neg hShort]
    refine ⟨rfl, .inr ⟨hQuiet.toDaemon, ?_⟩⟩
    exact List.drop_length
  | some k => exact ⟨rfl, .inl (Bool.or_true _)⟩

theorem getU32_header (r : PqcsResp) :
    getU32 r.header = (PQCS_MAGIC, putU32 r.status ++ putU32 r.payload.len) :=
  getU32_putU32 ..

/-- A response that fits its buffer is taken whole, or the connection breaks. -/
theorem callTake_answered (hQuiet : l.Quiet) {outCap : UInt32}
    (hFits : (daemon l.answers.length q).payload.len ≤ outCap) :
    (callTake outCap l.sent io (l.answered daemon q)).2.Settled ∧
      ((callTake outCap l.sent io (l.answered daemon q)).1.rv ≠ SDR_COMMFAIL →
        ∃ r, (callTake outCap l.sent io (l.answered daemon q)).1.reading = some r ∧
          TookOwn (l.answered daemon q).answers q r) := by
  generalize hResp : daemon l.answers.length q = resp at hFits
  have hClient : (l.answered daemon q).toClient = resp.header ++ resp.payload.val := by
    rw [← hResp]
    rfl
  have hAnswer : (⟨l.sent, q, l.taken, resp⟩ : Answer) ∈ (l.answered daemon q).answers := by
    rw [← hResp]
    exact List.mem_cons_self ..
  have hTaken : (l.answered daemon q).taken = l.taken := rfl
  have hDaemon : (l.answered daemon q).toDaemon = [] := hQuiet.toDaemon
  generalize l.answered daemon q = l' at hClient hAnswer hTaken hDaemon
  unfold callTake
  cases h₂ : io 2 with
  | some k => exact ⟨.inl (Bool.or_true _), fun h => absurd rfl h⟩
  | none =>
    have hLong : RESP_HDR ≤ l'.toClient.length := by
      rw [hClient, List.length_append, PqcsResp.length_header]
      exact Nat.le_add_right ..
    have hTake : l'.toClient.take RESP_HDR = resp.header := by
      rw [hClient]
      exact List.take_left' resp.length_header
    have hDrop : (l'.take RESP_HDR).toClient = resp.payload.val := by
      change l'.toClient.drop RESP_HDR = _
      rw [hClient]
      exact List.drop_left' resp.length_header
    have hLenField : getU32 (putU32 resp.payload.len) = (resp.payload.len, []) := by
      simpa using getU32_putU32 resp.payload.len []
    have hCap : ¬ outCap < resp.payload.len := UInt32.not_lt.mpr hFits
    simp only [devRead, if_pos hLong, hTake, getU32_header, getU32_putU32, hLenField, ne_eq,
      not_true_eq_false, if_false, if_neg hCap, hTaken]
    by_cases hNone : resp.payload.len = 0
    · have hNil := (Buf32.len_eq_zero_iff _).mp hNone
      rw [if_pos hNone]
      refine ⟨.inr ⟨hDaemon, hDrop.trans hNil⟩, fun _ => ⟨_, rfl, _, hAnswer, ?_⟩⟩
      exact ⟨rfl, rfl, rfl, rfl, rfl, hNil⟩
    · rw [if_neg hNone]
      cases h₃ : io 3 with
      | some k => exact ⟨.inl (Bool.or_true _), fun h => absurd rfl h⟩
      | none =>
        have hWhole : resp.payload.len.toNat ≤ (l'.take RESP_HDR).toClient.length := by
          rw [hDrop, Buf32.toNat_len]
        dsimp only
        rw [if_pos hWhole]
        refine ⟨.inr ⟨hDaemon, ?_⟩, fun _ => ⟨_, rfl, _, hAnswer, ?_⟩⟩
        · change ((l'.take RESP_HDR).toClient.drop _) = []
          rw [hDrop, Buf32.toNat_len, List.drop_length]
        · refine ⟨rfl, rfl, rfl, rfl, rfl, ?_⟩
          rw [hDrop, Buf32.toNat_len, List.take_length]

/-- On a quiet connection a call takes its own response, when that fits. -/
theorem call_quiet (hQuiet : l.Quiet) {x : Exchange}
    (hFits : l.hungUp = false → x.req.payload.len ≤ PQCS_MAXPAY →
      (daemon l.answers.length x.req).payload.len ≤ x.outCap) :
    (call daemon x io l).2.Settled ∧ ((call daemon x io l).1.rv ≠ SDR_COMMFAIL →
      ∃ r, (call daemon x io l).1.reading = some r ∧
        TookOwn (call daemon x io l).2.answers x.req r) := by
  have hCase := @callSend_cases daemon x.req io _ hQuiet
  rw [call]
  generalize callSend daemon x.req io l = r at hCase
  cases hCase with
  | failed l' hSettled => exact ⟨hSettled, fun h => absurd rfl h⟩
  | lost l' hQuiet' =>
    obtain ⟨hFailed, hSettled⟩ := @callTake_lost io _ hQuiet' x.outCap l.sent
    refine ⟨hSettled, fun h => absurd ?_ h⟩
    dsimp only
    rw [hFailed]
    rfl
  | answered hUp hLen =>
    obtain ⟨hSettled, hOwn⟩ := @callTake_answered _ _ io _ hQuiet _ (hFits hUp hLen)
    refine ⟨hSettled, fun h => ?_⟩
    obtain ⟨r, hReading, hTook⟩ := hOwn h
    refine ⟨r, hReading, ?_⟩
    rwa [(callTake_keeps x.outCap l.sent).1]

theorem callSend_keeps : l.answers ⊆ (callSend daemon q io l).2.answers ∧
    (l.cut = true → (callSend daemon q io l).2.cut = true) := by
  obtain ⟨hAnswers, hCut⟩ := @devWrite_keeps daemon l true (io 0) q.header
  unfold callSend
  split
  · rename_i hWrite
    rw [hWrite] at hAnswers hCut
    exact ⟨hAnswers, hCut⟩
  · rename_i l₁ hWrite
    rw [hWrite] at hAnswers hCut
    split
    · exact ⟨hAnswers, hCut⟩
    · obtain ⟨hAnswers', hCut'⟩ := @devWrite_keeps daemon l₁ false (io 1)
        q.payload.val
      exact ⟨fun a ha => hAnswers' (hAnswers ha), fun h => hCut' (hCut h)⟩

/-- What has been answered stays, and so does a cut. -/
theorem call_keeps (x : Exchange) : l.answers ⊆ (call daemon x io l).2.answers ∧
    (l.cut = true → (call daemon x io l).2.cut = true) := by
  obtain ⟨hAnswers, hCut⟩ := @callSend_keeps daemon x.req io l
  unfold call
  split
  · rename_i hSend
    rw [hSend] at hAnswers hCut
    exact ⟨hAnswers, hCut⟩
  · rename_i l₁ hSend
    rw [hSend] at hAnswers hCut
    obtain ⟨hAnswers', hCut'⟩ := @callTake_keeps io l₁ x.outCap l.sent
    rw [hAnswers']
    exact ⟨hAnswers, fun h => hCut' (hCut h)⟩

/-- A call that is cut before it has a header reports a failed communication. -/
theorem call_severed {x : Exchange} (h : Severed x io) :
    (call daemon x io l).1 = .failed SDR_COMMFAIL := by
  unfold call
  split
  · rfl
  · rename_i l₁ hSend
    obtain h₀ | ⟨hPayload, h₁⟩ | h₂ := h
    · obtain ⟨k, hCut⟩ := Option.ne_none_iff_exists'.mp h₀
      rw [callSend, hCut] at hSend
      cases hSend
    · obtain ⟨k, hCut⟩ := Option.ne_none_iff_exists'.mp h₁
      rw [callSend] at hSend
      split at hSend
      · cases hSend
      · rw [if_neg hPayload, hCut] at hSend
        cases hSend
    · obtain ⟨k, hCut⟩ := Option.ne_none_iff_exists'.mp h₂
      rw [callTake, hCut]
      rfl

end Calls

section Runs

variable {daemon : Daemon} {s : SdfeRun}

theorem TookOwn.mono {answers answers' : List Answer} {q : PqcsReq} {r : Reading}
    (h : TookOwn answers q r) (hSub : answers ⊆ answers') : TookOwn answers' q r := by
  obtain ⟨a, ha, hTook⟩ := h
  exact ⟨a, hSub ha, hTook⟩

/-- The invariant of a run: a transfer has been cut or nothing is left over, and every response was
taken by its call. -/
structure Aligned (s : SdfeRun) : Prop where
  settled : s.link.Settled
  own : OwnResponses s

theorem aligned_start : Aligned ⟨.fresh, []⟩ := ⟨.inr ⟨rfl, rfl⟩, nofun⟩

/-- A use that sends nothing. -/
theorem Aligned.silent (h : Aligned s) (api : SdfeApi) (rv : Option UInt32) :
    Aligned ⟨s.link, ⟨api, rv, none, none⟩ :: s.log⟩ := by
  refine ⟨h.settled, fun e he q rv' hRequest => ?_⟩
  obtain rfl | he := List.mem_cons.mp he
  · cases hRequest
  · exact h.own e he q rv' hRequest

theorem Aligned.next (h : Aligned s) {a : SdfeApi × (Nat → Option Nat)}
    (hCond : Undisturbed daemon s a) : Aligned (SdfeRun.next daemon s a) := by
  obtain ⟨api, io⟩ := a
  unfold SdfeRun.next
  dsimp only
  cases hProg : api.prog with
  | ret rv => exact h.silent api (some rv)
  | overrun => exact h.silent api none
  | ask x finish =>
    have hExchange : api.prog.exchange = some x := by rw [hProg, Sdfe.exchange]
    obtain ⟨hAnswers, hCut⟩ := @call_keeps daemon io s.link x
    have hCall : (call daemon x io s.link).2.Settled ∧
        ((call daemon x io s.link).1.rv ≠ SDR_COMMFAIL →
          ∃ r, (call daemon x io s.link).1.reading = some r ∧
            TookOwn (call daemon x io s.link).2.answers x.req r) := by
      obtain hBroken | hQuiet := h.settled
      · refine ⟨.inl (hCut hBroken), fun hRv => absurd ?_ hRv⟩
        rw [call_severed (hCond.broken hBroken x hExchange)]
        rfl
      · exact call_quiet hQuiet (hCond.fits x hExchange)
    refine ⟨hCall.1, fun e he q rv hRequest hRv hFailed hOpen => ?_⟩
    obtain rfl | he := List.mem_cons.mp he
    · cases hRequest
      cases hRv
      refine hCall.2 fun hComm => hFailed ?_
      rw [hComm]
      exact api.passesFailure x finish hProg _
    · obtain ⟨r, hReading, hTook⟩ := h.own e he q rv hRequest hRv hFailed hOpen
      exact ⟨r, hReading, hTook.mono hAnswers⟩

/-- In every run in which responses fit their buffers and a broken connection stays broken, every
call takes the response to its own request. -/
theorem responses_own (h : Reachable (sdfeSystem daemon) (fun s a _ => Undisturbed daemon s a) s) :
    OwnResponses s := by
  have hAligned : Aligned s := by
    refine h.invariant ?_ ?_
    · rintro s rfl
      exact aligned_start
    · rintro s a s' hInv rfl hCond
      exact hInv.next hCond
  exact hAligned.own

/-- A daemon that reports its version and draws random bytes; the bytes of each draw are the number
of the request. -/
def versionAndRandom : Daemon := fun k q =>
  if q.op = OP_PING then
    ⟨SDR_OK, "pqchsm_fpgad on FPGA  mlkem=0x00010000 sym=0x00010000 mldsa=0x00010000".toList.map
      fun c => UInt8.ofNat c.toNat, by
        rw [List.length_map]
        decide⟩
  else ⟨SDR_OK, List.replicate q.a0.toNat (UInt8.ofNat k), by
    rw [List.length_replicate]
    exact q.a0.toNat_lt⟩

def wholeTransfers : Nat → Option Nat := fun _ => none

theorem versionAndRandom_random (k : Nat) (len : UInt32) :
    (versionAndRandom k ⟨OP_RANDOM, len, 0, .empty⟩).payload.len = len := by
  have hOp : OP_RANDOM ≠ OP_PING := by decide
  rw [versionAndRandom, if_neg hOp, Buf32.len, List.length_replicate, UInt32.ofNat_toNat]

theorem responses_own_random : OwnResponses
    (replay (SdfeRun.next versionAndRandom) ⟨.fresh, []⟩
      [(.generateRandom 2, wholeTransfers), (.generateRandom 3, wholeTransfers)]) := by
  have hUndisturbed : ∀ s : SdfeRun, ∀ len, s.link.cut = false →
      Undisturbed versionAndRandom s (.generateRandom len, wholeTransfers) := by
    intro s len hWhole
    refine ⟨fun x hx _ _ => ?_, fun hCut => ?_⟩
    · cases hx
      rw [versionAndRandom_random]
      exact UInt32.le_refl len
    · rw [hWhole] at hCut
      cases hCut
  apply responses_own
  refine .step (a := (.generateRandom 3, wholeTransfers))
    (.step (a := (.generateRandom 2, wholeTransfers)) (.init rfl) rfl ?_) rfl ?_
  · exact hUndisturbed _ 2 rfl
  · exact hUndisturbed _ 3 (by decide)

/-- A version text that does not fit its buffer stays in the stream. Seven calls fail over it; the
eighth returns the random bytes of the second. -/
theorem response_of_another_call : ∃ s, Reachable (sdfeSystem versionAndRandom) anyStep s ∧
    ¬ OwnResponses s := by
  let run : List (SdfeApi × (Nat → Option Nat)) := (.getDeviceInfo 8, wholeTransfers) ::
    List.replicate 8 (.generateRandom 2, wholeTransfers)
  have hStart : Reachable (System.ofFun (· = ⟨.fresh, []⟩) (SdfeRun.next versionAndRandom)) anyStep
    ⟨.fresh, []⟩ := .init rfl
  refine ⟨replay (SdfeRun.next versionAndRandom) ⟨.fresh, []⟩ run, reachable_replay hStart run,
    fun hOwn => ?_⟩
  have hLast : ∃ e ∈ (replay (SdfeRun.next versionAndRandom) ⟨.fresh, []⟩ run).log.head?,
      e.rv = some SDR_OK ∧ e.request = some ⟨OP_RANDOM, 2, 0, .empty⟩ ∧
        e.reading.all fun r => r.payload = [2, 2] ∧ ¬ TookOwn
          (replay (SdfeRun.next versionAndRandom) ⟨.fresh, []⟩ run).link.answers
            ⟨OP_RANDOM, 2, 0, .empty⟩ r := by
    decide +kernel
  obtain ⟨e, he, hRv, hRequest, hReading⟩ := hLast
  obtain ⟨r, hr, hTook⟩ := hOwn e (List.mem_of_mem_head? he) _ _ hRequest hRv (by decide) (by decide)
  rw [hr] at hReading
  exact (of_decide_eq_true hReading).2 hTook

end Runs

end PqcHsm
