import PqcHsm.Slot.Authentication
import PqcHsm.Slot.OpenSessions

/-!
# A session handle names one session

Entries of the table are used again, under handles that carry a counter. As long as fewer than
`2 ^ 32` sessions have been opened, no handle is issued twice, a handle that was closed never finds a
session again, and one close of it, and only one, succeeds.
-/

namespace PqcHsm

open ByteCodec Sections

variable {n : Nat} {S : Setup} {ι : Type}

def Event.issuedSession : Event → Option HsmSession
  | .sessionOpened sess => some sess
  | _ => none

/-- The handles that opens have returned, newest first. -/
def issuedSessions (events : List Event) : List HsmSession := events.filterMap Event.issuedSession

/-- What `session_info` finds under a handle. -/
def findSession (tok : Token n) (sess : HsmSession) : Option (Nat × HsmRole) :=
  (sessionIndex sess).bind fun i =>
    if (tok.sessions i).matches sess then some ((tok.sessions i).slot, (tok.sessions i).role) else none

def Entry.okClose (sess : HsmSession) : Entry ι Call Event Reply → Bool
  | .ret _ (.sessionClose s) r => s = sess ∧ r = .ofStatus .ok
  | _ => false

/-- The closes of the handle that have returned `HSM_OK`. -/
def okCloses (sess : HsmSession) (trace : List (Entry ι Call Event Reply)) : Nat :=
  trace.countP (Entry.okClose sess)

/-- A close of the handle was called when the handle had been issued. -/
def ClosedLater (h : DevHist ι n) (sess : HsmSession) : Prop :=
  ∃ (s : Device n) (t : ι) (older : List (Entry ι Call Event Reply)),
    .call t (.sessionClose sess) :: older <:+ h.trace ∧
      sess ∈ issuedSessions (Hist.events (⟨s, older⟩ : DevHist ι n))

section Table

variable {tok : Token n} {sess : HsmSession}

theorem run_sessionInfo (env : Nat → Env) (d : Device n) :
    ((sessionInfo sess).run env d).1 =
      match findSession d.tok sess with
      | some r => .ok r
      | none => .error .errBadArg := by
  unfold sessionInfo findSession
  cases sessionIndex sess with
  | none => rfl
  | some i =>
    dsimp only [Option.bind_some, tokenSection, Prog.run_atomic]
    split <;> rfl

theorem findSession_eq_some {r : Nat × HsmRole} : findSession tok sess = some r ↔
    ∃ i, sessionIndex sess = some i ∧ (tok.sessions i).matches sess = true ∧
      r = ((tok.sessions i).slot, (tok.sessions i).role) := by
  unfold findSession
  rw [Option.bind_eq_some_iff]
  refine exists_congr fun i => and_congr_right fun _ => ?_
  split
  · rename_i hMatch
    rw [Option.some_inj, eq_comm]
    exact (and_iff_right hMatch).symm
  · rename_i hMatch
    exact ⟨nofun, fun h => absurd h.1 hMatch⟩

theorem findSession_eq_none {i : Fin MAX_SESSIONS} (hIndex : sessionIndex sess = some i) :
    findSession tok sess = none ↔ (tok.sessions i).matches sess = false := by
  unfold findSession
  rw [hIndex, Option.bind_some]
  split
  · rename_i hMatch
    simp [hMatch]
  · rename_i hMatch
    simp [hMatch]

end Table

/-! ### The counter -/

section Counter

/-- Fewer opens than the counter has values. -/
def FewOpens (h : DevHist ι n) : Prop := (issuedSessions h.events).length < 2 ^ 32

/-- The counter is the number of the opens, the handles carry its values in order, and the open entries
are under issued handles. -/
structure Counted (h : DevHist ι n) : Prop where
  gen : h.shared.tok.sessionGen.toNat = (issuedSessions h.events).length
  le : ∀ s ∈ issuedSessions h.events, s.gen.toNat ≤ h.shared.tok.sessionGen.toNat
  order : (issuedSessions h.events).Pairwise fun s s' => s'.gen.toNat < s.gen.toNat
  isIssued : ∀ i, (h.shared.tok.sessions i).isOpen = true →
    (h.shared.tok.sessions i).handle i ∈ issuedSessions h.events

/-- No session is opened: what is open was open under the same handle. -/
structure OpensNone (d : Device n) (r : Device n × List Event) : Prop where
  gen : r.1.tok.sessionGen = d.tok.sessionGen
  events : issuedSessions r.2 = []
  old : ∀ i, (r.1.tok.sessions i).isOpen = true →
    (d.tok.sessions i).isOpen = true ∧ (d.tok.sessions i).gen = (r.1.tok.sessions i).gen

/-- A free entry is opened under the next value of the counter. -/
structure OpensOne (d : Device n) (r : Device n × List Event) (i : Fin MAX_SESSIONS) : Prop where
  gen : r.1.tok.sessionGen = d.tok.sessionGen + 1
  events : issuedSessions r.2 = [(r.1.tok.sessions i).handle i]
  free : (d.tok.sessions i).isOpen = false
  entry : (r.1.tok.sessions i).isOpen = true ∧ (r.1.tok.sessions i).gen = d.tok.sessionGen + 1
  other : ∀ j, j ≠ i → r.1.tok.sessions j = d.tok.sessions j

theorem issuedSessions_eq_nil {evs : List Event} (h : ∀ x ∈ evs, ¬x.OnSessions) :
    issuedSessions evs = [] := by
  refine List.filterMap_eq_nil_iff.mpr fun x hx => ?_
  cases x with
  | sessionOpened sess => exact absurd trivial (h _ hx)
  | _ => rfl

theorem opensNone_of_sessions {d : Device n} {r : Device n × List Event}
    (hSessions : r.1.tok.sessions = d.tok.sessions) (hGen : r.1.tok.sessionGen = d.tok.sessionGen)
    (hEvs : ∀ x ∈ r.2, ¬x.OnSessions) : OpensNone d r where
  gen := hGen
  events := issuedSessions_eq_nil hEvs
  old i hOpen := by
    rw [hSessions] at hOpen ⊢
    exact ⟨hOpen, rfl⟩

theorem opensNone_setSession {d : Device n} {i : Fin MAX_SESSIONS} {s : Session} {evs : List Event}
    (hOld : s.isOpen = true → (d.tok.sessions i).isOpen = true ∧ (d.tok.sessions i).gen = s.gen)
    (hEvs : issuedSessions evs = []) : OpensNone d ({ d with tok := d.tok.setSession i s }, evs) where
  gen := rfl
  events := hEvs
  old j hOpen := by
    by_cases hji : j = i
    · subst j
      simp only [Token.setSession, Function.update_self] at hOpen ⊢
      exact hOld hOpen
    · simp only [Token.setSession, Function.update_of_ne hji] at hOpen ⊢
      exact ⟨hOpen, trivial⟩

/-- What a section does to the table: it opens one session or none. -/
theorem DeviceStep.opens {all : Bool} {e : Env} {d : Device n} {r : Device n × List Event}
    (h : DeviceStep S all e d r) : OpensNone d r ∨ ∃ i, OpensOne d r i := by
  cases h with
  | slot i r hStep => exact .inl (opensNone_of_sessions rfl rfl hStep.not_onSessions)
  | token r hStep =>
    cases hStep with
    | read sess i hIndex hMatch =>
      exact .inl ⟨rfl, rfl, fun _ hOpen => ⟨hOpen, rfl⟩⟩
    | idle => exact .inl ⟨rfl, rfl, fun _ hOpen => ⟨hOpen, rfl⟩⟩
    | setRole sess i role hIndex hMatch _ =>
      exact .inl (opensNone_setSession (fun hOpen => ⟨hOpen, rfl⟩) rfl)
    | drop id =>
      refine .inl ⟨rfl, rfl, fun i hOpen => ?_⟩
      dsimp only at hOpen ⊢
      split at hOpen
      · rename_i hOn
        rw [if_pos hOn]
        exact ⟨hOpen, rfl⟩
      · rename_i hOn
        rw [if_neg hOn]
        exact ⟨hOpen, rfl⟩
    | opened i id hId hFree =>
      refine .inr ⟨i, rfl, ?_, hFree, ?_, fun j hj => ?_⟩
      · simp only [Token.setSession, Function.update_self]
        rfl
      · simp only [Token.setSession, Function.update_self]
        exact ⟨trivial, trivial⟩
      · simp only [Token.setSession, Function.update_of_ne hj]
    | closed sess i hIndex hMatch =>
      exact .inl (opensNone_setSession (fun hOpen => absurd hOpen Bool.false_ne_true) rfl)
  | store r hStep =>
    refine .inl (opensNone_of_sessions hStep.sessions (by cases hStep <;> rfl) fun x hx hOn => ?_)
    have hStore := hStep.events x hx
    cases x <;> first | exact hOn | exact hStore
  | hwDrop => exact .inl ⟨rfl, rfl, fun _ hOpen => ⟨hOpen, rfl⟩⟩

theorem issuedSessions_append (evs events : List Event) :
    issuedSessions (evs ++ events) = issuedSessions evs ++ issuedSessions events :=
  List.filterMap_append

theorem issuedSessions_reverse (evs : List Event) :
    issuedSessions evs.reverse = (issuedSessions evs).reverse := List.filterMap_reverse

variable {h : DevHist ι n} {t : ι} {r : Device n × List Event}

theorem issuedSessions_emits : issuedSessions (h.emits t r).events =
    (issuedSessions r.2).reverse ++ issuedSessions h.events := by
  rw [Hist.events_emits, issuedSessions_append, issuedSessions_reverse]

theorem FewOpens.of_emits (hFew : FewOpens (h.emits t r)) : FewOpens h := by
  unfold FewOpens at hFew ⊢
  rw [issuedSessions_emits, List.length_append] at hFew
  omega

/-- Below its last value the counter does not wrap. -/
theorem Counted.gen_succ (hCounted : Counted h) {i : Fin MAX_SESSIONS}
    (hFew : FewOpens (h.emits t r)) (hOne : OpensOne h.shared r i) :
    (h.shared.tok.sessionGen + 1).toNat = h.shared.tok.sessionGen.toNat + 1 := by
  unfold FewOpens at hFew
  rw [issuedSessions_emits, hOne.events] at hFew
  simp only [List.reverse_singleton, List.singleton_append, List.length_cons] at hFew
  rw [← hCounted.gen] at hFew
  rw [UInt32.toNat_add]
  exact Nat.mod_eq_of_lt hFew

theorem Counted.emits {all : Bool} {e : Env} (hCounted : Counted h) (hFew : FewOpens (h.emits t r))
    (hStep : DeviceStep S all e h.shared r) : Counted (h.emits t r) := by
  rcases hStep.opens with hNone | ⟨i, hOne⟩
  · have hSame : issuedSessions (h.emits t r).events = issuedSessions h.events := by
      rw [issuedSessions_emits, hNone.events, List.reverse_nil, List.nil_append]
    constructor
    · rw [hSame, Hist.emits_shared, hNone.gen]
      exact hCounted.gen
    · rw [hSame, Hist.emits_shared, hNone.gen]
      exact hCounted.le
    · rw [hSame]
      exact hCounted.order
    · intro i hOpen
      obtain ⟨hOld, hGen⟩ := hNone.old i hOpen
      have hMem := hCounted.isIssued i hOld
      rw [hSame]
      unfold Session.handle at hMem ⊢
      rwa [hGen] at hMem
  · have hGen := hCounted.gen_succ hFew hOne
    have hMore : issuedSessions (h.emits t r).events =
        (r.1.tok.sessions i).handle i :: issuedSessions h.events := by
      rw [issuedSessions_emits, hOne.events]
      rfl
    have hNew : ((r.1.tok.sessions i).handle i).gen.toNat = h.shared.tok.sessionGen.toNat + 1 := by
      rw [← hGen, ← hOne.entry.2]
      rfl
    constructor
    · rw [hMore, Hist.emits_shared, hOne.gen, hGen, List.length_cons, hCounted.gen]
    · rw [hMore, Hist.emits_shared, hOne.gen, hGen]
      intro s hs
      rcases List.mem_cons.mp hs with rfl | hs
      · rw [hNew]
      · have hLe := hCounted.le s hs
        omega
    · rw [hMore]
      refine List.pairwise_cons.mpr ⟨fun s hs => ?_, hCounted.order⟩
      have hLe := hCounted.le s hs
      omega
    · intro j hOpen
      rw [hMore]
      by_cases hji : j = i
      · subst j
        exact List.mem_cons_self
      · rw [Hist.emits_shared, hOne.other j hji] at hOpen ⊢
        exact List.mem_cons_of_mem _ (hCounted.isIssued j hOpen)

/-- The handle was issued and finds no session any more. -/
def Dead (h : DevHist ι n) (sess : HsmSession) : Prop :=
  sess ∈ issuedSessions h.events ∧ findSession h.shared.tok sess = none

/-- A session that is found was there before, or it has just been opened. -/
theorem findSession_before {sess : HsmSession} {e : Env} {all : Bool}
    (hStep : DeviceStep S all e h.shared r) (hFound : findSession r.1.tok sess ≠ none) :
    findSession h.shared.tok sess ≠ none ∨ ∃ i, OpensOne h.shared r i ∧
      sess = (r.1.tok.sessions i).handle i := by
  obtain ⟨x, hx⟩ := Option.ne_none_iff_exists'.mp hFound
  obtain ⟨j, hIndex, hMatch, -⟩ := findSession_eq_some.mp hx
  obtain ⟨hEq, hOpen⟩ := eq_handle_of_matches hIndex hMatch
  have hKept : (h.shared.tok.sessions j).isOpen = true →
      (h.shared.tok.sessions j).gen = (r.1.tok.sessions j).gen →
      findSession h.shared.tok sess ≠ none := by
    intro hOld hGen hNone
    have hNot := (findSession_eq_none hIndex).mp hNone
    unfold Session.matches at hMatch hNot
    rw [hOld, hGen, ← hOpen, hMatch] at hNot
    cases hNot
  rcases hStep.opens with hNone | ⟨i, hOne⟩
  · obtain ⟨hOld, hGen⟩ := hNone.old j hOpen
    exact .inl (hKept hOld hGen)
  · by_cases hji : j = i
    · subst j
      exact .inr ⟨i, hOne, hEq⟩
    · have hSame := hOne.other j hji
      rw [hSame] at hOpen
      exact .inl (hKept hOpen (by rw [hSame]))

/-- A handle that finds nothing any more never finds a session again. -/
theorem Dead.emits {sess : HsmSession} {e : Env} {all : Bool} (hDead : Dead h sess)
    (hCounted : Counted h) (hFew : FewOpens (h.emits t r))
    (hStep : DeviceStep S all e h.shared r) : Dead (h.emits t r) sess := by
  constructor
  · rw [issuedSessions_emits]
    exact List.mem_append_right _ hDead.1
  · by_contra hFound
    rcases findSession_before hStep hFound with hOld | ⟨i, hOne, rfl⟩
    · exact hOld hDead.2
    · have hLe := hCounted.le _ hDead.1
      have hGen := hCounted.gen_succ hFew hOne
      have hNew : ((r.1.tok.sessions i).handle i).gen = h.shared.tok.sessionGen + 1 := hOne.entry.2
      rw [hNew] at hLe
      omega

/-- Only a close makes a handle find nothing. -/
theorem Dead.of_emits {sess : HsmSession} {e : Env} {all : Bool}
    (hDead : Dead (h.emits t r) sess) (hStep : DeviceStep S all e h.shared r)
    (hOpen : StaysOpen h.shared r) : Dead h sess := by
  obtain ⟨hMem, hNone⟩ := hDead
  rw [issuedSessions_emits] at hMem
  have hFind : findSession h.shared.tok sess = none := by
    by_contra hFound
    obtain ⟨x, hx⟩ := Option.ne_none_iff_exists'.mp hFound
    obtain ⟨j, hIndex, hMatch, -⟩ := findSession_eq_some.mp hx
    have hNot := (findSession_eq_none hIndex).mp hNone
    have hBoth := Bool.and_eq_true_iff.mp hMatch
    obtain ⟨hStill, hGen⟩ := hOpen j hBoth.1
    unfold Session.matches at hNot
    rw [Hist.emits_shared, hStill, hGen, hBoth.2] at hNot
    cases hNot
  refine ⟨(List.mem_append.mp hMem).resolve_left fun hNew => ?_, hFind⟩
  rcases hStep.opens with hKeep | ⟨i, hOne⟩
  · rw [hKeep.events] at hNew
    cases hNew
  · rw [hOne.events, List.reverse_singleton, List.mem_singleton] at hNew
    subst hNew
    have hNot := (findSession_eq_none (sessionIndex_handle _ i)).mp hNone
    unfold Session.matches at hNot
    rw [Hist.emits_shared, hOne.entry.1] at hNot
    exact absurd hNot (by simp [Session.handle])

end Counter

/-! ### The close -/

section Close

variable {sess : HsmSession}

theorem closeProg_none (hIndex : sessionIndex sess = none) :
    ((Call.sessionClose sess).prog S : DevProg n Reply) = .ret (.ofStatus .errBadArg) := by
  change replying (hsmSessionClose sess) .ofStatus = _
  unfold replying hsmSessionClose
  rw [hIndex]
  rfl

/-- The one section of a close. -/
def closeEntry (sess : HsmSession) (i : Fin MAX_SESSIONS) (d : Device n) : Device n :=
  if (d.tok.sessions i).matches sess then
    { d with tok := d.tok.setSession i ⟨false, 0, .pub, 0⟩ }
  else d

theorem closeProg_some {i : Fin MAX_SESSIONS} (hIndex : sessionIndex sess = some i) :
    ((Call.sessionClose sess).prog S : DevProg n Reply) =
      .sect (fun _ d => (closeEntry sess i d, []))
        fun _ d => .ret (.ofStatus (if (d.tok.sessions i).matches sess then .ok else .errBadArg)) := by
  change replying (hsmSessionClose sess) .ofStatus = _
  unfold replying hsmSessionClose
  rw [hIndex]
  unfold tokenSection Prog.atomic closeEntry
  simp only [Prog.sect_bind, Prog.ret_bind]
  congr 1
  · funext e d
    split <;> rfl
  · funext e d
    split <;> rfl

theorem findSession_closeEntry_self {i : Fin MAX_SESSIONS} (hIndex : sessionIndex sess = some i)
    (d : Device n) : findSession (closeEntry sess i d).tok sess = none := by
  rw [findSession_eq_none hIndex]
  unfold closeEntry
  split
  · simp [Token.setSession, Session.matches]
  · simp_all

/-- A close leaves every other session as it is. -/
theorem findSession_closeEntry {i : Fin MAX_SESSIONS} (hIndex : sessionIndex sess = some i)
    (d : Device n) {other : HsmSession} (hNe : other ≠ sess) :
    findSession (closeEntry sess i d).tok other = findSession d.tok other := by
  unfold closeEntry
  split
  · rename_i hMatch
    unfold findSession
    cases hOther : sessionIndex other with
    | none => rfl
    | some j =>
      rw [Option.bind_some, Option.bind_some]
      by_cases hji : j = i
      · subst j
        have hNot : (d.tok.sessions i).matches other = false := by
          refine Bool.eq_false_iff.mpr fun hBoth => hNe ?_
          rw [(eq_handle_of_matches hOther hBoth).1, (eq_handle_of_matches hIndex hMatch).1]
        simp [Token.setSession, Session.matches] at hNot ⊢
        exact hNot
      · simp only [Token.setSession, Function.update_of_ne hji]
  · rfl

end Close

/-! ### The accounts of the closes -/

section Accounts

/-- The close that a thread is about to report has ended the session. -/
def Taking (c : DevConfig ι n) (sess : HsmSession) (t : ι) : Prop :=
  c.thread t = some (.sessionClose sess, .ret (.ofStatus .ok))

/-- Of the closes of the handle one has succeeded: it has returned, or it is about to. -/
def ClosedOnce (c : DevConfig ι n) (sess : HsmSession) : Prop :=
  (okCloses sess c.hist.trace = 1 ∧ ∀ t, ¬Taking c sess t) ∨
  (okCloses sess c.hist.trace = 0 ∧ ∃ t, Taking c sess t ∧ ∀ u, Taking c sess u → u = t)

/-- How far the program of a thread is. -/
def InCall (S : Setup) (k : Call) (p : DevProg n Reply) : Prop :=
  (∃ sess, k = .sessionClose sess ∧ (p = k.prog S ∨ ∃ st, p = .ret (.ofStatus st))) ∨
  (∀ sess, k ≠ .sessionClose sess) ∧ DevProg.Steps S true p ∧ DevProg.StaysOpen p

structure Accounts (S : Setup) (c : DevConfig ι n) : Prop where
  counted : Counted c.hist
  inCall : ∀ t k p, c.thread t = some (k, p) → InCall S k p
  once : ∀ sess, Dead c.hist sess → ClosedOnce c sess
  never : ∀ sess, ¬Dead c.hist sess → okCloses sess c.hist.trace = 0 ∧ ∀ t, ¬Taking c sess t
  later : ∀ sess, ClosedLater c.hist sess → Dead c.hist sess ∨
    ∃ t, c.thread t = some (.sessionClose sess, (Call.sessionClose sess).prog S)

theorem Accounts.start {d : Device n} {thread : ι → Option (Call × DevProg n Reply)}
    (hBoot : d.booted S n) (hThread : ∀ t, thread t = none) :
    Accounts S (⟨⟨d, []⟩, thread⟩ : DevConfig ι n) where
  counted := by
    obtain ⟨-, -, hTok, -⟩ := hBoot
    constructor
    · rw [hTok]
      rfl
    · exact nofun
    · exact .nil
    · intro i hOpen
      rw [hTok] at hOpen
      cases hOpen
  inCall t k p hp := nomatch (hThread t).symm.trans hp
  once sess hDead := nomatch hDead.1
  never sess _ := ⟨rfl, fun t hTake => nomatch (hThread t).symm.trans hTake⟩
  later sess hLater := by
    obtain ⟨s, t, older, hSuffix, -⟩ := hLater
    exact nomatch List.suffix_nil.mp hSuffix

theorem issued_of_closedLater {h : DevHist ι n} {sess : HsmSession} (hLater : ClosedLater h sess) :
    sess ∈ issuedSessions h.events := by
  obtain ⟨s, t, older, ⟨newer, hTrace⟩, hMem⟩ := hLater
  unfold issuedSessions Hist.events at hMem ⊢
  dsimp only at hMem
  rw [← hTrace, List.filterMap_append, List.filterMap_append]
  refine List.mem_append_right _ ?_
  rwa [List.filterMap_cons_none rfl]

variable [DecidableEq ι] {c : DevConfig ι n}

/-- Another thread's part of a configuration after one thread has moved. -/
theorem thread_update {t u : ι} {hist : DevHist ι n} {o : Option (Call × DevProg n Reply)}
    (hu : u ≠ t) :
    (⟨hist, Function.update c.thread t o⟩ : DevConfig ι n).thread u = c.thread u :=
  Function.update_of_ne hu _ _

theorem Accounts.call {t : ι} {k : Call} (hAcc : Accounts S c) (hIdle : c.thread t = none) :
    Accounts S ⟨c.hist.calls t k, Function.update c.thread t (some (k, k.prog S))⟩ := by
  have hTaking : ∀ sess u, Taking ⟨c.hist.calls t k,
      Function.update c.thread t (some (k, k.prog S))⟩ sess u ↔ Taking c sess u := by
    intro sess u
    by_cases hu : u = t
    · subst u
      unfold Taking
      dsimp only
      rw [Function.update_self, hIdle]
      refine ⟨fun hTake => ?_, nofun⟩
      simp only [Option.some.injEq, Prod.mk.injEq] at hTake
      obtain ⟨rfl, hProg⟩ := hTake
      cases hIndex : sessionIndex sess with
      | none =>
        rw [closeProg_none hIndex] at hProg
        exact nomatch hProg
      | some i =>
        rw [closeProg_some hIndex] at hProg
        exact nomatch hProg
    · unfold Taking
      rw [thread_update hu]
  have hCloses : ∀ sess, okCloses sess (c.hist.calls t k).trace = okCloses sess c.hist.trace :=
    fun sess => List.countP_cons_of_neg (by simp [Entry.okClose])
  constructor
  · exact ⟨hAcc.counted.gen, hAcc.counted.le, hAcc.counted.order, hAcc.counted.isIssued⟩
  · intro u k' p hp
    by_cases hu : u = t
    · subst u
      dsimp only at hp
      rw [Function.update_self] at hp
      cases hp
      by_cases hClose : ∃ sess, k = .sessionClose sess
      · obtain ⟨sess, rfl⟩ := hClose
        exact .inl ⟨sess, rfl, .inl rfl⟩
      · have hNot : ∀ sess, k ≠ .sessionClose sess := fun sess hEq => hClose ⟨sess, hEq⟩
        exact .inr ⟨hNot, Call.prog_steps k, Call.prog_staysOpen hNot⟩
    · rw [thread_update hu] at hp
      exact hAcc.inCall u k' p hp
  · intro sess hDead
    have hOnce := hAcc.once sess hDead
    unfold ClosedOnce at hOnce ⊢
    simp only [hTaking, hCloses]
    exact hOnce
  · intro sess hLive
    simp only [hTaking, hCloses]
    exact hAcc.never sess hLive
  · rintro sess ⟨s, u, older, hSuffix, hMem⟩
    rcases List.suffix_cons_iff.mp hSuffix with hNow | hBefore
    · cases hNow
      exact .inr ⟨t, Function.update_self ..⟩
    · rcases hAcc.later sess ⟨s, u, older, hBefore, hMem⟩ with hDead | ⟨v, hv⟩
      · exact .inl hDead
      · have hNe : v ≠ t := by
          rintro rfl
          exact nomatch hIdle.symm.trans hv
        exact .inr ⟨v, (thread_update hNe).trans hv⟩

theorem InCall.reply {k : Call} {a : Reply} {sess : HsmSession} (hIn : InCall S (n := n) k (.ret a))
    (hClose : k = .sessionClose sess) : ∃ st, a = .ofStatus st := by
  subst hClose
  rcases hIn with ⟨s, hEq, hProg | ⟨st, hRet⟩⟩ | ⟨hNot, -⟩
  · cases hIndex : sessionIndex sess with
    | none =>
      rw [closeProg_none hIndex] at hProg
      cases hProg
      exact ⟨_, rfl⟩
    | some i =>
      rw [closeProg_some hIndex] at hProg
      exact nomatch hProg
  · cases hRet
    exact ⟨st, rfl⟩
  · exact absurd rfl (hNot sess)

theorem Accounts.ret {t : ι} {k : Call} {a : Reply} (hAcc : Accounts S c)
    (hThread : c.thread t = some (k, .ret a)) :
    Accounts S ⟨c.hist.returns t k a, Function.update c.thread t none⟩ := by
  have hTaking : ∀ sess u, Taking ⟨c.hist.returns t k a, Function.update c.thread t none⟩ sess u ↔
      u ≠ t ∧ Taking c sess u := by
    intro sess u
    unfold Taking
    by_cases hu : u = t
    · subst u
      dsimp only
      rw [Function.update_self]
      exact ⟨nofun, fun h => absurd rfl h.1⟩
    · rw [thread_update hu]
      exact (and_iff_right hu).symm
  have hCloses : ∀ sess, ¬Taking c sess t →
      okCloses sess (c.hist.returns t k a).trace = okCloses sess c.hist.trace := by
    intro sess hNot
    refine List.countP_cons_of_neg fun hOk => hNot ?_
    unfold Entry.okClose at hOk
    split at hOk
    · rename_i hEntry
      cases hEntry
      obtain ⟨rfl, rfl⟩ := of_decide_eq_true hOk
      exact hThread
    · cases hOk
  have hSame : ∀ sess, ¬Taking c sess t → ∀ u,
      Taking ⟨c.hist.returns t k a, Function.update c.thread t none⟩ sess u ↔ Taking c sess u := by
    intro sess hNot u
    rw [hTaking]
    refine and_iff_right_of_imp fun hTake hEq => hNot ?_
    rwa [hEq] at hTake
  constructor
  · exact ⟨hAcc.counted.gen, hAcc.counted.le, hAcc.counted.order, hAcc.counted.isIssued⟩
  · intro u k' p hp
    by_cases hu : u = t
    · subst u
      dsimp only at hp
      rw [Function.update_self] at hp
      cases hp
    · rw [thread_update hu] at hp
      exact hAcc.inCall u k' p hp
  · intro sess hDead
    have hOnce := hAcc.once sess hDead
    by_cases hTake : Taking c sess t
    · rcases hOnce with ⟨-, hNone⟩ | ⟨hZero, u, hu, hUnique⟩
      · exact absurd hTake (hNone t)
      · refine .inl ⟨?_, fun v hv => ?_⟩
        · have hEq := hThread.symm.trans hTake
          simp only [Option.some.injEq, Prod.mk.injEq, Prog.ret.injEq] at hEq
          obtain ⟨rfl, rfl⟩ := hEq
          have hOne : okCloses sess (c.hist.returns t (.sessionClose sess) (.ofStatus .ok)).trace =
              okCloses sess c.hist.trace + 1 :=
            List.countP_cons_of_pos (by simp [Entry.okClose])
          rw [hOne, hZero]
        · obtain ⟨hNe, hv⟩ := (hTaking sess v).mp hv
          exact hNe ((hUnique v hv).trans (hUnique t hTake).symm)
    · unfold ClosedOnce at hOnce ⊢
      simp only [hSame sess hTake, hCloses sess hTake]
      exact hOnce
  · intro sess hLive
    obtain ⟨hZero, hNone⟩ := hAcc.never sess hLive
    refine ⟨(hCloses sess (hNone t)).trans hZero, fun u hu => ?_⟩
    exact hNone u ((hTaking sess u).mp hu).2
  · rintro sess ⟨s, u, older, hSuffix, hMem⟩
    rcases List.suffix_cons_iff.mp hSuffix with hNow | hBefore
    · cases hNow
    · have hLater : ClosedLater c.hist sess := ⟨s, u, older, hBefore, hMem⟩
      rcases hAcc.later sess hLater with hDead | ⟨v, hv⟩
      · exact .inl hDead
      · by_cases hvt : v = t
        · subst v
          have hEq := hThread.symm.trans hv
          simp only [Option.some.injEq, Prod.mk.injEq] at hEq
          obtain ⟨rfl, hProg⟩ := hEq
          have hNone : sessionIndex sess = none := by
            cases hIndex : sessionIndex sess with
            | none => rfl
            | some i =>
              rw [closeProg_some hIndex] at hProg
              exact nomatch hProg
          have hIssued := issued_of_closedLater hLater
          refine .inl ⟨hIssued, ?_⟩
          unfold findSession
          rw [hNone]
          rfl
        · exact .inr ⟨v, (thread_update hvt).trans hv⟩

/-- The sections of the other operations. -/
theorem Accounts.sect {t : ι} {k : Call} {act : Env → Device n → Device n × List Event}
    {next : Env → Device n → DevProg n Reply} {e : Env} (hAcc : Accounts S c)
    (hThread : c.thread t = some (k, .sect act next)) (hNot : ∀ sess, k ≠ .sessionClose sess)
    (hSteps : DevProg.Steps S true (.sect act next)) (hOpen : DevProg.StaysOpen (.sect act next))
    (hFew : FewOpens (c.hist.emits t (act e c.hist.shared))) :
    Accounts S ⟨c.hist.emits t (act e c.hist.shared),
      Function.update c.thread t (some (k, next e c.hist.shared))⟩ := by
  obtain ⟨hStep, hRest⟩ := hSteps e c.hist.shared
  obtain ⟨hKept, hStill⟩ := hOpen e c.hist.shared
  have hDeadIff : ∀ sess, Dead (c.hist.emits t (act e c.hist.shared)) sess ↔ Dead c.hist sess :=
    fun sess => ⟨fun h => h.of_emits hStep hKept, fun h => h.emits hAcc.counted hFew hStep⟩
  have hTaking : ∀ sess u, Taking ⟨c.hist.emits t (act e c.hist.shared),
      Function.update c.thread t (some (k, next e c.hist.shared))⟩ sess u ↔ Taking c sess u := by
    intro sess u
    unfold Taking
    by_cases hu : u = t
    · subst u
      dsimp only
      rw [Function.update_self, hThread]
      refine ⟨fun hTake => ?_, fun hTake => ?_⟩
      · simp only [Option.some.injEq, Prod.mk.injEq] at hTake
        exact absurd hTake.1 (hNot sess)
      · simp only [Option.some.injEq, Prod.mk.injEq] at hTake
        exact absurd hTake.1 (hNot sess)
    · rw [thread_update hu]
  have hCloses : ∀ sess, okCloses sess (c.hist.emits t (act e c.hist.shared)).trace =
      okCloses sess c.hist.trace := fun sess =>
    Hist.unchanged_emits (fun _ _ _ => List.countP_cons_of_neg (by simp [Entry.okClose])) c.hist
  constructor
  · exact hAcc.counted.emits hFew hStep
  · intro u k' p hp
    by_cases hu : u = t
    · subst u
      dsimp only at hp
      rw [Function.update_self] at hp
      cases hp
      exact .inr ⟨hNot, hRest, hStill⟩
    · rw [thread_update hu] at hp
      exact hAcc.inCall u k' p hp
  · intro sess hDead
    have hOnce := hAcc.once sess ((hDeadIff sess).mp hDead)
    unfold ClosedOnce at hOnce ⊢
    simp only [hTaking, hCloses]
    exact hOnce
  · intro sess hLive
    simp only [hTaking, hCloses]
    exact hAcc.never sess fun hDead => hLive ((hDeadIff sess).mpr hDead)
  · rintro sess ⟨s, u, older, hSuffix, hMem⟩
    rw [Hist.call_suffix_emits] at hSuffix
    rcases hAcc.later sess ⟨s, u, older, hSuffix, hMem⟩ with hDead | ⟨v, hv⟩
    · exact .inl ((hDeadIff sess).mpr hDead)
    · refine .inr ⟨v, (thread_update ?_).trans hv⟩
      rintro rfl
      have hEq := hThread.symm.trans hv
      simp only [Option.some.injEq, Prod.mk.injEq] at hEq
      exact hNot sess hEq.1

/-- The section of a close. -/
theorem Accounts.close {t : ι} {sess : HsmSession} {i : Fin MAX_SESSIONS} (hAcc : Accounts S c)
    (hIndex : sessionIndex sess = some i)
    (hThread : c.thread t = some (.sessionClose sess, (Call.sessionClose sess).prog S))
    (hFew : FewOpens (c.hist.emits t (closeEntry sess i c.hist.shared, []))) :
    Accounts S ⟨c.hist.emits t (closeEntry sess i c.hist.shared, []),
      Function.update c.thread t (some (.sessionClose sess, .ret (.ofStatus
        (if (c.hist.shared.tok.sessions i).matches sess then .ok else .errBadArg))))⟩ := by
  have hStep : ∀ e, DeviceStep S true e c.hist.shared (closeEntry sess i c.hist.shared, []) := by
    intro e
    have hSteps : DevProg.Steps S true ((Call.sessionClose sess).prog S : DevProg n Reply) :=
      Call.prog_steps _
    rw [closeProg_some hIndex] at hSteps
    exact (hSteps e c.hist.shared).1
  have hTakingOther : ∀ other, other ≠ sess → ∀ p u, Taking ⟨c.hist.emits t
      (closeEntry sess i c.hist.shared, []),
      Function.update c.thread t (some (.sessionClose sess, p))⟩ other u ↔ Taking c other u := by
    intro other hNe p u
    unfold Taking
    by_cases hu : u = t
    · subst u
      dsimp only
      rw [Function.update_self, hThread]
      simp [Ne.symm hNe]
    · rw [thread_update hu]
  have hBefore : ∀ u, u = t → ¬Taking c sess u := by
    rintro u rfl hTake
    have hEq := hThread.symm.trans hTake
    rw [closeProg_some hIndex] at hEq
    simp at hEq
  have hDeadOther : ∀ other, other ≠ sess →
      (Dead (c.hist.emits t (closeEntry sess i c.hist.shared, [])) other ↔ Dead c.hist other) := by
    intro other hNe
    unfold Dead
    rw [Hist.emits_shared, findSession_closeEntry hIndex _ hNe]
    rfl
  have hGone : findSession (closeEntry sess i c.hist.shared).tok sess = none :=
    findSession_closeEntry_self hIndex _
  have hIssued : (c.hist.shared.tok.sessions i).matches sess = true →
      sess ∈ issuedSessions c.hist.events ∧ ¬Dead c.hist sess := by
    intro hMatch
    obtain ⟨hEq, hOpen⟩ := eq_handle_of_matches hIndex hMatch
    refine ⟨hEq ▸ hAcc.counted.isIssued i hOpen, fun hDead => ?_⟩
    rw [(findSession_eq_none hIndex).mp hDead.2] at hMatch
    cases hMatch
  have hFailed : (c.hist.shared.tok.sessions i).matches sess = false → ∀ u,
      Taking ⟨c.hist.emits t (closeEntry sess i c.hist.shared, []),
        Function.update c.thread t (some (.sessionClose sess, .ret (.ofStatus
          (if (c.hist.shared.tok.sessions i).matches sess then .ok else .errBadArg))))⟩ sess u ↔
      Taking c sess u := by
    intro hMatch u
    by_cases hu : u = t
    · subst u
      refine ⟨fun hTake => ?_, fun hTake => absurd hTake (hBefore t rfl)⟩
      unfold Taking at hTake
      dsimp only at hTake
      rw [Function.update_self, hMatch] at hTake
      simp [Reply.ofStatus] at hTake
    · unfold Taking
      rw [thread_update hu]
  constructor
  · exact hAcc.counted.emits hFew (hStep (.calm 0))
  · intro u k' p hp
    by_cases hu : u = t
    · subst u
      dsimp only at hp
      rw [Function.update_self] at hp
      cases hp
      exact .inl ⟨sess, rfl, .inr ⟨_, rfl⟩⟩
    · rw [thread_update hu] at hp
      exact hAcc.inCall u k' p hp
  · intro other hDead
    by_cases hOther : other = sess
    · subst other
      cases hMatch : (c.hist.shared.tok.sessions i).matches sess with
      | true =>
        obtain ⟨hZero, hNone⟩ := hAcc.never sess (hIssued hMatch).2
        refine .inr ⟨hZero, t, Function.update_self .., fun u hTake => ?_⟩
        by_contra hu
        unfold Taking at hTake
        rw [thread_update hu] at hTake
        exact hNone u hTake
      | false =>
        have hKept : closeEntry sess i c.hist.shared = c.hist.shared := by
          unfold closeEntry
          rw [hMatch]
          rfl
        rw [hKept] at hDead
        have hOnce := hAcc.once sess hDead
        have hSame := hFailed hMatch
        rw [hMatch] at hSame
        unfold ClosedOnce at hOnce ⊢
        simp only [hSame]
        exact hOnce
    · have hOnce := hAcc.once other ((hDeadOther other hOther).mp hDead)
      unfold ClosedOnce at hOnce ⊢
      simp only [hTakingOther other hOther]
      exact hOnce
  · intro other hLive
    by_cases hOther : other = sess
    · subst other
      have hMatch : (c.hist.shared.tok.sessions i).matches sess = false :=
        Bool.eq_false_iff.mpr fun hMatch => hLive ⟨(hIssued hMatch).1, hGone⟩
      simp only [hFailed hMatch]
      refine hAcc.never sess fun hDead => hLive ⟨hDead.1, hGone⟩
    · simp only [hTakingOther other hOther]
      exact hAcc.never other fun hDead => hLive ((hDeadOther other hOther).mpr hDead)
  · rintro other ⟨s, u, older, hSuffix, hMem⟩
    rw [Hist.call_suffix_emits] at hSuffix
    have hLater : ClosedLater c.hist other := ⟨s, u, older, hSuffix, hMem⟩
    by_cases hOther : other = sess
    · subst other
      have hWas := issued_of_closedLater hLater
      exact .inl ⟨hWas, hGone⟩
    · rcases hAcc.later other hLater with hDead | ⟨v, hv⟩
      · exact .inl ((hDeadOther other hOther).mpr hDead)
      · refine .inr ⟨v, (thread_update ?_).trans hv⟩
        rintro rfl
        have hEq := hThread.symm.trans hv
        simp only [Option.some.injEq, Prod.mk.injEq, Call.sessionClose.injEq] at hEq
        exact hOther hEq.1.symm

theorem Accounts.step {c' : DevConfig ι n} {l : Act ι Call Env × List Event}
    (hStep : (slotPool S n ι).Step c l c') (hFew : FewOpens c'.hist) (hAcc : Accounts S c) :
    Accounts S c' := by
  cases hStep with
  | call hIdle => exact hAcc.call hIdle
  | ret hThread => exact hAcc.ret hThread
  | crash hReset => exact hReset.elim
  | @sect t k act next e hThread =>
    rcases hAcc.inCall t k _ hThread with ⟨sess, rfl, hProg | ⟨st, hRet⟩⟩ | ⟨hNot, hSteps, hOpen⟩
    · cases hIndex : sessionIndex sess with
      | none =>
        rw [closeProg_none hIndex] at hProg
        exact nomatch hProg
      | some i =>
        have hClose := hProg
        rw [closeProg_some hIndex] at hClose
        cases hClose
        exact hAcc.close hIndex (hThread.trans (by rw [hProg])) hFew
    · exact nomatch hRet
    · exact hAcc.sect hThread hNot hSteps hOpen hFew

theorem accounts_of_reaches (h : (slotPool S n ι).Reaches Pool.always c) (hFew : FewOpens c.hist) :
    Accounts S c := by
  refine Transition.Reachable.invariant (I := fun c => FewOpens c.hist → Accounts S c) ?_ ?_ h hFew
  · rintro ⟨⟨s, trace⟩, thread⟩ ⟨hStart, hTrace, hThread⟩ -
    obtain rfl : trace = [] := hTrace
    exact Accounts.start hStart hThread
  · rintro c l c' hAcc hStep - hFew
    refine Accounts.step hStep hFew (hAcc ?_)
    cases hStep with
    | call => exact hFew
    | ret => exact hFew
    | crash hReset => exact hReset.elim
    | sect => exact hFew.of_emits

end Accounts

/-- What session handles promise in a configuration. -/
structure HandlesNameOne (S : Setup) [DecidableEq ι] (c : DevConfig ι n) : Prop where
  issuedOnce : (issuedSessions c.hist.events).Nodup
  openIssued : ∀ i, (c.hist.shared.tok.sessions i).isOpen = true →
    (c.hist.shared.tok.sessions i).handle i ∈ issuedSessions c.hist.events
  openDistinct : ∀ i j, (c.hist.shared.tok.sessions i).handle i =
    (c.hist.shared.tok.sessions j).handle j → i = j
  /-- A close has returned `HSM_OK`, or it has ended the session and is about to return it. -/
  closedGone : ∀ sess, (∃ t, .ret t (.sessionClose sess) (.ofStatus .ok) ∈ c.hist.trace) ∨
    (∃ t, Taking c sess t) → findSession c.hist.shared.tok sess = none
  closedAtMostOnce : ∀ sess, okCloses sess c.hist.trace ≤ 1
  /-- Of the closes called when the handle had been issued, if all have returned, one succeeded. -/
  closedOnce : ∀ sess, ClosedLater c.hist sess → (∀ t p, c.thread t ≠ some (.sessionClose sess, p)) →
    okCloses sess c.hist.trace = 1
  othersKept : ∀ sess t c' a evs, (∃ p, c.thread t = some (.sessionClose sess, p)) →
    (slotPool S n ι).Step c (a, evs) c' → (a = .ret t ∨ ∃ e, a = .sect t e) →
    ∀ other, other ≠ sess →
      findSession c'.hist.shared.tok other = findSession c.hist.shared.tok other

theorem session_handles_name_one [DecidableEq ι] {c : DevConfig ι n}
    (h : (slotPool S n ι).Reaches Pool.always c)
    (hFew : (issuedSessions c.hist.events).length < 2 ^ 32) : HandlesNameOne S c := by
  have hAcc := accounts_of_reaches h hFew
  have hDead : ∀ sess, okCloses sess c.hist.trace ≠ 0 ∨ (∃ t, Taking c sess t) →
      Dead c.hist sess := by
    intro sess hSome
    by_contra hLive
    obtain ⟨hZero, hNone⟩ := hAcc.never sess hLive
    rcases hSome with hCount | ⟨t, hTake⟩
    · exact hCount hZero
    · exact hNone t hTake
  constructor
  · exact hAcc.counted.order.imp fun hLt hEq => absurd hLt (by rw [hEq]; omega)
  · exact hAcc.counted.isIssued
  · intro i j hEq
    have hIndex := congrArg sessionIndex hEq
    rw [sessionIndex_handle, sessionIndex_handle] at hIndex
    exact Option.some.inj hIndex
  · rintro sess (⟨t, hRet⟩ | hTake)
    · refine (hDead sess (.inl fun hZero => ?_)).2
      have hNot := List.countP_eq_zero.mp hZero _ hRet
      simp [Entry.okClose] at hNot
    · exact (hDead sess (.inr hTake)).2
  · intro sess
    by_cases hIs : Dead c.hist sess
    · rcases hAcc.once sess hIs with ⟨hOne, -⟩ | ⟨hZero, -⟩
      · omega
      · omega
    · have hZero := (hAcc.never sess hIs).1
      omega
  · intro sess hLater hReturned
    rcases hAcc.later sess hLater with hIs | ⟨t, hThread⟩
    · rcases hAcc.once sess hIs with ⟨hOne, -⟩ | ⟨-, t, hTake, -⟩
      · exact hOne
      · exact absurd hTake (hReturned t _)
    · exact absurd hThread (hReturned t _)
  · rintro sess t c' a evs ⟨p, hThread⟩ hStep hAct other hNe
    cases hStep with
    | call hIdle => rcases hAct with hAct | ⟨e, hAct⟩ <;> cases hAct
    | ret => rfl
    | crash hReset => exact hReset.elim
    | @sect u k act next e hOwn =>
      have hSame : u = t := by
        rcases hAct with hAct | ⟨e, hAct⟩ <;> cases hAct
        rfl
      subst hSame
      cases hThread.symm.trans hOwn
      rcases hAcc.inCall u _ _ hOwn with ⟨s, hEq, hProg | ⟨st, hRet⟩⟩ | ⟨hNot, -⟩
      · cases hIndex : sessionIndex sess with
        | none =>
          rw [closeProg_none hIndex] at hProg
          exact nomatch hProg
        | some i =>
          rw [closeProg_some hIndex] at hProg
          cases hProg
          exact findSession_closeEntry hIndex _ hNe
      · exact nomatch hRet
      · exact absurd rfl (hNot sess)

/-- Two threads close a session at the same time, and its entry is used again. -/
theorem handle_closed_by_two : ∃ c, (slotPool .clear 1 (Fin 2)).Reaches Pool.always c ∧
    okCloses firstSession c.hist.trace = 1 ∧ HandlesNameOne .clear c := by
  obtain ⟨c, hc, hFew, hOnce⟩ := Pool.exists_scheduleAll Pool.unchecked Pool.always_of_unchecked
    (powerUp_init .clear (n := 1) (by decide) (by decide) (ι := Fin 2))
    (Pool.calling 0 (.sessionOpen 0) 1 (.calm 7) ++
      [.call 0 (.sessionClose firstSession), .call 1 (.sessionClose firstSession),
        .sect 1 (.calm 7), .sect 0 (.calm 7), .ret 0, .ret 1] ++
      Pool.calling 0 (.sessionOpen 0) 1 (.calm 7))
    (fun c => (issuedSessions c.hist.events).length < 2 ^ 32 ∧
      okCloses firstSession c.hist.trace = 1) (by decide)
  exact ⟨c, hc, hOnce, session_handles_name_one hc hFew⟩

end PqcHsm
