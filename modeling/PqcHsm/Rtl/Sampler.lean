import PqcHsm.Library.Clocked
import PqcHsm.Library.StreamReader
import Mathlib.Data.List.Basic
import Mathlib.Data.Nat.Init

/-!
# The samplers of ML-DSA

What `mldsa_poly_uniform`, `mldsa_poly_eta` and `mldsa_sample_in_ball` have in common: a header goes
into the sponge byte by byte, the sponge is flushed, and bytes are taken from it in states of the
sampler's own until it is done. The inputs that a run of a sampler is configured with are one value.
-/

namespace PqcHsm

inductive SamplerSt (ρ : Type) where
  | idle
  | abs
  | gap
  | flush
  | own (r : ρ)

def SamplerSt.isIdle {ρ : Type} : SamplerSt ρ → Bool
  | idle => true
  | _ => false

structure SamplerIn (ξ : Type) where
  cfg : ξ
  start : Bool
  shaInReady : Bool
  shaOutValid : Bool
  shaOutData : BitVec 8

/-- The registers; `core` are the ones that only the own states and a start write. -/
structure Sampler (w : Nat) (ρ κ : Type) where
  st : SamplerSt ρ
  done : Bool
  shaStart : Bool
  shaInValid : Bool
  shaInData : BitVec 8
  shaInFlush : Bool
  hdrI : BitVec w
  core : κ

/-- What a sampler does in its own way. `rest` is what the core does in every cycle, whatever the
state; an own state with no next one is the last. -/
structure SamplerParts (w : Nat) (ξ ρ κ : Type) where
  reset : κ
  last : ξ → BitVec w
  hdrByte : ξ → BitVec w → BitVec 8
  hdrByteNxt : ξ → BitVec w → BitVec 8
  init : ξ → κ → κ
  rest : κ → κ
  first : ρ
  outReady : ρ → κ → Bool
  own : ξ → Bool → BitVec 8 → ρ → κ → Option ρ × κ

namespace Sampler

variable {w : Nat} {ξ ρ κ : Type} (P : SamplerParts w ξ ρ κ)

def reset : Sampler w ρ κ := ⟨.idle, false, false, false, 0, false, 0, P.reset⟩

def shaOutReady (s : Sampler w ρ κ) : Bool :=
  match s.st with
  | .own r => P.outReady r s.core
  | _ => false

/-- The pulses fall, and the core does what it does in every cycle. -/
def calm (s : Sampler w ρ κ) : Sampler w ρ κ :=
  { s with
    done := false
    shaStart := false
    shaInValid := false
    shaInFlush := false
    core := P.rest s.core }

def next (s : Sampler w ρ κ) (x : SamplerIn ξ) : Sampler w ρ κ :=
  match s.st with
  | .idle =>
    if x.start then
      { s.calm P with
        st := .abs
        shaStart := true
        hdrI := 0
        core := P.init x.cfg (P.rest s.core) }
    else s.calm P
  | .abs =>
    if s.shaInValid && x.shaInReady then
      if s.hdrI = P.last x.cfg then { s.calm P with st := .gap }
      else
        { s.calm P with
          shaInValid := true
          shaInData := P.hdrByteNxt x.cfg s.hdrI
          hdrI := s.hdrI + 1 }
    else { s.calm P with shaInValid := true, shaInData := P.hdrByte x.cfg s.hdrI }
  | .gap => { s.calm P with st := .flush }
  | .flush => { s.calm P with st := .own P.first, shaInFlush := true }
  | .own r =>
    let o := P.own x.cfg x.shaOutValid x.shaOutData r s.core
    { s.calm P with
      st := o.1.elim .idle .own
      done := o.1.isNone
      core := o.2 }

end Sampler

variable {w : Nat} {ξ ρ κ : Type}

def sampler (P : SamplerParts w ξ ρ κ) : Clocked (SamplerIn ξ) (Sampler w ρ κ) :=
  ⟨.reset P, Sampler.next P⟩

/-- What the sponge has taken and given since the last start. -/
structure Sampled where
  absorbed : List (BitVec 8)
  taken : List (BitVec 8)

def Sampled.see (P : SamplerParts w ξ ρ κ) (m : Sampled) (s : Sampler w ρ κ) (x : SamplerIn ξ) :
    Sampled :=
  if s.st.isIdle && x.start then ⟨[], []⟩
  else
    { absorbed := if s.shaInValid && x.shaInReady then m.absorbed ++ [s.shaInData] else m.absorbed
      taken := if s.shaOutReady P && x.shaOutValid then m.taken ++ [x.shaOutData] else m.taken }

def sampled (P : SamplerParts w ξ ρ κ) (ins : Nat → SamplerIn ξ) : Nat → Sampled :=
  (sampler P).record ⟨[], []⟩ (Sampled.see P) ins

/-! ### What holds in every cycle of a run -/

/-- For one configuration: the header, and what the core satisfies after a start, in each own state
and at the end, given the bytes taken. -/
structure Samples (P : SamplerParts w ξ ρ κ) (cfg : ξ) (header : List (BitVec 8)) (Begun : κ → Prop)
    (Runs : ρ → κ → List (BitVec 8) → Prop) (Ends : κ → List (BitVec 8) → Prop) : Prop where
  last : (P.last cfg).toNat + 1 = header.length
  byte : ∀ i, i.toNat < header.length → header[i.toNat]? = some (P.hdrByte cfg i)
  nxt : ∀ i, i.toNat + 1 < header.length → header[i.toNat + 1]? = some (P.hdrByteNxt cfg i)
  init : ∀ c, Begun (P.init cfg (P.rest c))
  rest : ∀ c, Begun c → Begun (P.rest c)
  first : ∀ c, Begun c → Runs P.first (P.rest c) []
  own : ∀ r c bs v b, Runs r c bs →
    (P.own cfg v b r c).1.elim Ends Runs (P.own cfg v b r c).2
      (if P.outReady r c && v then bs ++ [b] else bs)
  keeps : ∀ c bs, Ends c bs → Ends (P.rest c) bs

section Runs

variable {P : SamplerParts w ξ ρ κ} {cfg : ξ} {header : List (BitVec 8)} {Begun : κ → Prop}
  {Runs : ρ → κ → List (BitVec 8) → Prop} {Ends : κ → List (BitVec 8) → Prop}

/-- In a run, or idle after one. -/
def InRun (header : List (BitVec 8)) (Begun : κ → Prop) (Runs : ρ → κ → List (BitVec 8) → Prop)
    (Ends : κ → List (BitVec 8) → Prop) (s : Sampler w ρ κ) (m : Sampled) : Prop :=
  match s.st with
  | .idle => s.shaInValid = false ∧ m.absorbed = header ∧ Ends s.core m.taken
  | .abs => m.taken = [] ∧ s.hdrI.toNat < header.length ∧ m.absorbed = header.take s.hdrI.toNat ∧
      (s.shaInValid = true → header[s.hdrI.toNat]? = some s.shaInData) ∧ Begun s.core
  | .gap => s.shaInValid = false ∧ m.absorbed = header ∧ m.taken = [] ∧ Begun s.core
  | .flush => s.shaInValid = false ∧ m.absorbed = header ∧ m.taken = [] ∧ Begun s.core
  | .own r => s.shaInValid = false ∧ m.absorbed = header ∧ Runs r s.core m.taken

theorem Samples.started (hSamples : Samples P cfg header Begun Runs Ends) {s : Sampler w ρ κ}
    {m : Sampled} {x : SamplerIn ξ} (hIdle : s.st = .idle) (hStart : x.start = true)
    (hCfg : x.cfg = cfg) :
    InRun header Begun Runs Ends (s.next P x) (m.see P s x) := by
  have hNext : s.next P x = { s.calm P with
      st := .abs
      shaStart := true
      hdrI := 0
      core := P.init x.cfg (P.rest s.core) } := by
    simp only [Sampler.next, hIdle, hStart, if_true]
  have hSeen : m.see P s x = ⟨[], []⟩ := by
    rw [Sampled.see, hIdle, hStart]
    rfl
  have hLast := hSamples.last
  rw [hNext, hSeen]
  refine ⟨rfl, ?_, ?_, ?_, ?_⟩
  · change (0#w).toNat < header.length
    rw [BitVec.toNat_zero]
    omega
  · change [] = header.take (0#w).toNat
    rw [BitVec.toNat_zero]
    rfl
  · intro hValid
    exact absurd hValid Bool.false_ne_true
  · change Begun (P.init x.cfg (P.rest s.core))
    rw [hCfg]
    exact hSamples.init s.core

theorem see_run {s : Sampler w ρ κ} {m : Sampled} {x : SamplerIn ξ}
    (hRun : (s.st.isIdle && x.start) = false) :
    m.see P s x =
      { absorbed := if s.shaInValid && x.shaInReady then m.absorbed ++ [s.shaInData] else m.absorbed
        taken :=
          if s.shaOutReady P && x.shaOutValid then m.taken ++ [x.shaOutData] else m.taken } :=
  if_neg (by rw [hRun]; exact Bool.false_ne_true)

theorem next_calm {s : Sampler w ρ κ} {x : SamplerIn ξ} (hSt : s.st = .idle)
    (hStart : x.start = false) : s.next P x = s.calm P := by
  simp only [Sampler.next, hSt, hStart, Bool.false_eq_true, if_false]

theorem next_own {s : Sampler w ρ κ} {x : SamplerIn ξ} {r : ρ} (hSt : s.st = .own r) :
    s.next P x = { s.calm P with
      st := (P.own x.cfg x.shaOutValid x.shaOutData r s.core).1.elim .idle .own
      done := (P.own x.cfg x.shaOutValid x.shaOutData r s.core).1.isNone
      core := (P.own x.cfg x.shaOutValid x.shaOutData r s.core).2 } := by
  simp only [Sampler.next, hSt]

/-- A header byte that is not the last one. -/
theorem succ_hdrI {i last : BitVec w} {length : Nat} (hLast : last.toNat + 1 = length)
    (hEnd : i ≠ last) (hIndex : i.toNat < length) :
    i.toNat + 1 < length ∧ (i + 1).toNat = i.toNat + 1 := by
  have hNe : i.toNat ≠ last.toNat := fun hEq => hEnd (BitVec.eq_of_toNat_eq hEq)
  have hLess : i.toNat + 1 < length := by omega
  have hWidth := last.isLt
  constructor
  · exact hLess
  · rw [BitVec.toNat_add]
    change (i.toNat + (1#w).toNat) % 2 ^ w = _
    rw [BitVec.toNat_ofNat, Nat.add_mod_mod]
    exact Nat.mod_eq_of_lt (by omega)

theorem Samples.next (hSamples : Samples P cfg header Begun Runs Ends) {s : Sampler w ρ κ}
    {m : Sampled} {x : SamplerIn ξ} (hCfg : x.cfg = cfg)
    (hRun : InRun header Begun Runs Ends s m) :
    InRun header Begun Runs Ends (s.next P x) (m.see P s x) := by
  rw [InRun] at hRun
  cases hSt : s.st with
  | idle =>
    cases hStart : x.start with
    | true => exact hSamples.started hSt hStart hCfg
    | false =>
      rw [hSt] at hRun
      obtain ⟨hQuiet, hHeader, hEnds⟩ := hRun
      have hOut : s.shaOutReady P = false := by rw [Sampler.shaOutReady, hSt]
      rw [next_calm hSt hStart, see_run (by rw [hSt, hStart]; rfl), hQuiet, hOut]
      simp only [InRun, Sampler.calm, hSt]
      exact ⟨trivial, hHeader, hSamples.keeps _ _ hEnds⟩
  | abs =>
    rw [hSt] at hRun
    obtain ⟨hTaken, hIndex, hHeader, hData, hBegun⟩ := hRun
    have hOut : s.shaOutReady P = false := by rw [Sampler.shaOutReady, hSt]
    have hRest := hSamples.rest _ hBegun
    have hQuiet : (if (false && x.shaOutValid) = true then m.taken ++ [x.shaOutData] else m.taken) =
        [] := hTaken
    rw [see_run (by rw [hSt]; rfl), hOut, hQuiet]
    cases hFire : s.shaInValid && x.shaInReady with
    | false =>
      have hNext : s.next P x =
          { s.calm P with shaInValid := true, shaInData := P.hdrByte x.cfg s.hdrI } := by
        simp only [Sampler.next, hSt, hFire, Bool.false_eq_true, if_false]
      rw [hNext, hCfg]
      simp only [InRun, Sampler.calm, hSt]
      exact ⟨trivial, hIndex, hHeader, fun _ => hSamples.byte _ hIndex, hRest⟩
    | true =>
      have hByte := hData (Bool.and_eq_true_iff.mp hFire).1
      have hGrown : m.absorbed ++ [s.shaInData] = header.take (s.hdrI.toNat + 1) := by
        rw [hHeader, List.take_add_one, hByte]
        rfl
      have hLast := hSamples.last
      rw [if_pos rfl, hGrown]
      by_cases hEnd : s.hdrI = P.last x.cfg
      · have hNext : s.next P x = { s.calm P with st := .gap } := by
          simp only [Sampler.next, hSt, hFire, hEnd, if_true]
        rw [hNext, hEnd, hCfg, hLast]
        exact ⟨rfl, List.take_of_length_le (Nat.le_refl _), rfl, hRest⟩
      · have hNext : s.next P x = { s.calm P with
            shaInValid := true
            shaInData := P.hdrByteNxt x.cfg s.hdrI
            hdrI := s.hdrI + 1 } := by
          simp only [Sampler.next, hSt, hFire, hEnd, if_true, if_false]
        obtain ⟨hLess, hSucc⟩ := succ_hdrI hLast (hCfg ▸ hEnd) hIndex
        rw [hNext, hCfg]
        simp only [InRun, Sampler.calm, hSt, hSucc]
        exact ⟨trivial, hLess, trivial, fun _ => hSamples.nxt _ hLess, hRest⟩
  | gap =>
    rw [hSt] at hRun
    obtain ⟨hQuiet, hHeader, hTaken, hBegun⟩ := hRun
    have hOut : s.shaOutReady P = false := by rw [Sampler.shaOutReady, hSt]
    rw [see_run (by rw [hSt]; rfl), hQuiet, hOut]
    simp only [InRun, Sampler.next, Sampler.calm, hSt]
    exact ⟨trivial, hHeader, hTaken, hSamples.rest _ hBegun⟩
  | flush =>
    rw [hSt] at hRun
    obtain ⟨hQuiet, hHeader, hTaken, hBegun⟩ := hRun
    have hOut : s.shaOutReady P = false := by rw [Sampler.shaOutReady, hSt]
    rw [see_run (by rw [hSt]; rfl), hQuiet, hOut]
    simp only [InRun, Sampler.next, Sampler.calm, hSt]
    refine ⟨trivial, hHeader, ?_⟩
    rw [if_neg (by simp), hTaken]
    exact hSamples.first _ hBegun
  | own r =>
    rw [hSt] at hRun
    obtain ⟨hQuiet, hHeader, hRuns⟩ := hRun
    have hOut : s.shaOutReady P = P.outReady r s.core := by rw [Sampler.shaOutReady, hSt]
    have hOwn := hSamples.own r s.core m.taken x.shaOutValid x.shaOutData hRuns
    rw [see_run (by rw [hSt]; rfl), next_own hSt, hQuiet, hOut, hCfg]
    cases hNext : (P.own cfg x.shaOutValid x.shaOutData r s.core).1 with
    | none =>
      rw [hNext] at hOwn
      exact ⟨rfl, hHeader, hOwn⟩
    | some r' =>
      rw [hNext] at hOwn
      exact ⟨rfl, hHeader, hOwn⟩

/-- The sampler is not idle again between these cycles. -/
def BusyFrom (P : SamplerParts w ξ ρ κ) (ins : Nat → SamplerIn ξ) (n k : Nat) : Prop :=
  ∀ j, n < j → j < k → ((sampler P).after ins j).st.isIdle = false

/-- A run begins here, and its configuration stays as long as it goes on. -/
structure Begins (P : SamplerParts w ξ ρ κ) (cfg : ξ) (ins : Nat → SamplerIn ξ) (n : Nat) :
    Prop where
  idle : ((sampler P).after ins n).st = .idle
  start : (ins n).start = true
  held : ∀ k ≥ n, BusyFrom P ins n (k + 1) → (ins k).cfg = cfg

theorem BusyFrom.before {ins : Nat → SamplerIn ξ} {n k : Nat} (hBusy : BusyFrom P ins n (k + 1)) :
    BusyFrom P ins n k :=
  fun j hFrom hTo => hBusy j hFrom (Nat.lt_succ_of_lt hTo)

theorem Samples.run (hSamples : Samples P cfg header Begun Runs Ends) {ins : Nat → SamplerIn ξ}
    {n : Nat} (hBegins : Begins P cfg ins n) {k : Nat} (hk : n < k) (hBusy : BusyFrom P ins n k) :
    InRun header Begun Runs Ends ((sampler P).after ins k) (sampled P ins k) := by
  induction k, hk using Nat.le_induction with
  | base => exact hSamples.started hBegins.idle hBegins.start (hBegins.held n (Nat.le_refl n) hBusy)
  | succ k hk ih => exact hSamples.next (hBegins.held k (Nat.le_of_lt hk) hBusy) (ih hBusy.before)

/-! ### A run ends -/

/-- The sponge goes on: it takes and gives a byte at some time when one is offered or wanted, and
gives the bytes of its stream. -/
structure Squeezes (P : SamplerParts w ξ ρ κ) (stream : Nat → BitVec 8) (ins : Nat → SamplerIn ξ)
    (n : Nat) : Prop where
  takes : ∀ k > n, BusyFrom P ins n (k + 1) → ((sampler P).after ins k).shaInValid = true →
    ∃ j ≥ k, (ins j).shaInReady = true
  gives : ∀ k > n, BusyFrom P ins n (k + 1) → ((sampler P).after ins k).shaOutReady P = true →
    ∃ j ≥ k, (ins j).shaOutValid = true
  source : ∀ k > n, BusyFrom P ins n (k + 1) → (ins k).shaOutValid = true →
    (ins k).shaOutData = stream (sampled P ins k).taken.length

/-- A rank that falls in every own state, except while it waits for a byte. -/
structure Falls (P : SamplerParts w ξ ρ κ) (cfg : ξ) (Begun : κ → Prop)
    (Runs : ρ → κ → List (BitVec 8) → Prop) (stream : Nat → BitVec 8)
    (rank : ρ → κ → Nat → Nat) (bound : Nat) : Prop where
  first : ∀ c, Begun c → rank P.first (P.rest c) 0 ≤ bound
  waits : ∀ r c t b, Runs r c ((List.range t).map stream) → P.outReady r c = true →
    (P.own cfg false b r c).1 = some r ∧ P.outReady r (P.own cfg false b r c).2 = true ∧
      rank r (P.own cfg false b r c).2 t = rank r c t
  moves : ∀ r c t v b, Runs r c ((List.range t).map stream) → (P.outReady r c = true → v = true) →
    (v = true → b = stream t) → ∀ r', (P.own cfg v b r c).1 = some r' →
      rank r' (P.own cfg v b r c).2 (if P.outReady r c && v then t + 1 else t) < rank r c t

/-- What remains to be done, for a header and a bound on the rank of the first own state. -/
def Sampler.remaining (rank : ρ → κ → Nat → Nat) (bound length : Nat) (s : Sampler w ρ κ)
    (m : Sampled) : Nat :=
  match s.st with
  | .idle => 0
  | .abs => bound + 4 + 2 * (length - s.hdrI.toNat) + (if s.shaInValid then 0 else 1)
  | .gap => bound + 3
  | .flush => bound + 2
  | .own r => rank r s.core m.taken.length + 1

/-- The handshake that the sampler waits in: with the input of the sponge or with its output. -/
def Sampler.waitsFor (P : SamplerParts w ξ ρ κ) (s : Sampler w ρ κ) : Option Bool :=
  match s.st with
  | .abs => if s.shaInValid then some false else none
  | .own r => if P.outReady r s.core then some true else none
  | _ => none

def SamplerIn.signal (x : SamplerIn ξ) : Bool → Prop
  | false => x.shaInReady = true
  | true => x.shaOutValid = true

section Step

variable {s : Sampler w ρ κ} {m : Sampled} {x : SamplerIn ξ} {stream : Nat → BitVec 8}
  {rank : ρ → κ → Nat → Nat} {bound : Nat}

/-- The byte that is taken is the next one of the stream. -/
theorem taken_next (hBusy : s.st.isIdle = false)
    (hTaken : m.taken = (List.range m.taken.length).map stream)
    (hSource : x.shaOutValid = true → x.shaOutData = stream m.taken.length) :
    (m.see P s x).taken = (List.range (m.see P s x).taken.length).map stream := by
  have hIdle : (s.st.isIdle && x.start) = false := by rw [hBusy]; rfl
  rw [see_run hIdle]
  cases hFire : s.shaOutReady P && x.shaOutValid with
  | false => exact hTaken
  | true =>
    have hByte := hSource (Bool.and_eq_true_iff.mp hFire).2
    dsimp only
    rw [if_pos rfl, List.length_append, List.length_singleton, List.range_succ, List.map_append,
      ← hTaken, hByte]
    rfl

theorem waitsFor_eq {i : Bool} (hWait : s.waitsFor P = some i) :
    (i = false ∧ s.shaInValid = true) ∨ (i = true ∧ s.shaOutReady P = true) := by
  rw [Sampler.waitsFor] at hWait
  cases hSt : s.st with
  | idle =>
    rw [hSt] at hWait
    exact nomatch hWait
  | abs =>
    rw [hSt] at hWait
    cases hValid : s.shaInValid with
    | false =>
      rw [hValid] at hWait
      exact nomatch hWait
    | true =>
      rw [hValid] at hWait
      exact .inl ⟨(Option.some.inj hWait).symm, rfl⟩
  | gap =>
    rw [hSt] at hWait
    exact nomatch hWait
  | flush =>
    rw [hSt] at hWait
    exact nomatch hWait
  | own r =>
    rw [hSt] at hWait
    have hOut : s.shaOutReady P = P.outReady r s.core := by rw [Sampler.shaOutReady, hSt]
    cases hReady : P.outReady r s.core with
    | false =>
      simp only [hReady, Bool.false_eq_true, if_false] at hWait
      exact nomatch hWait
    | true =>
      simp only [hReady, if_true] at hWait
      exact .inr ⟨(Option.some.inj hWait).symm, hOut.trans hReady⟩

theorem Falls.abs_step (hSt : s.st = .abs) (hLast : (P.last cfg).toNat + 1 = header.length)
    (hCfg : x.cfg = cfg) (hIndex : s.hdrI.toNat < header.length) (m' : Sampled) :
    Sampler.remaining rank bound header.length (s.next P x) m' <
        Sampler.remaining rank bound header.length s m ∨
      ∃ i, s.waitsFor P = some i ∧ ¬x.signal i ∧
        Sampler.remaining rank bound header.length (s.next P x) m' =
          Sampler.remaining rank bound header.length s m ∧
        (s.next P x).waitsFor P = some i := by
  cases hValid : s.shaInValid with
  | false =>
    left
    have hNext : s.next P x =
        { s.calm P with shaInValid := true, shaInData := P.hdrByte x.cfg s.hdrI } := by
      simp only [Sampler.next, hSt, hValid, Bool.false_and, Bool.false_eq_true, if_false]
    rw [hNext]
    simp only [Sampler.remaining, Sampler.calm, hSt, hValid, if_true, Bool.false_eq_true, if_false]
    omega
  | true =>
    cases hReady : x.shaInReady with
    | false =>
      right
      have hNext : s.next P x =
          { s.calm P with shaInValid := true, shaInData := P.hdrByte x.cfg s.hdrI } := by
        simp only [Sampler.next, hSt, hReady, Bool.and_false, Bool.false_eq_true, if_false]
      refine ⟨false, ?_, ?_, ?_, ?_⟩
      · simp only [Sampler.waitsFor, hSt, hValid, if_true]
      · simp only [SamplerIn.signal, hReady]
        exact Bool.false_ne_true
      · rw [hNext]
        simp only [Sampler.remaining, Sampler.calm, hSt, hValid, if_true]
      · rw [hNext]
        simp only [Sampler.waitsFor, Sampler.calm, hSt, if_true]
    | true =>
      left
      by_cases hEnd : s.hdrI = P.last x.cfg
      · have hNext : s.next P x = { s.calm P with st := .gap } := by
          simp only [Sampler.next, hSt, hValid, hReady, hEnd, Bool.and_true, if_true]
        rw [hNext]
        simp only [Sampler.remaining, hSt]
        omega
      · have hNext : s.next P x = { s.calm P with
            shaInValid := true
            shaInData := P.hdrByteNxt x.cfg s.hdrI
            hdrI := s.hdrI + 1 } := by
          simp only [Sampler.next, hSt, hValid, hReady, hEnd, Bool.and_true, if_true, if_false]
        have hSucc := succ_hdrI hLast (hCfg ▸ hEnd) hIndex
        rw [hNext]
        simp only [Sampler.remaining, Sampler.calm, hSt, hValid, if_true, hSucc.2]
        omega

theorem Falls.own_step (hFalls : Falls P cfg Begun Runs stream rank bound) {r : ρ}
    (hSt : s.st = .own r) (hCfg : x.cfg = cfg) (hRuns : Runs r s.core m.taken)
    (hTaken : m.taken = (List.range m.taken.length).map stream)
    (hSource : x.shaOutValid = true → x.shaOutData = stream m.taken.length)
    (hBusy : (s.next P x).st.isIdle = false) :
    Sampler.remaining rank bound header.length (s.next P x) (m.see P s x) <
        Sampler.remaining rank bound header.length s m ∨
      ∃ i, s.waitsFor P = some i ∧ ¬x.signal i ∧
        Sampler.remaining rank bound header.length (s.next P x) (m.see P s x) =
          Sampler.remaining rank bound header.length s m ∧
        (s.next P x).waitsFor P = some i := by
  have hIdle : (s.st.isIdle && x.start) = false := by rw [hSt]; rfl
  have hOut : s.shaOutReady P = P.outReady r s.core := by rw [Sampler.shaOutReady, hSt]
  have hNext := next_own (P := P) (x := x) hSt
  rw [hTaken] at hRuns
  by_cases hWait : P.outReady r s.core = true ∧ x.shaOutValid = false
  · obtain ⟨hReady, hNone⟩ := hWait
    obtain ⟨hSame, hStill, hRank⟩ := hFalls.waits r s.core m.taken.length x.shaOutData hRuns hReady
    right
    rw [hCfg, hNone, hSame] at hNext
    refine ⟨true, ?_, ?_, ?_, ?_⟩
    · simp only [Sampler.waitsFor, hSt, hReady, if_true]
    · simp only [SamplerIn.signal, hNone]
      exact Bool.false_ne_true
    · rw [hNext, see_run hIdle, hOut, hNone, Bool.and_false]
      simp only [Sampler.remaining, hSt, Option.elim, Bool.false_eq_true, if_false, hRank]
    · rw [hNext]
      simp only [Sampler.waitsFor, Option.elim, hStill, if_true]
  · left
    have hFire : P.outReady r s.core = true → x.shaOutValid = true := by
      intro hReady
      cases hValid : x.shaOutValid with
      | true => rfl
      | false => exact absurd ⟨hReady, hValid⟩ hWait
    rw [hCfg] at hNext
    cases hOwn : (P.own cfg x.shaOutValid x.shaOutData r s.core).1 with
    | none =>
      rw [hNext, hOwn] at hBusy
      exact nomatch hBusy
    | some r' =>
      have hLess := hFalls.moves r s.core m.taken.length x.shaOutValid x.shaOutData hRuns hFire
        hSource r' hOwn
      rw [hNext, hOwn, see_run hIdle, hOut]
      simp only [Sampler.remaining, hSt, Option.elim]
      cases hBoth : P.outReady r s.core && x.shaOutValid with
      | false =>
        rw [hBoth, if_neg Bool.false_ne_true] at hLess
        rw [if_neg Bool.false_ne_true]
        omega
      | true =>
        rw [hBoth, if_pos rfl] at hLess
        rw [if_pos rfl, List.length_append, List.length_singleton]
        omega

/-- A run is not over before it is done. -/
theorem busy_next (hBusy : s.st.isIdle = false) (hDone : (s.next P x).done = false) :
    (s.next P x).st.isIdle = false := by
  cases hSt : s.st with
  | idle =>
    rw [hSt] at hBusy
    exact nomatch hBusy
  | abs =>
    simp only [Sampler.next, hSt]
    split
    · split
      · rfl
      · simp only [Sampler.calm, hSt, SamplerSt.isIdle]
    · simp only [Sampler.calm, hSt, SamplerSt.isIdle]
  | gap => simp only [Sampler.next, hSt, SamplerSt.isIdle]
  | flush => simp only [Sampler.next, hSt, SamplerSt.isIdle]
  | own r =>
    rw [next_own hSt] at hDone ⊢
    cases hOwn : (P.own x.cfg x.shaOutValid x.shaOutData r s.core).1 with
    | none =>
      rw [hOwn] at hDone
      exact nomatch hDone
    | some r' => rfl

theorem Falls.step (hFalls : Falls P cfg Begun Runs stream rank bound)
    (hLast : (P.last cfg).toNat + 1 = header.length) (hCfg : x.cfg = cfg)
    (hRun : InRun header Begun Runs Ends s m) (hBusy : s.st.isIdle = false)
    (hTaken : m.taken = (List.range m.taken.length).map stream)
    (hSource : x.shaOutValid = true → x.shaOutData = stream m.taken.length)
    (hNext : (s.next P x).st.isIdle = false) :
    Sampler.remaining rank bound header.length (s.next P x) (m.see P s x) <
        Sampler.remaining rank bound header.length s m ∨
      ∃ i, s.waitsFor P = some i ∧ ¬x.signal i ∧
        Sampler.remaining rank bound header.length (s.next P x) (m.see P s x) =
          Sampler.remaining rank bound header.length s m ∧
        (s.next P x).waitsFor P = some i := by
  rw [InRun] at hRun
  cases hSt : s.st with
  | idle =>
    rw [hSt] at hBusy
    exact nomatch hBusy
  | abs =>
    rw [hSt] at hRun
    exact Falls.abs_step hSt hLast hCfg hRun.2.1 _
  | gap =>
    left
    simp only [Sampler.remaining, Sampler.next, hSt]
    omega
  | flush =>
    rw [hSt] at hRun
    obtain ⟨-, -, hNone, hBegun⟩ := hRun
    have hFirst := hFalls.first _ hBegun
    have hIdle : (s.st.isIdle && x.start) = false := by rw [hSt]; rfl
    have hOut : s.shaOutReady P = false := by rw [Sampler.shaOutReady, hSt]
    left
    rw [see_run hIdle, hOut, hNone]
    simp only [Sampler.remaining, Sampler.next, Sampler.calm, hSt, Bool.false_and,
      Bool.false_eq_true, if_false, List.length_nil]
    omega
  | own r =>
    rw [hSt] at hRun
    exact hFalls.own_step hSt hCfg hRun.2.2 hTaken hSource hNext

end Step

theorem done_next {s : Sampler w ρ κ} {x : SamplerIn ξ} (hDone : (s.next P x).done = true) :
    (s.next P x).st = .idle := by
  cases hSt : s.st with
  | idle =>
    simp only [Sampler.next, hSt] at hDone
    split at hDone
    · exact nomatch hDone
    · exact nomatch hDone
  | abs =>
    simp only [Sampler.next, hSt] at hDone
    split at hDone
    · split at hDone
      · exact nomatch hDone
      · exact nomatch hDone
    · exact nomatch hDone
  | gap =>
    simp only [Sampler.next, hSt] at hDone
    exact nomatch hDone
  | flush =>
    simp only [Sampler.next, hSt] at hDone
    exact nomatch hDone
  | own r =>
    rw [next_own hSt] at hDone ⊢
    cases hOwn : (P.own x.cfg x.shaOutValid x.shaOutData r s.core).1 with
    | none => rfl
    | some r' =>
      rw [hOwn] at hDone
      exact nomatch hDone

theorem Begins.first_busy {ins : Nat → SamplerIn ξ} {n : Nat} (hBegins : Begins P cfg ins n) :
    ((sampler P).after ins (n + 1)).st.isIdle = false := by
  have hNext : (sampler P).after ins (n + 1) = ((sampler P).after ins n).next P (ins n) := rfl
  rw [hNext]
  simp only [Sampler.next, hBegins.idle, hBegins.start, if_true, SamplerSt.isIdle]

/-- What a run has taken is the beginning of the stream. -/
theorem Begins.taken {ins : Nat → SamplerIn ξ} {n : Nat} (hBegins : Begins P cfg ins n)
    {stream : Nat → BitVec 8} (hSqueezes : Squeezes P stream ins n) {k : Nat} (hk : n < k)
    (hBusy : BusyFrom P ins n k) :
    (sampled P ins k).taken = (List.range (sampled P ins k).taken.length).map stream := by
  induction k, hk using Nat.le_induction with
  | base =>
    have hSeen : sampled P ins (n + 1) = ⟨[], []⟩ := by
      change (sampled P ins n).see P ((sampler P).after ins n) (ins n) = _
      rw [Sampled.see, hBegins.idle, hBegins.start]
      rfl
    rw [hSeen]
    rfl
  | succ k hk ih =>
    exact taken_next (hBusy k hk (Nat.lt_succ_self k)) (ih hBusy.before)
      (hSqueezes.source k hk hBusy)

/-- If the sponge goes on, and its stream is one that the rank falls on, the sampler finishes. -/
theorem Samples.finishes (hSamples : Samples P cfg header Begun Runs Ends)
    {ins : Nat → SamplerIn ξ} {n : Nat} (hBegins : Begins P cfg ins n) {stream : Nat → BitVec 8}
    (hSqueezes : Squeezes P stream ins n) {rank : ρ → κ → Nat → Nat} {bound : Nat}
    (hFalls : Falls P cfg Begun Runs stream rank bound) :
    ∃ k > n, BusyFrom P ins n k ∧ ((sampler P).after ins k).done = true := by
  by_contra hNever
  have hFrom (k : Nat) : BusyFrom P ins n k := by
    induction k with
    | zero => exact fun j _ hTo => absurd hTo (Nat.not_lt_zero j)
    | succ k ih =>
      intro j hj hTo
      obtain hEarlier | rfl := Nat.lt_succ_iff_lt_or_eq.mp hTo
      · exact ih j hj hEarlier
      · cases j with
        | zero => exact absurd hj (Nat.not_lt_zero n)
        | succ i =>
          obtain rfl | hAfter := Nat.eq_or_lt_of_le (Nat.le_of_lt_succ hj)
          · exact hBegins.first_busy
          · apply busy_next (ih i hAfter (Nat.lt_succ_self i))
            rw [← Bool.not_eq_true]
            exact fun hDone => hNever ⟨i + 1, hj, ih, hDone⟩
  have hBusy (k : Nat) (hk : n < k) : ((sampler P).after ins k).st.isIdle = false :=
    hFrom (k + 1) k hk (Nat.lt_succ_self k)
  let f (k : Nat) := Sampler.remaining rank bound header.length
    ((sampler P).after ins (n + 1 + k)) (sampled P ins (n + 1 + k))
  let need (k : Nat) := ((sampler P).after ins (n + 1 + k)).waitsFor P
  let signal (i : Bool) (k : Nat) := (ins (n + 1 + k)).signal i
  apply @Clocked.not_waiting_forever Bool f need signal
  · intro i k hNeed
    have hk : n + 1 + k > n := by omega
    obtain ⟨rfl, hValid⟩ | ⟨rfl, hReady⟩ := waitsFor_eq hNeed
    · obtain ⟨j, hj, hSignal⟩ := hSqueezes.takes _ hk (hFrom _) hValid
      refine ⟨j - (n + 1), by omega, ?_⟩
      simp only [signal, SamplerIn.signal]
      rwa [Nat.add_sub_cancel' (by omega)]
    · obtain ⟨j, hj, hSignal⟩ := hSqueezes.gives _ hk (hFrom _) hReady
      refine ⟨j - (n + 1), by omega, ?_⟩
      simp only [signal, SamplerIn.signal]
      rwa [Nat.add_sub_cancel' (by omega)]
  · intro k
    have hk : n < n + 1 + k := by omega
    exact hFalls.step hSamples.last (hBegins.held _ (Nat.le_of_lt hk) (hFrom _))
      (hSamples.run hBegins hk (hFrom _)) (hBusy _ hk) (hBegins.taken hSqueezes hk (hFrom _))
      (hSqueezes.source _ hk (hFrom _)) (hBusy (n + 1 + k + 1) (by omega))

/-! ### A sampler and a reader -/

variable {σ : Type} {R : Reader (BitVec 8) σ} {Holds : κ → σ → Prop} {ins : Nat → SamplerIn ξ}
  {n : Nat}

/-- A run does what the reader says: the header goes in, exactly the bytes of the reader come out,
and the core holds what they make. -/
structure ReadsAs (P : SamplerParts w ξ ρ κ) (header : List (BitVec 8)) (R : Reader (BitVec 8) σ)
    (Holds : κ → σ → Prop) (ins : Nat → SamplerIn ξ) (n : Nat) : Prop where
  result : ∀ k > n, BusyFrom P ins n k → ((sampler P).after ins k).st = .idle →
    (sampled P ins k).absorbed = header ∧ R.Stops (sampled P ins k).taken ∧
      Holds ((sampler P).after ins k).core (R.read (sampled P ins k).taken)
  finishes : ∀ stream last, R.Stops ((List.range last).map stream) → Squeezes P stream ins n →
    ∃ k > n, BusyFrom P ins n k ∧ ((sampler P).after ins k).st = .idle ∧
      ((sampler P).after ins k).done = true ∧ (sampled P ins k).taken = (List.range last).map stream

theorem Samples.readsAs (hSamples : Samples P cfg header Begun Runs Ends)
    (hEnds : ∀ c bs, Ends c bs → R.Stops bs ∧ Holds c (R.read bs))
    (hFalls : ∀ stream last, R.Stops ((List.range last).map stream) →
      ∃ rank bound, Falls P cfg Begun Runs stream rank bound)
    (hBegins : Begins P cfg ins n) : ReadsAs P header R Holds ins n := by
  have hResult (k : Nat) (hk : n < k) (hBusy : BusyFrom P ins n k)
      (hIdle : ((sampler P).after ins k).st = .idle) :
      (sampled P ins k).absorbed = header ∧ R.Stops (sampled P ins k).taken ∧
        Holds ((sampler P).after ins k).core (R.read (sampled P ins k).taken) := by
    have hRun := hSamples.run hBegins hk hBusy
    rw [InRun, hIdle] at hRun
    exact ⟨hRun.2.1, hEnds _ _ hRun.2.2⟩
  constructor
  · exact hResult
  · intro stream last hStops hSqueezes
    obtain ⟨rank, bound, hRank⟩ := hFalls stream last hStops
    obtain ⟨k, hk, hBusy, hDone⟩ := hSamples.finishes hBegins hSqueezes hRank
    have hIdle : ((sampler P).after ins k).st = .idle := by
      obtain ⟨i, rfl⟩ := Nat.exists_eq_add_of_lt hk
      exact done_next (x := ins (n + i)) hDone
    have hTaken := hBegins.taken hSqueezes hk hBusy
    have hSame := (hResult k hk hBusy hIdle).2.1
    refine ⟨k, hk, hBusy, hIdle, hDone, ?_⟩
    rw [hTaken] at hSame ⊢
    rw [hSame.unique hStops]

end Runs

end PqcHsm
