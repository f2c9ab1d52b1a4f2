import Mathlib.Algebra.Group.Nat.Defs
import PqcHsm.Rtl.Sampler
import Mathlib.Logic.Function.Basic

/-!
# The polynomial samplers

`mldsa_poly_uniform` and `mldsa_poly_eta` beside the algorithms of the standard, which take bytes
from the sponge until they have 256 coefficients.
-/

namespace PqcHsm

/-! ### Headers and memories -/

/-- The bytes of a value, the lowest one first. -/
def bytesLe {w : Nat} (v : BitVec w) (n : Nat) : List (BitVec 8) :=
  (List.range n).map fun i => v.extractLsb' (8 * i) 8

/-- The memory holds these values from address 0 on. -/
def Stores {w : Nat} {γ : Type} (value : BitVec w → γ) (mem : BitVec 8 → BitVec w) (a : List γ) :
    Prop :=
  ∀ i (h : i < a.length), value (mem (BitVec.ofNat 8 i)) = a[i]

section Memory

variable {w : Nat} {γ : Type} {value : BitVec w → γ} {mem : BitVec 8 → BitVec w} {a : List γ}

theorem Stores.nil : Stores value mem [] := fun i h => absurd h (Nat.not_lt_zero i)

theorem Stores.concat (hStores : Stores value mem a) (hRoom : a.length < 256) {n : BitVec 9}
    (hn : n.toNat = a.length) (v : BitVec w) :
    Stores value (Function.update mem (n.setWidth 8) v) (a ++ [value v]) := by
  have hAddr : n.setWidth 8 = BitVec.ofNat 8 a.length := by
    apply BitVec.eq_of_toNat_eq
    rw [BitVec.toNat_setWidth, BitVec.toNat_ofNat, hn]
  intro i hi
  rw [List.length_append, List.length_singleton] at hi
  rw [hAddr]
  obtain hLess | rfl := Nat.lt_succ_iff_lt_or_eq.mp hi
  · have hNe : BitVec.ofNat 8 i ≠ BitVec.ofNat 8 a.length := by
      intro hEq
      have hNat := congrArg BitVec.toNat hEq
      rw [BitVec.toNat_ofNat, BitVec.toNat_ofNat] at hNat
      omega
    rw [Function.update_of_ne hNe, List.getElem_append_left hLess]
    exact hStores i hLess
  · rw [Function.update_self]
    simp

end Memory

/-! ### The uniform sampler -/

structure UniformCfg where
  seed : BitVec 256
  nonce : BitVec 16

inductive UniformSt where
  | run
  | done

structure UniformCore where
  bcnt : BitVec 2
  bbuf : BitVec 16
  n : BitVec 9
  we : Bool
  waddr : BitVec 8
  wdata : BitVec 23
  mem : BitVec 8 → BitVec 23

/-- `mldsa_rej_uniform` -/
def rejUniform (bytesIn : BitVec 24) : BitVec 23 × Bool :=
  (bytesIn.setWidth 23, bytesIn.setWidth 23 < 8380417)

def uniformHdrByte (cfg : UniformCfg) (i : BitVec 6) : BitVec 8 :=
  if i < 32 then cfg.seed.extractLsb' (8 * i.toNat) 8
  else if i = 32 then cfg.nonce.extractLsb' 0 8
  else cfg.nonce.extractLsb' 8 8

/-- The write that was asked for a cycle before. -/
def UniformCore.rest (c : UniformCore) : UniformCore :=
  { c with we := false, mem := if c.we then Function.update c.mem c.waddr c.wdata else c.mem }

/-- The third byte of a triple: its candidate is stored if it is a coefficient. -/
def UniformCore.third (c : UniformCore) (outData : BitVec 8) : UniformCore :=
  if (rejUniform (outData ++ c.bbuf)).2 then
    { c.rest with
      bcnt := 0
      we := true
      waddr := c.n.setWidth 8
      wdata := (rejUniform (outData ++ c.bbuf)).1
      n := c.n + 1 }
  else { c.rest with bcnt := 0 }

def UniformCore.push (c : UniformCore) (outData : BitVec 8) : UniformCore :=
  { c.rest with
    bbuf := outData ++ c.bbuf.extractLsb' 8 8
    bcnt := c.bcnt + 1 }

def UniformCore.run (c : UniformCore) (outValid : Bool) (outData : BitVec 8) :
    Option UniformSt × UniformCore :=
  if 256 ≤ c.n then (some .done, c.rest)
  else if outValid then (some .run, if c.bcnt = 2 then c.third outData else c.push outData)
  else (some .run, c.rest)

/-- `mldsa_poly_uniform` -/
def polyUniform : SamplerParts 6 UniformCfg UniformSt UniformCore where
  reset := ⟨0, 0, 0, false, 0, 0, fun _ => 0⟩
  last _ := 33
  hdrByte := uniformHdrByte
  hdrByteNxt cfg i := uniformHdrByte cfg (i + 1)
  init _ c := { c with n := 0, bcnt := 0 }
  rest := UniformCore.rest
  first := .run
  outReady r c :=
    match r with
    | .run => c.n < 256
    | .done => false
  own _ outValid outData r c :=
    match r with
    | .run => c.run outValid outData
    | .done => (none, c.rest)

/-- `CoeffFromThreeBytes` -/
def coeffFromThreeBytes (b0 b1 b2 : Nat) : Option Nat :=
  let b2' := if 127 < b2 then b2 - 128 else b2
  let z := 2 ^ 16 * b2' + 2 ^ 8 * b1 + b0
  if z < 8380417 then some z else none

/-- `RejNTTPoly` behind its header: the bytes of the triple that is being read, and the
coefficients. -/
def rejNttPoly : Reader (BitVec 8) (List (BitVec 8) × List Nat) where
  start := ([], [])
  feed st b :=
    match st.1 with
    | [b0, b1] => ([], st.2 ++ (coeffFromThreeBytes b0.toNat b1.toNat b.toNat).toList)
    | bs => (bs ++ [b], st.2)
  full st := 256 ≤ st.2.length

section Uniform

/-- The coefficient of three bytes is the candidate of their 24 bits. -/
theorem rejUniform_eq (b0 b1 b2 : BitVec 8) :
    coeffFromThreeBytes b0.toNat b1.toNat b2.toNat =
      if (rejUniform (b2 ++ (b1 ++ b0))).2 then some (rejUniform (b2 ++ (b1 ++ b0))).1.toNat
      else none := by
  have h0 := b0.isLt
  have h1 := b1.isLt
  have h2 := b2.isLt
  have hLow : (b1 ++ b0 : BitVec 16).toNat = b1.toNat * 2 ^ 8 + b0.toNat := by
    rw [BitVec.toNat_append, ← Nat.shiftLeft_add_eq_or_of_lt h0, Nat.shiftLeft_eq]
  have hAll : (b2 ++ (b1 ++ b0) : BitVec 24).toNat =
      b2.toNat * 2 ^ 16 + (b1.toNat * 2 ^ 8 + b0.toNat) := by
    rw [BitVec.toNat_append, hLow, ← Nat.shiftLeft_add_eq_or_of_lt (by omega), Nat.shiftLeft_eq]
  have hValue : ((b2 ++ (b1 ++ b0)).setWidth 23 : BitVec 23).toNat =
      2 ^ 16 * (if 127 < b2.toNat then b2.toNat - 128 else b2.toNat) + 2 ^ 8 * b1.toNat +
        b0.toNat := by
    rw [BitVec.toNat_setWidth, hAll]
    split
    · omega
    · omega
  have hModulus : (8380417 : BitVec 23).toNat = 8380417 := rfl
  simp only [coeffFromThreeBytes, rejUniform, decide_eq_true_iff, BitVec.lt_def, hValue, hModulus]

/-- The header of the standard: the seed and two bytes of the nonce, the low one first. -/
def polyHeader {w : Nat} (seed : BitVec w) (n : Nat) (nonce : BitVec 16) : List (BitVec 8) :=
  bytesLe seed n ++ bytesLe nonce 2

theorem length_polyHeader {w : Nat} (seed : BitVec w) (n : Nat) (nonce : BitVec 16) :
    (polyHeader seed n nonce).length = n + 2 := by
  rw [polyHeader, List.length_append, bytesLe, bytesLe, List.length_map, List.length_map,
    List.length_range, List.length_range]

theorem getElem?_polyHeader {w : Nat} (seed : BitVec w) (n : Nat) (nonce : BitVec 16) {i : Nat}
    (hi : i < n + 2) :
    (polyHeader seed n nonce)[i]? = some (if i < n then seed.extractLsb' (8 * i) 8
      else if i = n then nonce.extractLsb' 0 8 else nonce.extractLsb' 8 8) := by
  have hLen : (bytesLe seed n).length = n := by
    rw [bytesLe, List.length_map, List.length_range]
  rw [polyHeader]
  by_cases hSeed : i < n
  · rw [List.getElem?_append_left (by omega), if_pos hSeed, bytesLe, List.getElem?_map,
      List.getElem?_range hSeed]
    rfl
  · rw [List.getElem?_append_right (by omega), hLen, if_neg hSeed]
    obtain rfl | hNext : i = n ∨ i = n + 1 := by omega
    · rw [if_pos rfl, Nat.sub_self]
      rfl
    · rw [if_neg (by omega), hNext, Nat.add_sub_cancel_left]
      rfl

theorem uniformHdrByte_eq (cfg : UniformCfg) (i : BitVec 6) (hi : i.toNat < 34) :
    (polyHeader cfg.seed 32 cfg.nonce)[i.toNat]? = some (uniformHdrByte cfg i) := by
  have hThis : i = 32 ↔ i.toNat = 32 := by
    rw [← BitVec.toNat_inj]
    rfl
  have hSeed : i < 32 ↔ i.toNat < 32 := by
    rw [BitVec.lt_def]
    rfl
  rw [getElem?_polyHeader _ _ _ hi]
  simp only [uniformHdrByte, hThis, hSeed]

/-- The registers of the sampler are the state of the algorithm. -/
structure UniformCore.Reads (c : UniformCore) (bs : List (BitVec 8)) : Prop where
  buf : match (rejNttPoly.read bs).1 with
    | [] => c.bcnt = 0
    | [b0] => c.bcnt = 1 ∧ c.bbuf.extractLsb' 8 8 = b0
    | [b0, b1] => c.bcnt = 2 ∧ c.bbuf = b1 ++ b0
    | _ => False
  count : c.n.toNat = (rejNttPoly.read bs).2.length
  stored : Stores BitVec.toNat c.rest.mem (rejNttPoly.read bs).2

def UniformCore.Runs : UniformSt → UniformCore → List (BitVec 8) → Prop
  | .run, c, bs => c.Reads bs ∧ c.n.toNat ≤ 256 ∧
      (c.n.toNat < 256 → rejNttPoly.Open bs) ∧ (256 ≤ c.n.toNat → rejNttPoly.Stops bs)
  | .done, c, bs => rejNttPoly.Stops bs ∧ (rejNttPoly.read bs).2.length = 256 ∧
      Stores BitVec.toNat c.rest.mem (rejNttPoly.read bs).2

def UniformCore.Ends (c : UniformCore) (bs : List (BitVec 8)) : Prop :=
  c.we = false ∧ rejNttPoly.Stops bs ∧ (rejNttPoly.read bs).2.length = 256 ∧
    Stores BitVec.toNat c.mem (rejNttPoly.read bs).2

theorem UniformCore.rest_rest (c : UniformCore) : c.rest.rest = c.rest := rfl

section Step

variable {c : UniformCore} {bs : List (BitVec 8)}

theorem UniformCore.Reads.rest (hReads : c.Reads bs) : c.rest.Reads bs :=
  ⟨hReads.buf, hReads.count, hReads.stored⟩

theorem rejNttPoly_full :
    rejNttPoly.full (rejNttPoly.read bs) = decide (256 ≤ (rejNttPoly.read bs).2.length) :=
  rfl

/-- A byte that is not the third one of its triple. -/
theorem UniformCore.Reads.push (hReads : c.Reads bs) (hCount : c.bcnt ≠ 2) (b : BitVec 8) :
    (c.push b).Reads (bs ++ [b]) := by
  obtain ⟨hBuf, hLen, hStored⟩ := hReads
  have hRead := Reader.read_concat (R := rejNttPoly) bs b
  have hHigh (v : BitVec 8) : (b ++ v).extractLsb' 8 8 = b := by
    have hb := b.isLt
    have hv := v.isLt
    apply BitVec.eq_of_toNat_eq
    rw [BitVec.extractLsb'_toNat, BitVec.toNat_append, ← Nat.shiftLeft_add_eq_or_of_lt hv,
      Nat.shiftRight_eq_div_pow, Nat.shiftLeft_eq]
    omega
  cases hSt : rejNttPoly.read bs with
  | mk buf a =>
    rw [hSt] at hBuf hLen hStored hRead
    match buf, hBuf with
    | [], hBuf =>
      have hNext : rejNttPoly.read (bs ++ [b]) = ([b], a) := hRead
      refine ⟨?_, ?_, ?_⟩
      · rw [hNext]
        exact ⟨congrArg (· + 1) hBuf, hHigh _⟩
      · rw [hNext]
        exact hLen
      · rw [hNext]
        exact hStored
    | [b0], ⟨hOne, hByte⟩ =>
      have hNext : rejNttPoly.read (bs ++ [b]) = ([b0, b], a) := hRead
      refine ⟨?_, ?_, ?_⟩
      · rw [hNext]
        exact ⟨congrArg (· + 1) hOne, congrArg (b ++ ·) hByte⟩
      · rw [hNext]
        exact hLen
      · rw [hNext]
        exact hStored
    | [b0, b1], ⟨hTwo, _⟩ => exact absurd hTwo hCount

/-- The third byte. -/
theorem UniformCore.Reads.third (hReads : c.Reads bs) (hCount : c.bcnt = 2) (b : BitVec 8) :
    ∃ b0 b1 : BitVec 8, c.bbuf = b1 ++ b0 ∧ rejNttPoly.read (bs ++ [b]) =
      ([], (rejNttPoly.read bs).2 ++
        (coeffFromThreeBytes b0.toNat b1.toNat b.toNat).toList) := by
  obtain ⟨hBuf, -, -⟩ := hReads
  have hRead := Reader.read_concat (R := rejNttPoly) bs b
  cases hSt : rejNttPoly.read bs with
  | mk buf a =>
    rw [hSt] at hBuf hRead
    match buf, hBuf with
    | [], hBuf => exact absurd (hBuf.symm.trans hCount) (by decide)
    | [b0], ⟨hOne, _⟩ => exact absurd (hOne.symm.trans hCount) (by decide)
    | [b0, b1], ⟨_, hBytes⟩ => exact ⟨b0, b1, hBytes, hRead⟩

/-- The third byte, and the coefficient if it is one. -/
theorem UniformCore.Reads.take_third (hReads : c.Reads bs) (hThird : c.bcnt = 2)
    (hLess : c.n.toNat < 256) (b : BitVec 8) :
    (c.third b).Reads (bs ++ [b]) ∧ (c.third b).n.toNat ≤ 256 := by
  obtain ⟨b0, b1, hBytes, hRead⟩ := hReads.third hThird b
  have hCoeff := rejUniform_eq b0 b1 b
  rw [← hBytes] at hCoeff
  rw [UniformCore.third]
  cases hOk : (rejUniform (b ++ c.bbuf)).2 with
  | false =>
    rw [hOk, if_neg Bool.false_ne_true] at hCoeff
    rw [hCoeff] at hRead
    have hSame : rejNttPoly.read (bs ++ [b]) = ([], (rejNttPoly.read bs).2) :=
      hRead.trans (congrArg ([], ·) (List.append_nil _))
    rw [if_neg Bool.false_ne_true]
    refine ⟨⟨?_, ?_, ?_⟩, Nat.le_of_lt hLess⟩
    · rw [hSame]
    · rw [hSame]
      exact hReads.count
    · rw [hSame]
      exact hReads.stored
  | true =>
    rw [hOk, if_pos rfl] at hCoeff
    rw [hCoeff] at hRead
    have hNext : rejNttPoly.read (bs ++ [b]) =
      ([], (rejNttPoly.read bs).2 ++ [(rejUniform (b ++ c.bbuf)).1.toNat]) := hRead
    have hCount : (c.n + 1).toNat = c.n.toNat + 1 := by
      rw [BitVec.toNat_add]
      apply Nat.mod_eq_of_lt
      change c.n.toNat + 1 < 512
      omega
    rw [if_pos rfl]
    refine ⟨⟨?_, ?_, ?_⟩, ?_⟩
    · rw [hNext]
    · rw [hNext, List.length_append, ← hReads.count]
      exact hCount
    · rw [hNext]
      exact hReads.stored.concat (hReads.count ▸ hLess) hReads.count _
    · exact Nat.le_trans (Nat.le_of_eq hCount) hLess

/-- What a byte makes of the limit, once the registers follow. -/
theorem UniformCore.Reads.runs {c' : UniformCore} {b : BitVec 8} (hReads : c'.Reads (bs ++ [b]))
    (hMax : c'.n.toNat ≤ 256) (hOpen : rejNttPoly.Open bs) :
    UniformCore.Runs .run c' (bs ++ [b]) := by
  have hFull : rejNttPoly.full (rejNttPoly.feed (rejNttPoly.read bs) b) =
      decide (256 ≤ c'.n.toNat) := by
    rw [← Reader.read_concat, rejNttPoly_full, hReads.count]
  refine ⟨hReads, hMax, ?_, ?_⟩
  · intro hLess
    exact hOpen.concat (hFull.trans (decide_eq_false (Nat.not_le_of_lt hLess)))
  · intro hEnd
    exact hOpen.stops (hFull.trans (decide_eq_true hEnd))

theorem UniformCore.Runs.own {r : UniformSt} (hRuns : UniformCore.Runs r c bs) (cfg : UniformCfg)
    (v : Bool) (b : BitVec 8) :
    (polyUniform.own cfg v b r c).1.elim UniformCore.Ends UniformCore.Runs
      (polyUniform.own cfg v b r c).2
      (if polyUniform.outReady r c && v then bs ++ [b] else bs) := by
  cases r with
  | done =>
    obtain ⟨hStops, hLen, hStored⟩ := hRuns
    exact ⟨rfl, hStops, hLen, hStored⟩
  | run =>
    obtain ⟨hReads, hMax, hOpen, hStops⟩ := hRuns
    have hLimit : (256 : BitVec 9) ≤ c.n ↔ 256 ≤ c.n.toNat := by
      rw [BitVec.le_def]
      rfl
    have hReady : polyUniform.outReady .run c = decide (c.n.toNat < 256) :=
      decide_eq_decide.mpr Iff.rfl
    change (c.run v b).1.elim UniformCore.Ends UniformCore.Runs (c.run v b).2 _
    rw [hReady]
    by_cases hFull : 256 ≤ c.n.toNat
    · have hStay : (if (decide (c.n.toNat < 256) && v) = true then bs ++ [b] else bs) = bs := by
        rw [decide_eq_false (by omega)]
        rfl
      rw [hStay, UniformCore.run, if_pos (hLimit.mpr hFull)]
      refine ⟨hStops hFull, ?_, hReads.stored⟩
      rw [← hReads.count]
      omega
    · have hLess : c.n.toNat < 256 := by omega
      rw [decide_eq_true hLess, Bool.true_and, UniformCore.run, if_neg (mt hLimit.mp hFull)]
      cases v with
      | false =>
        rw [if_neg Bool.false_ne_true, if_neg Bool.false_ne_true]
        exact ⟨hReads.rest, hMax, hOpen, hStops⟩
      | true =>
        rw [if_pos rfl, if_pos rfl]
        by_cases hThird : c.bcnt = 2
        · rw [if_pos hThird]
          obtain ⟨hNext, hNextMax⟩ := hReads.take_third hThird hLess b
          exact hNext.runs hNextMax (hOpen hLess)
        · rw [if_neg hThird]
          exact (hReads.push hThird b).runs hMax (hOpen hLess)

end Step

def UniformCore.Begun (c : UniformCore) : Prop := c.n = 0 ∧ c.bcnt = 0

theorem uniform_samples (cfg : UniformCfg) :
    Samples polyUniform cfg (polyHeader cfg.seed 32 cfg.nonce) UniformCore.Begun UniformCore.Runs
      UniformCore.Ends where
  last := (length_polyHeader _ _ _).symm
  byte i hi := by
    rw [length_polyHeader] at hi
    exact uniformHdrByte_eq cfg i hi
  nxt i hi := by
    rw [length_polyHeader] at hi
    have hSucc : (i + 1).toNat = i.toNat + 1 := by
      rw [BitVec.toNat_add]
      apply Nat.mod_eq_of_lt
      change i.toNat + 1 < 64
      omega
    rw [← hSucc]
    exact uniformHdrByte_eq cfg (i + 1) (by omega)
  init c := ⟨rfl, rfl⟩
  rest c hBegun := hBegun
  first c hBegun := by
    obtain ⟨hCount, hBuf⟩ := hBegun
    have hZero : (polyUniform.rest c).n.toNat = 0 := congrArg BitVec.toNat hCount
    refine ⟨⟨hBuf, hZero, Stores.nil⟩, by omega, ?_, ?_⟩
    · intro _
      exact Reader.open_nil rfl
    · intro hFull
      exact absurd hFull (by omega)
  own r c bs v b hRuns := UniformCore.Runs.own hRuns cfg v b
  keeps c bs hEnds := by
    obtain ⟨hWe, hRead⟩ := hEnds
    have hMem : c.rest.mem = c.mem := by
      rw [UniformCore.rest, hWe]
      rfl
    exact ⟨rfl, hMem ▸ hRead⟩

/-- Two cycles for a byte, and the last ones. -/
def uniformRank (last : Nat) : UniformSt → UniformCore → Nat → Nat
  | .run, _, t => 2 * (last - t) + 2
  | .done, _, _ => 1

theorem uniform_falls (cfg : UniformCfg) {stream : Nat → BitVec 8} {last : Nat}
    (hStops : rejNttPoly.Stops ((List.range last).map stream)) :
    Falls polyUniform cfg UniformCore.Begun UniformCore.Runs stream (uniformRank last)
      (2 * last + 2) where
  first c _ := Nat.le_refl _
  waits r c t b hRuns hReady := by
    cases r with
    | done => exact nomatch hReady
    | run =>
      have hLess : ¬(256 : BitVec 9) ≤ c.n := by
        rw [BitVec.le_def]
        exact Nat.not_le_of_lt (of_decide_eq_true hReady)
      have hOwn : polyUniform.own cfg false b .run c = (some .run, c.rest) := by
        change c.run false b = _
        rw [UniformCore.run, if_neg hLess, if_neg Bool.false_ne_true]
      rw [hOwn]
      exact ⟨rfl, hReady, rfl⟩
  moves r c t v b hRuns hFire _ r' hNext := by
    cases r with
    | done => exact nomatch hNext
    | run =>
      change (c.run v b).1 = some r' at hNext
      rw [UniformCore.run] at hNext
      by_cases hFull : (256 : BitVec 9) ≤ c.n
      · rw [if_pos hFull] at hNext
        rw [← Option.some.inj hNext]
        exact Nat.le_add_left 2 (2 * (last - t))
      · rw [if_neg hFull] at hNext
        have hLess : c.n.toNat < 256 := by
          rw [BitVec.le_def] at hFull
          exact Nat.lt_of_not_le hFull
        have hReady : polyUniform.outReady .run c = true := decide_eq_true hLess
        have hMore := (hRuns.2.2.1 hLess).lt_of_stops hStops
        rw [hFire hReady, if_pos rfl] at hNext
        rw [hReady, hFire hReady, ← Option.some.inj hNext]
        change 2 * (last - (t + 1)) + 2 < 2 * (last - t) + 2
        omega

/-- The memory holds the polynomial of the algorithm. -/
def UniformCore.Holds (c : UniformCore) (st : List (BitVec 8) × List Nat) : Prop :=
  st.2.length = 256 ∧ Stores BitVec.toNat c.mem st.2

theorem polyUniform_reads {cfg : UniformCfg} {ins : Nat → SamplerIn UniformCfg} {n : Nat}
    (hBegins : Begins polyUniform cfg ins n) :
    ReadsAs polyUniform (polyHeader cfg.seed 32 cfg.nonce) rejNttPoly UniformCore.Holds ins n := by
  apply (uniform_samples cfg).readsAs _ _ hBegins
  · rintro c bs ⟨-, hStops, hLen, hStored⟩
    exact ⟨hStops, hLen, hStored⟩
  · intro stream last hStops
    exact ⟨uniformRank last, 2 * last + 2, uniform_falls cfg hStops⟩

end Uniform

/-! ### The sampler of small coefficients -/

structure EtaCfg where
  eta : BitVec 3
  seed : BitVec 512
  nonce : BitVec 16

inductive EtaSt where
  | run
  | lo
  | hi
  | done

structure EtaCore where
  byteHi : BitVec 4
  nib : BitVec 4
  n : BitVec 9
  we : Bool
  waddr : BitVec 8
  wdata : BitVec 32
  mem : BitVec 8 → BitVec 32

/-- `mldsa_rej_eta` -/
def rejEta (eta : BitVec 3) (nibble : BitVec 4) : BitVec 32 × Bool :=
  let scaled : BitVec 12 := nibble.setWidth 12 * 205
  let fifth : BitVec 4 := (scaled.extractLsb' 10 2).setWidth 4
  let rem := nibble - fifth * 5
  if eta = 2 then (2 - rem.setWidth 32, nibble < 15) else (4 - nibble.setWidth 32, nibble < 9)

def etaHdrByte (cfg : EtaCfg) (i : BitVec 7) : BitVec 8 :=
  if i < 64 then cfg.seed.extractLsb' (8 * i.toNat) 8
  else if i = 64 then cfg.nonce.extractLsb' 0 8
  else cfg.nonce.extractLsb' 8 8

def EtaCore.rest (c : EtaCore) : EtaCore :=
  { c with we := false, mem := if c.we then Function.update c.mem c.waddr c.wdata else c.mem }

/-- The half byte that is looked at goes to the memory. -/
def EtaCore.put (c : EtaCore) (eta : BitVec 3) : EtaCore :=
  { c.rest with
    we := true
    waddr := c.n.setWidth 8
    wdata := (rejEta eta c.nib).1
    n := c.n + 1 }

def EtaCore.own (eta : BitVec 3) (outValid : Bool) (outData : BitVec 8) (c : EtaCore) :
    EtaSt → Option EtaSt × EtaCore
  | .run =>
    if 256 ≤ c.n then (some .done, c.rest)
    else if outValid then
      (some .lo, { c.rest with byteHi := outData.extractLsb' 4 4, nib := outData.extractLsb' 0 4 })
    else (some .run, c.rest)
  | .lo => (some .hi, { (if (rejEta eta c.nib).2 then c.put eta else c.rest) with nib := c.byteHi })
  | .hi => (some .run, if (rejEta eta c.nib).2 && c.n < 256 then c.put eta else c.rest)
  | .done => (none, c.rest)

/-- `mldsa_poly_eta` -/
def polyEta : SamplerParts 7 EtaCfg EtaSt EtaCore where
  reset := ⟨0, 0, 0, false, 0, 0, fun _ => 0⟩
  last _ := 65
  hdrByte := etaHdrByte
  hdrByteNxt cfg i := etaHdrByte cfg (i + 1)
  init _ c := { c with n := 0 }
  rest := EtaCore.rest
  first := .run
  outReady r c :=
    match r with
    | .run => c.n < 256
    | _ => false
  own cfg outValid outData r c := c.own cfg.eta outValid outData r

/-- `CoeffFromHalfByte` -/
def coeffFromHalfByte (eta b : Nat) : Option Int :=
  if eta = 2 ∧ b < 15 then some (2 - (b % 5 : Nat))
  else if eta = 4 ∧ b < 9 then some (4 - (b : Int))
  else none

/-- `RejBoundedPoly` behind its header: the coefficients. -/
def rejBoundedPoly (eta : Nat) : Reader (BitVec 8) (List Int) where
  start := []
  feed a b :=
    let a' := a ++ (coeffFromHalfByte eta (b.toNat % 16)).toList
    if a'.length < 256 then a' ++ (coeffFromHalfByte eta (b.toNat / 16)).toList else a'
  full a := 256 ≤ a.length

section Eta

variable {eta : BitVec 3}

theorem rejEta_eq (hEta : eta = 2 ∨ eta = 4) (nibble : BitVec 4) :
    coeffFromHalfByte eta.toNat nibble.toNat =
      if (rejEta eta nibble).2 then some (rejEta eta nibble).1.toInt else none := by
  revert nibble
  obtain rfl | rfl := hEta
  · decide +kernel
  · decide +kernel

theorem etaHdrByte_eq (cfg : EtaCfg) (i : BitVec 7) (hi : i.toNat < 66) :
    (polyHeader cfg.seed 64 cfg.nonce)[i.toNat]? = some (etaHdrByte cfg i) := by
  have hThis : i = 64 ↔ i.toNat = 64 := by
    rw [← BitVec.toNat_inj]
    rfl
  have hSeed : i < 64 ↔ i.toNat < 64 := by
    rw [BitVec.lt_def]
    rfl
  rw [getElem?_polyHeader _ _ _ hi]
  simp only [etaHdrByte, hThis, hSeed]

/-- The coefficients that are stored or on their way to the memory. -/
structure EtaCore.Keeps (c : EtaCore) (a : List Int) : Prop where
  count : c.n.toNat = a.length
  stored : Stores BitVec.toInt c.rest.mem a

section Half

variable {c : EtaCore} {a : List Int}

theorem EtaCore.Keeps.rest (hKeeps : c.Keeps a) : c.rest.Keeps a := ⟨hKeeps.count, hKeeps.stored⟩

/-- A half byte is looked at. -/
theorem EtaCore.Keeps.judge (hKeeps : c.Keeps a) (hRoom : a.length < 256)
    (hEta : eta = 2 ∨ eta = 4) :
    (if (rejEta eta c.nib).2 then c.put eta else c.rest).Keeps
      (a ++ (coeffFromHalfByte eta.toNat c.nib.toNat).toList) := by
  rw [rejEta_eq hEta]
  cases hOk : (rejEta eta c.nib).2 with
  | false =>
    rw [if_neg Bool.false_ne_true, if_neg Bool.false_ne_true]
    change c.rest.Keeps (a ++ [])
    rw [List.append_nil]
    exact hKeeps.rest
  | true =>
    rw [if_pos rfl, if_pos rfl]
    constructor
    · change (c.n + 1).toNat = (a ++ [_]).length
      rw [List.length_append, List.length_singleton, ← hKeeps.count, BitVec.toNat_add]
      apply Nat.mod_eq_of_lt
      have hCount := hKeeps.count
      change c.n.toNat + 1 < 512
      omega
    · exact hKeeps.stored.concat hRoom hKeeps.count _

theorem length_coeffFromHalfByte (eta b : Nat) : (coeffFromHalfByte eta b).toList.length ≤ 1 := by
  cases coeffFromHalfByte eta b with
  | none => exact Nat.zero_le 1
  | some z => exact Nat.le_refl 1

end Half

/-- What the core is in each state, given the bytes taken: in the middle of a byte the algorithm has
read it already. -/
def EtaCore.Runs (eta : BitVec 3) : EtaSt → EtaCore → List (BitVec 8) → Prop
  | .run, c, bs => c.Keeps ((rejBoundedPoly eta.toNat).read bs) ∧ c.n.toNat ≤ 256 ∧
      (c.n.toNat < 256 → (rejBoundedPoly eta.toNat).Open bs) ∧
      (256 ≤ c.n.toNat → (rejBoundedPoly eta.toNat).Stops bs)
  | .lo, c, bs => ∃ bs' b, bs = bs' ++ [b] ∧ (rejBoundedPoly eta.toNat).Open bs' ∧
      c.nib.toNat = b.toNat % 16 ∧ c.byteHi.toNat = b.toNat / 16 ∧ c.n.toNat < 256 ∧
      c.Keeps ((rejBoundedPoly eta.toNat).read bs')
  | .hi, c, bs => ∃ bs' b, bs = bs' ++ [b] ∧ (rejBoundedPoly eta.toNat).Open bs' ∧
      c.nib.toNat = b.toNat / 16 ∧ c.n.toNat ≤ 256 ∧
      c.Keeps ((rejBoundedPoly eta.toNat).read bs' ++
        (coeffFromHalfByte eta.toNat (b.toNat % 16)).toList)
  | .done, c, bs => (rejBoundedPoly eta.toNat).Stops bs ∧
      ((rejBoundedPoly eta.toNat).read bs).length = 256 ∧
      Stores BitVec.toInt c.rest.mem ((rejBoundedPoly eta.toNat).read bs)

def EtaCore.Ends (eta : BitVec 3) (c : EtaCore) (bs : List (BitVec 8)) : Prop :=
  c.we = false ∧ (rejBoundedPoly eta.toNat).Stops bs ∧
    ((rejBoundedPoly eta.toNat).read bs).length = 256 ∧
    Stores BitVec.toInt c.mem ((rejBoundedPoly eta.toNat).read bs)

section Step

variable {c : EtaCore} {bs : List (BitVec 8)}

theorem toNat_nibbles (b : BitVec 8) :
    (b.extractLsb' 0 4).toNat = b.toNat % 16 ∧ (b.extractLsb' 4 4).toNat = b.toNat / 16 := by
  have hb := b.isLt
  constructor
  · rw [BitVec.extractLsb'_toNat, Nat.shiftRight_zero]
  · rw [BitVec.extractLsb'_toNat, Nat.shiftRight_eq_div_pow]
    omega

theorem EtaCore.Runs.of_run (hRuns : EtaCore.Runs eta .run c bs) (v : Bool)
    (b : BitVec 8) :
    (c.own eta v b .run).1.elim (EtaCore.Ends eta) (EtaCore.Runs eta) (c.own eta v b .run).2
      (if decide (c.n < 256) && v then bs ++ [b] else bs) := by
  obtain ⟨hKeeps, hMax, hOpen, hStops⟩ := hRuns
  have hLess : c.n < 256 ↔ c.n.toNat < 256 := by
    rw [BitVec.lt_def]
    rfl
  have hLimit : (256 : BitVec 9) ≤ c.n ↔ 256 ≤ c.n.toNat := by
    rw [BitVec.le_def]
    rfl
  by_cases hFull : 256 ≤ c.n.toNat
  · rw [EtaCore.own, if_pos (hLimit.mpr hFull), decide_eq_false (mt hLess.mp (by omega))]
    have hAll : ((rejBoundedPoly eta.toNat).read bs).length = 256 := by
      rw [← hKeeps.count]
      omega
    exact ⟨hStops hFull, hAll, hKeeps.stored⟩
  · rw [EtaCore.own, if_neg (mt hLimit.mp hFull), decide_eq_true (hLess.mpr (by omega))]
    cases v with
    | false => exact ⟨hKeeps.rest, hMax, hOpen, hStops⟩
    | true =>
      have hSome : c.n.toNat < 256 := by omega
      exact ⟨bs, b, rfl, hOpen hSome, (toNat_nibbles b).1, (toNat_nibbles b).2, hSome, hKeeps.count,
        hKeeps.stored⟩

theorem EtaCore.Runs.of_lo (hEta : eta = 2 ∨ eta = 4) (hRuns : EtaCore.Runs eta .lo c bs) (v : Bool)
    (b : BitVec 8) : EtaCore.Runs eta .hi (c.own eta v b .lo).2 bs := by
  obtain ⟨bs', b', rfl, hOpen, hLow, hHigh, hLess, hKeeps⟩ := hRuns
  have hRoom := hKeeps.count ▸ hLess
  have hNext := hKeeps.judge hRoom hEta
  rw [hLow] at hNext
  refine ⟨bs', b', rfl, hOpen, hHigh, ?_, hNext.count, hNext.stored⟩
  have hOne := length_coeffFromHalfByte eta.toNat (b'.toNat % 16)
  refine Nat.le_trans (Nat.le_of_eq hNext.count) ?_
  rw [List.length_append]
  omega

theorem feed_rejBoundedPoly (eta : Nat) (a : List Int) (b : BitVec 8) :
    (rejBoundedPoly eta).feed a b =
      if (a ++ (coeffFromHalfByte eta (b.toNat % 16)).toList).length < 256 then
        a ++ (coeffFromHalfByte eta (b.toNat % 16)).toList ++
          (coeffFromHalfByte eta (b.toNat / 16)).toList
      else a ++ (coeffFromHalfByte eta (b.toNat % 16)).toList :=
  rfl

theorem EtaCore.Runs.of_hi (hEta : eta = 2 ∨ eta = 4) (hRuns : EtaCore.Runs eta .hi c bs) (v : Bool)
    (b : BitVec 8) : EtaCore.Runs eta .run (c.own eta v b .hi).2 bs := by
  obtain ⟨bs', b', rfl, hOpen, hHigh, hMax, hKeeps⟩ := hRuns
  have hRead : (rejBoundedPoly eta.toNat).read (bs' ++ [b']) =
      (rejBoundedPoly eta.toNat).feed ((rejBoundedPoly eta.toNat).read bs') b' :=
    Reader.read_concat bs' b'
  have hLess : c.n < 256 ↔ c.n.toNat < 256 := by
    rw [BitVec.lt_def]
    rfl
  have hNext : (c.own eta v b .hi).2.Keeps ((rejBoundedPoly eta.toNat).read (bs' ++ [b'])) ∧
      (c.own eta v b .hi).2.n.toNat ≤ 256 := by
    rw [hRead, feed_rejBoundedPoly, EtaCore.own]
    dsimp only
    by_cases hRoom : c.n.toNat < 256
    · have hLength := hKeeps.count ▸ hRoom
      have hJudged := hKeeps.judge hLength hEta
      rw [decide_eq_true (hLess.mpr hRoom), Bool.and_true, if_pos hLength]
      rw [hHigh] at hJudged
      refine ⟨hJudged, Nat.le_trans (Nat.le_of_eq hJudged.count) ?_⟩
      have hOne := length_coeffFromHalfByte eta.toNat (b'.toNat / 16)
      rw [List.length_append]
      omega
    · have hLength := hKeeps.count ▸ hRoom
      rw [decide_eq_false (mt hLess.mp hRoom), Bool.and_false, if_neg Bool.false_ne_true,
        if_neg hLength]
      exact ⟨hKeeps.rest, hMax⟩
  have hFull : (rejBoundedPoly eta.toNat).full ((rejBoundedPoly eta.toNat).feed
      ((rejBoundedPoly eta.toNat).read bs') b') = decide (256 ≤ (c.own eta v b .hi).2.n.toNat) := by
    rw [← hRead, hNext.1.count]
    rfl
  refine ⟨hNext.1, hNext.2, ?_, ?_⟩
  · intro hSome
    exact hOpen.concat (hFull.trans (decide_eq_false (Nat.not_le_of_lt hSome)))
  · intro hAll
    exact hOpen.stops (hFull.trans (decide_eq_true hAll))

end Step

theorem eta_samples (cfg : EtaCfg) (hEta : cfg.eta = 2 ∨ cfg.eta = 4) :
    Samples polyEta cfg (polyHeader cfg.seed 64 cfg.nonce) (fun c => c.n = 0)
      (EtaCore.Runs cfg.eta) (EtaCore.Ends cfg.eta) where
  last := (length_polyHeader _ _ _).symm
  byte i hi := by
    rw [length_polyHeader] at hi
    exact etaHdrByte_eq cfg i hi
  nxt i hi := by
    rw [length_polyHeader] at hi
    have hSucc : (i + 1).toNat = i.toNat + 1 := by
      rw [BitVec.toNat_add]
      apply Nat.mod_eq_of_lt
      change i.toNat + 1 < 128
      omega
    rw [← hSucc]
    exact etaHdrByte_eq cfg (i + 1) (by omega)
  init c := rfl
  rest c hBegun := hBegun
  first c hBegun := by
    have hZero : (polyEta.rest c).n.toNat = 0 := congrArg BitVec.toNat hBegun
    refine ⟨⟨hZero, Stores.nil⟩, by omega, ?_, ?_⟩
    · intro _
      exact Reader.open_nil rfl
    · intro hFull
      exact absurd hFull (by omega)
  own r c bs v b hRuns := by
    cases r with
    | run => exact hRuns.of_run v b
    | lo => exact hRuns.of_lo hEta v b
    | hi => exact hRuns.of_hi hEta v b
    | done =>
      obtain ⟨hStops, hLen, hStored⟩ := hRuns
      exact ⟨rfl, hStops, hLen, hStored⟩
  keeps c bs hEnds := by
    obtain ⟨hWe, hRead⟩ := hEnds
    have hMem : c.rest.mem = c.mem := by
      rw [EtaCore.rest, hWe]
      rfl
    exact ⟨rfl, hMem ▸ hRead⟩

/-- Three cycles for a byte, and the last ones. -/
def etaRank (last : Nat) : EtaSt → EtaCore → Nat → Nat
  | .run, _, t => 3 * (last - t) + 2
  | .lo, _, t => 3 * (last - t) + 4
  | .hi, _, t => 3 * (last - t) + 3
  | .done, _, _ => 1

theorem eta_falls (cfg : EtaCfg) {stream : Nat → BitVec 8} {last : Nat}
    (hStops : (rejBoundedPoly cfg.eta.toNat).Stops ((List.range last).map stream)) :
    Falls polyEta cfg (fun c => c.n = 0) (EtaCore.Runs cfg.eta) stream (etaRank last)
      (3 * last + 2) where
  first c _ := Nat.le_refl _
  waits r c t b hRuns hReady := by
    cases r with
    | lo => exact nomatch hReady
    | hi => exact nomatch hReady
    | done => exact nomatch hReady
    | run =>
      have hLess : ¬(256 : BitVec 9) ≤ c.n := by
        rw [BitVec.le_def]
        exact Nat.not_le_of_lt (of_decide_eq_true hReady)
      have hOwn : polyEta.own cfg false b .run c = (some .run, c.rest) := by
        change c.own cfg.eta false b .run = _
        rw [EtaCore.own, if_neg hLess, if_neg Bool.false_ne_true]
      rw [hOwn]
      exact ⟨rfl, hReady, rfl⟩
  moves r c t v b hRuns hFire _ r' hNext := by
    cases r with
    | done => exact nomatch hNext
    | lo =>
      rw [← Option.some.inj hNext]
      exact Nat.lt_succ_self _
    | hi =>
      rw [← Option.some.inj hNext]
      exact Nat.lt_succ_self _
    | run =>
      change (c.own cfg.eta v b .run).1 = some r' at hNext
      rw [EtaCore.own] at hNext
      by_cases hFull : (256 : BitVec 9) ≤ c.n
      · rw [if_pos hFull] at hNext
        rw [← Option.some.inj hNext]
        exact Nat.le_add_left 2 (3 * (last - t))
      · rw [if_neg hFull] at hNext
        have hLess : c.n.toNat < 256 := by
          rw [BitVec.le_def] at hFull
          exact Nat.lt_of_not_le hFull
        have hReady : polyEta.outReady .run c = true := decide_eq_true hLess
        have hMore := (hRuns.2.2.1 hLess).lt_of_stops hStops
        rw [hFire hReady, if_pos rfl] at hNext
        rw [hReady, hFire hReady, ← Option.some.inj hNext]
        change 3 * (last - (t + 1)) + 4 < 3 * (last - t) + 2
        omega

def EtaCore.Holds (c : EtaCore) (a : List Int) : Prop :=
  a.length = 256 ∧ Stores BitVec.toInt c.mem a

theorem polyEta_reads {cfg : EtaCfg} (hEta : cfg.eta = 2 ∨ cfg.eta = 4)
    {ins : Nat → SamplerIn EtaCfg} {n : Nat} (hBegins : Begins polyEta cfg ins n) :
    ReadsAs polyEta (polyHeader cfg.seed 64 cfg.nonce) (rejBoundedPoly cfg.eta.toNat)
      EtaCore.Holds ins n := by
  apply (eta_samples cfg hEta).readsAs _ _ hBegins
  · rintro c bs ⟨-, hStops, hLen, hStored⟩
    exact ⟨hStops, hLen, hStored⟩
  · intro stream last hStops
    exact ⟨etaRank last, 3 * last + 2, eta_falls cfg hStops⟩

end Eta

end PqcHsm
