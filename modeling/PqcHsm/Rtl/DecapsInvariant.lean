import PqcHsm.Rtl.DecapsIntake

/-!
# What the states of decapsulation rely on

One predicate for each state, and the steps as far as the ciphertext and its hash.
-/

namespace PqcHsm

open MlKem

section States

variable (E : Cores) (c : DecapsCtl) (d : DecapsData) (m : DecapsLog)

/-- The key is in, and nothing has come out. -/
structure HasKey : Prop where
  sized : c.Sized
  key : HoldsDk c d m.dk
  out : m.out = []

/-- What the rejection is made of. -/
def jInput : List (BitVec 8) := kemSecret c.k m.dk ++ m.c

/-- The key, the ciphertext and the key of a rejection are there. -/
structure Ready : Prop where
  has : HasKey c d m
  ct : HoldsC c d m.c
  kbar : ∀ i < 32, regByte d.kbarR i = E.sponge 0x1f (jInput c m) i

def accOf (i : Nat) : Poly := accAfter E c.k c.d11 m.dk m.c i
def uOf (i : Nat) : Poly := uPoly c.k c.d11 m.c i
def uHatOf (i : Nat) : Poly := E.ntt false (uOf c m i)
def suOf : Poly := E.ntt true (accOf E c m c.k)
def vOf : Poly := vPoly c.k c.d11 m.c
def messageOf : BitVec 8 → Bool := message E c.k c.d11 m.dk m.c

/-- A coefficient of the ciphertext is unpacked, the first `ucnt` of its polynomial are there. -/
structure UIn : Prop where
  idx : c.idxI < c.k
  coef : c.ucnt < 256
  phase : c.vPhase = false
  acc : d.bank slAcc = accOf E c m c.idxI
  poly : ∀ n : BitVec 8, n.toNat < c.ucnt → d.nttMem n = uOf c m c.idxI n
  bits : Unpacks (m.c.take (c1len c.k c.d11)) (du c.d11) c.cpos (256 * c.idxI + c.ucnt) d.buAcc
    c.nbits

/-- A polynomial of the ciphertext is unpacked. -/
structure UOut : Prop where
  idx : c.idxI < c.k
  phase : c.vPhase = false
  bits : Unpacks (m.c.take (c1len c.k c.d11)) (du c.d11) c.cpos (256 * (c.idxI + 1)) d.buAcc
    c.nbits

/-- The product goes to the accumulator pair by pair; `done` are the coefficients that it has. -/
structure MacAt (done : BitVec 8 → Prop) : Prop where
  out : UOut c d m
  pair : c.pair < 128
  ntt : d.nttMem = uHatOf E c m c.idxI
  new : ∀ n, done n → d.bank slAcc n = accOf E c m (c.idxI + 1) n
  old : ∀ n, ¬done n → d.bank slAcc n = accOf E c m c.idxI n

def macE : BitVec 8 := BitVec.ofNat 8 (2 * c.pair)
def macO : BitVec 8 := BitVec.ofNat 8 (2 * c.pair + 1)
def pairsBefore (n : BitVec 8) : Prop := n.toNat / 2 < c.pair

/-- The registers that hold the first coefficients of a pair, and the second ones. -/
def MacFirst : Prop :=
  d.a0 = sHat m.dk c.idxI (macE c) ∧ d.b0 = uHatOf E c m c.idxI (macE c) ∧
    d.acc0 = accOf E c m c.idxI (macE c)

def MacSecond : Prop :=
  d.a1 = sHat m.dk c.idxI (macO c) ∧ d.b1 = uHatOf E c m c.idxI (macO c) ∧
    d.acc1 = accOf E c m c.idxI (macO c)

/-- All polynomials of the ciphertext are done. -/
structure UAll : Prop where
  empty : UnpackerEmpty c d
  cpos : c.cpos = c1len c.k c.d11
  acc : d.bank slAcc = accOf E c m c.k

/-- The last polynomial is unpacked, as far as coefficient `e`. -/
structure VIn (e : Nat) : Prop where
  coef : c.vcnt < 256
  phase : c.vPhase = true
  ntt : d.nttMem = suOf E c m
  bitsDone : ∀ n : BitVec 8, n.toNat < c.vcnt → d.mR n = messageOf E c m n
  behind : c1len c.k c.d11 ≤ c.cpos
  bits : Unpacks (m.c.drop (c1len c.k c.d11)) (dv c.d11) (c.cpos - c1len c.k c.d11) e d.buAcc
    c.nbits

def ekOf : List (BitVec 8) := (m.dk.drop (sbytes c.k)).take (eklen c.k)

/-- What the inner core gives. -/
def encOf (i : Nat) : BitVec 8 := E.encaps c.ps (messageOf E c m) (ekOf c m) i

/-- The inner core gets its key, byte by byte. -/
structure KeyReplay : Prop where
  ek : d.enc.ek = (ekOf c m).take c.ekpos
  inside : c.ekpos ≤ eklen c.k
  loaded : c.ekbV = true → c.ekpos < eklen c.k ∧ d.ekbR = (ekOf c m).getD c.ekpos 0
  reads : c.ekbWait = false → d.ekbDout = d.ekbuf c.ekpos

/-- The first `r` of its bytes have been looked at. -/
structure Compared (r : Nat) : Prop where
  key : Shifted d.kprimeR ((List.range (min r 32)).map (encOf E c m))
  diff : d.cmpDiff = true ↔ ∃ i < r - 32, encOf E c m (32 + i) ≠ m.c.getD i 0

/-- The inner core runs. -/
structure KemReplays : Prop where
  ps : d.enc.ps = c.ps
  msg : d.enc.m = messageOf E c m
  replay : KeyReplay c d m
  given : d.enc.given = c.rbcnt
  more : c.rbcnt < clen c.k c.d11 + 32
  whole : 0 < c.rbcnt → c.ekpos = eklen c.k ∧ d.cbbDout = d.cbuf c.cbcnt
  count : c.cbcnt = c.rbcnt - 32
  bytes : Compared E c d m c.rbcnt

/-- The key that is delivered. -/
def keyOf : List (BitVec 8) := decapsKey E c.ps m.dk m.c

/-- The key has been chosen. -/
structure Chosen : Prop where
  sized : c.Sized
  empty : UnpackerEmpty c d
  dk : m.dk.length = dklen c.k
  ct : m.c.length = clen c.k c.d11

/-- What holds in a state. -/
def InvAt : DecapsSt → Prop
  | .idle => UnpackerEmpty c d
  | .hekStart => c.Sized ∧ UnpackerEmpty c d ∧ c.Zeroed ∧ m = ⟨c.ps, [], [], []⟩
  | .dkIn =>
    c.Sized ∧ UnpackerEmpty c d ∧ DkIntake c d m.dk ∧ c.dkcnt < dklen c.k ∧ m.c = [] ∧ m.out = []
  | .hekFlush => HasKey c d m ∧ UnpackerEmpty c d ∧ m.c = [] ∧ c.ocnt = 0
  | .hekSq => HasKey c d m ∧ UnpackerEmpty c d ∧ m.c = [] ∧ c.ocnt < 32
  | .jStart => HasKey c d m ∧ UnpackerEmpty c d ∧ m.c = []
  | .jZ =>
    HasKey c d m ∧ UnpackerEmpty c d ∧ m.c = [] ∧ c.ocnt < 32 ∧
      d.sha = ⟨0x1f, (kemSecret c.k m.dk).take c.ocnt, 0⟩
  | .cIn =>
    HasKey c d m ∧ UnpackerEmpty c d ∧ c.cpos = m.c.length ∧ c.cpos < clen c.k c.d11 ∧
      (∀ j < c.cpos, d.cbuf j = m.c.getD j 0) ∧ d.sha = ⟨0x1f, jInput c m, 0⟩
  | .jFlush => HasKey c d m ∧ UnpackerEmpty c d ∧ HoldsC c d m.c ∧ d.sha = ⟨0x1f, jInput c m, 0⟩
  | .jSq =>
    HasKey c d m ∧ UnpackerEmpty c d ∧ HoldsC c d m.c ∧ d.sha = ⟨0x1f, jInput c m, c.ocnt⟩ ∧
      c.ocnt < 32 ∧ Shifted d.kbarR ((List.range c.ocnt).map (E.sponge 0x1f (jInput c m)))
  | .accClr =>
    Ready E c d m ∧ UnpackerEmpty c d ∧ c.acnt < 256 ∧
      ∀ n : BitVec 8, n.toNat < c.acnt → d.bank slAcc n = 0
  | .uWait => Ready E c d m ∧ UIn E c d m
  | .uStep =>
    Ready E c d m ∧ UIn E c d m ∧ (c.cpos < clen c.k c.d11 → d.cbbDout = m.c.getD c.cpos 0)
  | .uNtt =>
    Ready E c d m ∧ UOut c d m ∧ d.bank slAcc = accOf E c m c.idxI ∧ c.nttInverse = false ∧
      d.nttMem = if c.nttKicked then uHatOf E c m c.idxI else uOf c m c.idxI
  | .macA0 => Ready E c d m ∧ MacAt E c d m (pairsBefore c)
  | .macA1 =>
    Ready E c d m ∧ MacAt E c d m (pairsBefore c) ∧ d.baDout = sHat m.dk c.idxI (macE c) ∧
      d.nttRdData = uHatOf E c m c.idxI (macE c) ∧ d.bbDout = accOf E c m c.idxI (macE c)
  | .macC =>
    Ready E c d m ∧ MacAt E c d m (pairsBefore c) ∧ MacFirst E c d m ∧
      d.baDout = sHat m.dk c.idxI (macO c) ∧ d.nttRdData = uHatOf E c m c.idxI (macO c) ∧
      d.bbDout = accOf E c m c.idxI (macO c)
  | .macM =>
    Ready E c d m ∧ MacAt E c d m (pairsBefore c) ∧ MacFirst E c d m ∧ MacSecond E c d m
  | .macT =>
    Ready E c d m ∧ MacAt E c d m (pairsBefore c) ∧ MacFirst E c d m ∧ MacSecond E c d m ∧
      d.tAb = basemulHead d.a1 d.b1
  | .macW0 =>
    Ready E c d m ∧ MacAt E c d m (pairsBefore c) ∧
      barrettReduce (d.acc0 + d.bm0) = accOf E c m (c.idxI + 1) (macE c) ∧
      barrettReduce (d.acc1 + d.bm1) = accOf E c m (c.idxI + 1) (macO c)
  | .macW1 =>
    Ready E c d m ∧ MacAt E c d m (fun n => pairsBefore c n ∨ n = macE c) ∧
      barrettReduce (d.acc1 + d.bm1) = accOf E c m (c.idxI + 1) (macO c)
  | .a2nRd => Ready E c d m ∧ UAll E c d m
  | .a2n =>
    Ready E c d m ∧ UAll E c d m ∧ c.acnt < 256 ∧
      d.bbDout = accOf E c m c.k (BitVec.ofNat 8 c.acnt) ∧
      ∀ n : BitVec 8, n.toNat < c.acnt → d.nttMem n = accOf E c m c.k n
  | .inv =>
    Ready E c d m ∧ UAll E c d m ∧ c.nttInverse = true ∧
      d.nttMem = if c.nttKicked then suOf E c m else accOf E c m c.k
  | .vWait => Ready E c d m ∧ VIn E c d m c.vcnt
  | .vStep =>
    Ready E c d m ∧ VIn E c d m c.vcnt ∧ d.nttRdData = suOf E c m (BitVec.ofNat 8 c.vcnt) ∧
      (c.cpos < clen c.k c.d11 → d.cbbDout = m.c.getD c.cpos 0)
  | .vW =>
    Ready E c d m ∧ VIn E c d m (c.vcnt + 1) ∧ d.vR = vOf c m (BitVec.ofNat 8 c.vcnt) ∧
      d.suR = suOf E c m (BitVec.ofNat 8 c.vcnt)
  | .vBit =>
    Ready E c d m ∧ VIn E c d m (c.vcnt + 1) ∧
      d.wR = barrettReduce (vOf c m (BitVec.ofNat 8 c.vcnt) - suOf E c m (BitVec.ofNat 8 c.vcnt))
  | .reStart => Ready E c d m ∧ UnpackerEmpty c d ∧ d.mR = messageOf E c m
  | .reRun => Ready E c d m ∧ UnpackerEmpty c d ∧ KemReplays E c d m
  | .out =>
    Chosen c d m ∧ c.ocnt < 32 ∧ (∀ i < 32, regByte d.kout i = (keyOf E c m).getD i 0) ∧
      m.out = (keyOf E c m).take c.ocnt
  | .done => Chosen c d m ∧ m.out = keyOf E c m

end States

section Steps

variable {E : Cores} {c : DecapsCtl} {d : DecapsData} {m : DecapsLog} {x : DecapsIn}

/-! ### What a step leaves alone -/

theorem step_keeps (c : DecapsCtl) (t : DecapsTiming) :
    (c.step t).k = c.k ∧ (c.step t).ps = c.ps ∧ (c.step t).d11 = c.d11 := by
  obtain ⟨hK, hPs, hD11, -⟩ := stepPlace_keeps c
  have hDk : c.stepDk.k = c.k ∧ c.stepDk.ps = c.ps ∧ c.stepDk.d11 = c.d11 := by
    rw [DecapsCtl.stepDk]
    split
    · exact ⟨hK, hPs, hD11⟩
    · exact ⟨hK, hPs, hD11⟩
  have hEk : (c.stepEk t).k = c.k ∧ (c.stepEk t).ps = c.ps ∧ (c.stepEk t).d11 = c.d11 := by
    rw [DecapsCtl.stepEk]
    repeat' split
    all_goals exact ⟨rfl, rfl, rfl⟩
  have hRe : (c.stepRe t).k = c.k ∧ (c.stepRe t).ps = c.ps ∧ (c.stepRe t).d11 = c.d11 := by
    rw [DecapsCtl.stepRe]
    repeat' split
    all_goals exact hEk
  rw [DecapsCtl.step]
  repeat' split
  all_goals first | exact ⟨rfl, rfl, rfl⟩ | exact hDk | exact hRe

theorem next_keeps (hStart : x.start = false) :
    (c.next x.toDecapsTiming).k = c.k ∧ (c.next x.toDecapsTiming).ps = c.ps ∧
      (c.next x.toDecapsTiming).d11 = c.d11 := by
  rw [DecapsCtl.next, hStart, if_neg Bool.false_ne_true]
  exact step_keeps c x.toDecapsTiming

theorem regSt_run (hStart : x.start = false) : DecapsData.regSt c x = c.st := by
  rw [DecapsData.regSt, hStart, if_neg Bool.false_ne_true]

/-- The key stays where it is. -/
theorem HasKey.next (hHas : HasKey c d m) (hStart : x.start = false) (hSt : c.st ≠ .dkIn) :
    HasKey (c.next x.toDecapsTiming) (d.next E c x) m := by
  obtain ⟨hSized, ⟨hLength, hBank, hEkbuf, hSecret⟩, hOut⟩ := hHas
  obtain ⟨hK, hPs, hD11⟩ := next_keeps (c := c) hStart
  have hReg := regSt_run (c := c) hStart
  have hBounds := kNow_bounds c.ps
  have hFire : c.dkFire x.toDecapsTiming = false := by
    rw [DecapsCtl.dkFire, decide_eq_false hSt]
    rfl
  have hBankNext (i : Nat) (hi : i < c.k) : (d.next E c x).bank i = d.bank i := by
    have hSlot : i ≠ slAcc := by
      have hk := hSized.1
      rw [slAcc]
      omega
    change d.bankNext c x i = d.bank i
    rw [DecapsData.bankNext]
    cases hCase : c.st with
    | dkIn => exact absurd hCase hSt
    | accClr => exact writeBank_other _ hSlot _ _
    | macW0 => exact writeBank_other _ hSlot _ _
    | macW1 => exact writeBank_other _ hSlot _ _
    | _ => rfl
  have hEkNext : (d.next E c x).ekbuf = d.ekbuf := by
    change d.ekbufNext c x = d.ekbuf
    rw [DecapsData.ekbufNext, DecapsData.ekInFire, hFire]
    rfl
  have hZNext : (d.next E c x).zR = d.zR := by
    change d.zRNext c x = d.zR
    rw [DecapsData.zRNext, hReg]
    split
    · exact absurd ‹_› hSt
    · rfl
  constructor
  · exact ⟨by rw [hK, hPs]; exact hSized.1, by rw [hD11, hPs]; exact hSized.2⟩
  · constructor
    · rw [hK]
      exact hLength
    · intro i hi
      rw [hK] at hi
      rw [hBankNext i hi]
      exact hBank i hi
    · rw [hK, hEkNext]
      exact hEkbuf
    · rw [hK, hZNext]
      exact hSecret
  · exact hOut

theorem HoldsC.next (hCt : HoldsC c d m.c) (hStart : x.start = false) (hSt : c.st ≠ .cIn) :
    HoldsC (c.next x.toDecapsTiming) (d.next E c x) m.c := by
  obtain ⟨hK, -, hD11⟩ := next_keeps (c := c) hStart
  have hCbuf : (d.next E c x).cbuf = d.cbuf := by
    change d.cbufNext c x = d.cbuf
    rw [DecapsData.cbufNext, DecapsCtl.cFire, decide_eq_false hSt]
    rfl
  constructor
  · rw [hK, hD11]
    exact hCt.length
  · rw [hK, hD11, hCbuf]
    exact hCt.cbuf

theorem Ready.next (hReady : Ready E c d m) (hStart : x.start = false) (hDk : c.st ≠ .dkIn)
    (hC : c.st ≠ .cIn) (hSq : c.st ≠ .jSq) :
    Ready E (c.next x.toDecapsTiming) (d.next E c x) m := by
  obtain ⟨hK, -, -⟩ := next_keeps (c := c) hStart
  have hReg := regSt_run (c := c) hStart
  have hKbar : (d.next E c x).kbarR = d.kbarR := by
    change d.kbarRNext E c x = d.kbarR
    rw [DecapsData.kbarRNext, hReg]
    split
    · exact absurd ‹_› hSq
    · rfl
  constructor
  · exact hReady.has.next hStart hDk
  · exact hReady.ct.next hStart hC
  · rw [hKbar, jInput, hK]
    exact hReady.kbar

theorem nbitsNext_quiet (hU : c.st ≠ .uStep) (hV : c.st ≠ .vStep) : c.nbitsNext = c.nbits := by
  rw [DecapsCtl.nbitsNext]
  split
  · exact absurd ‹_› hU
  · exact absurd ‹_› hV
  · rfl

theorem UnpackerEmpty.next (hEmpty : UnpackerEmpty c d) (hU : c.st ≠ .uStep) (hV : c.st ≠ .vStep) :
    UnpackerEmpty (c.next x.toDecapsTiming) (d.next E c x) := by
  have hBits := nbitsNext_quiet hU hV
  have hAcc : d.buAccNext c = d.buAcc := by
    rw [DecapsData.buAccNext]
    split
    · exact absurd ‹_› hU
    · exact absurd ‹_› hV
    · rfl
  constructor
  · exact hBits.trans hEmpty.1
  · exact hAcc.trans hEmpty.2

theorem next_quiet (hStart : x.start = false) (hU : c.st ≠ .uStep) (hV : c.st ≠ .vStep) :
    c.next x.toDecapsTiming = { c.step x.toDecapsTiming with nbits := c.nbits } := by
  rw [DecapsCtl.next, hStart, if_neg Bool.false_ne_true, nbitsNext_quiet hU hV]

theorem see_quiet (hStart : x.start = false) (hDk : c.st ≠ .dkIn) (hC : c.st ≠ .cIn)
    (hOut : c.st ≠ .out) : m.see ⟨c, d⟩ x = m := by
  rw [DecapsLog.see, hStart, DecapsCtl.dkFire, DecapsCtl.cFire, DecapsCtl.outFire,
    decide_eq_false hDk, decide_eq_false hC, decide_eq_false hOut]
  rfl

/-- A step without a start keeps what its state relies on. -/
def Steps (E : Cores) (c : DecapsCtl) (d : DecapsData) (m : DecapsLog) (x : DecapsIn) : Prop :=
  InvAt E (c.next x.toDecapsTiming) (d.next E c x) (m.see ⟨c, d⟩ x) (c.next x.toDecapsTiming).st

/-! ### The key -/

theorem inv_start (hStart : x.start = true) (hEmpty : UnpackerEmpty c d) (hSt : c.st = .idle) :
    Steps E c d m x := by
  have hNext : c.next x.toDecapsTiming = { c.restart x.toDecapsTiming with nbits := c.nbits } := by
    simp only [DecapsCtl.next, DecapsCtl.nbitsNext, hStart, hSt, if_true]
  have hSee : m.see ⟨c, d⟩ x = ⟨x.paramSet, [], [], []⟩ := by
    rw [DecapsLog.see, hStart]
    rfl
  have hKept := hEmpty.next (E := E) (x := x) (by rw [hSt]; decide) (by rw [hSt]; decide)
  rw [Steps, hSee]
  rw [hNext] at hKept ⊢
  exact ⟨⟨rfl, rfl⟩, hKept, ⟨rfl, rfl, rfl, rfl, rfl⟩, rfl⟩

theorem inv_idle (hStart : x.start = false) (hSt : c.st = .idle) (hInv : InvAt E c d m .idle) :
    Steps E c d m x := by
  have hSame : (c.next x.toDecapsTiming).st = .idle := by
    simp only [DecapsCtl.next, DecapsCtl.step, hStart, hSt, Bool.false_eq_true, if_false]
  rw [Steps, hSame]
  exact UnpackerEmpty.next hInv (by rw [hSt]; decide) (by rw [hSt]; decide)

theorem inv_hekStart (hStart : x.start = false) (hSt : c.st = .hekStart)
    (hInv : InvAt E c d m .hekStart) : Steps E c d m x := by
  obtain ⟨hSized, hEmpty, hZero, rfl⟩ := hInv
  have hNext : c.next x.toDecapsTiming = { c with st := .dkIn } := by
    simp only [DecapsCtl.next, DecapsCtl.nbitsNext, DecapsCtl.step, hStart, hSt, Bool.false_eq_true,
      if_false]
  have hKept := hEmpty.next (E := E) (x := x) (by rw [hSt]; decide) (by rw [hSt]; decide)
  have hMore : c.dkcnt < dklen c.k := by
    obtain ⟨hCount, -⟩ := hZero
    have hSizes := sizes c.k
    omega
  rw [Steps, see_quiet hStart (by rw [hSt]; decide) (by rw [hSt]; decide) (by rw [hSt]; decide)]
  rw [hNext] at hKept ⊢
  exact ⟨hSized, hKept, DkIntake.empty hZero, hMore, rfl, rfl⟩

theorem inv_dkIn (hStart : x.start = false) (hSt : c.st = .dkIn) (hInv : InvAt E c d m .dkIn) :
    Steps E c d m x := by
  obtain ⟨hSized, hEmpty, hIn, hMore, hC, hOut⟩ := hInv
  have hReg := regSt_run (c := c) hStart
  have hKept := hEmpty.next (E := E) (x := x) (by rw [hSt]; decide) (by rw [hSt]; decide)
  have hCFire : c.cFire x.toDecapsTiming = false := by
    rw [DecapsCtl.cFire, hSt]
    rfl
  have hOutFire : c.outFire x.toDecapsTiming = false := by
    rw [DecapsCtl.outFire, hSt]
    rfl
  cases hFire : c.dkFire x.toDecapsTiming with
  | false =>
    have hStay : c.step x.toDecapsTiming = c := by
      simp only [DecapsCtl.step, hSt, hFire, Bool.false_eq_true, if_false]
    have hNext : c.next x.toDecapsTiming = c := by
      rw [next_quiet hStart (by rw [hSt]; decide) (by rw [hSt]; decide), hStay]
    have hSee : m.see ⟨c, d⟩ x = m := by
      simp only [DecapsLog.see, hStart, hFire, hCFire, hOutFire, Bool.false_eq_true, if_false]
    rw [Steps, hSee]
    rw [hNext] at hKept ⊢
    rw [hSt]
    have hGrpBuf : (d.next E c x).grpBuf = d.grpBuf := by
      change d.grpBufNext c x = _
      simp only [DecapsData.grpBufNext, hReg, hSt, hFire, Bool.false_and, Bool.false_eq_true,
        if_false]
    have hBank : (d.next E c x).bank = d.bank := by
      change d.bankNext c x = _
      simp only [DecapsData.bankNext, hSt, DecapsData.tripleFire, hFire, Bool.false_and,
        Bool.false_eq_true, if_false]
    have hEkbuf : (d.next E c x).ekbuf = d.ekbuf := by
      change d.ekbufNext c x = _
      simp only [DecapsData.ekbufNext, DecapsData.ekInFire, hFire, Bool.false_and,
        Bool.false_eq_true, if_false]
    have hZR : (d.next E c x).zR = d.zR := by
      change d.zRNext c x = _
      simp only [DecapsData.zRNext, hReg, hSt, hFire, Bool.false_and, Bool.false_eq_true, if_false]
    refine ⟨hSized, hKept, ⟨hIn.count, hIn.place, ?_, ?_, ?_, hIn.ekpos, ?_, ?_⟩, hMore, hC, hOut⟩
    · rw [hGrpBuf]
      exact hIn.one
    · rw [hGrpBuf]
      exact hIn.two
    · rw [hBank]
      exact hIn.bank
    · rw [hEkbuf]
      exact hIn.ekbuf
    · rw [hZR]
      exact hIn.secret
  | true =>
    have hTaken := hIn.take E hMore hSt hFire hStart
    obtain ⟨hK, hPs, hD11, hBits⟩ := stepPlace_keeps c
    have hSee : m.see ⟨c, d⟩ x = ⟨m.ps, m.dk ++ [x.dkData], m.c, m.out⟩ := by
      simp only [DecapsLog.see, hStart, hFire, hCFire, hOutFire, Bool.false_eq_true, if_false,
        if_true]
    have hStep : c.next x.toDecapsTiming = { c.stepDk with nbits := c.nbits } := by
      simp only [DecapsCtl.next, DecapsCtl.nbitsNext, DecapsCtl.step, hStart, hSt, hFire,
        Bool.false_eq_true, if_false, if_true]
    rw [Steps, hSee]
    have hSized' : { c.stepPlace with dkcnt := c.dkcnt + 1 : DecapsCtl }.Sized := by
      constructor
      · exact hK.trans (hSized.1.trans (congrArg kNow hPs.symm))
      · exact hD11.trans (hSized.2.trans (congrArg d11Now hPs.symm))
    by_cases hLast : c.dkcnt + 1 = dklen c.k
    · have hNext : c.next x.toDecapsTiming =
          { c.stepPlace with
            dkcnt := c.dkcnt + 1
            ocnt := 0
            st := .hekFlush
            nbits := c.nbits } := by
        rw [hStep, DecapsCtl.stepDk, if_pos hLast]
      have hWhole := hTaken.whole (hLast.trans (congrArg dklen hK.symm))
      rw [hNext] at hKept ⊢
      exact ⟨⟨hSized', ⟨hWhole.length, hWhole.bank, hWhole.ekbuf, hWhole.secret⟩, hOut⟩, hKept, hC,
        rfl⟩
    · have hPlaceSt := (stepPlace_st c).trans hSt
      have hNext : c.next x.toDecapsTiming =
          { c.stepPlace with dkcnt := c.dkcnt + 1, nbits := c.nbits } := by
        rw [hStep, DecapsCtl.stepDk, if_neg hLast]
      rw [hNext] at hKept ⊢
      dsimp only
      rw [hPlaceSt]
      refine ⟨hSized', hKept, ⟨hTaken.count, hTaken.place, hTaken.one, hTaken.two, hTaken.bank,
        hTaken.ekpos, hTaken.ekbuf, hTaken.secret⟩, ?_, hC, hOut⟩
      change c.dkcnt + 1 < dklen c.stepPlace.k
      rw [hK]
      omega

/-! ### The hashes -/

theorem inv_hekFlush (hStart : x.start = false) (hSt : c.st = .hekFlush)
    (hInv : InvAt E c d m .hekFlush) : Steps E c d m x := by
  obtain ⟨hHas, hEmpty, hC, hZero⟩ := hInv
  have hHasNext := hHas.next (E := E) hStart (by simp [hSt])
  have hEmptyNext := hEmpty.next (E := E) (x := x) (by simp [hSt]) (by simp [hSt])
  have hNext : c.next x.toDecapsTiming = { c with st := .hekSq } := by
    rw [next_quiet hStart (by simp [hSt]) (by simp [hSt])]
    simp only [DecapsCtl.step, hSt]
  rw [Steps, see_quiet hStart (by simp [hSt]) (by simp [hSt]) (by simp [hSt])]
  rw [hNext] at hHasNext hEmptyNext ⊢
  refine ⟨hHasNext, hEmptyNext, hC, ?_⟩
  change c.ocnt < 32
  omega

theorem inv_hekSq (hStart : x.start = false) (hSt : c.st = .hekSq) (hInv : InvAt E c d m .hekSq) :
    Steps E c d m x := by
  obtain ⟨hHas, hEmpty, hC, hLess⟩ := hInv
  have hHasNext := hHas.next (E := E) hStart (by simp [hSt])
  have hEmptyNext := hEmpty.next (E := E) (x := x) (by simp [hSt]) (by simp [hSt])
  have hRun := next_quiet (c := c) hStart (by simp [hSt]) (by simp [hSt])
  rw [Steps, see_quiet hStart (by simp [hSt]) (by simp [hSt]) (by simp [hSt])]
  cases hValid : x.shaOutValid with
  | false =>
    have hStay : c.step x.toDecapsTiming = c := by
      simp only [DecapsCtl.step, hSt, hValid, Bool.false_eq_true, if_false]
    have hStNext : (c.next x.toDecapsTiming).st = .hekSq := by
      rw [hRun, hStay]
      exact hSt
    rw [hStNext]
    rw [hRun, hStay] at hHasNext hEmptyNext ⊢
    exact ⟨hHasNext, hEmptyNext, hC, hLess⟩
  | true =>
    by_cases hLast : c.ocnt = 31
    · have hStep : c.step x.toDecapsTiming = { c with ocnt := 0, st := .jStart } := by
        simp only [DecapsCtl.step, hSt, hValid, hLast, if_true]
      rw [hRun, hStep] at hHasNext hEmptyNext ⊢
      exact ⟨hHasNext, hEmptyNext, hC⟩
    · have hStep : c.step x.toDecapsTiming = { c with ocnt := c.ocnt + 1 } := by
        simp only [DecapsCtl.step, hSt, hValid, hLast, if_true, if_false]
      have hStNext : (c.next x.toDecapsTiming).st = .hekSq := by
        rw [hRun, hStep]
        exact hSt
      rw [hStNext]
      rw [hRun, hStep] at hHasNext hEmptyNext ⊢
      refine ⟨hHasNext, hEmptyNext, hC, ?_⟩
      change c.ocnt + 1 < 32
      omega

theorem inv_jStart (hStart : x.start = false) (hSt : c.st = .jStart)
    (hInv : InvAt E c d m .jStart) : Steps E c d m x := by
  obtain ⟨hHas, hEmpty, hC⟩ := hInv
  have hHasNext := hHas.next (E := E) hStart (by simp [hSt])
  have hEmptyNext := hEmpty.next (E := E) (x := x) (by simp [hSt]) (by simp [hSt])
  have hNext : c.next x.toDecapsTiming = { c with ocnt := 0, st := .jZ } := by
    rw [next_quiet hStart (by simp [hSt]) (by simp [hSt])]
    simp only [DecapsCtl.step, hSt]
  have hSha : (d.next E c x).sha = ⟨0x1f, [], 0⟩ := by
    change d.shaNext c x = _
    simp only [DecapsData.shaNext, hSt]
  rw [Steps, see_quiet hStart (by simp [hSt]) (by simp [hSt]) (by simp [hSt])]
  rw [hNext] at hHasNext hEmptyNext ⊢
  exact ⟨hHasNext, hEmptyNext, hC, Nat.zero_lt_succ 31, hSha⟩

theorem length_kemSecret {dk : List (BitVec 8)} {k : Nat} (hLength : dk.length = dklen k) :
    (kemSecret k dk).length = 32 := by
  have hSizes := sizes k
  rw [kemSecret, List.length_drop]
  omega

theorem inv_jZ (hStart : x.start = false) (hSt : c.st = .jZ) (hInv : InvAt E c d m .jZ) :
    Steps E c d m x := by
  obtain ⟨hHas, hEmpty, hC, hLess, hSha⟩ := hInv
  have hHasNext := hHas.next (E := E) hStart (by simp [hSt])
  have hEmptyNext := hEmpty.next (E := E) (x := x) (by simp [hSt]) (by simp [hSt])
  have hRun := next_quiet (c := c) hStart (by simp [hSt]) (by simp [hSt])
  have hLength := length_kemSecret hHas.key.length
  rw [Steps, see_quiet hStart (by simp [hSt]) (by simp [hSt]) (by simp [hSt])]
  cases hReady : x.shaInReady with
  | false =>
    have hStay : c.step x.toDecapsTiming = c := by
      simp only [DecapsCtl.step, hSt, hReady, Bool.false_eq_true, if_false]
    have hShaNext : (d.next E c x).sha = d.sha := by
      change d.shaNext c x = _
      simp only [DecapsData.shaNext, hSt, hReady, Bool.false_eq_true, if_false]
    have hStNext : (c.next x.toDecapsTiming).st = .jZ := by
      rw [hRun, hStay]
      exact hSt
    rw [hStNext]
    rw [hRun, hStay] at hHasNext hEmptyNext ⊢
    exact ⟨hHasNext, hEmptyNext, hC, hLess, hShaNext.trans hSha⟩
  | true =>
    have hTake : (kemSecret c.k m.dk).take c.ocnt ++ [regByte d.zR c.ocnt] =
        (kemSecret c.k m.dk).take (c.ocnt + 1) := by
      have hInside : c.ocnt < (kemSecret c.k m.dk).length := by omega
      rw [List.take_add_one, List.getElem?_eq_getElem hInside, hHas.key.secret c.ocnt hLess,
        List.getD_eq_getElem _ _ hInside]
      rfl
    have hShaNext : (d.next E c x).sha = ⟨0x1f, (kemSecret c.k m.dk).take (c.ocnt + 1), 0⟩ := by
      change d.shaNext c x = _
      simp only [DecapsData.shaNext, hSt, hReady, if_true, hSha, hTake]
    by_cases hLast : c.ocnt = 31
    · have hStep : c.step x.toDecapsTiming =
          { c with ocnt := c.ocnt + 1, cpos := 0, st := .cIn } := by
        simp only [DecapsCtl.step, hSt, hReady, hLast, if_true]
      have hPositive : 0 < clen c.k c.d11 := by
        have hDv : 0 < dv c.d11 := by
          rw [dv]
          split
          · decide
          · decide
        rw [clen]
        omega
      rw [hRun, hStep] at hHasNext hEmptyNext ⊢
      refine ⟨hHasNext, hEmptyNext, ?_, hPositive, ?_, ?_⟩
      · rw [hC]
        rfl
      · intro j hj
        exact absurd hj (Nat.not_lt_zero j)
      · rw [hShaNext, jInput, hC, List.append_nil]
        congr 1
        exact List.take_of_length_le (by omega)
    · have hStep : c.step x.toDecapsTiming = { c with ocnt := c.ocnt + 1 } := by
        simp only [DecapsCtl.step, hSt, hReady, hLast, if_true, if_false]
      have hStNext : (c.next x.toDecapsTiming).st = .jZ := by
        rw [hRun, hStep]
        exact hSt
      rw [hStNext]
      rw [hRun, hStep] at hHasNext hEmptyNext ⊢
      refine ⟨hHasNext, hEmptyNext, hC, ?_, hShaNext⟩
      change c.ocnt + 1 < 32
      omega

theorem inv_cIn (hStart : x.start = false) (hSt : c.st = .cIn) (hInv : InvAt E c d m .cIn) :
    Steps E c d m x := by
  obtain ⟨hHas, hEmpty, hCount, hMore, hBuf, hSha⟩ := hInv
  have hHasNext := hHas.next (E := E) hStart (by simp [hSt])
  have hEmptyNext := hEmpty.next (E := E) (x := x) (by simp [hSt]) (by simp [hSt])
  have hRun := next_quiet (c := c) hStart (by simp [hSt]) (by simp [hSt])
  have hDkFire : c.dkFire x.toDecapsTiming = false := by
    rw [DecapsCtl.dkFire, hSt]
    rfl
  have hOutFire : c.outFire x.toDecapsTiming = false := by
    rw [DecapsCtl.outFire, hSt]
    rfl
  cases hFire : c.cFire x.toDecapsTiming with
  | false =>
    have hStay : c.step x.toDecapsTiming = c := by
      simp only [DecapsCtl.step, hSt, hFire, Bool.false_eq_true, if_false]
    have hSee : m.see ⟨c, d⟩ x = m := by
      simp only [DecapsLog.see, hStart, hFire, hDkFire, hOutFire, Bool.false_eq_true, if_false]
    have hShaNext : (d.next E c x).sha = d.sha := by
      change d.shaNext c x = _
      simp only [DecapsData.shaNext, hSt, hFire, Bool.false_eq_true, if_false]
    have hBufNext : (d.next E c x).cbuf = d.cbuf := by
      change d.cbufNext c x = _
      simp only [DecapsData.cbufNext, hFire, Bool.false_eq_true, if_false]
    rw [Steps, hSee]
    have hStNext : (c.next x.toDecapsTiming).st = .cIn := by
      rw [hRun, hStay]
      exact hSt
    rw [hStNext]
    rw [hRun, hStay] at hHasNext hEmptyNext ⊢
    refine ⟨hHasNext, hEmptyNext, hCount, hMore, ?_, hShaNext.trans hSha⟩
    rw [hBufNext]
    exact hBuf
  | true =>
    have hSee : m.see ⟨c, d⟩ x = ⟨m.ps, m.dk, m.c ++ [x.cData], m.out⟩ := by
      simp only [DecapsLog.see, hStart, hFire, hDkFire, hOutFire, Bool.false_eq_true, if_false,
        if_true]
    have hInput : jInput c ⟨m.ps, m.dk, m.c ++ [x.cData], m.out⟩ = jInput c m ++ [x.cData] :=
      (List.append_assoc _ _ _).symm
    have hShaNext : (d.next E c x).sha = ⟨0x1f, jInput c m ++ [x.cData], 0⟩ := by
      change d.shaNext c x = _
      simp only [DecapsData.shaNext, hSt, hFire, if_true, hSha]
    rw [← hInput] at hShaNext
    have hBufNext (j : Nat) (hj : j < c.cpos + 1) :
        (d.next E c x).cbuf j = (m.c ++ [x.cData]).getD j 0 := by
      change d.cbufNext c x j = _
      rw [DecapsData.cbufNext, hFire, if_pos rfl]
      by_cases hNew : j = c.cpos
      · rw [hNew, Function.update_self, hCount, getD_concat_self]
      · rw [Function.update_of_ne hNew, hBuf j (by omega), getD_concat_lt (by omega)]
    have hLength : (m.c ++ [x.cData]).length = c.cpos + 1 := by
      rw [List.length_append, List.length_singleton, hCount]
    rw [Steps, hSee]
    by_cases hLast : c.cpos + 1 = clen c.k c.d11
    · have hStep : c.step x.toDecapsTiming = { c with cpos := c.cpos + 1, st := .jFlush } := by
        simp only [DecapsCtl.step, hSt, hFire, hLast, if_true]
      rw [hRun, hStep] at hHasNext hEmptyNext ⊢
      refine ⟨⟨hHasNext.sized, hHasNext.key, hHasNext.out⟩, hEmptyNext,
        ⟨hLength.trans hLast, ?_⟩, ?_⟩
      · intro j hj
        change j < clen c.k c.d11 at hj
        exact hBufNext j (by omega)
      · exact hShaNext
    · have hStep : c.step x.toDecapsTiming = { c with cpos := c.cpos + 1 } := by
        simp only [DecapsCtl.step, hSt, hFire, hLast, if_true, if_false]
      have hStNext : (c.next x.toDecapsTiming).st = .cIn := by
        rw [hRun, hStep]
        exact hSt
      rw [hStNext]
      rw [hRun, hStep] at hHasNext hEmptyNext ⊢
      refine ⟨⟨hHasNext.sized, hHasNext.key, hHasNext.out⟩, hEmptyNext, hLength.symm, ?_, hBufNext,
        ?_⟩
      · change c.cpos + 1 < clen c.k c.d11
        omega
      · exact hShaNext

theorem inv_jFlush (hStart : x.start = false) (hSt : c.st = .jFlush)
    (hInv : InvAt E c d m .jFlush) : Steps E c d m x := by
  obtain ⟨hHas, hEmpty, hCt, hSha⟩ := hInv
  have hHasNext := hHas.next (E := E) hStart (by simp [hSt])
  have hEmptyNext := hEmpty.next (E := E) (x := x) (by simp [hSt]) (by simp [hSt])
  have hCtNext := hCt.next (E := E) hStart (by simp [hSt])
  have hNext : c.next x.toDecapsTiming = { c with ocnt := 0, st := .jSq } := by
    rw [next_quiet hStart (by simp [hSt]) (by simp [hSt])]
    simp only [DecapsCtl.step, hSt]
  have hShaNext : (d.next E c x).sha = d.sha := by
    change d.shaNext c x = _
    simp only [DecapsData.shaNext, hSt]
  rw [Steps, see_quiet hStart (by simp [hSt]) (by simp [hSt]) (by simp [hSt])]
  rw [hNext] at hHasNext hEmptyNext hCtNext ⊢
  exact ⟨hHasNext, hEmptyNext, hCtNext, hShaNext.trans hSha, Nat.zero_lt_succ 31, Shifted.nil _⟩

theorem inv_jSq (hStart : x.start = false) (hSt : c.st = .jSq) (hInv : InvAt E c d m .jSq) :
    Steps E c d m x := by
  obtain ⟨hHas, hEmpty, hCt, hSha, hLess, hKbar⟩ := hInv
  have hHasNext := hHas.next (E := E) hStart (by simp [hSt])
  have hEmptyNext := hEmpty.next (E := E) (x := x) (by simp [hSt]) (by simp [hSt])
  have hCtNext := hCt.next (E := E) hStart (by simp [hSt])
  have hRun := next_quiet (c := c) hStart (by simp [hSt]) (by simp [hSt])
  have hReg := regSt_run (c := c) hStart
  rw [Steps, see_quiet hStart (by simp [hSt]) (by simp [hSt]) (by simp [hSt])]
  cases hValid : x.shaOutValid with
  | false =>
    have hStay : c.step x.toDecapsTiming = c := by
      simp only [DecapsCtl.step, hSt, hValid, Bool.false_eq_true, if_false]
    have hShaNext : (d.next E c x).sha = d.sha := by
      change d.shaNext c x = _
      simp only [DecapsData.shaNext, hSt, hValid, Bool.false_eq_true, if_false]
    have hKbarNext : (d.next E c x).kbarR = d.kbarR := by
      change d.kbarRNext E c x = _
      simp only [DecapsData.kbarRNext, hReg, hSt, hValid, Bool.false_eq_true, if_false]
    have hStNext : (c.next x.toDecapsTiming).st = .jSq := by
      rw [hRun, hStay]
      exact hSt
    rw [hStNext]
    rw [hRun, hStay] at hHasNext hEmptyNext hCtNext ⊢
    refine ⟨hHasNext, hEmptyNext, hCtNext, hShaNext.trans hSha, hLess, ?_⟩
    rw [hKbarNext]
    exact hKbar
  | true =>
    have hShaNext : (d.next E c x).sha = ⟨0x1f, jInput c m, c.ocnt + 1⟩ := by
      change d.shaNext c x = _
      simp only [DecapsData.shaNext, hSt, hValid, if_true, hSha]
    have hKbarNext : Shifted (d.next E c x).kbarR
        ((List.range (c.ocnt + 1)).map (E.sponge 0x1f (jInput c m))) := by
      change Shifted (d.kbarRNext E c x) _
      have hLength : ((List.range c.ocnt).map (E.sponge 0x1f (jInput c m))).length < 32 := by
        rw [List.length_map, List.length_range]
        exact hLess
      simp only [DecapsData.kbarRNext, hReg, hSt, hValid, if_true, DecapsData.shaOutData, hSha]
      rw [List.range_succ, List.map_append]
      exact hKbar.concat hLength _
    by_cases hLast : c.ocnt = 31
    · have hStep : c.step x.toDecapsTiming =
          { c with ocnt := c.ocnt + 1, acnt := 0, st := .accClr } := by
        simp only [DecapsCtl.step, hSt, hValid, hLast, if_true]
      rw [hRun, hStep] at hHasNext hEmptyNext hCtNext ⊢
      refine ⟨⟨hHasNext, hCtNext, ?_⟩, hEmptyNext, Nat.zero_lt_succ 255, ?_⟩
      · intro i hi
        rw [hLast] at hKbarNext
        have hWhole := hKbarNext.whole (by rw [List.length_map, List.length_range]) hi
        rw [hWhole, List.getD_eq_getElem _ _ (by simpa using hi), List.getElem_map,
          List.getElem_range]
        rfl
      · intro n hn
        exact absurd hn (Nat.not_lt_zero _)
    · have hStep : c.step x.toDecapsTiming = { c with ocnt := c.ocnt + 1 } := by
        simp only [DecapsCtl.step, hSt, hValid, hLast, if_true, if_false]
      have hStNext : (c.next x.toDecapsTiming).st = .jSq := by
        rw [hRun, hStep]
        exact hSt
      rw [hStNext]
      rw [hRun, hStep] at hHasNext hEmptyNext hCtNext ⊢
      refine ⟨hHasNext, hEmptyNext, hCtNext, hShaNext, ?_, hKbarNext⟩
      change c.ocnt + 1 < 32
      omega

end Steps

end PqcHsm
