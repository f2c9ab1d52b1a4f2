import PqcHsm.Library.Clocked
import PqcHsm.Rtl.RamDp

/-!
# The NTT core of ML-DSA

`mldsa_ntt_core`: a butterfly in every cycle, through an issue register and the five stages of
`mldsa_mont_mul_pipe`, from one bank of memory into the other. At the end of a layer the core waits
for the stages to empty, and the banks change places.
-/

namespace PqcHsm

namespace MlDsa

abbrev Coeff := BitVec 32
abbrev Poly := BitVec 8 → Coeff

def FINV : Coeff := 41978

def zetas : List Int :=
  [0, 25847, -2608894, -518909, 237124, -777960, -876248, 466468, 1826347,
    2353451, -359251, -2091905, 3119733, -2884855, 3111497, 2680103, 2725464, 1024112,
    -1079900, 3585928, -549488, -1119584, 2619752, -2108549, -2118186, -3859737, -1399561,
    -3277672, 1757237, -19422, 4010497, 280005, 2706023, 95776, 3077325, 3530437,
    -1661693, -3592148, -2537516, 3915439, -3861115, -3043716, 3574422, -2867647, 3539968,
    -300467, 2348700, -539299, -1699267, -1643818, 3505694, -3821735, 3507263, -2140649,
    -1600420, 3699596, 811944, 531354, 954230, 3881043, 3900724, -2556880, 2071892,
    -2797779, -3930395, -1528703, -3677745, -3041255, -1452451, 3475950, 2176455, -1585221,
    -1257611, 1939314, -4083598, -1000202, -3190144, -3157330, -3632928, 126922, 3412210,
    -983419, 2147896, 2715295, -2967645, -3693493, -411027, -2477047, -671102, -1228525,
    -22981, -1308169, -381987, 1349076, 1852771, -1430430, -3343383, 264944, 508951,
    3097992, 44288, -1100098, 904516, 3958618, -3724342, -8578, 1653064, -3249728,
    2389356, -210977, 759969, -1316856, 189548, -3553272, 3159746, -1851402, -2409325,
    -177440, 1315589, 1341330, 1285669, -1584928, -812732, -1439742, -3019102, -3881060,
    -3628969, 3839961, 2091667, 3407706, 2316500, 3817976, -3342478, 2244091, -2446433,
    -3562462, 266997, 2434439, -1235728, 3513181, -3520352, -3759364, -1197226, -3193378,
    900702, 1859098, 909542, 819034, 495491, -1613174, -43260, -522500, -655327,
    -3122442, 2031748, 3207046, -3556995, -525098, -768622, -3595838, 342297, 286988,
    -2437823, 4108315, 3437287, -3342277, 1735879, 203044, 2842341, 2691481, -2590150,
    1265009, 4055324, 1247620, 2486353, 1595974, -3767016, 1250494, 2635921, -3548272,
    -2994039, 1869119, 1903435, -1050970, -1333058, 1237275, -3318210, -1430225, -451100,
    1312455, 3306115, -1962642, -1279661, 1917081, -2546312, -1374803, 1500165, 777191,
    2235880, 3406031, -542412, -2831860, -1671176, -1846953, -2584293, -3724270, 594136,
    -3776993, -2013608, 2432395, 2454455, -164721, 1957272, 3369112, 185531, -1207385,
    -3183426, 162844, 1616392, 3014001, 810149, 1652634, -3694233, -1799107, -3038916,
    3523897, 3866901, 269760, 2213111, -975884, 1717735, 472078, -426683, 1723600,
    -1803090, 1910376, -1667432, -1104333, -260646, -3833893, -2939036, -2235985, -420899,
    -2286327, 183443, -976891, 1612842, -3545687, -554416, 3919660, -48306, -1362209,
    3937738, 1400424, -846154, 1976782]

def zeta (k : Nat) : Coeff := BitVec.ofInt 32 (zetas.getD (k % 256) 0)

def smul (x y : Coeff) : BitVec 64 := x.signExtend 64 * y.signExtend 64

/-- The factor of `Q` that a reduction takes away. -/
def montFactor (a : BitVec 64) : Coeff := a.setWidth 32 * 58728449

def montProd (m : Coeff) : BitVec 64 := m.signExtend 64 * 8380417

/-- `mldsa_mont_reduce` -/
def montReduce (a : BitVec 64) : Coeff := (a - montProd (montFactor a)).extractLsb' 32 32

/-- `mldsa_butterfly_ct` -/
def butterflyCt (a b zeta : Coeff) : Coeff × Coeff :=
  let t := montReduce (smul zeta b)
  (a + t, a - t)

/-- `mldsa_butterfly_gs` -/
def butterflyGs (a b zeta : Coeff) : Coeff × Coeff := (a + b, montReduce (smul zeta (a - b)))

end MlDsa

/-! ### The multiplier -/

open MlDsa

/-- What goes into `mldsa_mont_mul_pipe` in a cycle. -/
structure MontIn (τ : Type) where
  valid : Bool
  tag : τ
  x : Coeff
  y : Coeff

structure MontPipe (τ : Type) where
  v1 : Bool
  v2 : Bool
  v3 : Bool
  v4 : Bool
  v5 : Bool
  tag1 : τ
  tag2 : τ
  tag3 : τ
  tag4 : τ
  tag5 : τ
  xS1 : Coeff
  yS1 : Coeff
  pS2 : BitVec 64
  pS3 : BitVec 64
  mS3 : Coeff
  pS4 : BitVec 64
  mqS4 : BitVec 64
  tS5 : Coeff

namespace MontPipe

variable {τ : Type} (s : MontPipe τ) (x : MontIn τ)

def next : MontPipe τ where
  v1 := x.valid
  v2 := s.v1
  v3 := s.v2
  v4 := s.v3
  v5 := s.v4
  tag1 := x.tag
  tag2 := s.tag1
  tag3 := s.tag2
  tag4 := s.tag3
  tag5 := s.tag4
  xS1 := x.x
  yS1 := x.y
  pS2 := smul s.xS1 s.yS1
  pS3 := s.pS2
  mS3 := montFactor s.pS2
  pS4 := s.pS3
  mqS4 := montProd s.mS3
  tS5 := (s.pS4 - s.mqS4).extractLsb' 32 32

def pipeBusy : Bool := s.v1 || s.v2 || s.v3 || s.v4 || s.v5

end MontPipe

/-! ### The core -/

/-- What `mldsa_butterfly_pipe` sends along with a product. -/
structure BfTag where
  ja : BitVec 8
  jb : BitVec 8
  keep : Coeff
  mode : Bool
  scale : Bool

def BfTag.none : BfTag := ⟨0, 0, 0, false, false⟩

inductive DsaNttSt
  | idle | run | drain | fin
  deriving DecidableEq, Repr

structure DsaNttIn where
  start : Bool
  inverse : Bool
  wrEn : Bool
  wrAddr : BitVec 8
  wrData : Coeff
  rdAddr : BitVec 8

structure DsaNtt where
  mem0 : Poly
  mem1 : Poly
  r0ADout : Coeff
  r0BDout : Coeff
  r1ADout : Coeff
  r1BDout : Coeff
  st : DsaNttSt
  len : Nat
  grp : Nat
  j : Nat
  k : Nat
  invR : Bool
  scaleI : Nat
  phSc : Bool
  sel : Bool
  done : Bool
  ivR : Bool
  iscR : Bool
  jaR : BitVec 8
  jbR : BitVec 8
  zetaQ : Coeff
  pipe : MontPipe BfTag

namespace DsaNtt

def reset (mem0 mem1 : Poly) : DsaNtt where
  mem0 := mem0
  mem1 := mem1
  r0ADout := 0
  r0BDout := 0
  r1ADout := 0
  r1BDout := 0
  st := .idle
  len := 128
  grp := 0
  j := 0
  k := 1
  invR := false
  scaleI := 0
  phSc := false
  sel := false
  done := false
  ivR := false
  iscR := false
  jaR := 0
  jbR := 0
  zetaQ := 0
  pipe := ⟨false, false, false, false, false, .none, .none, .none, .none, .none,
    0, 0, 0, 0, 0, 0, 0, 0⟩

variable (s : DsaNtt) (x : DsaNttIn)

def jHi : Nat := (s.j + s.len) % 512
def busyI : Bool := s.st ≠ .idle
def issue : Bool := s.st = .run
def issueA : BitVec 8 := BitVec.ofNat 8 (if s.phSc then s.scaleI else s.j)
def issueB : BitVec 8 := BitVec.ofNat 8 s.jHi

def srcA : Coeff := if s.sel then s.r1ADout else s.r0ADout
def srcB : Coeff := if s.sel then s.r1BDout else s.r0BDout

/-! `mldsa_butterfly_pipe` -/

def zetaIn : Coeff := if s.iscR then FINV else if s.invR then -s.zetaQ else s.zetaQ

def ySel : Coeff :=
  if s.iscR then s.srcA else if s.invR then s.srcA - s.srcB else s.srcB

def keepSel : Coeff := if s.invR then s.srcA + s.srcB else s.srcA

def pipeIn : MontIn BfTag where
  valid := s.ivR
  tag := ⟨s.jaR, s.jbR, s.keepSel, s.invR, s.iscR⟩
  x := s.zetaIn
  y := s.ySel

def wbValid : Bool := s.pipe.v5
def wbScale : Bool := s.pipe.tag5.scale

def wbA : Coeff :=
  if s.pipe.tag5.scale then s.pipe.tS5
  else if s.pipe.tag5.mode then s.pipe.tag5.keep
  else s.pipe.tag5.keep + s.pipe.tS5

def wbB : Coeff :=
  if s.pipe.tag5.mode then s.pipe.tS5 else s.pipe.tag5.keep - s.pipe.tS5

def pipeEmpty : Bool := !s.ivR && !s.pipe.pipeBusy

/-! The ports: of the bank that holds the coefficients, and of the other one. -/

def actA : RamPort Coeff :=
  ⟨!s.busyI && x.wrEn, if s.busyI then s.issueA else x.wrAddr, x.wrData⟩

def actB : RamPort Coeff := ⟨false, if s.busyI then s.issueB else x.rdAddr, s.wbB⟩

def dstA : RamPort Coeff := ⟨s.wbValid, s.pipe.tag5.ja, s.wbA⟩

def dstB : RamPort Coeff := ⟨s.wbValid && !s.wbScale, s.pipe.tag5.jb, s.wbB⟩

def r0A : RamPort Coeff := if s.sel then s.dstA else s.actA x
def r0B : RamPort Coeff := if s.sel then s.dstB else s.actB x
def r1A : RamPort Coeff := if s.sel then s.actA x else s.dstA
def r1B : RamPort Coeff := if s.sel then s.actB x else s.dstB

/-- The counters when a butterfly has been issued. -/
def advance : DsaNtt :=
  if s.j + 1 < s.grp + s.len then { s with j := (s.j + 1) % 512 }
  else if s.grp + 2 * s.len < 256 then
    { s with
      k := if s.invR then (s.k + 511) % 512 else (s.k + 1) % 512
      grp := (s.grp + 2 * s.len) % 512
      j := (s.grp + 2 * s.len) % 512 }
  else
    { s with
      k := if s.invR then (s.k + 511) % 512 else (s.k + 1) % 512
      st := .drain }

/-- The banks change places. -/
def swap : DsaNtt :=
  if s.phSc then { s with sel := !s.sel, st := .fin }
  else if s.invR then
    if s.len = 128 then { s with sel := !s.sel, phSc := true, scaleI := 0, st := .run }
    else { s with sel := !s.sel, len := s.len * 2 % 512, grp := 0, j := 0, st := .run }
  else if s.len = 1 then { s with sel := !s.sel, st := .fin }
  else { s with sel := !s.sel, len := s.len / 2, grp := 0, j := 0, st := .run }

/-- The state machine. -/
def nextCtl : DsaNtt :=
  match s.st with
  | .idle =>
    if x.start then
      { s with
        done := false
        invR := x.inverse
        len := if x.inverse then 1 else 128
        grp := 0
        j := 0
        k := if x.inverse then 255 else 1
        phSc := false
        scaleI := 0
        st := .run }
    else s
  | .run =>
    if s.phSc then
      if s.scaleI = 255 then { s with st := .drain }
      else { s with scaleI := (s.scaleI + 1) % 512 }
    else s.advance
  | .drain => if s.pipeEmpty then s.swap else s
  | .fin => { s with done := true, st := .idle }

def next : DsaNtt :=
  { s.nextCtl x with
    mem0 := (s.r0B x).write ((s.r0A x).write s.mem0)
    mem1 := (s.r1B x).write ((s.r1A x).write s.mem1)
    r0ADout := s.mem0 (s.r0A x).addr
    r0BDout := s.mem0 (s.r0B x).addr
    r1ADout := s.mem1 (s.r1A x).addr
    r1BDout := s.mem1 (s.r1B x).addr
    ivR := s.issue
    iscR := s.phSc
    jaR := s.issueA
    jbR := s.issueB
    zetaQ := zeta s.k
    pipe := s.pipe.next s.pipeIn }

def circuit (mem0 mem1 : Poly) : Clocked DsaNttIn DsaNtt where
  reset := reset mem0 mem1
  next := next

end DsaNtt

end PqcHsm
