import PqcHsm.Library.Clocked
import PqcHsm.Rtl.KemArith
import PqcHsm.Rtl.RamDp

/-!
# The NTT core of ML-KEM

`ntt_core`: a state machine over a memory with two ports, with three cycles for a butterfly and
three for a coefficient of the pass that ends a run.
-/

namespace PqcHsm

namespace MlKem

def FINV : Coeff := 1441

def zetas : List Int :=
  [-1044, -758, -359, -1517, 1493, 1422, 287, 202, -171, 622, 1577, 182, 962, -1202, -1474, 1468,
    573, -1325, 264, 383, -829, 1458, -1602, -130, -681, 1017, 732, 608, -1542, 411, -205, -1571,
    1223, 652, -552, 1015, -1293, 1491, -282, -1544, 516, -8, -320, -666, -1618, -1162, 126, 1469,
    -853, -90, -271, 830, 107, -1421, -247, -951, -398, 961, -1508, -725, 448, -1065, 677, -1275,
    -1103, 430, 555, 843, -1251, 871, 1550, 105, 422, 587, 177, -235, -291, -460, 1574, 1653,
    -246, 778, 1159, -147, -777, 1483, -602, 1119, -1590, 644, -872, 349, 418, 329, -156, -75,
    817, 1097, 603, 610, 1322, -1285, -1465, 384, -1215, -136, 1218, -1335, -874, 220, -1187, -1659,
    -1185, -1530, -1278, 794, -1510, -854, -870, 478, -108, -308, 996, 991, 958, -1460, 1522, 1628]

/-- The table is read at `k[6:0]`. -/
def zeta (k : Nat) : Coeff := BitVec.ofInt 16 (zetas.getD (k % 128) 0)

/-! ### Butterflies -/

/-- `butterfly_ct_head` -/
def ctHead (b zeta : Coeff) : BitVec 32 := smul zeta b

/-- `butterfly_ct_tail` -/
def ctTail (a : Coeff) (prod : BitVec 32) : Coeff × Coeff :=
  let t := montReduce prod
  (a + t, a - t)

/-- `butterfly_gs_head`: the product, and the value for the lower place. -/
def gsHead (a b zeta : Coeff) : BitVec 32 × Coeff :=
  (smul zeta (b - a), barrettReduce (a + b))

/-- `butterfly_gs_tail` -/
def gsTail (prod : BitVec 32) : Coeff := montReduce prod

end MlKem

/-! ### The core -/

open MlKem

inductive NttSt
  | idle | rd | wb | scRd | scWb | fin | mu | scMu
  deriving DecidableEq, Repr

structure NttIn where
  start : Bool
  inverse : Bool
  wrEn : Bool
  wrAddr : BitVec 8
  wrData : Coeff
  rdAddr : BitVec 8

structure NttCore where
  mem : Poly
  paDout : Coeff
  pbDout : Coeff
  st : NttSt
  len : Nat
  grp : Nat
  j : Nat
  k : Nat
  invR : Bool
  scaleI : Nat
  prodR : BitVec 32
  bfAR : Coeff
  gsAR : Coeff
  scprodR : BitVec 32
  scbarrR : Coeff
  done : Bool

namespace NttCore

def reset (mem : Poly) : NttCore where
  mem := mem
  paDout := 0
  pbDout := 0
  st := .idle
  len := 128
  grp := 0
  j := 0
  k := 1
  invR := false
  scaleI := 0
  prodR := 0
  bfAR := 0
  gsAR := 0
  scprodR := 0
  scbarrR := 0
  done := false

variable (s : NttCore) (x : NttIn)

def jHi : Nat := (s.j + s.len) % 512

def zetaNow : Coeff := zeta s.k

def paPort : RamPort Coeff :=
  match s.st with
  | .idle => ⟨x.wrEn, x.wrAddr, x.wrData⟩
  | .rd | .mu => ⟨false, BitVec.ofNat 8 s.j, 0⟩
  | .wb => ⟨true, BitVec.ofNat 8 s.j, if s.invR then s.gsAR else (ctTail s.bfAR s.prodR).1⟩
  | .scRd | .scMu => ⟨false, BitVec.ofNat 8 s.scaleI, 0⟩
  | .scWb => ⟨true, BitVec.ofNat 8 s.scaleI, if s.invR then montReduce s.scprodR else s.scbarrR⟩
  | .fin => ⟨false, 0, 0⟩

def pbPort : RamPort Coeff :=
  match s.st with
  | .idle => ⟨false, x.rdAddr, 0⟩
  | .rd | .mu => ⟨false, BitVec.ofNat 8 s.jHi, 0⟩
  | .wb =>
    ⟨true, BitVec.ofNat 8 s.jHi, if s.invR then gsTail s.prodR else (ctTail s.bfAR s.prodR).2⟩
  | _ => ⟨false, 0, 0⟩

def kNext : Nat := if s.invR then (s.k + 255) % 256 else (s.k + 1) % 256

/-- The distance in the last layer. -/
def lastLen : Nat := if s.invR then 128 else 2

/-- The counters after a butterfly: within the group, to the next group, to the next layer. -/
def advance : NttCore :=
  if s.j + 1 < s.grp + s.len then { s with st := .rd, j := (s.j + 1) % 512 }
  else if s.grp + 2 * s.len < 256 then
    { s with
      st := .rd
      k := s.kNext
      grp := (s.grp + 2 * s.len) % 512
      j := (s.grp + 2 * s.len) % 512 }
  else if s.len = s.lastLen then
    { s with st := .scRd, k := s.kNext, scaleI := 0 }
  else
    { s with
      st := .rd
      k := s.kNext
      len := if s.invR then s.len * 2 % 512 else s.len / 2
      grp := 0
      j := 0 }

/-- The state machine. -/
def nextCtl : NttCore :=
  match s.st with
  | .idle =>
    if x.start then
      { s with
        done := false
        invR := x.inverse
        len := if x.inverse then 2 else 128
        grp := 0
        j := 0
        k := if x.inverse then 127 else 1
        st := .rd }
    else s
  | .rd => { s with st := .mu }
  | .mu =>
    { s with
      prodR := if s.invR then (gsHead s.paDout s.pbDout s.zetaNow).1
        else ctHead s.pbDout s.zetaNow
      bfAR := s.paDout
      gsAR := (gsHead s.paDout s.pbDout s.zetaNow).2
      st := .wb }
  | .wb => s.advance
  | .scRd => { s with st := .scMu }
  | .scMu =>
    { s with scprodR := smul FINV s.paDout, scbarrR := barrettReduce s.paDout, st := .scWb }
  | .scWb =>
    if s.scaleI = 255 then { s with st := .fin }
    else { s with scaleI := (s.scaleI + 1) % 512, st := .scRd }
  | .fin => { s with done := true, st := .idle }

def next : NttCore :=
  { s.nextCtl x with
    mem := (s.pbPort x).write ((s.paPort x).write s.mem)
    paDout := s.mem (s.paPort x).addr
    pbDout := s.mem (s.pbPort x).addr }

/-- The core, started in any state. -/
def circuit : Clocked NttIn NttCore where
  reset := s
  next := next

end NttCore

end PqcHsm
