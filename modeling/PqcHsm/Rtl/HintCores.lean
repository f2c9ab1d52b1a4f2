import Mathlib.Algebra.Group.Nat.Defs
import Mathlib.Logic.Function.Basic
import PqcHsm.Library.Clocked

/-!
# The hint section in the ML-DSA cores

The part of `verify.v` that reads the hint section of a signature into the hint store, and the part
of `sign.v` that fills the hint store, weighs it and writes the section. What the cores do in
between is one state with free inputs. The stores are memories with a read register.
-/

namespace PqcHsm

/-- The rows of `mldsa_params` that the two parts use. -/
structure MldsaParams where
  k : Nat
  l : Nat
  omega : Nat
  ctb : Nat
  sigH0 : Nat

/-- `mldsa_params`. -/
def mldsaParams (pset : BitVec 2) : MldsaParams :=
  if pset = 0 then ⟨4, 4, 80, 32, 2336⟩
  else if pset = 1 then ⟨6, 5, 55, 48, 3248⟩
  else ⟨8, 7, 75, 64, 4544⟩

/-- `S_IDLE`, `S_HCLR`, `S_CT`, `S_ZU`, `S_HC`, `S_HI`, `S_HP`, and `S_T1` with all that follows. -/
inductive VfSt where
  | idle
  | hclr
  | ct
  | zu
  | hc
  | hi
  | hp
  | later
  deriving DecidableEq

/-- The start port, the unpacker of z, and what the later states do to the shared counters. -/
structure VfIn where
  start : Bool
  pset : BitVec 2
  zuOv : Bool
  zuIr : Bool
  zOver : Bool
  fin : Bool
  ctMatch : Bool
  cnt : Nat
  ph : Bool
  poly : Nat
  feed : Bool
  rdp : Nat

structure Verifier where
  st : VfSt
  psetR : BitVec 2
  busyR : Bool
  cnt : Nat
  ph : Bool
  poly : Nat
  feed : Bool
  rdp : Nat
  hclr : Nat
  hcnt : Nat → Nat
  hidx : Nat
  hfirst : Nat
  hprev : Nat
  zbad : Bool
  hbad : Bool
  valid : Bool
  done : Bool
  sigRdata : Nat
  h : Nat → Bool

namespace Verifier

variable (s : Verifier) (x : VfIn)

/-- `pset_eff` decides until the core is busy. -/
def cfg : MldsaParams := mldsaParams (if s.busyR then s.psetR else x.pset)

def nextIdle : Verifier :=
  if x.start then
    { s with psetR := x.pset, busyR := true, zbad := false, hbad := false, valid := false
             hclr := 0, cnt := 0, ph := false, poly := 0, st := .hclr }
  else s

def nextHclr : Verifier :=
  if s.hclr = ((s.cfg x).k * 256 - 1) % 2 ^ 11 then { s with cnt := 0, st := .ct }
  else { s with hclr := (s.hclr + 1) % 2 ^ 11 }

def nextCt : Verifier :=
  if !s.ph then { s with ph := true }
  else if s.cnt = (s.cfg x).ctb - 1 then
    { s with cnt := 0, ph := false, poly := 0, feed := false, rdp := (s.cfg x).ctb, st := .zu }
  else { s with cnt := (s.cnt + 1) % 2 ^ 8, ph := false }

def nextZu : Verifier :=
  if x.zuOv then
    let zbad := s.zbad || x.zOver
    if s.cnt = 255 then
      if s.poly = (s.cfg x).l - 1 then
        { s with feed := false, zbad := zbad, poly := 0, cnt := 0, ph := false, st := .hc
                 rdp := (s.cfg x).sigH0 + (s.cfg x).omega }
      else { s with feed := false, zbad := zbad, cnt := 0, poly := (s.poly + 1) % 2 ^ 4 }
    else { s with feed := false, zbad := zbad, cnt := (s.cnt + 1) % 2 ^ 8 }
  else if !s.feed then { s with feed := true }
  else { s with rdp := if x.zuIr then (s.rdp + 1) % 2 ^ 13 else s.rdp, feed := false }

/-- The counts of the rows. -/
def nextHc : Verifier :=
  if !s.ph then { s with ph := true }
  else
    let hcnt := Function.update s.hcnt (s.cnt % 2 ^ 3) s.sigRdata
    if s.cnt = (s.cfg x).k - 1 then
      { s with hcnt := hcnt, cnt := 0, ph := false, poly := 0, hidx := 0, hfirst := 0, hprev := 0
               rdp := (s.cfg x).sigH0, st := .hi }
    else { s with hcnt := hcnt, cnt := (s.cnt + 1) % 2 ^ 8, ph := false }

/-- The positions of the rows. -/
def nextHi : Verifier :=
  let count := s.hcnt (s.poly % 2 ^ 3)
  if count < s.hidx || (s.cfg x).omega < count then
    if s.poly = (s.cfg x).k - 1 then { s with hbad := true, cnt := 0, ph := false, st := .hp }
    else { s with hbad := true, poly := (s.poly + 1) % 2 ^ 4 }
  else if s.hidx = count then
    if s.poly = (s.cfg x).k - 1 then { s with cnt := 0, ph := false, st := .hp }
    else { s with poly := (s.poly + 1) % 2 ^ 4, hfirst := s.hidx }
  else if !s.ph then { s with ph := true }
  else
    { s with hbad := s.hbad || (s.hfirst < s.hidx && s.sigRdata ≤ s.hprev), hprev := s.sigRdata
             hidx := (s.hidx + 1) % 2 ^ 8, ph := false }

/-- The padding. -/
def nextHp : Verifier :=
  if (s.cfg x).omega ≤ (s.hidx + s.cnt) % 2 ^ 8 then
    { s with cnt := 0, ph := false, poly := 0, feed := false, rdp := 32, st := .later }
  else if !s.ph then { s with ph := true }
  else { s with hbad := s.hbad || s.sigRdata ≠ 0, cnt := (s.cnt + 1) % 2 ^ 8, ph := false }

/-- `S_FIN` gives the verdict; the states before it use the counters in their own ways. -/
def nextLater : Verifier :=
  if x.fin then
    { s with valid := x.ctMatch && !s.zbad && !s.hbad, busyR := false, st := .idle }
  else { s with cnt := x.cnt, ph := x.ph, poly := x.poly, feed := x.feed, rdp := x.rdp }

def nextCtl : Verifier :=
  match s.st with
  | .idle => s.nextIdle x
  | .hclr => s.nextHclr x
  | .ct => s.nextCt x
  | .zu => s.nextZu x
  | .hc => s.nextHc x
  | .hi => s.nextHi x
  | .hp => s.nextHp x
  | .later => s.nextLater x

def sigRaddr : Nat :=
  match s.st with
  | .ct => s.cnt
  | .hc => (s.cfg x).sigH0 + (s.cfg x).omega + s.cnt
  | .hi => (s.cfg x).sigH0 + s.hidx
  | .hp => (s.cfg x).sigH0 + s.hidx + s.cnt
  | _ => s.rdp

/-- The write port of the hint store. -/
def nextH : Nat → Bool :=
  match s.st with
  | .hclr => Function.update s.h s.hclr false
  | .hi => if s.ph then Function.update s.h (s.poly % 2 ^ 3 * 2 ^ 8 + s.sigRdata) true else s.h
  | _ => s.h

/-- An edge, with `sig` in the signature buffer. -/
def next (sig : Nat → BitVec 8) : Verifier :=
  { s.nextCtl x with done := s.st = .later ∧ x.fin = true, h := s.nextH
                     sigRdata := (sig (s.sigRaddr x)).toNat }

/-- The bit that `S_UH` reads for coefficient `cnt` of row `vi`. -/
def useHint (vi cnt : Nat) : Bool := s.h (vi % 2 ^ 3 * 2 ^ 8 + cnt)

end Verifier

/-- `S_IDLE`; the states up to the first `S_EM_GO`; `S_EM_GO` for row 0; the states up to `S_R_WB`;
`S_H_MUL`, `S_H_GO` and `S_H_ST`; `S_H_WB`; `S_REJ`; `S_SIG_CT`, `S_SIG_Z` and `S_SIG_ZD`;
`S_HP_CLR`, `S_HP`, `S_HP_CNT`; `S_FIN`. -/
inductive SgSt where
  | idle
  | prep
  | emGo
  | round
  | hmul
  | hwb
  | rej
  | enc
  | hpClr
  | hp
  | hpCnt
  | fin
  deriving DecidableEq

/-- The start port, the ends of the states that stand for many, the checks and hints of the data
path, the read port of the debugger, and what `S_SIG_Z` writes. -/
structure SgIn where
  start : Bool
  pset : BitVec 2
  prepDone : Bool
  roundDone : Bool
  ntDone : Bool
  encDone : Bool
  normBad : Bool
  hintBit : Bool
  dbgAddr : Nat
  encWrite : Option (Nat × BitVec 8)

structure Signer where
  st : SgSt
  psetR : BitVec 2
  busyR : Bool
  cnt : Nat
  ph : Bool
  vi : Nat
  hph : Nat
  nbR : Bool
  reject : Bool
  weight : Nat
  hidx : Nat
  done : Bool
  hnDout : Bool
  hn : Nat → Bool
  sig : Nat → BitVec 8

namespace Signer

variable (s : Signer) (x : SgIn)

def cfg : MldsaParams := mldsaParams (if s.busyR then s.psetR else x.pset)

def nextHmul : Signer := if x.ntDone then { s with cnt := 0, ph := false, st := .hwb } else s

/-- Three cycles a coefficient; the hint bit is there in the last one. -/
def nextHwb : Signer :=
  if s.hph = 0 then { s with hph := 1 }
  else if s.hph = 1 then { s with nbR := x.normBad, hph := 2 }
  else
    let reject := s.reject || s.nbR
    let weight := if x.hintBit then (s.weight + 1) % 2 ^ 11 else s.weight
    if s.cnt = 255 then
      if s.vi = (s.cfg x).k - 1 then
        { s with hph := 0, reject := reject, weight := weight, cnt := 0, ph := false, vi := 0
                 st := .rej }
      else
        { s with hph := 0, reject := reject, weight := weight, cnt := 0, ph := false
                 vi := (s.vi + 1) % 2 ^ 4, st := .hmul }
    else
      { s with hph := 0, reject := reject, weight := weight, ph := false
               cnt := (s.cnt + 1) % 2 ^ 8 }

def nextRej : Signer :=
  if s.reject || (s.cfg x).omega < s.weight then { s with st := .emGo }
  else { s with cnt := 0, st := .enc }

def nextHpClr : Signer :=
  if s.cnt = (s.cfg x).omega - 1 then
    { s with vi := 0, cnt := 0, ph := false, hidx := 0, st := .hp }
  else { s with cnt := (s.cnt + 1) % 2 ^ 8 }

def nextHp : Signer :=
  if !s.ph then { s with ph := true }
  else
    let hidx := if s.hnDout then (s.hidx + 1) % 2 ^ 8 else s.hidx
    if s.cnt = 255 then { s with hidx := hidx, cnt := 0, ph := false, st := .hpCnt }
    else { s with hidx := hidx, cnt := (s.cnt + 1) % 2 ^ 8, ph := false }

def nextHpCnt : Signer :=
  if s.vi = (s.cfg x).k - 1 then { s with st := .fin }
  else { s with vi := (s.vi + 1) % 2 ^ 4, cnt := 0, ph := false, st := .hp }

def nextCtl : Signer :=
  match s.st with
  | .idle =>
    if x.start then { s with psetR := x.pset, busyR := true, cnt := 0, ph := false, st := .prep }
    else s
  | .prep => if x.prepDone then { s with st := .emGo } else s
  | .emGo => { s with reject := false, weight := 0, st := .round }
  | .round =>
    if x.roundDone then
      { s with reject := s.reject || x.normBad, vi := 0, cnt := 0, ph := false, st := .hmul }
    else { s with reject := s.reject || x.normBad }
  | .hmul => s.nextHmul x
  | .hwb => s.nextHwb x
  | .rej => s.nextRej x
  | .enc => if x.encDone then { s with cnt := 0, st := .hpClr } else s
  | .hpClr => s.nextHpClr x
  | .hp => s.nextHp
  | .hpCnt => s.nextHpCnt x
  | .fin => { s with busyR := false, st := .idle }

/-- The write port of the hint store. -/
def nextHn : Nat → Bool :=
  if s.st = .hwb ∧ s.hph = 2 then
    Function.update s.hn (s.vi % 2 ^ 3 * 2 ^ 8 + s.cnt) x.hintBit
  else s.hn

/-- The write port of the signature buffer. -/
def nextSig : Nat → BitVec 8 :=
  match s.st with
  | .enc =>
    match x.encWrite with
    | some (a, b) => Function.update s.sig a b
    | none => s.sig
  | .hpClr => Function.update s.sig ((s.cfg x).sigH0 + s.cnt) 0
  | .hp =>
    if s.ph && s.hnDout then
      Function.update s.sig ((s.cfg x).sigH0 + s.hidx) (BitVec.ofNat 8 s.cnt)
    else s.sig
  | .hpCnt =>
    Function.update s.sig ((s.cfg x).sigH0 + (s.cfg x).omega + s.vi) (BitVec.ofNat 8 s.hidx)
  | _ => s.sig

def next : Signer :=
  { s.nextCtl x with
    done := s.st = .fin
    hn := s.nextHn x
    hnDout := s.hn (if s.st = .hp then s.vi % 2 ^ 3 * 2 ^ 8 + s.cnt else x.dbgAddr)
    sig := s.nextSig x }

end Signer

end PqcHsm
