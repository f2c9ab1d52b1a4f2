import PqcHsm.Rtl.Firewall

/-!
# The bus side of the accelerators

What `mlkem_axi` and `mldsa_axi` write in the same words: the registers that take a write apart, and
the registers of the answer to a read. Behind the firewall, `x` is what the firewall drives.
-/

namespace PqcHsm

def RESP_SLVERR : BitVec 2 := 2

/-- `addr[5:2]` -/
def regField (addr : BitVec 8) : BitVec 4 := addr.extractLsb' 2 4

/-- `addr[7:2]` -/
def regField6 (addr : BitVec 8) : BitVec 6 := addr.extractLsb' 2 6

def A6_INDATA4 : BitVec 6 := 0x10

def A6_OUTDATA4 : BitVec 6 := 0x11

/-- The firewall in front of the accelerators. -/
@[reducible]
def accelFw (secureOnly : Bool) : FwParams where
  aw := 8
  secureOnly := secureOnly
  privOnly := false
  allowWrite := true
  allowRead := true
  addrBase := 0
  addrMask := 0x80

/-- `aw_got` to `w_strb_r`, `f_bvalid` and `f_bresp`. -/
structure WrPort where
  awGot : Bool
  wGot : Bool
  awAddr : BitVec 8
  awProt : BitVec 3
  wData : BitVec 32
  wStrb : BitVec 4
  bvalid : Bool
  bresp : BitVec 2

/-- `f_rvalid`, `f_rresp` and `f_rdata`. -/
structure RdPort where
  rvalid : Bool
  rresp : BitVec 2
  rdata : BitVec 32

/-- A write in the cycle in which it takes effect: `wr_addr`, `wr_prot`, `wr_data`, `wr_strb`. -/
structure BusWrite where
  addr : BitVec 8
  prot : BitVec 3
  data : BitVec 32
  strb : BitVec 4

namespace WrPort

variable (w : WrPort) (x : AxiMaster 8)

def reset : WrPort := ⟨false, false, 0, 0, 0, 0, false, RESP_OKAY⟩

def awready : Bool := !w.awGot && !w.bvalid

def wready : Bool := !w.wGot && !w.bvalid

def awHandshake : Bool := x.awvalid && w.awready

def wHandshake : Bool := x.wvalid && w.wready

/-- `wr_now`, with the write that it is. A packed write that still runs holds it up. -/
def wrNow (pkwRun : Bool) : Option BusWrite :=
  if (w.awGot || w.awHandshake x) && (w.wGot || w.wHandshake x) && !w.bvalid && !pkwRun then
    some
      { addr := if w.awHandshake x then x.awaddr else w.awAddr
        prot := if w.awHandshake x then x.awprot else w.awProt
        data := if w.wHandshake x then x.wdata else w.wData
        strb := if w.wHandshake x then x.wstrb else w.wStrb }
  else none

/-- The registers after the edge; `resp` answers the write of this cycle, if there is one. -/
def next (resp : Option (BitVec 2)) : WrPort where
  awGot := !resp.isSome && (w.awGot || w.awHandshake x)
  wGot := !resp.isSome && (w.wGot || w.wHandshake x)
  awAddr := if w.awHandshake x then x.awaddr else w.awAddr
  awProt := if w.awHandshake x then x.awprot else w.awProt
  wData := if w.wHandshake x then x.wdata else w.wData
  wStrb := if w.wHandshake x then x.wstrb else w.wStrb
  bvalid := if w.bvalid && x.bready then false else w.bvalid || resp.isSome
  bresp := resp.getD w.bresp

end WrPort

namespace RdPort

variable (r : RdPort) (x : AxiMaster 8)

def reset : RdPort := ⟨false, RESP_OKAY, 0⟩

/-- `f_arvalid && f_arready`, with the address. A packed read that still runs holds it up. -/
def arNow (pkrRun : Bool) : Option (BitVec 8) :=
  if x.arvalid && (!r.rvalid && !pkrRun) then some x.araddr else none

/-- The registers after the edge: `packed` is the word that a packed read ends with in this cycle,
`taken` the word of the read that is taken in it, and whether that read is answered at once. -/
def next (packed : Option (BitVec 32)) (taken : Option (BitVec 32 × Bool)) : RdPort where
  rvalid :=
    if r.rvalid && x.rready then false
    else match taken with
      | some (_, atOnce) => atOnce
      | none => packed.isSome || r.rvalid
  rresp := if taken.isSome || packed.isSome then RESP_OKAY else r.rresp
  rdata :=
    match taken with
    | some (word, _) => word
    | none => packed.getD r.rdata

end RdPort

/-- What the bus side drives to the firewall. -/
def busOut (w : WrPort) (r : RdPort) (pkrRun : Bool) : AxiSlave where
  awready := w.awready
  wready := w.wready
  bresp := w.bresp
  bvalid := w.bvalid
  arready := !r.rvalid && !pkrRun
  rdata := r.rdata
  rresp := r.rresp
  rvalid := r.rvalid

/-- `pkw_run` to `pkw_addr`: the bytes of a packed write that are still to be stored. -/
structure PackedWrite (aw : Nat) where
  run : Bool
  i : BitVec 2
  data : BitVec 24
  addr : BitVec aw

namespace PackedWrite

variable {aw : Nat} (k : PackedWrite aw)

def reset (aw : Nat) : PackedWrite aw := ⟨false, 0, 0, 0⟩

/-- The registers after the edge; `start` are the bytes and the address of the packed write of this
cycle. -/
def next (zeroizeAll : Bool) (start : Option (BitVec 24 × BitVec aw)) : PackedWrite aw :=
  match start with
  | some (data, addr) => ⟨true, 0, data, addr⟩
  | none =>
    if k.run then ⟨!zeroizeAll && k.i ≠ 2, k.i + 1, k.data >>> 8, k.addr + 1⟩
    else if zeroizeAll then ⟨false, 0, 0, k.addr⟩
    else k

end PackedWrite

end PqcHsm
