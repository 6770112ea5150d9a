import AdcCapture.EthCrc
import AdcCapture.Clocked

/-!
# axis_gmii_rx

The frame receiver of the MAC, GMII in and AXI stream out. The timestamp ports
are left out (`PTP_TS_ENABLE` is 0).
-/

namespace AdcCapture.AxisGmiiRx

set_option autoImplicit false

inductive State where
  | idle | payload | waitLast
  deriving DecidableEq, Repr

/-- One stage of the input delay: `gmii_rxd_dN`, `gmii_rx_dv_dN` and `gmii_rx_er_dN`. -/
structure Stage where
  rxd : BitVec 8
  rxDv : Bool
  rxEr : Bool
  deriving DecidableEq, Repr

structure Delay where
  d0 : Stage
  d1 : Stage
  d2 : Stage
  d3 : Stage
  d4 : Stage
  deriving DecidableEq, Repr

structure Reg where
  state : State
  miiOdd : Bool
  miiLocked : Bool
  delay : Delay
  mAxisTdata : BitVec 8
  mAxisTvalid : Bool
  mAxisTlast : Bool
  mAxisTuser : Bool
  startPacket : Bool
  errorBadFrame : Bool
  errorBadFcs : Bool
  crcState : BitVec 32
  deriving DecidableEq, Repr

structure Input where
  gmii : Stage
  clkEnable : Bool
  miiSelect : Bool

def ethSfd : BitVec 8 := 0xD5#8

/-- The `_next` values and the CRC control. -/
structure Comb where
  stateNext : State
  resetCrc : Bool
  updateCrc : Bool
  mAxisTdataNext : BitVec 8
  mAxisTvalidNext : Bool
  mAxisTlastNext : Bool
  mAxisTuserNext : Bool
  startPacketNext : Bool
  errorBadFrameNext : Bool
  errorBadFcsNext : Bool

def defaults : Comb where
  stateNext := .idle
  resetCrc := false
  updateCrc := false
  mAxisTdataNext := 0#8
  mAxisTvalidNext := false
  mAxisTlastNext := false
  mAxisTuserNext := false
  startPacketNext := false
  errorBadFrameNext := false
  errorBadFcsNext := false

/-- `crc_next`. -/
def crcNext (r : Reg) : BitVec 32 := EthCrc.crcNext r.delay.d4.rxd r.crcState

def isSfd (s : Stage) : Bool := s.rxDv && !s.rxEr && s.rxd == ethSfd

def idle (r : Reg) : Comb :=
  let d := { defaults with resetCrc := true }
  if isSfd r.delay.d4 then { d with startPacketNext := true, stateNext := .payload }
  else { d with stateNext := .idle }

/-- An error in the bytes of the frame check sequence. -/
def fcsError (d : Delay) : Bool := d.d0.rxEr || d.d1.rxEr || d.d2.rxEr || d.d3.rxEr

def fcs (d : Delay) : BitVec 32 := d.d0.rxd ++ d.d1.rxd ++ d.d2.rxd ++ d.d3.rxd

def payload (r : Reg) (gmii : Stage) : Comb :=
  let d :=
    { defaults with updateCrc := true, mAxisTdataNext := r.delay.d4.rxd, mAxisTvalidNext := true }
  if r.delay.d4.rxDv && r.delay.d4.rxEr then
    { d with
      mAxisTlastNext := true
      mAxisTuserNext := true
      errorBadFrameNext := true
      stateNext := .waitLast }
  else if !gmii.rxDv then
    let d := { d with mAxisTlastNext := true, stateNext := .idle }
    if fcsError r.delay then { d with mAxisTuserNext := true, errorBadFrameNext := true }
    else if fcs r.delay == ~~~crcNext r then { d with mAxisTuserNext := false }
    else { d with mAxisTuserNext := true, errorBadFrameNext := true, errorBadFcsNext := true }
  else { d with stateNext := .payload }

def waitLast (gmii : Stage) : Comb :=
  if !gmii.rxDv then { defaults with stateNext := .idle }
  else { defaults with stateNext := .waitLast }

/-- The `case` statement. -/
def byState (r : Reg) (gmii : Stage) : Comb :=
  match r.state with
  | .idle => idle r
  | .payload => payload r gmii
  | .waitLast => waitLast gmii

def comb (r : Reg) (i : Input) : Comb :=
  if !i.clkEnable then { defaults with stateNext := r.state }
  else if i.miiSelect && !r.miiOdd then { defaults with stateNext := r.state }
  else byState r i.gmii

/-- A stage takes the one before it, and drops `dv` with the input. -/
def Stage.passOn (s gmii : Stage) : Stage := { s with rxDv := s.rxDv && gmii.rxDv }

def Delay.gmii (d : Delay) (i : Stage) : Delay where
  d0 := i
  d1 := d.d0.passOn i
  d2 := d.d1.passOn i
  d3 := d.d2.passOn i
  d4 := d.d3.passOn i

/-- The byte of two nibbles, the later one on top. -/
def miiByte (d : Delay) (i : Stage) : BitVec 8 :=
  i.rxd.extractLsb' 0 4 ++ d.d0.rxd.extractLsb' 4 4

def Delay.mii (d : Delay) (miiOdd : Bool) (i : Stage) : Delay :=
  if miiOdd then
    { d0 := ⟨miiByte d i, i.rxDv && d.d0.rxDv, i.rxEr || d.d0.rxEr⟩
      d1 := d.d0.passOn i
      d2 := d.d1.passOn i
      d3 := d.d2.passOn i
      d4 := d.d3.passOn i }
  else { d with d0 := ⟨miiByte d i, i.rxDv, i.rxEr⟩ }

def Delay.clearDv (d : Delay) : Delay where
  d0 := { d.d0 with rxDv := false }
  d1 := { d.d1 with rxDv := false }
  d2 := { d.d2 with rxDv := false }
  d3 := { d.d3 with rxDv := false }
  d4 := { d.d4 with rxDv := false }

def delayNext (r : Reg) (i : Input) : Delay :=
  if i.clkEnable then
    if i.miiSelect then r.delay.mii r.miiOdd i.gmii else r.delay.gmii i.gmii
  else r.delay

/-- `mii_locked` sees the start of the frame in this nibble. -/
def miiLocks (r : Reg) (i : Input) : Bool :=
  !r.miiLocked && (i.gmii.rxDv && miiByte r.delay i.gmii == ethSfd)

def posedge (rst : Bool) (r : Reg) (i : Input) : Reg :=
  let b := comb r i
  let mii := i.clkEnable && i.miiSelect
  { state := if rst then .idle else b.stateNext
    miiOdd :=
      if rst then false else if mii then (if miiLocks r i then true else !r.miiOdd) else r.miiOdd
    miiLocked :=
      if rst then false
      else if mii then (if r.miiLocked then i.gmii.rxDv else miiLocks r i)
      else r.miiLocked
    delay := if rst then (delayNext r i).clearDv else delayNext r i
    mAxisTdata := b.mAxisTdataNext
    mAxisTvalid := if rst then false else b.mAxisTvalidNext
    mAxisTlast := b.mAxisTlastNext
    mAxisTuser := b.mAxisTuserNext
    startPacket := if rst then false else b.startPacketNext
    errorBadFrame := if rst then false else b.errorBadFrameNext
    errorBadFcs := if rst then false else b.errorBadFcsNext
    crcState :=
      if rst || b.resetCrc then 0xFFFFFFFF#32
      else if b.updateCrc then crcNext r
      else r.crcState }

end AdcCapture.AxisGmiiRx
