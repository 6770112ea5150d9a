import AdcCapture.Clocked

/-!
# axis_gmii_tx

The frame transmitter of the MAC, AXI stream in and GMII out. The timestamp
ports are left out (`PTP_TS_ENABLE` is 0), the byte-wise CRC of `lfsr` is a
parameter. Each state of the `case` statement has its own definition.
-/

namespace AdcCapture.AxisGmiiTx

set_option autoImplicit false

/-- The parameters of the module and its constant `ifg_delay`. -/
structure Config where
  enablePadding : Bool
  minFrameLength : Nat
  ifgDelay : BitVec 8
  crcNext : BitVec 8 → BitVec 32 → BitVec 32
  min_le : 5 ≤ minFrameLength
  le_max : minFrameLength ≤ 65536
  ifg_pos : 1 ≤ ifgDelay.toNat

inductive State where
  | idle | preamble | payload | last | pad | fcs | waitEnd | ifg
  deriving DecidableEq, Repr

structure Reg where
  state : State
  sTdata : BitVec 8
  miiOdd : Bool
  miiMsn : BitVec 4
  framePtr : BitVec 16
  gmiiTxd : BitVec 8
  gmiiTxEn : Bool
  gmiiTxEr : Bool
  sAxisTready : Bool
  startPacket : Bool
  errorUnderflow : Bool
  crcState : BitVec 32
  deriving DecidableEq, Repr

structure Input where
  sAxisTdata : BitVec 8
  sAxisTvalid : Bool
  sAxisTlast : Bool
  sAxisTuser : Bool
  clkEnable : Bool
  miiSelect : Bool

def ethPre : BitVec 8 := 0x55#8

def ethSfd : BitVec 8 := 0xD5#8

/-- The `_next` values, the CRC control and `tx_done`. -/
structure Comb where
  stateNext : State
  resetCrc : Bool
  updateCrc : Bool
  miiOddNext : Bool
  miiMsnNext : BitVec 4
  framePtrNext : BitVec 16
  sAxisTreadyNext : Bool
  sTdataNext : BitVec 8
  gmiiTxdNext : BitVec 8
  gmiiTxEnNext : Bool
  gmiiTxErNext : Bool
  startPacketNext : Bool
  errorUnderflowNext : Bool
  txDone : Bool

def defaults (r : Reg) : Comb where
  stateNext := .idle
  resetCrc := false
  updateCrc := false
  miiOddNext := r.miiOdd
  miiMsnNext := r.miiMsn
  framePtrNext := r.framePtr
  sAxisTreadyNext := false
  sTdataNext := r.sTdata
  gmiiTxdNext := 0#8
  gmiiTxEnNext := false
  gmiiTxErNext := false
  startPacketNext := false
  errorUnderflowNext := false
  txDone := false

/-- `frame_ptr_reg < ifg_delay-1`, in the 32 bits of the literal. -/
def inGap (cfg : Config) (r : Reg) : Bool :=
  (r.framePtr.setWidth 32).ult (cfg.ifgDelay.setWidth 32 - 1#32)

/-- `frame_ptr_reg < MIN_FRAME_LENGTH-5`, in the 32 bits of the parameter. -/
def isShort (cfg : Config) (r : Reg) : Bool :=
  (r.framePtr.setWidth 32).ult (BitVec.ofNat 32 cfg.minFrameLength - 5#32)

def idle (r : Reg) (i : Input) : Comb :=
  let d := { defaults r with resetCrc := true, miiOddNext := false }
  if i.sAxisTvalid then
    { d with
      miiOddNext := true
      framePtrNext := 1#16
      gmiiTxdNext := ethPre
      gmiiTxEnNext := true
      stateNext := .preamble }
  else { d with stateNext := .idle }

def preamble (r : Reg) (i : Input) : Comb :=
  let d :=
    { defaults r with
      resetCrc := true
      miiOddNext := true
      framePtrNext := r.framePtr + 1#16
      gmiiTxdNext := ethPre
      gmiiTxEnNext := true }
  if r.framePtr = 6#16 then
    { d with sAxisTreadyNext := true, sTdataNext := i.sAxisTdata, stateNext := .preamble }
  else if r.framePtr = 7#16 then
    { d with
      framePtrNext := 0#16
      sAxisTreadyNext := r.sAxisTready
      sTdataNext := if r.sAxisTready then i.sAxisTdata else r.sTdata
      gmiiTxdNext := ethSfd
      startPacketNext := true
      stateNext := .payload }
  else { d with stateNext := .preamble }

def payload (r : Reg) (i : Input) : Comb :=
  let d :=
    { defaults r with
      updateCrc := true
      sAxisTreadyNext := true
      miiOddNext := true
      framePtrNext := r.framePtr + 1#16
      gmiiTxdNext := r.sTdata
      gmiiTxEnNext := true
      sTdataNext := i.sAxisTdata }
  if i.sAxisTvalid then
    if i.sAxisTlast then
      if i.sAxisTuser then
        { d with
          sAxisTreadyNext := !r.sAxisTready
          gmiiTxErNext := true
          framePtrNext := 0#16
          stateNext := .ifg }
      else { d with sAxisTreadyNext := !r.sAxisTready, stateNext := .last }
    else { d with stateNext := .payload }
  else
    { d with
      gmiiTxErNext := true
      framePtrNext := 0#16
      errorUnderflowNext := true
      stateNext := .waitEnd }

def last (cfg : Config) (r : Reg) : Comb :=
  let d :=
    { defaults r with
      updateCrc := true
      miiOddNext := true
      framePtrNext := r.framePtr + 1#16
      gmiiTxdNext := r.sTdata
      gmiiTxEnNext := true }
  if cfg.enablePadding && isShort cfg r then { d with sTdataNext := 0#8, stateNext := .pad }
  else { d with framePtrNext := 0#16, stateNext := .fcs }

def pad (cfg : Config) (r : Reg) : Comb :=
  let d :=
    { defaults r with
      updateCrc := true
      miiOddNext := true
      framePtrNext := r.framePtr + 1#16
      gmiiTxEnNext := true
      sTdataNext := 0#8 }
  if isShort cfg r then { d with stateNext := .pad }
  else { d with framePtrNext := 0#16, stateNext := .fcs }

def fcsByte (r : Reg) : BitVec 8 :=
  if r.framePtr = 0#16 then ~~~(r.crcState.extractLsb' 0 8)
  else if r.framePtr = 1#16 then ~~~(r.crcState.extractLsb' 8 8)
  else if r.framePtr = 2#16 then ~~~(r.crcState.extractLsb' 16 8)
  else if r.framePtr = 3#16 then ~~~(r.crcState.extractLsb' 24 8)
  else 0#8

def fcs (r : Reg) : Comb :=
  let d :=
    { defaults r with
      miiOddNext := true
      framePtrNext := r.framePtr + 1#16
      gmiiTxdNext := fcsByte r
      gmiiTxEnNext := true }
  if r.framePtr < 3#16 then { d with stateNext := .fcs }
  else { d with framePtrNext := 0#16, stateNext := .ifg }

def waitEnd (cfg : Config) (r : Reg) (i : Input) : Comb :=
  let d :=
    { defaults r with
      resetCrc := true
      miiOddNext := true
      framePtrNext := r.framePtr + 1#16
      sAxisTreadyNext := true }
  if i.sAxisTvalid && i.sAxisTlast then
    if inGap cfg r then { d with sAxisTreadyNext := false, stateNext := .ifg }
    else { d with sAxisTreadyNext := false, txDone := true, stateNext := .idle }
  else { d with stateNext := .waitEnd }

def ifg (cfg : Config) (r : Reg) : Comb :=
  let d :=
    { defaults r with resetCrc := true, miiOddNext := true, framePtrNext := r.framePtr + 1#16 }
  if inGap cfg r then { d with stateNext := .ifg }
  else { d with txDone := true, stateNext := .idle }

/-- The `case` statement. -/
def byState (cfg : Config) (r : Reg) (i : Input) : Comb :=
  match r.state with
  | .idle => idle r i
  | .preamble => preamble r i
  | .payload => payload r i
  | .last => last cfg r
  | .pad => pad cfg r
  | .fcs => fcs r
  | .waitEnd => waitEnd cfg r i
  | .ifg => ifg cfg r

def comb (cfg : Config) (r : Reg) (i : Input) : Comb :=
  if !i.clkEnable then
    { defaults r with
      gmiiTxdNext := r.gmiiTxd
      gmiiTxEnNext := r.gmiiTxEn
      gmiiTxErNext := r.gmiiTxEr
      stateNext := r.state }
  else if i.miiSelect && r.miiOdd then
    { defaults r with
      miiOddNext := false
      gmiiTxdNext := r.miiMsn.setWidth 8
      gmiiTxEnNext := r.gmiiTxEn
      gmiiTxErNext := r.gmiiTxEr
      stateNext := r.state }
  else
    let b := byState cfg r i
    if i.miiSelect then
      { b with
        miiMsnNext := b.gmiiTxdNext.extractLsb' 4 4
        gmiiTxdNext := (b.gmiiTxdNext.extractLsb' 0 4).setWidth 8 }
    else b

def posedge (cfg : Config) (rst : Bool) (r : Reg) (i : Input) : Reg :=
  let b := comb cfg r i
  { state := if rst then .idle else b.stateNext
    sTdata := b.sTdataNext
    miiOdd := b.miiOddNext
    miiMsn := b.miiMsnNext
    framePtr := if rst then 0#16 else b.framePtrNext
    gmiiTxd := b.gmiiTxdNext
    gmiiTxEn := if rst then false else b.gmiiTxEnNext
    gmiiTxEr := if rst then false else b.gmiiTxErNext
    sAxisTready := if rst then false else b.sAxisTreadyNext
    startPacket := if rst then false else b.startPacketNext
    errorUnderflow := if rst then false else b.errorUnderflowNext
    crcState :=
      if rst || b.resetCrc then 0xFFFFFFFF#32
      else if b.updateCrc then cfg.crcNext r.sTdata r.crcState
      else r.crcState }

/-! ## States that give no pulse, states that are not ready -/

section States
variable (cfg : Config) (r : Reg) (i : Input)

@[simp] theorem idle_txDone : (idle r i).txDone = false := by
  unfold idle
  split <;> rfl

@[simp] theorem preamble_txDone : (preamble r i).txDone = false := by
  unfold preamble
  split
  · rfl
  · split <;> rfl

@[simp] theorem payload_txDone : (payload r i).txDone = false := by
  unfold payload
  split
  · split
    · split <;> rfl
    · rfl
  · rfl

@[simp] theorem last_txDone : (last cfg r).txDone = false := by
  unfold last
  split <;> rfl

@[simp] theorem pad_txDone : (pad cfg r).txDone = false := by
  unfold pad
  split <;> rfl

@[simp] theorem fcs_txDone : (fcs r).txDone = false := by
  unfold fcs
  split <;> rfl

@[simp] theorem idle_sAxisTreadyNext : (idle r i).sAxisTreadyNext = false := by
  unfold idle
  split <;> rfl

@[simp] theorem last_sAxisTreadyNext : (last cfg r).sAxisTreadyNext = false := by
  unfold last
  split <;> rfl

@[simp] theorem pad_sAxisTreadyNext : (pad cfg r).sAxisTreadyNext = false := by
  unfold pad
  split <;> rfl

@[simp] theorem fcs_sAxisTreadyNext : (fcs r).sAxisTreadyNext = false := by
  unfold fcs
  split <;> rfl

@[simp] theorem ifg_sAxisTreadyNext : (ifg cfg r).sAxisTreadyNext = false := by
  unfold ifg
  split <;> rfl

end States

/-- A frame's last byte is accepted in this clock. -/
def lastAccepted (r : Reg) (i : Input) : Bool :=
  r.sAxisTready && i.sAxisTvalid && i.sAxisTlast

section Compare
variable {cfg : Config} {r : Reg}

theorem inGap_iff : inGap cfg r = true ↔ r.framePtr.toNat + 1 < cfg.ifgDelay.toNat := by
  have hp := cfg.ifg_pos
  have h1 := cfg.ifgDelay.isLt
  have h2 := r.framePtr.isLt
  simp only [inGap, BitVec.ult, decide_eq_true_eq, BitVec.toNat_setWidth, BitVec.toNat_sub,
    BitVec.toNat_ofNat]
  omega

theorem isShort_iff : isShort cfg r = true ↔ r.framePtr.toNat + 5 < cfg.minFrameLength := by
  have h5 := cfg.min_le
  have h6 := cfg.le_max
  have h2 := r.framePtr.isLt
  simp only [isShort, BitVec.ult, decide_eq_true_eq, BitVec.toNat_setWidth, BitVec.toNat_sub,
    BitVec.toNat_ofNat]
  omega

end Compare

end AdcCapture.AxisGmiiTx
