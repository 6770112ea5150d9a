import Mathlib.Data.Fintype.Basic

/-!
# udp_checksum_gen

Header in, payload in, checksum, header out. The payload FIFO is outside the
model, its `tready` is an input. The header FIFO is inside: a frame whose header
does not fit into it is dropped from the header path.
-/

namespace AdcCapture.UdpChecksumGen

set_option autoImplicit false

inductive State where
  | idle | sumHeader1 | sumHeader2 | sumHeader3 | sumPayload | finishSum
  deriving DecidableEq, Repr

/-- The header fields that enter the checksum. -/
structure Header where
  ipSourceIp : BitVec 32
  ipDestIp : BitVec 32
  udpSourcePort : BitVec 16
  udpDestPort : BitVec 16
  deriving DecidableEq, Repr

structure Entry where
  hdr : Header
  udpLength : BitVec 16
  udpChecksum : BitVec 16
  deriving DecidableEq, Repr

structure Reg where
  state : State
  framePtr : BitVec 16
  checksum : BitVec 32
  hdr : Header
  hdrValid : Bool
  sUdpHdrReady : Bool
  headerFifoWrPtr : BitVec 4
  headerFifoRdPtr : BitVec 4
  mem : BitVec 3 → Entry
  m : Entry
  mUdpHdrValid : Bool

structure Input where
  sUdpHdrValid : Bool
  sHdr : Header
  sUdpPayloadAxisTdata : BitVec 8
  sUdpPayloadAxisTvalid : Bool
  sUdpPayloadAxisTlast : Bool
  payloadFifoTready : Bool
  mUdpHdrReady : Bool

def shiftPayloadIn (r : Reg) : Bool := r.state == .sumPayload

def sUdpPayloadAxisTready (r : Reg) (payloadFifoTready : Bool) : Bool :=
  payloadFifoTready && shiftPayloadIn r

/-! ## Header FIFO -/

def headerFifoFull (r : Reg) : Bool :=
  r.headerFifoWrPtr.getLsbD 3 != r.headerFifoRdPtr.getLsbD 3 &&
    r.headerFifoWrPtr.extractLsb' 0 3 == r.headerFifoRdPtr.extractLsb' 0 3

def headerFifoEmpty (r : Reg) : Bool := r.headerFifoWrPtr == r.headerFifoRdPtr

def headerFifoWrite (r : Reg) : Bool := r.hdrValid && !headerFifoFull r

def headerFifoRead (r : Reg) (i : Input) : Bool :=
  (i.mUdpHdrReady || !r.mUdpHdrValid) && !headerFifoEmpty r

/-! ## The state machine -/

structure Comb where
  stateNext : State
  sUdpHdrReadyNext : Bool
  storeUdpHdr : Bool
  framePtrNext : BitVec 16
  checksumNext : BitVec 32
  hdrValidNext : Bool

def defaults (r : Reg) : Comb where
  stateNext := .idle
  sUdpHdrReadyNext := false
  storeUdpHdr := false
  framePtrNext := r.framePtr
  checksumNext := r.checksum
  hdrValidNext := false

def hdrAccepted (r : Reg) (i : Input) : Bool := r.sUdpHdrReady && i.sUdpHdrValid

def byteAccepted (r : Reg) (i : Input) : Bool :=
  sUdpPayloadAxisTready r i.payloadFifoTready && i.sUdpPayloadAxisTvalid

def lastAccepted (r : Reg) (i : Input) : Bool := byteAccepted r i && i.sUdpPayloadAxisTlast

def hdrHandedOver (r : Reg) (i : Input) : Bool := r.mUdpHdrValid && i.mUdpHdrReady

def comb (r : Reg) (i : Input) : Comb :=
  match r.state with
  | .idle =>
    if hdrAccepted r i then
      { defaults r with
        storeUdpHdr := true
        framePtrNext := 0#16
        checksumNext := 0x0011#32 + 0x0010#32
        stateNext := .sumHeader1 }
    else { defaults r with sUdpHdrReadyNext := !headerFifoFull r }
  | .sumHeader1 =>
    { defaults r with
      checksumNext := r.checksum + (r.hdr.ipSourceIp.extractLsb' 16 16).zeroExtend 32 +
        (r.hdr.ipSourceIp.extractLsb' 0 16).zeroExtend 32
      stateNext := .sumHeader2 }
  | .sumHeader2 =>
    { defaults r with
      checksumNext := r.checksum + (r.hdr.ipDestIp.extractLsb' 16 16).zeroExtend 32 +
        (r.hdr.ipDestIp.extractLsb' 0 16).zeroExtend 32
      stateNext := .sumHeader3 }
  | .sumHeader3 =>
    { defaults r with
      checksumNext := r.checksum + r.hdr.udpSourcePort.zeroExtend 32 +
        r.hdr.udpDestPort.zeroExtend 32
      framePtrNext := 8#16
      stateNext := .sumPayload }
  | .sumPayload =>
    if byteAccepted r i then
      { defaults r with
        checksumNext :=
          if r.framePtr.getLsbD 0 then
            r.checksum + (0#8 ++ i.sUdpPayloadAxisTdata).zeroExtend 32 + 2#32
          else r.checksum + (i.sUdpPayloadAxisTdata ++ 0#8).zeroExtend 32 + 2#32
        framePtrNext := r.framePtr + 1#16
        stateNext := if i.sUdpPayloadAxisTlast then .finishSum else .sumPayload }
    else { defaults r with stateNext := .sumPayload }
  | .finishSum =>
    let checksumPart :=
      (r.checksum.extractLsb' 0 16).zeroExtend 32 + (r.checksum.extractLsb' 16 16).zeroExtend 32
    { defaults r with
      checksumNext := ~~~((checksumPart.extractLsb' 0 16).zeroExtend 32 +
        (checksumPart.extractLsb' 16 1).zeroExtend 32)
      hdrValidNext := true
      stateNext := .idle }

def posedge (rst : Bool) (r : Reg) (i : Input) : Reg :=
  let c := comb r i
  { state := if rst then .idle else c.stateNext
    framePtr := c.framePtrNext
    checksum := c.checksumNext
    hdr := if c.storeUdpHdr then i.sHdr else r.hdr
    hdrValid := if rst then false else c.hdrValidNext
    sUdpHdrReady := if rst then false else c.sUdpHdrReadyNext
    headerFifoWrPtr :=
      if rst then 0#4
      else if headerFifoWrite r then r.headerFifoWrPtr + 1#4 else r.headerFifoWrPtr
    headerFifoRdPtr :=
      if rst then 0#4
      else if headerFifoRead r i then r.headerFifoRdPtr + 1#4 else r.headerFifoRdPtr
    mem := fun a =>
      if headerFifoWrite r && a == r.headerFifoWrPtr.extractLsb' 0 3 then
        ⟨r.hdr, r.framePtr, r.checksum.extractLsb' 0 16⟩
      else r.mem a
    m := if headerFifoRead r i then r.mem (r.headerFifoRdPtr.extractLsb' 0 3) else r.m
    mUdpHdrValid :=
      if rst then false
      else if i.mUdpHdrReady || !r.mUdpHdrValid then !headerFifoEmpty r else r.mUdpHdrValid }

/-- The declared initial values. -/
def reset : Reg where
  state := .idle
  framePtr := 0#16
  checksum := 0#32
  hdr := ⟨0#32, 0#32, 0#16, 0#16⟩
  hdrValid := false
  sUdpHdrReady := false
  headerFifoWrPtr := 0#4
  headerFifoRdPtr := 0#4
  mem := fun _ => ⟨⟨0#32, 0#32, 0#16, 0#16⟩, 0#16, 0#16⟩
  m := ⟨⟨0#32, 0#32, 0#16, 0#16⟩, 0#16, 0#16⟩
  mUdpHdrValid := false

/-! ## What one clock does -/

section Step
variable {r : Reg} {i : Input}

theorem sUdpPayloadAxisTready_iff {t : Bool} :
    sUdpPayloadAxisTready r t = true ↔ t = true ∧ r.state = .sumPayload := by
  simp [sUdpPayloadAxisTready, shiftPayloadIn]

theorem state_of_lastAccepted (h : lastAccepted r i = true) : r.state = .sumPayload := by
  simp only [lastAccepted, byteAccepted, Bool.and_eq_true, sUdpPayloadAxisTready_iff] at h
  exact h.1.1.2

theorem state_posedge : (posedge false r i).state =
    match r.state with
    | .idle => if hdrAccepted r i then .sumHeader1 else .idle
    | .sumHeader1 => .sumHeader2
    | .sumHeader2 => .sumHeader3
    | .sumHeader3 => .sumPayload
    | .sumPayload => if lastAccepted r i then .finishSum else .sumPayload
    | .finishSum => .idle := by
  cases hs : r.state with
  | idle => cases ha : hdrAccepted r i <;> simp [posedge, comb, hs, ha, defaults]
  | sumPayload =>
    cases hb : byteAccepted r i with
    | false => simp [posedge, comb, hs, hb, lastAccepted, defaults]
    | true => cases hl : i.sUdpPayloadAxisTlast <;>
        simp [posedge, comb, hs, hb, hl, lastAccepted]
  | sumHeader1 | sumHeader2 | sumHeader3 | finishSum => simp [posedge, comb, hs]

/-- Ready is given only by an idle clock that takes no header over. -/
theorem sUdpHdrReady_posedge : (posedge false r i).sUdpHdrReady =
    (decide (r.state = .idle) && !hdrAccepted r i && !headerFifoFull r) := by
  cases hs : r.state with
  | idle => cases ha : hdrAccepted r i <;> simp [posedge, comb, hs, ha, defaults]
  | sumPayload => cases hb : byteAccepted r i <;> simp [posedge, comb, hs, hb, defaults]
  | sumHeader1 | sumHeader2 | sumHeader3 | finishSum => simp [posedge, comb, hs, defaults]

theorem hdrValid_posedge : (posedge false r i).hdrValid = decide (r.state = .finishSum) := by
  cases hs : r.state with
  | idle => cases ha : hdrAccepted r i <;> simp [posedge, comb, hs, ha, defaults]
  | sumPayload => cases hb : byteAccepted r i <;> simp [posedge, comb, hs, hb, defaults]
  | sumHeader1 | sumHeader2 | sumHeader3 | finishSum => simp [posedge, comb, hs, defaults]

theorem pointers_posedge (hv : r.hdrValid = false) (hw : r.headerFifoWrPtr = 0#4)
    (hr : r.headerFifoRdPtr = 0#4) : (posedge false r i).headerFifoWrPtr = 0#4 ∧
      (posedge false r i).headerFifoRdPtr = 0#4 := by
  simp [posedge, headerFifoWrite, headerFifoRead, headerFifoEmpty, hv, hw, hr]

end Step

/-! ## Header accounting -/

/-- A header is held whose payload is not finished. -/
def holdsHeader (r : Reg) : Bool :=
  match r.state with
  | .sumHeader1 | .sumHeader2 | .sumHeader3 | .sumPayload => true
  | .idle | .finishSum => false

/-- A header finished but not yet in the header FIFO. -/
def finishing (r : Reg) : Bool := r.hdrValid || decide (r.state = .finishSum)

def level (r : Reg) : Nat := (r.headerFifoWrPtr - r.headerFifoRdPtr).toNat

/-- Headers in the header FIFO or in its output register. -/
def queued (r : Reg) : Nat := level r + r.mUdpHdrValid.toNat

theorem headerFifoFull_iff (r : Reg) : headerFifoFull r = true ↔ level r = 8 := by
  have h : ∀ a b : BitVec 4, (a.getLsbD 3 != b.getLsbD 3 &&
      a.extractLsb' 0 3 == b.extractLsb' 0 3) = true ↔ (a - b).toNat = 8 := by decide
  exact h _ _

theorem headerFifoEmpty_iff (r : Reg) : headerFifoEmpty r = true ↔ level r = 0 := by
  have h : ∀ a b : BitVec 4, (a == b) = true ↔ (a - b).toNat = 0 := by decide
  exact h _ _

structure Inv (r : Reg) : Prop where
  ready : r.sUdpHdrReady = true → r.state = .idle
  pending : r.hdrValid = true → r.state = .idle
  bounded : level r ≤ 8

theorem inv_reset : Inv reset := ⟨fun _ => rfl, fun _ => rfl, by decide⟩

section Accounting
variable {r : Reg} {i : Input}

theorem level_posedge (h : level r ≤ 8) : level (posedge false r i) =
    level r + (headerFifoWrite r).toNat - (headerFifoRead r i).toNat := by
  have hw : headerFifoWrite r = true → level r ≠ 8 := by
    intro hw hl
    rw [headerFifoWrite, (headerFifoFull_iff r).mpr hl] at hw
    simp at hw
  have hr : headerFifoRead r i = true → level r ≠ 0 := by
    intro hr hl
    rw [headerFifoRead, (headerFifoEmpty_iff r).mpr hl] at hr
    simp at hr
  unfold level at *
  simp only [posedge]
  cases hcw : headerFifoWrite r <;> cases hcr : headerFifoRead r i <;>
    simp only [hcw, hcr, Bool.false_eq_true, if_false, if_true, Bool.toNat_false,
      Bool.toNat_true, false_implies, true_implies] at * <;> bv_omega

theorem mUdpHdrValid_posedge : (posedge false r i).mUdpHdrValid =
    if i.mUdpHdrReady || !r.mUdpHdrValid then !headerFifoEmpty r else r.mUdpHdrValid := rfl

theorem queued_posedge (h : level r ≤ 8) : queued (posedge false r i) +
    (hdrHandedOver r i).toNat = queued r + (headerFifoWrite r).toNat := by
  have hl := level_posedge (i := i) h
  have he := headerFifoEmpty_iff r
  unfold queued
  rw [hl]
  rw [mUdpHdrValid_posedge]
  unfold headerFifoRead hdrHandedOver
  cases hre : headerFifoEmpty r <;> cases hmr : i.mUdpHdrReady <;> cases hmv : r.mUdpHdrValid <;>
    simp [hre] at he ⊢ <;> omega

theorem inv_posedge (h : Inv r) : Inv (posedge false r i) := by
  have hl : level (posedge false r i) ≤ 8 := by
    rw [level_posedge h.bounded]
    have hb := h.bounded
    cases hw : headerFifoWrite r with
    | false => simp; omega
    | true =>
      have hne : level r ≠ 8 := by
        intro h8
        rw [headerFifoWrite, (headerFifoFull_iff r).mpr h8] at hw
        simp at hw
      simp
      omega
  refine ⟨?_, ?_, hl⟩
  · intro hr
    rw [sUdpHdrReady_posedge] at hr
    simp only [Bool.and_eq_true, decide_eq_true_eq, Bool.not_eq_true'] at hr
    simp [state_posedge, hr.1.1, hr.1.2]
  · intro hv
    rw [hdrValid_posedge, decide_eq_true_eq] at hv
    simp [state_posedge, hv]

theorem hdrAccepted_eq_false (h : Inv r) (hs : r.state ≠ .idle) : hdrAccepted r i = false := by
  rw [← Bool.not_eq_true]
  intro ha
  exact hs (h.ready (Bool.and_eq_true_iff.mp ha).1)

theorem lastAccepted_eq_false (hs : r.state ≠ .sumPayload) : lastAccepted r i = false := by
  rw [← Bool.not_eq_true]
  exact fun hl => hs (state_of_lastAccepted hl)

theorem holdsHeader_posedge (h : Inv r) :
    (holdsHeader (posedge false r i)).toNat + (lastAccepted r i).toNat =
      (holdsHeader r).toNat + (hdrAccepted r i).toNat := by
  have hn := state_posedge (r := r) (i := i)
  cases hs : r.state with
  | idle =>
    rw [lastAccepted_eq_false (by simp [hs])]
    cases ha : hdrAccepted r i <;> simp [holdsHeader, hn, hs, ha]
  | sumPayload =>
    rw [hdrAccepted_eq_false h (by simp [hs])]
    cases hl : lastAccepted r i <;> simp [holdsHeader, hn, hs, hl]
  | sumHeader1 | sumHeader2 | sumHeader3 | finishSum =>
    rw [lastAccepted_eq_false (by simp [hs]), hdrAccepted_eq_false h (by simp [hs])]
    simp [holdsHeader, hn, hs]

theorem finishing_posedge (h : Inv r) :
    (finishing (posedge false r i)).toNat + (headerFifoWrite r).toNat ≤
      (finishing r).toNat + (lastAccepted r i).toNat := by
  have hw : (headerFifoWrite r).toNat ≤ r.hdrValid.toNat := by
    cases hv : r.hdrValid <;> simp [headerFifoWrite, hv, Bool.toNat_le]
  have hp : r.hdrValid = true → r.state = .idle := h.pending
  have hl := state_posedge (r := r) (i := i)
  unfold finishing
  rw [hdrValid_posedge]
  cases hs : r.state with
  | idle =>
    rw [lastAccepted_eq_false (by simp [hs])]
    cases hv : r.hdrValid <;> cases ha : hdrAccepted r i <;> simp_all
  | sumPayload => cases hv : r.hdrValid <;> cases ha : lastAccepted r i <;> simp_all
  | sumHeader1 | sumHeader2 | sumHeader3 | finishSum => cases hv : r.hdrValid <;> simp_all

/-- `v` of a finished header, `l` headers in the header FIFO, `o` of one in its output register. -/
structure Headers (v : Bool) (l : Nat) (o : Bool) (r : Reg) : Prop where
  finished : r.hdrValid = v
  level : level r = l
  out : r.mUdpHdrValid = o

theorem headerFifoFull_eq_false (h : level r < 8) : headerFifoFull r = false := by
  rw [← Bool.not_eq_true, headerFifoFull_iff]
  omega

/-- One clock of the header FIFO when nothing holds its output back. -/
theorem headers_posedge {v o : Bool} {l : Nat} (h : Headers v l o r) (hl : l < 8)
    (hi : i.mUdpHdrReady = true) : Headers (decide (r.state = .finishSum))
      (l + v.toNat - (decide (0 < l)).toNat) (decide (0 < l)) (posedge false r i) := by
  have hempty : headerFifoEmpty r = !decide (0 < l) := by
    rw [Bool.eq_iff_iff, headerFifoEmpty_iff, h.level]
    simp
  have hfull := headerFifoFull_eq_false (r := r) (h.level ▸ hl)
  refine ⟨hdrValid_posedge, ?_, ?_⟩
  · rw [level_posedge (h.level ▸ hl.le), h.level]
    simp [headerFifoWrite, headerFifoRead, h.finished, hfull, hempty, hi]
  · rw [mUdpHdrValid_posedge, hi, hempty]
    simp

end Accounting

end AdcCapture.UdpChecksumGen
