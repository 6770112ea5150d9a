import AdcCapture.Clocked
import AdcCapture.Gray
import AdcCapture.Packets
import AdcCapture.Ring

/-!
# axis_async_fifo

A FIFO between two clocks. The two clocks tick in any order; edges that fall
together may catch every bit that crosses before or after its change.
-/

namespace AdcCapture.AxisAsyncFifo

open Clocked
set_option autoImplicit false

structure Config (a u : Nat) where
  frameFifo : Bool
  dropBadFrame : Bool
  dropWhenFull : Bool
  userBadFrameValue : BitVec u
  userBadFrameMask : BitVec u
  /-- The checks of the `initial` block. -/
  bad_frame : dropBadFrame = true → frameFifo = true
  when_full : dropWhenFull = true → frameFifo = true
  bad_mask : dropBadFrame = true → userBadFrameMask ≠ 0#u
  /-- `ADDR_WIDTH-2` is a bit number. -/
  addr_width : 1 < a

/-- The flags overflow, bad_frame and good_frame. -/
structure Status where
  overflow : Bool
  badFrame : Bool
  goodFrame : Bool
  deriving DecidableEq, Repr

namespace Status

def zero : Status := ⟨false, false, false⟩

def xor (x y : Status) : Status :=
  ⟨x.overflow ^^ y.overflow, x.badFrame ^^ y.badFrame, x.goodFrame ^^ y.goodFrame⟩

end Status

/-- The registers clocked by `s_clk`, and the memory. -/
structure SReg (α : Type) (a : Nat) where
  wrPtr : BitVec (a + 1)
  wrPtrCur : BitVec (a + 1)
  wrPtrGray : BitVec (a + 1)
  wrPtrSyncGray : BitVec (a + 1)
  wrPtrCurGray : BitVec (a + 1)
  wrAddr : BitVec (a + 1)
  rdPtrGraySync1 : BitVec (a + 1)
  rdPtrGraySync2 : BitVec (a + 1)
  wrPtrUpdateValid : Bool
  wrPtrUpdate : Bool
  wrPtrUpdateAckSync1 : Bool
  wrPtrUpdateAckSync2 : Bool
  sRstSync1 : Bool
  sRstSync2 : Bool
  sRstSync3 : Bool
  dropFrame : Bool
  status : Status
  statusSync1 : Status
  mem : BitVec a → α

/-- The registers clocked by `m_clk`. -/
structure MReg (α : Type) (a : Nat) where
  rdPtr : BitVec (a + 1)
  rdPtrGray : BitVec (a + 1)
  rdAddr : BitVec (a + 1)
  wrPtrGraySync1 : BitVec (a + 1)
  wrPtrGraySync2 : BitVec (a + 1)
  wrPtrUpdateSync1 : Bool
  wrPtrUpdateSync2 : Bool
  wrPtrUpdateSync3 : Bool
  mRstSync1 : Bool
  mRstSync2 : Bool
  mRstSync3 : Bool
  memReadData : α
  memReadDataValid : Bool
  mAxis : α
  mAxisTvalid : Bool
  statusSync2 : Status
  statusSync3 : Status
  statusSync4 : Status

/-- `sAxis` is the packed word, with `tlast` and `tuser` in it where they are enabled. -/
structure SInput (α : Type) (u : Nat) where
  sAxis : α
  sAxisTvalid : Bool
  sAxisTlast : Bool
  sAxisTuser : BitVec u

/-! ## Signals that cross -/

/-- What the `m_clk` side samples. -/
structure FromS (a : Nat) where
  wrPtrGray : BitVec (a + 1)
  wrPtrSyncGray : BitVec (a + 1)
  wrPtrUpdate : Bool
  sRstSync1 : Bool
  statusSync1 : Status

/-- What the `s_clk` side samples. -/
structure FromM (a : Nat) where
  rdPtrGray : BitVec (a + 1)
  wrPtrUpdateSync3 : Bool
  mRstSync1 : Bool

section Cross
variable {α : Type} {a : Nat}

def SReg.out (s : SReg α a) : FromS a :=
  ⟨s.wrPtrGray, s.wrPtrSyncGray, s.wrPtrUpdate, s.sRstSync1, s.statusSync1⟩

def MReg.out (m : MReg α a) : FromM a := ⟨m.rdPtrGray, m.wrPtrUpdateSync3, m.mRstSync1⟩

def pick (sel old new : Bool) : Bool := if sel then new else old

def Status.mix (sel old new : Status) : Status :=
  ⟨pick sel.overflow old.overflow new.overflow, pick sel.badFrame old.badFrame new.badFrame,
    pick sel.goodFrame old.goodFrame new.goodFrame⟩

def FromS.mix (sel old new : FromS a) : FromS a :=
  ⟨Gray.mix sel.wrPtrGray old.wrPtrGray new.wrPtrGray,
    Gray.mix sel.wrPtrSyncGray old.wrPtrSyncGray new.wrPtrSyncGray,
    pick sel.wrPtrUpdate old.wrPtrUpdate new.wrPtrUpdate,
    pick sel.sRstSync1 old.sRstSync1 new.sRstSync1,
    Status.mix sel.statusSync1 old.statusSync1 new.statusSync1⟩

def FromM.mix (sel old new : FromM a) : FromM a :=
  ⟨Gray.mix sel.rdPtrGray old.rdPtrGray new.rdPtrGray,
    pick sel.wrPtrUpdateSync3 old.wrPtrUpdateSync3 new.wrPtrUpdateSync3,
    pick sel.mRstSync1 old.mRstSync1 new.mRstSync1⟩

end Cross

/-! ## Write logic -/

section Write
variable {α : Type} {a u : Nat} (c : Config a u) (s : SReg α a) (i : SInput α u)

def full : Bool := Gray.opposite s.wrPtrGray s.rdPtrGraySync2

def fullCur : Bool := Gray.opposite s.wrPtrCurGray s.rdPtrGraySync2

/-- Overflow within a packet. -/
def fullWr : Bool :=
  s.wrPtr.getLsbD a != s.wrPtrCur.getLsbD a &&
    s.wrPtr.extractLsb' 0 a == s.wrPtrCur.extractLsb' 0 a

def sAxisTready : Bool :=
  (if c.frameFifo then !fullCur s || fullWr s || c.dropWhenFull else !full s) && !s.sRstSync3

def badFrame : Bool :=
  c.dropBadFrame && c.userBadFrameMask &&& ~~~(i.sAxisTuser ^^^ c.userBadFrameValue) != 0#u

structure WriteComb (a : Nat) where
  write : Bool
  dropFrameNext : Bool
  statusNext : Status
  wrPtrNext : BitVec (a + 1)
  wrPtrCurNext : BitVec (a + 1)
  wrPtrGrayNext : BitVec (a + 1)
  wrPtrSyncGrayNext : BitVec (a + 1)
  wrPtrCurGrayNext : BitVec (a + 1)
  wrPtrUpdateValidNext : Bool
  wrPtrUpdateNext : Bool

def writeDefaults : WriteComb a where
  write := false
  dropFrameNext := false
  statusNext := .zero
  wrPtrNext := s.wrPtr
  wrPtrCurNext := s.wrPtrCur
  wrPtrGrayNext := s.wrPtrGray
  wrPtrSyncGrayNext := s.wrPtrSyncGray
  wrPtrCurGrayNext := s.wrPtrCurGray
  wrPtrUpdateValidNext := s.wrPtrUpdateValid
  wrPtrUpdateNext := s.wrPtrUpdate

/-- The pending pointer update, before the transfer of this clock is looked at. -/
def flagged : WriteComb a :=
  let d := writeDefaults s
  if c.frameFifo && s.wrPtrUpdateValid then
    if s.wrPtrUpdate == s.wrPtrUpdateAckSync2 then
      { d with
        wrPtrUpdateValidNext := false
        wrPtrSyncGrayNext := s.wrPtrGray
        wrPtrUpdateNext := !s.wrPtrUpdateAckSync2 }
    else d
  else d

def transfer : Bool := sAxisTready c s && i.sAxisTvalid

def writeComb : WriteComb a :=
  let d := flagged c s
  if transfer c s i then
    if !c.frameFifo then
      { d with
        write := true
        wrPtrNext := s.wrPtr + 1#(a + 1)
        wrPtrGrayNext := Gray.encode (s.wrPtr + 1#(a + 1)) }
    else if fullCur s || fullWr s || s.dropFrame then
      if i.sAxisTlast then
        { d with
          wrPtrCurNext := s.wrPtr
          wrPtrCurGrayNext := Gray.encode s.wrPtr
          dropFrameNext := false
          statusNext := { Status.zero with overflow := true } }
      else { d with dropFrameNext := true }
    else if i.sAxisTlast then
      if badFrame c i then
        { d with
          write := true
          wrPtrCurNext := s.wrPtr
          wrPtrCurGrayNext := Gray.encode s.wrPtr
          statusNext := { Status.zero with badFrame := true } }
      else
        let d := { d with
          write := true
          wrPtrCurNext := s.wrPtrCur + 1#(a + 1)
          wrPtrCurGrayNext := Gray.encode (s.wrPtrCur + 1#(a + 1))
          wrPtrNext := s.wrPtrCur + 1#(a + 1)
          wrPtrGrayNext := Gray.encode (s.wrPtrCur + 1#(a + 1))
          statusNext := { Status.zero with goodFrame := true } }
        if d.wrPtrUpdateNext == s.wrPtrUpdateAckSync2 then
          { d with
            wrPtrUpdateValidNext := false
            wrPtrSyncGrayNext := Gray.encode (s.wrPtrCur + 1#(a + 1))
            wrPtrUpdateNext := !s.wrPtrUpdateAckSync2 }
        else { d with wrPtrUpdateValidNext := true }
    else
      { d with
        write := true
        wrPtrCurNext := s.wrPtrCur + 1#(a + 1)
        wrPtrCurGrayNext := Gray.encode (s.wrPtrCur + 1#(a + 1)) }
  else d

/-- An edge of `s_clk` that samples `x`. -/
def sEdge (x : FromM a) : SReg α a :=
  let w := writeComb c s i
  let rst := s.sRstSync3
  { wrPtr := if rst then 0#_ else w.wrPtrNext
    wrPtrCur := if rst then 0#_ else w.wrPtrCurNext
    wrPtrGray := if rst then 0#_ else w.wrPtrGrayNext
    wrPtrSyncGray := if rst then 0#_ else w.wrPtrSyncGrayNext
    wrPtrCurGray := if rst then 0#_ else w.wrPtrCurGrayNext
    wrAddr := if c.frameFifo then w.wrPtrCurNext else w.wrPtrNext
    rdPtrGraySync1 := if rst then 0#_ else x.rdPtrGray
    rdPtrGraySync2 := if rst then 0#_ else s.rdPtrGraySync1
    wrPtrUpdateValid := if rst then false else w.wrPtrUpdateValidNext
    wrPtrUpdate := if rst then false else w.wrPtrUpdateNext
    wrPtrUpdateAckSync1 := if rst then false else x.wrPtrUpdateSync3
    wrPtrUpdateAckSync2 := if rst then false else s.wrPtrUpdateAckSync1
    sRstSync1 := false
    sRstSync2 := s.sRstSync1 || x.mRstSync1
    sRstSync3 := s.sRstSync2
    dropFrame := if rst then false else w.dropFrameNext
    status := if rst then .zero else w.statusNext
    statusSync1 := if rst then .zero else s.statusSync1.xor s.status
    mem := fun p => if w.write && p == Ring.low s.wrAddr then i.sAxis else s.mem p }

end Write

/-! ## Read logic -/

section Read
variable {α : Type} {a u : Nat} (c : Config a u) (m : MReg α a) (mAxisTready : Bool)

def empty : Bool :=
  m.rdPtrGray == if c.frameFifo then m.wrPtrGraySync1 else m.wrPtrGraySync2

def storeOutput : Bool := mAxisTready || !m.mAxisTvalid

def wantsRead : Bool := storeOutput m mAxisTready || !m.memReadDataValid

def read : Bool := wantsRead m mAxisTready && !empty c m

def rdPtrNext : BitVec (a + 1) := if read c m mAxisTready then m.rdPtr + 1#(a + 1) else m.rdPtr

/-- An edge of `m_clk` that samples `x` and reads `word` from the memory. -/
def mEdge (x : FromS a) (word : α) : MReg α a :=
  let rst := m.mRstSync3
  { rdPtr := if rst then 0#_ else rdPtrNext c m mAxisTready
    rdPtrGray := if rst then 0#_
      else if read c m mAxisTready then Gray.encode (m.rdPtr + 1#(a + 1)) else m.rdPtrGray
    rdAddr := rdPtrNext c m mAxisTready
    wrPtrGraySync1 := if rst then 0#_
      else if !c.frameFifo then x.wrPtrGray
      else if m.wrPtrUpdateSync2 ^^ m.wrPtrUpdateSync3 then x.wrPtrSyncGray
      else m.wrPtrGraySync1
    wrPtrGraySync2 := if rst then 0#_ else m.wrPtrGraySync1
    wrPtrUpdateSync1 := if rst then false else x.wrPtrUpdate
    wrPtrUpdateSync2 := if rst then false else m.wrPtrUpdateSync1
    wrPtrUpdateSync3 := if rst then false else m.wrPtrUpdateSync2
    mRstSync1 := false
    mRstSync2 := x.sRstSync1 || m.mRstSync1
    mRstSync3 := m.mRstSync2
    memReadData := if read c m mAxisTready then word else m.memReadData
    memReadDataValid := if rst then false
      else if wantsRead m mAxisTready then !empty c m else m.memReadDataValid
    mAxis := if storeOutput m mAxisTready then m.memReadData else m.mAxis
    mAxisTvalid := if rst then false
      else if storeOutput m mAxisTready then m.memReadDataValid else m.mAxisTvalid
    statusSync2 := if rst then .zero else x.statusSync1
    statusSync3 := if rst then .zero else m.statusSync2
    statusSync4 := if rst then .zero else m.statusSync3 }

/-- `m_status_overflow`, `m_status_bad_frame` and `m_status_good_frame`. -/
def mStatus : Status := m.statusSync3.xor m.statusSync4

end Read

/-! ## The two clocks -/

structure Reg (α : Type) (a : Nat) where
  s : SReg α a
  m : MReg α a

/-- What edges that fall together see: `toM` and `toS` choose old or new for each bit. -/
structure Skew (α : Type) (a : Nat) where
  toM : FromS a
  toS : FromM a
  /-- Read when the same address is written. -/
  collision : α

inductive Event (α : Type) (a u : Nat) where
  | s (i : SInput α u)
  | m (mAxisTready : Bool)
  | both (i : SInput α u) (mAxisTready : Bool) (skew : Skew α a)

section Step
variable {α : Type} {a u : Nat} (c : Config a u)

/-- The word read in a clock in which both sides tick. -/
def readWord (r : Reg α a) (i : SInput α u) (collision : α) : α :=
  if (writeComb c r.s i).write && Ring.low r.s.wrAddr == Ring.low r.m.rdAddr then collision
  else r.s.mem (Ring.low r.m.rdAddr)

def step (r : Reg α a) : Event α a u → Reg α a
  | .s i => { r with s := sEdge c r.s i r.m.out }
  | .m t => { r with m := mEdge c r.m t r.s.out (r.s.mem (Ring.low r.m.rdAddr)) }
  | .both i t k =>
    -- what a side sends does not depend on what it samples in this clock
    let sNew := (sEdge c r.s i r.m.out).out
    let mNew := (mEdge c r.m t r.s.out k.collision).out
    ⟨sEdge c r.s i (FromM.mix k.toS r.m.out mNew),
      mEdge c r.m t (FromS.mix k.toM r.s.out sNew) (readWord c r i k.collision)⟩

/-- `async_rst`. -/
def asyncRst (r : Reg α a) : Reg α a where
  s := { r.s with sRstSync1 := true, sRstSync2 := true, sRstSync3 := true }
  m := { r.m with mRstSync1 := true, mRstSync2 := true, mRstSync3 := true }

end Step

end AdcCapture.AxisAsyncFifo
