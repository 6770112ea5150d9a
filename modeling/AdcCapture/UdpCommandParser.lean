/-!
# udpCommandParser

Three states: a word is seen, read, compared. `next_command` is assigned in
`getCommand` only and keeps its value elsewhere.
-/

namespace AdcCapture.UdpCommandParser

set_option autoImplicit false

inductive State where
  | init | getCommand | parseCommand
  deriving DecidableEq, Repr

/-- `held` is the value that `next_command` keeps. -/
structure Reg where
  currState : State
  currCommand : BitVec 32
  held : BitVec 32
  deriving DecidableEq, Repr

structure Comb where
  nextState : State
  nextCommand : BitVec 32
  rdEn : Bool
  sendAdcData : Bool
  deriving DecidableEq, Repr

def comb (r : Reg) (dataReady : Bool) (data : BitVec 32) : Comb :=
  match r.currState with
  | .init => ⟨if dataReady then .getCommand else .init, r.held, false, false⟩
  | .getCommand => ⟨.parseCommand, data, true, false⟩
  | .parseCommand =>
    if r.currCommand = 0x73656e64#32 then ⟨.init, r.held, false, true⟩
    else ⟨.init, r.held, false, false⟩

def posedge (rst : Bool) (r : Reg) (dataReady : Bool) (data : BitVec 32) : Reg :=
  let c := comb r dataReady data
  if rst then ⟨.init, 0#32, c.nextCommand⟩ else ⟨c.nextState, c.nextCommand, c.nextCommand⟩

section Outputs
variable {r : Reg} {dataReady : Bool} {data : BitVec 32}

theorem rdEn_eq : (comb r dataReady data).rdEn = decide (r.currState = .getCommand) := by
  cases hs : r.currState with
  | init | getCommand => simp [comb, hs]
  | parseCommand => by_cases hc : r.currCommand = 0x73656e64#32 <;> simp [comb, hs, hc]

theorem sendAdcData_eq : (comb r dataReady data).sendAdcData =
    decide (r.currState = .parseCommand ∧ r.currCommand = 0x73656e64#32) := by
  cases hs : r.currState with
  | init | getCommand => simp [comb, hs]
  | parseCommand => by_cases hc : r.currCommand = 0x73656e64#32 <;> simp [comb, hs, hc]

theorem currState_posedge : (posedge false r dataReady data).currState =
    match r.currState with
    | .init => if dataReady then .getCommand else .init
    | .getCommand => .parseCommand
    | .parseCommand => .init := by
  cases hs : r.currState with
  | init | getCommand => simp [posedge, comb, hs]
  | parseCommand => by_cases hc : r.currCommand = 0x73656e64#32 <;> simp [posedge, comb, hs, hc]

theorem currCommand_posedge (h : r.currState = .getCommand) :
    (posedge false r dataReady data).currCommand = data := by
  simp [posedge, comb, h]

end Outputs

end AdcCapture.UdpCommandParser
