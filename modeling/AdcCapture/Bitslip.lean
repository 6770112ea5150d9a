/-!
# bitslip

After eight enabled cycles the frame word is polled; as long as it is not 0xF0 a
slip is requested and eight cycles are waited. `STOP` is final.
-/

namespace AdcCapture.Bitslip

set_option autoImplicit false

inductive State where
  | startup | poll | slip | stop
  deriving DecidableEq, Repr

structure Reg where
  stateCurr : State
  countCurr : BitVec 3
  deriving DecidableEq, Repr

structure Comb where
  stateNext : State
  countNext : BitVec 3
  iserdesBslip : Bool
  aligned : Bool
  deriving DecidableEq, Repr

def comb (r : Reg) (ce : Bool) (iserdesFco : BitVec 8) : Comb :=
  match r.stateCurr with
  | .startup =>
    ⟨if r.countCurr = 0b111#3 then .poll else .startup,
      if ce then r.countCurr + 1#3 else r.countCurr, false, false⟩
  | .poll =>
    if iserdesFco ≠ 0xF0#8 then ⟨.slip, 0b000#3, true, false⟩
    else ⟨.stop, r.countCurr, false, false⟩
  | .slip =>
    ⟨if r.countCurr = 0b111#3 then .poll else .slip, r.countCurr + 0b001#3, false, false⟩
  | .stop => ⟨.stop, r.countCurr, false, true⟩

def reset : Reg := ⟨.startup, 0#3⟩

def posedge (rst : Bool) (r : Reg) (ce : Bool) (iserdesFco : BitVec 8) : Reg :=
  if rst then reset else ⟨(comb r ce iserdesFco).stateNext, (comb r ce iserdesFco).countNext⟩

end AdcCapture.Bitslip
