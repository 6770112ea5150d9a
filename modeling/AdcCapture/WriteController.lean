/-!
# writeController

The capture side: a start pulse opens `buffer`, the first full FIFO closes it,
and `pause` waits until every FIFO is empty.
-/

namespace AdcCapture.WriteController

set_option autoImplicit false

inductive State where
  | init | buffer | pause
  deriving DecidableEq, Repr

structure Input where
  full : Bool
  empty : Bool
  start : Bool

def wrEn (s : State) : Bool :=
  match s with
  | .buffer => true
  | .init | .pause => false

def nextState (s : State) (i : Input) : State :=
  match s with
  | .init => if i.start && !i.full then .buffer else s
  | .buffer => if i.full then .pause else s
  | .pause => if i.empty then .init else s

def posedge (rstn : Bool) (s : State) (i : Input) : State :=
  if rstn = false then .init else nextState s i

theorem wrEn_iff (s : State) : wrEn s = true ↔ s = .buffer := by cases s <;> simp [wrEn]

end AdcCapture.WriteController
