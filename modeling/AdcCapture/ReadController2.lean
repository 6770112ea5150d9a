import Mathlib.Data.Fintype.Basic

/-!
# readController2

The drain side of the capture buffers: six copied read states, one for each
channel, and a `pause` between bursts that restarts from the lowest channel
whose FIFO still holds bytes. `comb` is the `always_comb` block, `posedge` the
register update.
-/

namespace AdcCapture

set_option autoImplicit false

/-- The six captured channels, in the order of the `empty`, `full` and `rd_en` bits. -/
inductive Channel where
  | adc1 | adc2 | adc3 | adc4 | adc7 | adc8
  deriving DecidableEq, Repr

namespace Channel

def index : Channel → Nat
  | adc1 => 0
  | adc2 => 1
  | adc3 => 2
  | adc4 => 3
  | adc7 => 4
  | adc8 => 5

/-- Value of `addr` that routes the channel to `dout`. -/
def addr : Channel → BitVec 3
  | adc1 => 0b000#3
  | adc2 => 0b001#3
  | adc3 => 0b010#3
  | adc4 => 0b011#3
  | adc7 => 0b100#3
  | adc8 => 0b101#3

def all : List Channel := [adc1, adc2, adc3, adc4, adc7, adc8]

theorem mem_all (c : Channel) : c ∈ all := by cases c <;> decide

instance : Fintype Channel := ⟨⟨all, by decide⟩, mem_all⟩

theorem index_lt (c : Channel) : c.index < 6 := by cases c <;> decide

theorem eq_last_or_exists_next (c : Channel) : c = adc8 ∨ ∃ d : Channel, d.index = c.index + 1 := by
  revert c
  decide

theorem index_injective {c d : Channel} (h : c.index = d.index) : c = d := by
  revert c d
  decide

theorem addr_injective {c d : Channel} (h : c.addr = d.addr) : c = d := by
  revert c d
  decide

def vector (f : Channel → Bool) : BitVec 6 :=
  BitVec.ofBool (f adc8) ++ BitVec.ofBool (f adc7) ++ BitVec.ofBool (f adc4) ++
    BitVec.ofBool (f adc3) ++ BitVec.ofBool (f adc2) ++ BitVec.ofBool (f adc1)

/-- Verilog's `|v`. -/
def reduceOr (v : BitVec 6) : Bool := v != 0#6

/-- Verilog's `&v`. -/
def reduceAnd (v : BitVec 6) : Bool := v == 63#6

theorem forall_bool_fun {P : (Channel → Bool) → Prop}
    (h : ∀ b1 b2 b3 b4 b7 b8 : Bool, P fun
      | adc1 => b1 | adc2 => b2 | adc3 => b3 | adc4 => b4 | adc7 => b7 | adc8 => b8)
    (f : Channel → Bool) : P f := by
  have hf : f = fun
      | adc1 => f adc1 | adc2 => f adc2 | adc3 => f adc3
      | adc4 => f adc4 | adc7 => f adc7 | adc8 => f adc8 := by
    funext c
    cases c <;> rfl
  rw [hf]
  exact h _ _ _ _ _ _

theorem vector_getLsbD (f : Channel → Bool) (c : Channel) : (vector f).getLsbD c.index = f c := by
  revert c
  apply forall_bool_fun (P := fun f => ∀ c : Channel, (vector f).getLsbD c.index = f c)
  decide

theorem vector_eq_zero_iff (f : Channel → Bool) : vector f = 0#6 ↔ ∀ c, f c = false := by
  apply forall_bool_fun (P := fun f => vector f = 0#6 ↔ ∀ c, f c = false)
  decide

theorem reduceOr_iff (f : Channel → Bool) : reduceOr (vector f) = true ↔ ∃ c, f c = true := by
  apply forall_bool_fun (P := fun f => reduceOr (vector f) = true ↔ ∃ c, f c = true)
  decide

theorem reduceOr_eq_false_iff (f : Channel → Bool) :
    reduceOr (vector f) = false ↔ ∀ c, f c = false := by
  simp [reduceOr, vector_eq_zero_iff]

theorem reduceAnd_iff (f : Channel → Bool) : reduceAnd (vector f) = true ↔ ∀ c, f c = true := by
  apply forall_bool_fun (P := fun f => reduceAnd (vector f) = true ↔ ∀ c, f c = true)
  decide

end Channel

namespace ReadController2

inductive State where
  | init | read1 | read2 | read3 | read4 | read7 | read8 | pause
  deriving DecidableEq, Repr

structure Reg where
  currState : State
  currCount : BitVec 16
  deriving DecidableEq, Repr

structure Input where
  full : Bool
  empty : BitVec 6
  txDone : Bool
  axisTready : Bool

structure Comb where
  nextState : State
  nextCount : BitVec 16
  rdEn : BitVec 6
  addr : BitVec 3
  axisTvalid : Bool
  axisTlast : Bool
  axisTvalidHdr : Bool
  deriving DecidableEq, Repr

def defaults (r : Reg) : Comb where
  nextState := r.currState
  nextCount := r.currCount
  rdEn := 0#6
  addr := 0b000#3
  axisTvalid := false
  axisTlast := false
  axisTvalidHdr := false

/-- The common body of the six read states: bit `k` of `empty` and `rd_en`, address `a`. -/
def readN (k : Nat) (a : BitVec 3) (r : Reg) (i : Input) : Comb :=
  let transfer := i.axisTready && !i.empty.getLsbD k
  let leave := r.currCount == 1023#16 || i.empty.getLsbD k
  { defaults r with
    axisTvalid := transfer
    rdEn := if transfer then 1#6 <<< k else 0#6
    addr := if transfer then a else 0b000#3
    nextState := if leave then .pause else r.currState
    nextCount := if leave then 0#16 else if transfer then r.currCount + 1#16 else r.currCount
    -- raised without regard to `axis_tready`, also when no byte goes with it
    axisTlast := leave }

def read1 (r : Reg) (i : Input) : Comb := readN 0 0b000#3 r i
def read2 (r : Reg) (i : Input) : Comb := readN 1 0b001#3 r i
def read3 (r : Reg) (i : Input) : Comb := readN 2 0b010#3 r i
def read4 (r : Reg) (i : Input) : Comb := readN 3 0b011#3 r i
def read7 (r : Reg) (i : Input) : Comb := readN 4 0b100#3 r i
def read8 (r : Reg) (i : Input) : Comb := readN 5 0b101#3 r i

/-- The `if` chain of `pause` on the empty vector; `none` when no branch matches. -/
def resume (empty : BitVec 6) : Option State :=
  if empty = 0#6 then some .read1
  else if empty = 1#6 then some .read2
  else if empty = 3#6 then some .read3
  else if empty = 7#6 then some .read4
  else if empty = 15#6 then some .read7
  else if empty = 31#6 then some .read8
  else if empty = 63#6 then some .init
  else none

/-- `empty == 1'b0` compares all six bits with zero. -/
def initC (r : Reg) (i : Input) : Comb :=
  if i.full && i.empty == 0#6 then
    { defaults r with axisTvalidHdr := true, nextState := .read1 }
  else defaults r

def pause (r : Reg) (i : Input) : Comb :=
  let d := { defaults r with nextCount := r.currCount + 1#16, axisTvalidHdr := i.txDone }
  if i.axisTready then
    match resume i.empty with
    | some next => { d with nextState := next, nextCount := 0#16 }
    | none => d
  else d

def comb (r : Reg) (i : Input) : Comb :=
  match r.currState with
  | .init => initC r i
  | .read1 => read1 r i
  | .read2 => read2 r i
  | .read3 => read3 r i
  | .read4 => read4 r i
  | .read7 => read7 r i
  | .read8 => read8 r i
  | .pause => pause r i

def reset : Reg := ⟨.init, 0#16⟩

def posedge (rstn : Bool) (r : Reg) (i : Input) : Reg :=
  if rstn = false then reset else ⟨(comb r i).nextState, (comb r i).nextCount⟩

def readState : Channel → State
  | .adc1 => .read1
  | .adc2 => .read2
  | .adc3 => .read3
  | .adc4 => .read4
  | .adc7 => .read7
  | .adc8 => .read8

theorem state_cases (s : State) : s = .init ∨ s = .pause ∨ ∃ c, s = readState c := by
  cases s <;> decide

@[simp] theorem readState_ne_init (c : Channel) : readState c ≠ .init := by cases c <;> decide

@[simp] theorem readState_ne_pause (c : Channel) : readState c ≠ .pause := by cases c <;> decide

@[simp] theorem init_ne_readState (c : Channel) : State.init ≠ readState c := by cases c <;> decide

@[simp] theorem pause_ne_readState (c : Channel) : State.pause ≠ readState c := by
  cases c <;> decide

@[simp] theorem readState_inj {c d : Channel} : readState c = readState d ↔ c = d := by
  revert c d
  decide

theorem comb_init {r : Reg} (h : r.currState = .init) (i : Input) : comb r i = initC r i := by
  simp [comb, h]

theorem comb_pause {r : Reg} (h : r.currState = .pause) (i : Input) : comb r i = pause r i := by
  simp [comb, h]

/-- The six copies are one body at the channel's own bit and address. -/
theorem comb_read {r : Reg} {c : Channel} (h : r.currState = readState c) (i : Input) :
    comb r i = readN c.index c.addr r i := by
  cases c <;> simp [comb, h, readState, read1, read2, read3, read4, read7, read8,
    Channel.index, Channel.addr]

theorem oneHot_getLsbD (c d : Channel) :
    (1#6 <<< d.index).getLsbD c.index = decide (d = c) := by
  revert c d
  decide

section Outputs
variable {r : Reg} {i : Input}

def transfer (c : Channel) (i : Input) : Bool := i.axisTready && !i.empty.getLsbD c.index

theorem rdEn_read {d : Channel} (h : r.currState = readState d) (c : Channel) :
    (comb r i).rdEn.getLsbD c.index = (transfer d i && decide (d = c)) := by
  rw [comb_read h]
  unfold readN transfer
  cases i.axisTready && !i.empty.getLsbD d.index with
  | true => simpa using oneHot_getLsbD c d
  | false => simp

theorem axisTvalid_read {d : Channel} (h : r.currState = readState d) :
    (comb r i).axisTvalid = transfer d i := by rw [comb_read h]; rfl

theorem addr_read {d : Channel} (h : r.currState = readState d) (ht : transfer d i = true) :
    (comb r i).addr = d.addr := by
  rw [comb_read h]
  unfold transfer at ht
  simp only [readN, ht, if_true]

theorem axisTlast_read {d : Channel} (h : r.currState = readState d) :
    (comb r i).axisTlast = (r.currCount == 1023#16 || i.empty.getLsbD d.index) := by
  rw [comb_read h]
  rfl

theorem axisTvalidHdr_read {d : Channel} (h : r.currState = readState d) :
    (comb r i).axisTvalidHdr = false := by
  rw [comb_read h]
  rfl

theorem axisTvalidHdr_init (h : r.currState = .init) :
    (comb r i).axisTvalidHdr = (i.full && i.empty == 0#6) := by
  rw [comb_init h]
  unfold initC
  cases hc : i.full && i.empty == 0#6 with
  | true => rfl
  | false => rfl

theorem axisTvalidHdr_pause (h : r.currState = .pause) : (comb r i).axisTvalidHdr = i.txDone := by
  rw [comb_pause h]
  simp only [pause]
  split
  · split <;> rfl
  · rfl

theorem idle_of_not_read (h : r.currState = .init ∨ r.currState = .pause) :
    (comb r i).axisTvalid = false ∧ (comb r i).rdEn = 0#6 ∧ (comb r i).axisTlast = false := by
  rcases h with h | h
  · rw [comb_init h]
    unfold initC
    split <;> simp [defaults]
  · rw [comb_pause h]
    simp only [pause, defaults]
    split
    · split <;> simp
    · simp

end Outputs

section Resume
open Channel

/-- A read state is resumed exactly when its channel is the first one with bytes left. -/
theorem resume_eq_read_iff (e : Channel → Bool) (c : Channel) :
    resume (vector e) = some (readState c) ↔ ∀ d, e d = decide (d.index < c.index) := by
  revert c
  apply forall_bool_fun (P := fun e => ∀ c, resume (vector e) = some (readState c) ↔
    ∀ d : Channel, e d = decide (d.index < c.index))
  decide

theorem resume_eq_init_iff (e : Channel → Bool) :
    resume (vector e) = some .init ↔ ∀ c, e c = true := by
  apply forall_bool_fun (P := fun e => resume (vector e) = some .init ↔ ∀ c, e c = true)
  decide

end Resume

section Edge
variable {r : Reg} {i : Input}

theorem posedge_init (h : r.currState = .init) :
    posedge true r i = ⟨if i.full && i.empty == 0#6 then .read1 else .init, r.currCount⟩ := by
  cases hc : i.full && i.empty == 0#6 <;> simp [posedge, comb_init h, initC, defaults, h, hc]

theorem posedge_read {c : Channel} (h : r.currState = readState c) :
    posedge true r i =
      if r.currCount == 1023#16 || i.empty.getLsbD c.index then ⟨.pause, 0#16⟩
      else ⟨readState c, if i.axisTready then r.currCount + 1#16 else r.currCount⟩ := by
  cases hl : r.currCount == 1023#16 || i.empty.getLsbD c.index with
  | true => simp [posedge, comb_read h, readN, hl]
  | false =>
    obtain ⟨hc, he⟩ := Bool.or_eq_false_iff.mp hl
    have hne : r.currCount ≠ 1023#16 := by simpa using hc
    simp [posedge, comb_read h, readN, h, hne, he]

theorem posedge_pause (h : r.currState = .pause) :
    posedge true r i =
      match (if i.axisTready then resume i.empty else none) with
      | some next => ⟨next, 0#16⟩
      | none => ⟨.pause, r.currCount + 1#16⟩ := by
  cases ht : i.axisTready with
  | false => simp [posedge, comb_pause h, pause, defaults, h, ht]
  | true => cases hr : resume i.empty <;> simp [posedge, comb_pause h, pause, defaults, h, ht, hr]

end Edge

end ReadController2

end AdcCapture
