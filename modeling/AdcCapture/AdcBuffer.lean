import AdcCapture.Clocked
import AdcCapture.ReadController2
import AdcCapture.WriteController
import AdcCapture.WidthConverter

/-!
# adc_buffer on `dout_clk`

The two controllers, the six width-converting FIFOs and the output multiplexer.
The outputs of the six clock crossings (`adcN_valid`, `adcN_125m`) are inputs
here. A run from reset is a run of `step` from `reset`.
-/

namespace AdcCapture.AdcBuffer

open Clocked WidthConverter
set_option autoImplicit false

structure Reg where
  writeController : WriteController.State
  readController : ReadController2.Reg
  buffer : Channel → FifoGenerator0

structure Input where
  startBuff : Bool
  adcValid : Channel → Bool
  adc125m : Channel → BitVec 16
  axisTready : Bool
  txDone : Bool

def full (s : Reg) : BitVec 6 := Channel.vector fun c => WidthConverter.full (s.buffer c)

def empty (s : Reg) : BitVec 6 := Channel.vector fun c => WidthConverter.empty (s.buffer c)

def enWr (s : Reg) : Bool := WriteController.wrEn s.writeController

def writeInput (s : Reg) (i : Input) : WriteController.Input where
  full := Channel.reduceOr (full s)
  empty := Channel.reduceAnd (empty s)
  start := i.startBuff

def readInput (s : Reg) (i : Input) : ReadController2.Input where
  full := Channel.reduceOr (full s)
  empty := empty s
  txDone := i.txDone
  axisTready := i.axisTready

def out (s : Reg) (i : Input) : ReadController2.Comb :=
  ReadController2.comb s.readController (readInput s i)

def dout (s : Reg) (i : Input) : BitVec 8 :=
  let addr := (out s i).addr
  if addr = 0b000#3 then WidthConverter.dout (s.buffer .adc1)
  else if addr = 0b001#3 then WidthConverter.dout (s.buffer .adc2)
  else if addr = 0b010#3 then WidthConverter.dout (s.buffer .adc3)
  else if addr = 0b011#3 then WidthConverter.dout (s.buffer .adc4)
  else if addr = 0b100#3 then WidthConverter.dout (s.buffer .adc7)
  else if addr = 0b101#3 then WidthConverter.dout (s.buffer .adc8)
  else 0#8

def reset : Reg := ⟨.init, ReadController2.reset, fun _ => Fifo.nil⟩

def posedge (doutRstN : Bool) (s : Reg) (i : Input) : Reg where
  writeController := WriteController.posedge doutRstN s.writeController (writeInput s i)
  readController := ReadController2.posedge doutRstN s.readController (readInput s i)
  -- `rd_en` is gated with `axis_tready` a second time on its way to the FIFO
  buffer c := WidthConverter.posedge (!doutRstN) (enWr s && i.adcValid c) (i.adc125m c)
    ((out s i).rdEn.getLsbD c.index && i.axisTready) (s.buffer c)

def step (s : Reg) (i : Input) : Reg := posedge true s i

theorem posedge_reset (s : Reg) (i : Input) : posedge false s i = reset := by
  simp [posedge, reset, WriteController.posedge, ReadController2.posedge, WidthConverter.posedge]

/-! ## What happens in one clock -/

def transfers (s : Reg) (i : Input) : Bool := (out s i).axisTvalid && i.axisTready

/-- The byte transferred in this clock while `addr` selects the channel. -/
def transferred (c : Channel) (s : Reg) (i : Input) : List (BitVec 8) :=
  if transfers s i && (out s i).addr == c.addr then [dout s i] else []

/-- The sample the channel's FIFO stores in this clock. -/
def stored (c : Channel) (s : Reg) (i : Input) : List (BitVec 16) :=
  if enWr s && i.adcValid c && !WidthConverter.full (s.buffer c) then [i.adc125m c] else []

/-- The valid sample presented on the channel in this clock. -/
def presented (c : Channel) (_ : Reg) (i : Input) : List (BitVec 16) :=
  if i.adcValid c then [i.adc125m c] else []

def reads (c : Channel) (s : Reg) (i : Input) : Prop :=
  s.readController.currState = ReadController2.readState c ∧ i.axisTready = true ∧
    (s.buffer c).units ≠ []

section Flags
variable (s : Reg) (i : Input)

theorem orFull_iff : Channel.reduceOr (full s) = true ↔
    ∃ c, WidthConverter.full (s.buffer c) = true := Channel.reduceOr_iff _

theorem orFull_eq_false_iff : Channel.reduceOr (full s) = false ↔
    ∀ c, WidthConverter.full (s.buffer c) = false := Channel.reduceOr_eq_false_iff _

theorem andEmpty_iff : Channel.reduceAnd (empty s) = true ↔ ∀ c, (s.buffer c).units = [] := by
  simp only [empty, Channel.reduceAnd_iff, WidthConverter.empty_iff]

theorem empty_eq_zero_iff : empty s = 0#6 ↔ ∀ c, (s.buffer c).units ≠ [] := by
  simp only [empty, Channel.vector_eq_zero_iff, WidthConverter.empty_eq_false_iff]

theorem empty_getLsbD (c : Channel) :
    (empty s).getLsbD c.index = WidthConverter.empty (s.buffer c) := Channel.vector_getLsbD _ c

end Flags

section Step
variable {s : Reg} {i : Input}

theorem step_writeController :
    (step s i).writeController = WriteController.nextState s.writeController (writeInput s i) :=
  rfl

theorem step_readController :
    (step s i).readController =
      ReadController2.posedge true s.readController (readInput s i) := rfl

theorem step_buffer (c : Channel) :
    (step s i).buffer c = (s.buffer c).step 1 ((out s i).rdEn.getLsbD c.index && i.axisTready)
      (if enWr s && i.adcValid c then some (bigEndian (i.adc125m c)) else none) := rfl

theorem readController_init (h : s.readController.currState = .init) :
    (step s i).readController =
      ⟨if Channel.reduceOr (full s) && empty s == 0#6 then .read1 else .init,
        s.readController.currCount⟩ := ReadController2.posedge_init h

theorem readController_read {c : Channel}
    (h : s.readController.currState = ReadController2.readState c) :
    (step s i).readController =
      if s.readController.currCount == 1023#16 || WidthConverter.empty (s.buffer c) then
        ⟨.pause, 0#16⟩
      else ⟨ReadController2.readState c,
        if i.axisTready then s.readController.currCount + 1#16
        else s.readController.currCount⟩ := by
  have he : (readInput s i).empty.getLsbD c.index = WidthConverter.empty (s.buffer c) :=
    empty_getLsbD s c
  rw [step_readController, ReadController2.posedge_read h, he]
  rfl

theorem readController_pause (h : s.readController.currState = .pause) :
    (step s i).readController =
      match (if i.axisTready then ReadController2.resume (empty s) else none) with
      | some next => ⟨next, 0#16⟩
      | none => ⟨.pause, s.readController.currCount + 1#16⟩ := ReadController2.posedge_pause h

theorem transfer_eq (c : Channel) : ReadController2.transfer c (readInput s i) =
    (i.axisTready && !WidthConverter.empty (s.buffer c)) := by
  simp only [ReadController2.transfer, readInput, empty_getLsbD]

theorem transfer_iff (c : Channel) : ReadController2.transfer c (readInput s i) = true ↔
    i.axisTready = true ∧ (s.buffer c).units ≠ [] := by
  simp only [transfer_eq, Bool.and_eq_true, Bool.not_eq_true', WidthConverter.empty_eq_false_iff]

theorem rdEn_iff (c : Channel) :
    ((out s i).rdEn.getLsbD c.index && i.axisTready) = true ↔ reads c s i := by
  unfold reads
  rcases ReadController2.state_cases s.readController.currState with h | h | ⟨d, h⟩
  · simp [out, ReadController2.idle_of_not_read (.inl h), h]
  · simp [out, ReadController2.idle_of_not_read (.inr h), h]
  · rw [out, ReadController2.rdEn_read h, h]
    simp only [Bool.and_eq_true, transfer_iff, decide_eq_true_eq, ReadController2.readState_inj]
    constructor
    · rintro ⟨⟨⟨ht, hne⟩, rfl⟩, _⟩
      exact ⟨rfl, ht, hne⟩
    · rintro ⟨rfl, ht, hne⟩
      exact ⟨⟨⟨ht, hne⟩, rfl⟩, ht⟩

theorem transfers_iff : transfers s i = true ↔ ∃ c, reads c s i := by
  unfold transfers reads
  rcases ReadController2.state_cases s.readController.currState with h | h | ⟨d, h⟩
  · simp [out, ReadController2.idle_of_not_read (.inl h), h]
  · simp [out, ReadController2.idle_of_not_read (.inr h), h]
  · rw [out, ReadController2.axisTvalid_read h, h]
    simp only [Bool.and_eq_true, transfer_iff, ReadController2.readState_inj]
    constructor
    · rintro ⟨⟨ht, hne⟩, _⟩
      exact ⟨d, rfl, ht, hne⟩
    · rintro ⟨c, rfl, ht, hne⟩
      exact ⟨⟨ht, hne⟩, ht⟩

theorem addr_of_reads {c : Channel} (h : reads c s i) : (out s i).addr = c.addr :=
  ReadController2.addr_read h.1 ((transfer_iff c).mpr h.2)

theorem dout_of_addr {c : Channel} (h : (out s i).addr = c.addr) :
    dout s i = WidthConverter.dout (s.buffer c) := by
  cases c <;> simp [dout, h, Channel.addr]

/-- Exactly the bytes that leave a FIFO are transferred under its address. -/
theorem transferred_eq_taken (c : Channel) : transferred c s i =
    (s.buffer c).taken 1 ((out s i).rdEn.getLsbD c.index && i.axisTready) := by
  unfold transferred
  by_cases h : reads c s i
  · have ht : transfers s i = true := transfers_iff.mpr ⟨c, h⟩
    obtain ⟨x, xs, hx⟩ := List.exists_cons_of_ne_nil h.2.2
    rw [(rdEn_iff c).mpr h, Fifo.taken_one hx, ht, addr_of_reads h, dout_of_addr (addr_of_reads h)]
    simp [WidthConverter.dout, hx]
  · have hrd := mt (rdEn_iff c).mp h
    rw [Bool.not_eq_true] at hrd
    rw [hrd, Fifo.taken_false, if_neg]
    intro ht
    obtain ⟨ht, ha⟩ := Bool.and_eq_true_iff.mp ht
    obtain ⟨d, hd⟩ := transfers_iff.mp ht
    have hdc : d.addr = c.addr := (addr_of_reads hd).symm.trans (beq_iff_eq.mp ha)
    exact h (Channel.addr_injective hdc ▸ hd)

theorem stored_flatMap (c : Channel) : (stored c s i).flatMap bigEndian =
    (s.buffer c).stored
      (if enWr s && i.adcValid c then some (bigEndian (i.adc125m c)) else none) := by
  unfold stored
  cases hw : enWr s && i.adcValid c with
  | false => simp
  | true => cases hf : WidthConverter.full (s.buffer c) <;>
      simp [Fifo.stored, WidthConverter.full] at hf ⊢ <;> simp [hf]

theorem transferred_append_step (c : Channel) :
    transferred c s i ++ ((step s i).buffer c).units =
      (s.buffer c).units ++ (stored c s i).flatMap bigEndian := by
  rw [transferred_eq_taken, stored_flatMap, step_buffer]
  exact Fifo.taken_append_step _ _ _ _

end Step

end AdcCapture.AdcBuffer
