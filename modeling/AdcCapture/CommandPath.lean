import AdcCapture.Clocked
import AdcCapture.UdpDetector
import AdcCapture.UdpCommandParser

/-!
# The command path

`udpDetector` feeds `udpCommandParser`. The parser takes a word every three
clocks and a word needs four to arrive, so the FIFO stays all but empty and the
words compared are the consecutive four-byte groups of the bytes to port 0x1000.
-/

namespace AdcCapture.CommandPath

open Clocked UdpDetector
set_option autoImplicit false

structure Reg where
  fifo : FifoGenerator1
  parser : UdpCommandParser.Reg

def out (s : Reg) (i : Input) : UdpCommandParser.Comb :=
  UdpCommandParser.comb s.parser (dataReady s.fifo) (data s.fifo i)

def rdEn (s : Reg) (i : Input) : Bool := (out s i).rdEn

def sendAdcData (s : Reg) (i : Input) : Bool := (out s i).sendAdcData

/-- `next_command` may hold anything when the reset ends. -/
def reset (held : BitVec 32) : Reg := ⟨LaggedFifo.nil, .init, 0#32, held⟩

def step (s : Reg) (i : Input) : Reg where
  fifo := UdpDetector.posedge false s.fifo (rdEn s i) i
  parser := UdpCommandParser.posedge false s.parser (dataReady s.fifo) (data s.fifo i)

def received (_ : Reg) (i : Input) : List (BitVec 8) :=
  if i.axisTvalid && i.destPort == 0x1000#16 then [i.axisTdata] else []

/-- The word held in `parseCommand`. -/
def parsed (s : Reg) (_ : Input) : List (BitVec 32) :=
  if s.parser.currState = .parseCommand then [s.parser.currCommand] else []

/-- The bytes under way: the word being compared, then the FIFO. -/
def contents (s : Reg) : List (BitVec 8) :=
  (if s.parser.currState = .parseCommand then wordBytes s.parser.currCommand else []) ++
    s.fifo.units

/-- How full the FIFO can be in each state of the parser. -/
def bound : UdpCommandParser.State → Nat
  | .init => 12
  | .getCommand => 13
  | .parseCommand => 10

structure Inv (s : Reg) : Prop where
  fifo : LaggedFifo.Inv 4 lag s.fifo
  reading : s.parser.currState = .getCommand → s.fifo.shown ≠ []
  level : s.fifo.units.length ≤ bound s.parser.currState

theorem inv_reset (held : BitVec 32) : Inv (reset held) where
  fifo := LaggedFifo.inv_nil (by decide)
  reading h := by cases h
  level := Nat.zero_le _

section Step
variable {s : Reg} {i : Input}

theorem rdEn_iff : rdEn s i = true ↔ s.parser.currState = .getCommand := by
  rw [rdEn, out, UdpCommandParser.rdEn_eq, decide_eq_true_eq]

theorem sendAdcData_iff : sendAdcData s i = true ↔
    s.parser.currState = .parseCommand ∧ s.parser.currCommand = 0x73656e64#32 := by
  rw [sendAdcData, out, UdpCommandParser.sendAdcData_eq, decide_eq_true_eq]

theorem step_fifo : (step s i).fifo = s.fifo.step 4 lag wrDepth (rdEn s i)
    (if wrEn s.fifo i then some i.axisTdata else none) i.reveal := rfl

theorem currState_step : (step s i).parser.currState =
    match s.parser.currState with
    | .init => if dataReady s.fifo then .getCommand else .init
    | .getCommand => .parseCommand
    | .parseCommand => .init := UdpCommandParser.currState_posedge

theorem shown_of_dataReady {f : FifoGenerator1} (h : dataReady f = true) : f.shown ≠ [] := by
  rintro hn
  rw [dataReady, LaggedFifo.valid, hn] at h
  cases h

theorem full_eq_false (hs : Inv s) : full s.fifo = false := by
  have hl := hs.level
  have hb : bound s.parser.currState ≤ 13 := by cases s.parser.currState <;> decide
  rw [full, LaggedFifo.full, decide_eq_false_iff_not, wrDepth]
  omega

theorem stored_eq (hs : Inv s) :
    s.fifo.stored wrDepth (if wrEn s.fifo i then some i.axisTdata else none) = received s i := by
  have hf := full_eq_false hs
  have hw : wrEn s.fifo i = (i.axisTvalid && i.destPort == 0x1000#16) := by simp [wrEn, hf]
  rw [full] at hf
  rw [LaggedFifo.stored, hf, hw, received]
  cases i.axisTvalid && i.destPort == 0x1000#16 <;> rfl

theorem taken_append_units (hs : Inv s) : s.fifo.taken (rdEn s i) ++ (step s i).fifo.units =
    s.fifo.units ++ received s i := by
  rw [step_fifo, LaggedFifo.taken_append_units_step, stored_eq hs]

theorem taken_of_not_reading (h : s.parser.currState ≠ .getCommand) :
    s.fifo.taken (rdEn s i) = [] := by
  have hr : rdEn s i = false := by
    rw [← Bool.not_eq_true, rdEn_iff]
    exact h
  rw [LaggedFifo.taken, hr]
  rfl

theorem taken_of_reading (hs : Inv s) (h : s.parser.currState = .getCommand) :
    s.fifo.taken (rdEn s i) = wordBytes (data s.fifo i) ∧
      (s.fifo.taken (rdEn s i)).length = 4 := by
  obtain ⟨x, xs, hx⟩ := List.exists_cons_of_ne_nil (hs.reading h)
  have h4 : x.length = 4 := hs.fifo.shown x (by rw [hx]; exact List.mem_cons_self)
  have ht : s.fifo.taken (rdEn s i) = x := by
    rw [LaggedFifo.taken, rdEn_iff.mpr h, hx]
    rfl
  rw [ht]
  exact ⟨by rw [data, hx, wordBytes_word h4], h4⟩

theorem received_length_le : (received s i).length ≤ 1 := by
  unfold received
  split <;> simp

theorem length_le_of_not_ready (hs : Inv s) (h : dataReady s.fifo = false) :
    s.fifo.units.length ≤ 11 := by
  have hsh : s.fifo.shown = [] := by
    rw [dataReady, LaggedFifo.valid] at h
    simpa using h
  have hl := LaggedFifo.units_length hs.fifo
  have hp := hs.fifo.part
  rw [hsh, List.length_nil] at hl
  rcases LaggedFifo.hidden_length hs.fifo with hn | hh
  · rw [hn, List.length_nil] at hl
    omega
  · unfold lag at hh
    omega

theorem level_step (hs : Inv s) :
    (step s i).fifo.units.length ≤ bound (step s i).parser.currState := by
  have hlen := congrArg List.length (taken_append_units (i := i) hs)
  have hr := received_length_le (s := s) (i := i)
  have hl := hs.level
  rw [List.length_append, List.length_append] at hlen
  rw [currState_step]
  cases hst : s.parser.currState with
  | init =>
    rw [taken_of_not_reading (by simp [hst]), List.length_nil] at hlen
    rw [hst] at hl
    cases hd : dataReady s.fifo with
    | true =>
      simp only [bound] at hl ⊢
      simp only [if_true]
      omega
    | false =>
      -- the parser waits only while no word is shown, which keeps the FIFO low
      have := length_le_of_not_ready hs hd
      simp only [bound]
      simp only [Bool.false_eq_true, if_false]
      omega
  | getCommand =>
    rw [(taken_of_reading hs hst).2] at hlen
    rw [hst] at hl
    simp only [bound] at hl ⊢
    omega
  | parseCommand =>
    rw [taken_of_not_reading (by simp [hst]), List.length_nil] at hlen
    rw [hst] at hl
    simp only [bound] at hl ⊢
    omega

theorem shown_step (h : s.parser.currState ≠ .getCommand) (hd : s.fifo.shown ≠ []) :
    (step s i).fifo.shown ≠ [] := by
  have hr : rdEn s i = false := by
    rw [← Bool.not_eq_true, rdEn_iff]
    exact h
  rw [step_fifo, LaggedFifo.step, hr]
  exact List.append_ne_nil_of_left_ne_nil hd _

theorem inv_step (hs : Inv s) (i : Input) : Inv (step s i) where
  fifo := LaggedFifo.inv_step hs.fifo
  reading h := by
    rw [currState_step] at h
    split at h
    · rename_i hst
      split at h
      · rename_i hd
        exact shown_step (by simp [hst]) (shown_of_dataReady hd)
      · cases h
    · cases h
    · cases h
  level := level_step hs

theorem parsed_append_contents (hs : Inv s) :
    (parsed s i).flatMap wordBytes ++ contents (step s i) = contents s ++ received s i := by
  have hc := taken_append_units (i := i) hs
  unfold parsed contents
  rw [currState_step]
  cases hst : s.parser.currState with
  | init =>
    rw [taken_of_not_reading (by simp [hst]), List.nil_append] at hc
    cases dataReady s.fifo <;> simpa using hc
  | getCommand =>
    rw [(taken_of_reading hs hst).1] at hc
    have hcur : (step s i).parser.currCommand = data s.fifo i :=
      UdpCommandParser.currCommand_posedge hst
    rw [if_neg (by simp), if_pos rfl, if_neg (by simp), hcur]
    exact hc
  | parseCommand =>
    rw [taken_of_not_reading (by simp [hst]), List.nil_append] at hc
    rw [if_pos rfl, if_neg (by simp), if_pos rfl, List.nil_append, hc, List.flatMap_cons,
      List.flatMap_nil, List.append_nil, List.append_assoc]

end Step

section Run
variable (held : BitVec 32)

theorem inv_run (is : List Input) : Inv (run step (reset held) is) :=
  invariant_run (I := Inv) (fun _ i hs => inv_step hs i) (inv_reset held) is

theorem parsed_conservation (is : List Input) :
    (emits step parsed (reset held) is).flatMap wordBytes ++ contents (run step (reset held) is) =
      emits step received (reset held) is := by
  rw [← emits_flatMap]
  have h := conservation_of (I := Inv) (K := fun _ _ => True) contents received
    (fun s i => (parsed s i).flatMap wordBytes) (fun _ i hs _ => inv_step hs i)
    (fun _ _ hs _ => parsed_append_contents hs) (inv_reset held) (always_true _ is)
  simpa [reset, contents, LaggedFifo.units, LaggedFifo.nil] using h

theorem groups_received (is : List Input) : groups (emits step received (reset held) is) =
    emits step parsed (reset held) is ++ groups (contents (run step (reset held) is)) := by
  rw [← parsed_conservation held is, groups_flatMap_append]

end Run

/-! ## Latency -/

/-- Clocks until the next word is in `parseCommand`. -/
def delay (s : Reg) : Nat :=
  match s.parser.currState, s.fifo.shown, s.fifo.hidden with
  | .parseCommand, _, _ => 0
  | .getCommand, _, _ => 1
  | .init, _ :: _, _ => 2
  | .init, [], x :: _ => 2 + (lag - x.1)
  | .init, [], [] => 0

section Latency
variable {s : Reg} {i : Input}

theorem delay_le (s : Reg) : delay s ≤ 10 := by
  unfold delay lag
  split <;> omega

theorem delay_of_shown (h : s.parser.currState = .init) (hs : s.fifo.shown ≠ []) : delay s = 2 := by
  obtain ⟨x, xs, hx⟩ := List.exists_cons_of_ne_nil hs
  simp [delay, h, hx]

theorem delay_of_hidden {x : Nat × List (BitVec 8)} {xs : List (Nat × List (BitVec 8))}
    (h : s.parser.currState = .init) (hs : s.fifo.shown = []) (hh : s.fifo.hidden = x :: xs) :
    delay s = 2 + (lag - x.1) := by
  simp [delay, h, hs, hh]

theorem delay_step (hs : Inv s) (hp : s.parser.currState ≠ .parseCommand)
    (hc : 4 ≤ (contents s).length) : delay (step s i) < delay s := by
  have hn := currState_step (s := s) (i := i)
  cases hst : s.parser.currState with
  | parseCommand => exact absurd hst hp
  | getCommand =>
    rw [hst] at hn
    simp [delay, hn, hst]
  | init =>
    rw [hst] at hn
    rcases hsh : s.fifo.shown with _ | ⟨x, xs⟩
    · have hd : dataReady s.fifo = false := by simp [dataReady, LaggedFifo.valid, hsh]
      rw [hd] at hn
      rw [contents, if_neg hp, List.nil_append, LaggedFifo.units_length hs.fifo, hsh] at hc
      have hpart := hs.fifo.part
      rcases hh : s.fifo.hidden with _ | ⟨x, xs⟩
      · rw [hh] at hc
        simp at hc
        omega
      · have hy := hs.fifo.young x (by rw [hh]; exact List.mem_cons_self)
        rw [delay_of_hidden hst hsh hh]
        by_cases hsh' : (step s i).fifo.shown = []
        · obtain ⟨ys, hys⟩ := LaggedFifo.hidden_step_of_shown_nil hh (step_fifo ▸ hsh')
          rw [delay_of_hidden hn hsh' (step_fifo ▸ hys)]
          simp only
          omega
        · rw [delay_of_shown hn hsh']
          omega
    · have hd : dataReady s.fifo = true := by simp [dataReady, LaggedFifo.valid, hsh]
      rw [hd] at hn
      rw [delay_of_shown hst (by simp [hsh])]
      simp [delay, hn]

theorem contents_length_step (hs : Inv s) : 4 * (parsed s i).length + (contents (step s i)).length =
    (contents s).length + (received s i).length := by
  have h := congrArg List.length (parsed_append_contents (i := i) hs)
  rw [List.length_append, List.length_append] at h
  rw [← h, parsed]
  split <;> rfl

/-- Twelve clocks are enough for a word, ten more for the first one. -/
theorem le_parsed_length (hs : Inv s) {n : Nat} {js : List Input}
    (hn : 4 * n ≤ (contents s).length) (hl : 12 * n + delay s ≤ js.length) :
    n ≤ (emits step parsed s js).length := by
  induction js generalizing s n with
  | nil =>
    rw [List.length_nil] at hl
    omega
  | cons j js ih =>
    have hlen := contents_length_step (i := j) hs
    rw [List.length_cons] at hl
    rw [emits_cons, List.length_append]
    rcases n with _ | n
    · exact Nat.zero_le _
    · by_cases hp : s.parser.currState = .parseCommand
      · have h1 : (parsed s j).length = 1 := by simp [parsed, hp]
        have hd := delay_le (step s j)
        have := ih (inv_step hs j) (n := n) (by omega) (by omega)
        omega
      · have h0 : (parsed s j).length = 0 := by simp [parsed, hp]
        have hd := delay_step (i := j) hs hp (by omega)
        have := ih (inv_step hs j) (n := n + 1) (by omega) (by omega)
        omega

theorem contents_length_le (hs : Inv s) : (contents s).length ≤ 14 := by
  have hl := hs.level
  unfold contents
  cases hst : s.parser.currState <;> rw [hst] at hl <;> simp [bound] at hl ⊢ <;> omega

end Latency

section Run
variable (held : BitVec 32)

/-- Every group is compared at most 46 clocks after its last byte. -/
theorem groups_prefix_parsed (is js : List Input) (h : 46 ≤ js.length) :
    groups (emits step received (reset held) is) <+:
      emits step parsed (reset held) (is ++ js) := by
  have hs := inv_run held is
  have hall : groups (emits step received (reset held) is) <+:
      groups (emits step received (reset held) (is ++ js)) := by
    rw [emits_append]
    exact groups_prefix_append _ _
  have hpar : emits step parsed (reset held) (is ++ js) <+:
      groups (emits step received (reset held) (is ++ js)) := by
    rw [groups_received held (is ++ js)]
    exact List.prefix_append _ _
  apply List.prefix_of_prefix_length_le hall hpar
  have hc := contents_length_le hs
  have hd := delay_le (run step (reset held) is)
  have hle : (contents (run step (reset held) is)).length / 4 ≤
      (emits step parsed (run step (reset held) is) js).length :=
    le_parsed_length hs (by omega) (by omega)
  rw [groups_received held is, List.length_append, groups_length, emits_append, List.length_append]
  omega

theorem count_sendAdcData (is : List Input) : count step sendAdcData (reset held) is =
    (emits step parsed (reset held) is).count 0x73656e64#32 := by
  induction is using List.reverseRecOn with
  | nil => rfl
  | append_singleton is i ih =>
    rw [count_snoc, emits_snoc, List.count_append, ih, Nat.add_left_cancel_iff]
    by_cases hc : (run step (reset held) is).parser.currState = .parseCommand
    · by_cases hw : (run step (reset held) is).parser.currCommand = 0x73656e64#32
      · rw [sendAdcData_iff.mpr ⟨hc, hw⟩, parsed, if_pos hc, hw]
        rfl
      · have hf : sendAdcData (run step (reset held) is) i = false := by
          rw [← Bool.not_eq_true, sendAdcData_iff]
          exact fun h => hw h.2
        rw [hf, parsed, if_pos hc, List.count_singleton]
        simpa using hw
    · have hf : sendAdcData (run step (reset held) is) i = false := by
        rw [← Bool.not_eq_true, sendAdcData_iff]
        exact fun h => hc h.1
      rw [hf, parsed, if_neg hc]
      rfl

theorem command_path_refines (is : List Input) :
    let s := run step (reset held) is
    full s.fifo = false ∧
    (∀ i, s.fifo.stored wrDepth (if wrEn s.fifo i then some i.axisTdata else none) =
      received s i) ∧
    (∀ i, rdEn s i = true → dataReady s.fifo = true) ∧
    emits step parsed (reset held) is <+: groups (emits step received (reset held) is) ∧
    (∀ js : List Input, 46 ≤ js.length → groups (emits step received (reset held) is) <+:
      emits step parsed (reset held) (is ++ js)) ∧
    (∀ i, sendAdcData s i = true ↔ parsed s i = [0x73656e64#32]) ∧
    count step sendAdcData (reset held) is =
      (emits step parsed (reset held) is).count 0x73656e64#32 := by
  intro s
  have hs : Inv s := inv_run held is
  refine ⟨full_eq_false hs, fun i => stored_eq hs, ?_, ?_, groups_prefix_parsed held is, ?_,
    count_sendAdcData held is⟩
  · intro i hr
    obtain ⟨x, xs, hx⟩ := List.exists_cons_of_ne_nil (hs.reading (rdEn_iff.mp hr))
    rw [dataReady, LaggedFifo.valid, hx]
    rfl
  · rw [groups_received held is]
    exact List.prefix_append _ _
  · intro i
    rw [sendAdcData_iff, parsed]
    by_cases hc : s.parser.currState = .parseCommand <;> simp [hc]

end Run

end AdcCapture.CommandPath
