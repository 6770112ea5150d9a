import AdcCapture.SpiMaster

/-!
# The SPI driver against the master's timing

`spi_write` and `spi_read` as sequences of register writes and clocks of
`spi_clk` (50 MHz), on the register slave and `spi_3_wire_master`. The driver
sets `enable` as a level for a time of its own and never looks at `busy`.
-/

namespace AdcCapture.SpiDriver

open Clocked SpiMaster
set_option autoImplicit false

/-! ## SPI_3_wire_v1_0_S00_AXI -/

structure Regs where
  slvReg0 : BitVec 32
  slvReg1 : BitVec 32
  slvReg2 : BitVec 32
  slvReg3 : BitVec 32
  deriving DecidableEq, Repr

def select (awaddr : BitVec 5) : BitVec 3 := awaddr.extractLsb' 2 3

/-- A write of all four bytes. -/
def slvWrite (awaddr : BitVec 5) (wdata : BitVec 32) (r : Regs) : Regs :=
  if select awaddr = 0#3 then { r with slvReg0 := wdata }
  else if select awaddr = 1#3 then { r with slvReg1 := wdata }
  else if select awaddr = 2#3 then { r with slvReg2 := wdata }
  else if select awaddr = 3#3 then { r with slvReg3 := wdata }
  else r

def masterInput (r : Regs) (line : Bool) : SpiMaster.Input where
  enable := r.slvReg1.getLsbD 0
  cpol := r.slvReg0.getLsbD 0
  cpha := r.slvReg0.getLsbD 1
  rw := r.slvReg1.getLsbD 1
  txCmd := r.slvReg2.extractLsb' 0 16
  txData := r.slvReg3.extractLsb' 0 8
  line := line

structure State where
  regs : Regs
  master : SpiMaster.Reg
  deriving DecidableEq, Repr

inductive Event where
  | out32 (addr data : BitVec 32)
  | spiClk (line : Bool)
  deriving DecidableEq, Repr

def step (s : State) (e : Event) : State :=
  match e with
  | .out32 addr data => { s with regs := slvWrite (addr.setWidth 5) data s.regs }
  | .spiClk line => { s with master := posedge s.master (masterInput s.regs line) }

/-- Starts and received bits of the master. -/
def marks (s : State) (e : Event) : List Mark :=
  match e with
  | .out32 _ _ => []
  | .spiClk line => SpiMaster.marks s.master (masterInput s.regs line)

/-- After reset, with any clock polarity and phase in `SPI_MODE`. -/
def reset (mode : BitVec 32) (r : SpiMaster.Reg) : State :=
  ⟨⟨mode, 0#32, 0#32, 0#32⟩, SpiMaster.reset r⟩

/-! ## spi.c -/

def baseAddr : BitVec 32 := 0x44A00000#32

def spiContr : BitVec 32 := baseAddr ||| 0x4#32

def txCmd : BitVec 32 := baseAddr ||| 0x8#32

def txData : BitVec 32 := baseAddr ||| 0xC#32

/-- Clocks of `spi_clk` in `n` microseconds. -/
def usleep (n : Nat) : Nat := 50 * n

inductive Op where
  | write (txAddr txData : BitVec 32)
  | read (rxAddr : BitVec 32)
  deriving DecidableEq, Repr

namespace Op

def command : Op → BitVec 32
  | write txAddr _ => txAddr
  | read rxAddr => 0x8000#32 ||| rxAddr

def control : Op → BitVec 32
  | write _ _ => 0x03#32
  | read _ => 0x01#32

/-- `spi_write` sleeps between the two writes of `SPI_CONTR`. Under `spi_read` the first value
stays for one clock at least. -/
def minHold : Op → Nat
  | write _ _ => usleep 1
  | read _ => 1

def minRest : Op → Nat
  | write _ _ => 0
  | read _ => usleep 1000

/-- What the call is there for. -/
def transaction : Op → Transaction
  | write txAddr txData => .write (txAddr.extractLsb' 0 16) (txData.extractLsb' 0 8)
  | read rxAddr => .read ((0x8000#32 ||| rxAddr).extractLsb' 0 16)

end Op

/-- A call with the clocks that pass before it and after each of its register writes. -/
structure Call where
  op : Op
  gap : List Bool
  afterCmd : List Bool
  afterData : List Bool
  hold : List Bool
  rest : List Bool
  hold_ge : op.minHold ≤ hold.length
  rest_ge : op.minRest ≤ rest.length

namespace Call

def dataWrite (c : Call) : List Event :=
  match c.op with
  | .write _ data => .out32 SpiDriver.txData data :: c.afterData.map .spiClk
  | .read _ => []

/-- Up to the write that sets `enable`. -/
def setup (c : Call) : List Event :=
  c.gap.map .spiClk ++ .out32 txCmd c.op.command :: (c.afterCmd.map .spiClk ++ c.dataWrite)

def program (c : Call) : List Event :=
  c.setup ++ .out32 spiContr c.op.control ::
    (c.hold.map .spiClk ++ .out32 spiContr 0x00#32 :: c.rest.map .spiClk)

end Call

def call (s : State) (c : Call) : State := run step s c.program

/-- The bits of `RX_DATA` that `rx_data` drives, at the end of the call. -/
def returned (s : State) (c : Call) : BitVec 8 := (call s c).master.rxData

/-! ## What the driver is for -/

/-- The call starts its own transaction and no other, and a read returns its eight bits. -/
structure Performs (s : State) (c : Call) : Prop where
  starts : started (emits step marks s c.program) = [c.op.transaction]
  returns : ∀ rxAddr, c.op = .read rxAddr →
    (received (emits step marks s c.program)).length = dWidth ∧
      returned s c = byteOf (received (emits step marks s c.program))

structure Performed (s : State) (cs : List Call) : Prop where
  each : Throughout (fun pre c => Performs (run call s pre) c) cs
  inOrder : started (emits step marks s (cs.flatMap Call.program)) =
    cs.map fun c => c.op.transaction

def isClk (e : Event) : Bool :=
  match e with
  | .out32 _ _ => false
  | .spiClk _ => true

/-- Clocks the master still needs for the transaction under way when the call sets `enable`. -/
def overlap (s : State) (c : Call) : Nat := remaining s.master - c.setup.countP isClk

/-- `enable` is set until the master is ready for it, and not until it is ready once more. -/
def Fits (s : State) (c : Call) : Prop :=
  overlap s c + 1 ≤ c.hold.length ∧ c.hold.length ≤ overlap s c + 1 + duration

/-! ## One call -/

/-- Between the calls. -/
structure Waiting (s : State) : Prop where
  low : s.regs.slvReg1.getLsbD 0 = false
  sound : Sound s.master

section Run
variable {s : State} {c : Call}

theorem waiting_reset (mode : BitVec 32) (r : SpiMaster.Reg) : Waiting (reset mode r) :=
  ⟨by simp [reset], sound_reset r⟩

theorem run_clocks (s : State) (lines : List Bool) : run step s (lines.map .spiClk) =
    { s with master := run posedge s.master (lines.map (masterInput s.regs)) } := by
  induction lines generalizing s with
  | nil => rfl
  | cons line lines ih =>
    rw [List.map_cons, run_cons, ih]
    rfl

theorem emits_clocks (s : State) (lines : List Bool) : emits step marks s (lines.map .spiClk) =
    emits posedge SpiMaster.marks s.master (lines.map (masterInput s.regs)) := by
  induction lines generalizing s with
  | nil => rfl
  | cons line lines ih =>
    rw [List.map_cons, emits_cons, ih]
    rfl

theorem regs_clocks (s : State) (lines : List Bool) :
    (run step s (lines.map .spiClk)).regs = s.regs := by
  rw [run_clocks]

theorem slvWrite_slvReg1 {awaddr : BitVec 5} (h : select awaddr ≠ 1#3) (wdata : BitVec 32)
    (r : Regs) : (slvWrite awaddr wdata r).slvReg1 = r.slvReg1 := by
  unfold slvWrite
  rw [if_neg h]
  split
  · rfl
  · split
    · rfl
    · split <;> rfl

/-- As long as `SPI_CONTR` is left alone with `enable` at 0, nothing starts. -/
theorem run_waiting {es : List Event} (hs : Waiting s)
    (h : ∀ addr data, Event.out32 addr data ∈ es → select (addr.setWidth 5) ≠ 1#3) :
    started (emits step marks s es) = [] ∧ Waiting (run step s es) ∧
      remaining (run step s es).master = remaining s.master - es.countP isClk := by
  induction es generalizing s with
  | nil => exact ⟨rfl, hs, rfl⟩
  | cons e es ih =>
    have hes : ∀ addr data, Event.out32 addr data ∈ es → select (addr.setWidth 5) ≠ 1#3 :=
      fun addr data he => h addr data (List.mem_cons_of_mem e he)
    rw [emits_cons, started_append, run_cons]
    cases e with
    | out32 addr data =>
      have hw : Waiting (step s (.out32 addr data)) := by
        refine ⟨?_, hs.sound⟩
        rw [step, slvWrite_slvReg1 (h addr data List.mem_cons_self)]
        exact hs.low
      obtain ⟨hst, hwait, hrem⟩ := ih hw hes
      refine ⟨by rw [hst]; rfl, hwait, ?_⟩
      rw [hrem, List.countP_cons_of_neg (by simp [isClk])]
      rfl
    | spiClk line =>
      have hw : Waiting (step s (.spiClk line)) := ⟨hs.low, sound_step hs.sound _⟩
      obtain ⟨hst, hwait, hrem⟩ := ih hw hes
      have hlow : ∀ i ∈ [masterInput s.regs line], i.enable = false := by
        simpa [masterInput] using hs.low
      obtain ⟨hst1, hrem1⟩ := run_low hs.sound hlow
      have hm : marks s (.spiClk line) = SpiMaster.marks s.master (masterInput s.regs line) := rfl
      refine ⟨?_, hwait, ?_⟩
      · rw [hst, List.append_nil, hm]
        simpa [emits_cons] using hst1
      · rw [hrem, List.countP_cons_of_pos (by rfl)]
        have hm : remaining (step s (.spiClk line)).master = remaining s.master - 1 := hrem1
        rw [hm]
        omega

theorem select_txCmd : select (txCmd.setWidth 5) = 2#3 := by decide

theorem select_txData : select (txData.setWidth 5) = 3#3 := by decide

theorem select_spiContr : select (spiContr.setWidth 5) = 1#3 := by decide

theorem setup_untouched (c : Call) {addr data : BitVec 32} (h : Event.out32 addr data ∈ c.setup) :
    select (addr.setWidth 5) ≠ 1#3 := by
  unfold Call.setup Call.dataWrite at h
  cases hop : c.op with
  | write a d =>
    simp only [hop, List.mem_append, List.mem_map, List.mem_cons, reduceCtorEq, and_false,
      exists_false, false_or, or_false, Event.out32.injEq] at h
    rcases h with ⟨rfl, _⟩ | ⟨rfl, _⟩
    · rw [select_txCmd]
      decide
    · rw [select_txData]
      decide
  | read a =>
    simp only [hop, List.mem_append, List.mem_map, List.mem_cons, List.not_mem_nil, reduceCtorEq,
      and_false, exists_false, false_or, or_false, Event.out32.injEq] at h
    obtain ⟨rfl, _⟩ := h
    rw [select_txCmd]
    decide

/-- The registers when the call is about to set `enable`. -/
theorem regs_setup (s : State) (c : Call) :
    (run step s c.setup).regs.slvReg2 = c.op.command ∧
      ∀ addr data, c.op = .write addr data → (run step s c.setup).regs.slvReg3 = data := by
  unfold Call.setup Call.dataWrite
  cases hop : c.op with
  | write a d =>
    refine ⟨?_, ?_⟩
    · simp [run_append, run_cons, regs_clocks, step, slvWrite, select_txCmd, select_txData]
    · rintro addr data ⟨⟩
      simp [run_append, run_cons, regs_clocks, step, slvWrite, select_txCmd, select_txData]
  | read a =>
    refine ⟨?_, ?_⟩
    · simp [run_append, run_cons, regs_clocks, step, slvWrite, select_txCmd]
    · intro addr data h
      cases h

/-- The state in which `enable` comes up. -/
def enabled (s : State) (c : Call) : State :=
  step (run step s c.setup) (.out32 spiContr c.op.control)

/-- The state in which `enable` goes down. -/
def disabled (s : State) (c : Call) : State :=
  step (run step (enabled s c) (c.hold.map .spiClk)) (.out32 spiContr 0x00#32)

theorem run_program (s : State) (c : Call) :
    call s c = run step (disabled s c) (c.rest.map .spiClk) := by
  simp only [call, Call.program, run_append, run_cons]
  rfl

theorem emits_program (s : State) (c : Call) : emits step marks s c.program =
    emits step marks s c.setup ++ (emits step marks (enabled s c) (c.hold.map .spiClk) ++
      emits step marks (disabled s c) (c.rest.map .spiClk)) := by
  simp only [Call.program, emits_append, emits_cons]
  rfl

theorem waiting_setup (hs : Waiting s) (c : Call) : started (emits step marks s c.setup) = [] ∧
    Waiting (run step s c.setup) ∧ remaining (run step s c.setup).master = overlap s c :=
  run_waiting hs fun _ _ h => setup_untouched c h

theorem enabled_input (s : State) (c : Call) (line : Bool) :
    (masterInput (enabled s c).regs line).enable = true ∧
      transaction (masterInput (enabled s c).regs line) = c.op.transaction := by
  obtain ⟨hcmd, hdata⟩ := regs_setup s c
  simp only [enabled, step, slvWrite, select_spiContr, masterInput, transaction]
  cases hop : c.op with
  | write a d =>
    rw [hop] at hcmd
    simp [hdata a d hop, hcmd, Op.control, Op.command, Op.transaction]
  | read a =>
    rw [hop] at hcmd
    simp [hcmd, Op.control, Op.command, Op.transaction]

theorem enabled_inputs (s : State) (c : Call) : ∀ i ∈ c.hold.map (masterInput (enabled s c).regs),
    i.enable = true ∧ transaction i = c.op.transaction := by
  intro i hi
  obtain ⟨line, _, rfl⟩ := List.mem_map.mp hi
  exact enabled_input s c line

theorem waiting_disabled (hs : Waiting s) (c : Call) : Waiting (disabled s c) := by
  have hsound : Sound (enabled s c).master := (waiting_setup hs c).2.1.sound
  refine ⟨?_, ?_⟩
  · simp [disabled, step, slvWrite, select_spiContr]
  · simp only [disabled, step, run_clocks]
    exact sound_run hsound _

theorem waiting_rest (hs : Waiting s) (c : Call) :
    started (emits step marks (disabled s c) (c.rest.map .spiClk)) = [] ∧
      Waiting (call s c) ∧
      remaining (call s c).master = remaining (disabled s c).master - c.rest.length := by
  have hclk : (c.rest.map Event.spiClk).countP isClk = c.rest.length := by
    rw [List.countP_map, List.countP_eq_length.mpr]
    intro _ _
    rfl
  have hout : ∀ addr data, Event.out32 addr data ∈ c.rest.map Event.spiClk →
      select (addr.setWidth 5) ≠ 1#3 := by simp
  have h := run_waiting (waiting_disabled hs c) hout
  rwa [hclk, ← run_program] at h

theorem started_program (hs : Waiting s) (c : Call) : started (emits step marks s c.program) =
    started (emits posedge SpiMaster.marks (enabled s c).master
      (c.hold.map (masterInput (enabled s c).regs))) := by
  rw [emits_program, started_append, started_append, (waiting_setup hs c).1, (waiting_rest hs c).1,
    emits_clocks, List.nil_append, List.append_nil]

theorem starts_iff_fits (hs : Waiting s) (c : Call) :
    started (emits step marks s c.program) = [c.op.transaction] ↔ Fits s c := by
  have hsound : Sound (enabled s c).master := (waiting_setup hs c).2.1.sound
  have hrem : remaining (enabled s c).master = overlap s c := (waiting_setup hs c).2.2
  rw [started_program hs, started_hold_iff hsound (enabled_inputs s c), hrem, List.length_map]
  rfl

/-- The eight bits of a read that fits have arrived when the driver looks for them. -/
theorem returns_of_fits (hs : Waiting s) (h : Fits s c) {rxAddr : BitVec 32}
    (hop : c.op = .read rxAddr) : (received (emits step marks s c.program)).length = dWidth ∧
      returned s c = byteOf (received (emits step marks s c.program)) := by
  have hsound : Sound (enabled s c).master := (waiting_setup hs c).2.1.sound
  have hrem : remaining (enabled s c).master = overlap s c := (waiting_setup hs c).2.2
  have hin := enabled_inputs s c
  have ht : c.op.transaction = .read ((0x8000#32 ||| rxAddr).extractLsb' 0 16) := by rw [hop]; rfl
  rw [ht] at hin
  have hmin : remaining (enabled s c).master <
      (c.hold.map (masterInput (enabled s c).regs)).length := by
    rw [hrem, List.length_map]
    exact h.1
  have hmax : (c.hold.map (masterInput (enabled s c).regs)).length ≤
      remaining (enabled s c).master + 1 + duration := by
    rw [hrem, List.length_map]
    exact h.2
  have hhold := reading_hold hsound hin hmin hmax
    ((emits step marks s c.setup).foldl collect [])
  have hlow : Always posedge (fun r i => r.state = .execute ∨ i.enable = false)
      (disabled s c).master (c.rest.map (masterInput (disabled s c).regs)) := by
    apply always_of_forall_mem
    intro i hi r
    obtain ⟨line, _, rfl⟩ := List.mem_map.mp hi
    exact .inr (waiting_disabled hs c).low
  have hdis : (disabled s c).master = run posedge (enabled s c).master
      (c.hold.map (masterInput (enabled s c).regs)) := by
    simp only [disabled, step, run_clocks]
  rw [← hdis] at hhold
  have hread := reading_run hhold hlow
  rw [← emits_clocks, ← emits_clocks, ← List.foldl_append, ← List.foldl_append,
    ← emits_program] at hread
  have hcall : (call s c).master =
      run posedge (disabled s c).master (c.rest.map (masterInput (disabled s c).regs)) := by
    rw [run_program, run_clocks]
  have hready : (call s c).master.state = .ready := by
    have hle := remaining_le (disabled s c).master
    have hrest : 50000 ≤ c.rest.length := by
      have hr := c.rest_ge
      rw [hop] at hr
      exact hr
    rw [← remaining_eq_zero_iff, (waiting_rest hs c).2.2]
    simp only [duration, lastToggle, cmdWidth, dWidth, clkDiv] at hle
    omega
  rw [← hcall] at hread
  simp only [Reading, hready] at hread
  exact hread

theorem performs_iff_fits (hs : Waiting s) (c : Call) : Performs s c ↔ Fits s c := by
  constructor
  · intro h
    exact (starts_iff_fits hs c).mp h.starts
  · intro h
    refine ⟨(starts_iff_fits hs c).mpr h, ?_⟩
    intro rxAddr hop
    exact returns_of_fits hs h hop

end Run

/-! ## Calls in a row -/

theorem waiting_calls {s : State} (hs : Waiting s) (cs : List Call) : Waiting (run call s cs) :=
  invariant_run (I := Waiting) (fun _ c h => (waiting_rest h c).2.1) hs cs

theorem run_calls (s : State) (cs : List Call) :
    run step s (cs.flatMap Call.program) = run call s cs := by
  induction cs generalizing s with
  | nil => rfl
  | cons c cs ih =>
    rw [List.flatMap_cons, run_append, ih]
    rfl

theorem started_calls {s : State} {cs : List Call}
    (h : Throughout (fun pre c => Performs (run call s pre) c) cs) :
    started (emits step marks s (cs.flatMap Call.program)) = cs.map fun c => c.op.transaction := by
  induction cs using List.reverseRecOn with
  | nil => rfl
  | append_singleton cs c ih =>
    obtain ⟨hcs, hc⟩ := throughout_snoc.mp h
    rw [List.flatMap_append, List.flatMap_singleton, emits_append, started_append, run_calls,
      ih hcs, hc.starts, List.map_append]
    rfl

theorem performed_iff (mode : BitVec 32) (r : SpiMaster.Reg) (cs : List Call) :
    Performed (reset mode r) cs ↔
      Throughout (fun pre c => Fits (run call (reset mode r) pre) c) cs := by
  have hiff := throughout_congr
    (fun pre c => performs_iff_fits (waiting_calls (waiting_reset mode r) pre) c) cs
  constructor
  · intro h
    exact hiff.mp h.each
  · intro h
    exact ⟨hiff.mpr h, started_calls (hiff.mpr h)⟩

/-- `spi_write` with the shortest sleep, each register write seen by one clock. -/
def shortWrite (txAddr txData : BitVec 32) : Call where
  op := .write txAddr txData
  gap := []
  afterCmd := [false]
  afterData := [false]
  hold := List.replicate 50 false
  rest := [false]
  hold_ge := (by decide : usleep 1 ≤ (List.replicate 50 false).length)
  rest_ge := Nat.zero_le _

/-- The second of two writes without a gap comes and goes while the master is busy. -/
theorem second_write_is_swallowed : ¬ Performed (reset 0x03#32 powerUpReg)
    [shortWrite 0x008#32 0x03#32, shortWrite 0x00D#32 0x00#32] := by
  intro h
  have h2 := h.each [shortWrite 0x008#32 0x03#32] (shortWrite 0x00D#32 0x00#32) [] rfl
  have hs := waiting_calls (waiting_reset 0x03#32 powerUpReg) [shortWrite 0x008#32 0x03#32]
  have hover : overlap (run call (reset 0x03#32 powerUpReg) [shortWrite 0x008#32 0x03#32])
      (shortWrite 0x00D#32 0x00#32) = 194 := by decide +kernel
  have hfits := ((performs_iff_fits hs _).mp h2).1
  rw [hover] at hfits
  exact absurd hfits (by decide)

end AdcCapture.SpiDriver
