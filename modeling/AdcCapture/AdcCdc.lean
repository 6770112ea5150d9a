import AdcCapture.AdcBuffer

/-!
# The six clock crossings in front of adc_buffer

Each `adc_cdc` is a FIFO written at every `adc_clk` edge with `din_valid` and
read by itself whenever its head has crossed. When the head has crossed is an
input of every clock of `dout_clk`, chosen for each channel on its own.
-/

namespace AdcCapture.AdcCdc

open Clocked
set_option autoImplicit false

/-- An edge of `adc_clk`. -/
structure Edge where
  dinValid : Bool
  adc : Channel → BitVec 16

/-- A word together with the number of the `adc_clk` edge it was taken on. -/
structure Sample where
  edge : Nat
  word : BitVec 16
  deriving DecidableEq, Repr

structure State where
  edge : Nat
  fifo : Channel → List Sample
  buffer : AdcBuffer.Reg

/-- One clock of `dout_clk`, with the `adc_clk` edges since the clock before it. -/
structure Input where
  edges : List Edge
  crossed : Channel → Bool
  startBuff : Bool
  axisTready : Bool
  txDone : Bool

/-- The edges with `din_valid`, numbered. -/
def taken (s : State) (i : Input) : List (Edge × Nat) :=
  (i.edges.zipIdx s.edge).filter fun e => e.1.dinValid

def edgesTaken (s : State) (i : Input) : List Nat := (taken s i).map Prod.snd

def pushed (c : Channel) (s : State) (i : Input) : List Sample :=
  (taken s i).map fun e => ⟨e.2, e.1.adc c⟩

def waiting (c : Channel) (s : State) (i : Input) : List Sample := s.fifo c ++ pushed c s i

/-- `valid` of the FIFO, which is its own `rd_en`. -/
def valid (c : Channel) (s : State) (i : Input) : Bool :=
  i.crossed c && !(waiting c s i).isEmpty

def dout (c : Channel) (s : State) (i : Input) : BitVec 16 :=
  match waiting c s i with
  | [] => 0#16
  | x :: _ => x.word

def bufferInput (s : State) (i : Input) : AdcBuffer.Input where
  startBuff := i.startBuff
  adcValid c := valid c s i
  adc125m c := dout c s i
  axisTready := i.axisTready
  txDone := i.txDone

def step (s : State) (i : Input) : State where
  edge := s.edge + i.edges.length
  fifo c := if valid c s i then (waiting c s i).tail else waiting c s i
  buffer := AdcBuffer.step s.buffer (bufferInput s i)

def reset : State := ⟨0, fun _ => [], AdcBuffer.reset⟩

/-! ## What happens in one clock -/

def delivered (c : Channel) (s : State) (i : Input) : List Sample :=
  if valid c s i then (waiting c s i).take 1 else []

/-- The sample the channel's `widthConverter` takes in this clock. -/
def stored (c : Channel) (s : State) (i : Input) : List Sample :=
  if AdcBuffer.enWr s.buffer && !WidthConverter.full (s.buffer.buffer c) then delivered c s i
  else []

section Step
variable {s : State} {i : Input}

theorem step_buffer (s : State) (i : Input) :
    (step s i).buffer = AdcBuffer.step s.buffer (bufferInput s i) := rfl

theorem delivered_append_step (c : Channel) (s : State) (i : Input) :
    delivered c s i ++ (step s i).fifo c = s.fifo c ++ pushed c s i := by
  have hw : waiting c s i = s.fifo c ++ pushed c s i := rfl
  rw [← hw]
  cases hv : valid c s i with
  | false => simp [delivered, step, hv]
  | true => cases hq : waiting c s i <;> simp [delivered, step, hv, hq]

theorem map_edge_pushed (c : Channel) (s : State) (i : Input) :
    (pushed c s i).map Sample.edge = edgesTaken s i := by
  rw [pushed, edgesTaken, List.map_map]
  rfl

theorem delivered_words (c : Channel) (s : State) (i : Input) :
    (delivered c s i).map Sample.word = AdcBuffer.presented c s.buffer (bufferInput s i) := by
  have hp : AdcBuffer.presented c s.buffer (bufferInput s i) =
      if valid c s i then [dout c s i] else [] := rfl
  rw [hp, delivered]
  cases hq : waiting c s i with
  | nil => simp [valid, hq]
  | cons x xs => cases hv : valid c s i <;> simp [dout, hq]

theorem stored_words (c : Channel) (s : State) (i : Input) :
    (stored c s i).map Sample.word = AdcBuffer.stored c s.buffer (bufferInput s i) := by
  have h := delivered_words c s i
  unfold AdcBuffer.presented at h
  unfold stored AdcBuffer.stored
  cases AdcBuffer.enWr s.buffer <;> cases WidthConverter.full (s.buffer.buffer c) <;> simp [h]

theorem edgesTaken_sublist (s : State) (i : Input) :
    (edgesTaken s i).Sublist (List.range' s.edge i.edges.length) := by
  have h : ((taken s i).map Prod.snd).Sublist ((i.edges.zipIdx s.edge).map Prod.snd) :=
    List.Sublist.map Prod.snd List.filter_sublist
  rwa [List.zipIdx_map_snd] at h

end Step

/-! ## Runs -/

/-- The edges are numbered in the order of the run. -/
theorem emits_edgesTaken_sublist (s : State) (is : List Input) :
    ∃ n, (emits step edgesTaken s is).Sublist (List.range' s.edge n) := by
  induction is generalizing s with
  | nil => exact ⟨0, List.Sublist.refl _⟩
  | cons i is ih =>
    obtain ⟨n, hn⟩ := ih (step s i)
    refine ⟨i.edges.length + n, ?_⟩
    rw [emits_cons, ← List.range'_append_1]
    exact (edgesTaken_sublist s i).append hn

theorem emits_edgesTaken_nodup (s : State) (is : List Input) :
    (emits step edgesTaken s is).Nodup := by
  obtain ⟨n, hn⟩ := emits_edgesTaken_sublist s is
  exact hn.nodup List.nodup_range'

theorem emits_map_edge_pushed (c : Channel) (s : State) (is : List Input) :
    (emits step (pushed c) s is).map Sample.edge = emits step edgesTaken s is := by
  induction is generalizing s with
  | nil => rfl
  | cons i is ih => rw [emits_cons, emits_cons, List.map_append, map_edge_pushed, ih]

/-- In order and without loss. -/
theorem delivered_isPrefix (c : Channel) (is : List Input) :
    emits step (delivered c) reset is <+: emits step (pushed c) reset is := by
  have h := conservation (fun s => s.fifo c) (pushed c) (delivered c)
    (delivered_append_step c) reset is
  exact ⟨_, h⟩

end AdcCapture.AdcCdc
