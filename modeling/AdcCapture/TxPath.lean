import AdcCapture.CaptureIntegrity
import AdcCapture.UdpChecksumGen

/-!
# From the capture buffers to the UDP transmit input

`adc_buffer` wired to `udp_checksum_gen` as in `top`: `tx_udp_hdr_ready` is left
open, so `readController2` never learns whether its header pulse was taken. The
two machines stay in step because a read state is entered from `pause` only
under `axis_tready`, which `udp_checksum_gen` gives in `STATE_SUM_PAYLOAD` alone.
-/

namespace AdcCapture.TxPath

open Clocked
set_option autoImplicit false

structure Reg where
  buffer : AdcBuffer.Reg
  gen : UdpChecksumGen.Reg

structure Input where
  startBuff : Bool
  adcValid : Channel → Bool
  adc125m : Channel → BitVec 16
  txDone : Bool
  hdr : UdpChecksumGen.Header
  payloadFifoTready : Bool
  mUdpHdrReady : Bool

def bufferInput (s : Reg) (i : Input) : AdcBuffer.Input where
  startBuff := i.startBuff
  adcValid := i.adcValid
  adc125m := i.adc125m
  axisTready := UdpChecksumGen.sUdpPayloadAxisTready s.gen i.payloadFifoTready
  txDone := i.txDone

def genInput (s : Reg) (i : Input) : UdpChecksumGen.Input :=
  let o := AdcBuffer.out s.buffer (bufferInput s i)
  { sUdpHdrValid := o.axisTvalidHdr
    sHdr := i.hdr
    sUdpPayloadAxisTdata := AdcBuffer.dout s.buffer (bufferInput s i)
    sUdpPayloadAxisTvalid := o.axisTvalid
    sUdpPayloadAxisTlast := o.axisTlast
    payloadFifoTready := i.payloadFifoTready
    mUdpHdrReady := i.mUdpHdrReady }

def reset : Reg := ⟨AdcBuffer.reset, UdpChecksumGen.reset⟩

def step (s : Reg) (i : Input) : Reg where
  buffer := AdcBuffer.step s.buffer (bufferInput s i)
  gen := UdpChecksumGen.posedge false s.gen (genInput s i)

def hdrAccepted (s : Reg) (i : Input) : Bool := UdpChecksumGen.hdrAccepted s.gen (genInput s i)

def lastAccepted (s : Reg) (i : Input) : Bool := UdpChecksumGen.lastAccepted s.gen (genInput s i)

section Wires
variable {s : Reg} {i : Input}

theorem step_buffer : (step s i).buffer = AdcBuffer.step s.buffer (bufferInput s i) := rfl

theorem step_gen : (step s i).gen = UdpChecksumGen.posedge false s.gen (genInput s i) := rfl

theorem axisTready_iff : (bufferInput s i).axisTready = true ↔
    i.payloadFifoTready = true ∧ s.gen.state = .sumPayload :=
  UdpChecksumGen.sUdpPayloadAxisTready_iff

/-- `udp_checksum_gen` takes over exactly the bytes that `readController2` transfers. -/
theorem byteAccepted_eq : UdpChecksumGen.byteAccepted s.gen (genInput s i) =
    AdcBuffer.transfers s.buffer (bufferInput s i) := Bool.and_comm _ _

theorem lastAccepted_iff : lastAccepted s i = true ↔
    AdcBuffer.transfers s.buffer (bufferInput s i) = true ∧
      (AdcBuffer.out s.buffer (bufferInput s i)).axisTlast = true := by
  rw [lastAccepted, UdpChecksumGen.lastAccepted, byteAccepted_eq, Bool.and_eq_true_iff]
  rfl

end Wires

/-! ## Lock-step -/

/-- No header has been accepted yet. -/
structure Fresh (s : Reg) : Prop where
  idle : s.gen.state = .idle
  unfinished : s.gen.hdrValid = false
  wrPtr : s.gen.headerFifoWrPtr = 0#4
  rdPtr : s.gen.headerFifoRdPtr = 0#4
  ready : s.gen.sUdpHdrReady = true ∨ ∀ c, (s.buffer.buffer c).units = []

structure Inv (s : Reg) : Prop where
  buffer : AdcBuffer.Inv s.buffer
  gen : UdpChecksumGen.Inv s.gen
  reading : ∀ c, s.buffer.readController.currState = ReadController2.readState c →
    UdpChecksumGen.holdsHeader s.gen = true
  waiting : s.buffer.readController.currState = .init → s.gen.state = .sumPayload ∨ Fresh s

theorem inv_reset : Inv reset where
  buffer := AdcBuffer.inv_reset
  gen := UdpChecksumGen.inv_reset
  reading c h := absurd h (by simp [reset, AdcBuffer.reset, ReadController2.reset])
  waiting _ := Or.inr ⟨rfl, rfl, rfl, rfl, Or.inr fun _ => rfl⟩

section Step
variable {s : Reg} {i : Input}

theorem holdsHeader_step (hs : Inv s) (h : UdpChecksumGen.holdsHeader s.gen = true)
    (hl : lastAccepted s i = false) : UdpChecksumGen.holdsHeader (step s i).gen = true := by
  have hb := UdpChecksumGen.holdsHeader_posedge (i := genInput s i) hs.gen
  rw [lastAccepted] at hl
  rw [← step_gen, hl, h] at hb
  cases hn : UdpChecksumGen.holdsHeader (step s i).gen with
  | true => rfl
  | false =>
    rw [hn] at hb
    simp at hb
    omega

theorem lastAccepted_eq_false_of_idle (h : s.buffer.readController.currState = .init ∨
    s.buffer.readController.currState = .pause) : lastAccepted s i = false := by
  rw [← Bool.not_eq_true, lastAccepted_iff]
  intro hl
  have ho := (ReadController2.idle_of_not_read (i := AdcBuffer.readInput s.buffer (bufferInput s i))
    h).2.2
  exact absurd (hl.2.symm.trans ho) (by simp)

theorem sumPayload_step (hs : s.gen.state = .sumPayload) (hl : lastAccepted s i = false) :
    (step s i).gen.state = .sumPayload := by
  rw [lastAccepted] at hl
  simp [step_gen, UdpChecksumGen.state_posedge, hs, hl]

theorem next_of_read (hs : Inv s) {c : Channel}
    (h : s.buffer.readController.currState = ReadController2.readState c) :
    (step s i).buffer.readController.currState = .pause ∨
      (step s i).buffer.readController.currState = ReadController2.readState c ∧
        UdpChecksumGen.holdsHeader (step s i).gen = true := by
  have hq := AdcBuffer.readController_read (i := bufferInput s i) h
  have htl := ReadController2.axisTlast_read
    (i := AdcBuffer.readInput s.buffer (bufferInput s i)) h
  have he : (AdcBuffer.readInput s.buffer (bufferInput s i)).empty.getLsbD c.index =
      WidthConverter.empty (s.buffer.buffer c) := AdcBuffer.empty_getLsbD s.buffer c
  rw [he] at htl
  cases hlv : s.buffer.readController.currCount == 1023#16 ||
      WidthConverter.empty (s.buffer.buffer c) with
  | true =>
    rw [hlv, if_pos rfl] at hq
    exact Or.inl (by rw [step_buffer, hq])
  | false =>
    rw [hlv, if_neg (by simp)] at hq
    refine Or.inr ⟨by rw [step_buffer, hq], holdsHeader_step hs (hs.reading c h) ?_⟩
    rw [← Bool.not_eq_true, lastAccepted_iff]
    rintro ⟨_, hl⟩
    rw [AdcBuffer.out, htl, hlv] at hl
    cases hl

/-- `pause` is left only while a header is held, for its payload. -/
theorem pause_leaves (h : s.buffer.readController.currState = .pause)
    (hn : (step s i).buffer.readController.currState ≠ .pause) : s.gen.state = .sumPayload := by
  rw [step_buffer, AdcBuffer.readController_pause h] at hn
  cases ht : (bufferInput s i).axisTready with
  | true => exact (axisTready_iff.mp ht).2
  | false =>
    rw [ht] at hn
    exact absurd rfl hn

theorem inv_step_init (hs : Inv s) (h : s.buffer.readController.currState = .init) :
    Inv (step s i) := by
  have hq := AdcBuffer.readController_init (i := bufferInput s i) h
  have hnl : lastAccepted s i = false := lastAccepted_eq_false_of_idle (Or.inl h)
  have hb := AdcBuffer.inv_step hs.buffer (bufferInput s i)
  have hg := UdpChecksumGen.inv_posedge (i := genInput s i) hs.gen
  rcases hs.waiting h with hp | hf
  · have hp' := sumPayload_step (i := i) hp hnl
    exact ⟨hb, hg, fun _ _ => by simp [UdpChecksumGen.holdsHeader, hp'], fun _ => Or.inl hp'⟩
  · have hv : (step s i).gen.hdrValid = false := by
      simp [step_gen, UdpChecksumGen.hdrValid_posedge, hf.idle]
    obtain ⟨hwr, hrd⟩ := UdpChecksumGen.pointers_posedge (i := genInput s i) hf.unfinished hf.wrPtr
      hf.rdPtr
    have hnf : UdpChecksumGen.headerFifoFull s.gen = false := by
      simp [UdpChecksumGen.headerFifoFull, hf.wrPtr, hf.rdPtr]
    have hnext := UdpChecksumGen.state_posedge (r := s.gen) (i := genInput s i)
    have hready := UdpChecksumGen.sUdpHdrReady_posedge (r := s.gen) (i := genInput s i)
    have hvh : (genInput s i).sUdpHdrValid =
        (Channel.reduceOr (AdcBuffer.full s.buffer) && AdcBuffer.empty s.buffer == 0#6) :=
      ReadController2.axisTvalidHdr_init h
    cases hd : Channel.reduceOr (AdcBuffer.full s.buffer) && AdcBuffer.empty s.buffer == 0#6 with
    | false =>
      rw [hd] at hq hvh
      have hna : UdpChecksumGen.hdrAccepted s.gen (genInput s i) = false := by
        simp [UdpChecksumGen.hdrAccepted, hvh]
      simp only [hf.idle, hna, hnf] at hnext hready
      refine ⟨hb, hg, ?_, fun _ => Or.inr ⟨hnext, hv, hwr, hrd, Or.inl hready⟩⟩
      intro c hc
      rw [step_buffer, hq] at hc
      exact absurd hc (by simp)
    | true =>
      rw [hd] at hq hvh
      have hne := (AdcBuffer.empty_eq_zero_iff s.buffer).mp
        (by simpa using (Bool.and_eq_true_iff.mp hd).2)
      -- the FIFOs hold samples, so `ready` is up and the pulse is taken
      have hr := hf.ready.resolve_right fun hall => hne .adc1 (hall .adc1)
      have ha : UdpChecksumGen.hdrAccepted s.gen (genInput s i) = true := by
        simp [UdpChecksumGen.hdrAccepted, hvh, hr]
      simp only [hf.idle, ha, if_true] at hnext
      refine ⟨hb, hg, fun _ _ => by simp [UdpChecksumGen.holdsHeader, step_gen, hnext], ?_⟩
      intro hc
      rw [step_buffer, hq] at hc
      exact absurd hc (by simp)

theorem inv_step (hs : Inv s) (i : Input) : Inv (step s i) := by
  have hb := AdcBuffer.inv_step hs.buffer (bufferInput s i)
  have hg := UdpChecksumGen.inv_posedge (i := genInput s i) hs.gen
  rcases ReadController2.state_cases s.buffer.readController.currState with h | h | ⟨c, h⟩
  · exact inv_step_init hs h
  · have hnl : lastAccepted s i = false := lastAccepted_eq_false_of_idle (Or.inr h)
    refine ⟨hb, hg, ?_, ?_⟩
    · intro c hc
      have hp := sumPayload_step (pause_leaves (i := i) h (by simp [hc])) hnl
      simp [UdpChecksumGen.holdsHeader, hp]
    · intro hc
      left
      exact sumPayload_step (pause_leaves (i := i) h (by simp [hc])) hnl
  · rcases next_of_read (i := i) hs h with hp | ⟨hr, hh⟩
    · exact ⟨hb, hg, fun d hd => absurd (hp.symm.trans hd) (by simp),
        fun hi => absurd (hp.symm.trans hi) (by simp)⟩
    · exact ⟨hb, hg, fun _ _ => hh, fun hi => absurd (hr.symm.trans hi) (by simp)⟩

end Step

theorem inv_run (is : List Input) : Inv (run step reset is) :=
  invariant_run (I := Inv) (fun _ i hs => inv_step hs i) inv_reset is

theorem headers_balance (is : List Input) :
    (UdpChecksumGen.holdsHeader (run step reset is).gen).toNat + count step lastAccepted reset is =
      count step hdrAccepted reset is := by
  have h := count_balance (I := Inv) (fun s => (UdpChecksumGen.holdsHeader s.gen).toNat)
    hdrAccepted lastAccepted (fun _ i hs => inv_step hs i)
    (fun _ _ hs => UdpChecksumGen.holdsHeader_posedge hs.gen) inv_reset is
  simpa [reset, UdpChecksumGen.reset, UdpChecksumGen.holdsHeader] using h

theorem header_lockstep (is : List Input) :
    (∀ c, (run step reset is).buffer.readController.currState = ReadController2.readState c →
      (run step reset is).gen.state = .sumHeader1 ∨ (run step reset is).gen.state = .sumHeader2 ∨
        (run step reset is).gen.state = .sumHeader3 ∨
        (run step reset is).gen.state = .sumPayload) ∧
    (count step hdrAccepted reset is = count step lastAccepted reset is ∨
      count step hdrAccepted reset is = count step lastAccepted reset is + 1) := by
  constructor
  · intro c hc
    have h := (inv_run is).reading c hc
    cases hs : (run step reset is).gen.state <;> simp [UdpChecksumGen.holdsHeader, hs] at h ⊢
  · have h := headers_balance is
    cases hh : UdpChecksumGen.holdsHeader (run step reset is).gen <;> simp [hh] at h <;> omega

end AdcCapture.TxPath
