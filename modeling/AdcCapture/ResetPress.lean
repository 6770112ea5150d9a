import AdcCapture.RstBridge
import AdcCapture.Bitslip

/-!
# A press of cpu_resetn

`cpu_resetn` is the CLR of the BUFR that makes CLKDIV and the asynchronous input
of the two bridges clocked by CLKDIV. While it is low those bridges see no edge,
and its rise is one clock more for them: once their outputs are high no press
brings them down, while the bridge on `clk_125m` goes low at its next edge.
-/

namespace AdcCapture.ResetPress

open Clocked
set_option autoImplicit false

/-- `clkdiv` is an edge of the divider behind the BUFR, with `adc_en` and the frame word. -/
inductive Event where
  | clk125m
  | clkdiv (adcEn : Bool) (frmData : BitVec 8)
  | fall
  | rise
  deriving DecidableEq, Repr

/-- `cdcReset` and `rstCross125m` are in `top`, the others in `adc_interface`. -/
structure State where
  cpuResetn : Bool
  cdcReset : RstBridge.Reg
  rstCross125m : RstBridge.Reg
  writeReset : RstBridge.Reg
  rstDelay : BitVec 10
  fcosync : Bitslip.Reg
  deriving DecidableEq, Repr

/-- `din_rst_n` of `adc_buffer`. -/
def adcRstN (s : State) : Bool := s.cdcReset.rstN

/-- `dout_rst_n` of `adc_buffer`. -/
def rst125mN (s : State) : Bool := s.rstCross125m.rstN

def shiftReg (sr : BitVec 10) (d : Bool) : BitVec 10 := BitVec.ofBool d ++ sr.extractLsb' 1 9

/-- Reset of the `bitslip` machine: the oldest bit of the shift register, inverted. -/
def adcRst (s : State) : Bool := !s.rstDelay.getLsbD 0

def aligned (s : State) : Prop := s.fcosync.stateCurr = .stop

/-- A CLKDIV edge that the BUFR lets through. -/
def clockAdc (s : State) (adcEn : Bool) (frmData : BitVec 8) : State :=
  { s with
    cdcReset := RstBridge.body s.cpuResetn s.cdcReset
    writeReset := RstBridge.body s.cpuResetn s.writeReset
    rstDelay := shiftReg s.rstDelay s.writeReset.rstN
    fcosync := Bitslip.posedge (adcRst s) s.fcosync adcEn frmData }

def step (s : State) (e : Event) : State :=
  match e with
  | .clk125m => { s with rstCross125m := RstBridge.body s.cpuResetn s.rstCross125m }
  -- CLR is `~rst_n`: no edge of CLKDIV while the button is held
  | .clkdiv adcEn frmData => if s.cpuResetn then clockAdc s adcEn frmData else s
  | .fall => { s with cpuResetn := false }
  | .rise =>
    if s.cpuResetn then s
    else
      { s with
        cpuResetn := true
        cdcReset := RstBridge.body true s.cdcReset
        rstCross125m := RstBridge.body true s.rstCross125m
        writeReset := RstBridge.body true s.writeReset }

def powerUp (line : Bool) : State :=
  ⟨line, RstBridge.powerUpReg, RstBridge.powerUpReg, RstBridge.powerUpReg, 0#10, Bitslip.reset⟩

/-! ## What a press is for -/

/-- A press: `held` are the events between the fall and the rise. -/
structure Press (line : Bool) (es pre held post : List Event) : Prop where
  split : es = pre ++ .fall :: (held ++ .rise :: post)
  high : (run step (powerUp line) pre).cpuResetn = true
  pressed : Event.rise ∉ held
  long : 2 ≤ held.count .clk125m

/-- In `STARTUP` at some moment of the run, and sampling 0xF0 in `POLL` at another. -/
structure Realigned (s : State) (es : List Event) : Prop where
  startup : ∃ pre, pre <+: es ∧ (run step s pre).fcosync.stateCurr = .startup
  sampled : ∃ pre adcEn, pre ++ [.clkdiv adcEn 0xF0#8] <+: es ∧
    (run step s pre).cpuResetn = true ∧ (run step s pre).fcosync.stateCurr = .poll

/-- Every press reaches the ADC clock domain. -/
structure Reaches (line : Bool) (es : List Event) : Prop where
  realigns : ∀ pre held post, Press line es pre held post → ∀ later, later <+: post →
    aligned (run step (powerUp line) (pre ++ .fall :: (held ++ .rise :: later))) →
    Realigned (run step (powerUp line) (pre ++ .fall :: (held ++ [.rise]))) later
  resets : ∀ pre held post, Press line es pre held post →
    rst125mN (run step (powerUp line) (pre ++ .fall :: held)) = false ∧
    ∃ before, before <+: held ∧ adcRstN (run step (powerUp line) (pre ++ .fall :: before)) = false

/-- An event for the two bridges of the ADC clock domain. -/
def tick (s : State) (e : Event) : Bool :=
  match e with
  | .clk125m | .fall => false
  | .clkdiv _ _ => s.cpuResetn
  | .rise => !s.cpuResetn

/-! ## The bridges of the ADC clock domain -/

section Step
variable {s : State} {e : Event} {line : Bool} {es : List Event}

/-- The bridges of the ADC clock domain have seen `n` events, none of them under reset. -/
structure Seen (n : Nat) (s : State) : Prop where
  cdcReset : s.cdcReset = ⟨decide (1 ≤ n), decide (2 ≤ n)⟩
  writeReset : s.writeReset = ⟨decide (1 ≤ n), decide (2 ≤ n)⟩
  held : n < 2 → s.rstDelay = 0#10 ∧ s.fcosync = Bitslip.reset

theorem seen_powerUp (line : Bool) : Seen 0 (powerUp line) where
  cdcReset := rfl
  writeReset := rfl
  held _ := ⟨rfl, rfl⟩

theorem body_seen (n : Nat) : RstBridge.body true ⟨decide (1 ≤ n), decide (2 ≤ n)⟩ =
    ⟨decide (1 ≤ n + 1), decide (2 ≤ n + 1)⟩ := by
  simp [RstBridge.body_true]

theorem seen_step {n : Nat} (h : Seen n s) (e : Event) :
    Seen (n + (tick s e).toNat) (step s e) := by
  cases e with
  | clk125m => exact ⟨h.cdcReset, h.writeReset, h.held⟩
  | fall => exact ⟨h.cdcReset, h.writeReset, h.held⟩
  | rise =>
    cases hl : s.cpuResetn with
    | true => simpa [step, tick, hl] using h
    | false =>
      refine ⟨?_, ?_, ?_⟩
      · simpa [step, tick, hl, h.cdcReset] using body_seen n
      · simpa [step, tick, hl, h.writeReset] using body_seen n
      · intro hn
        simp only [tick, hl, Bool.not_false, Bool.toNat_true] at hn
        simpa [step, hl] using h.held (by omega)
  | clkdiv adcEn frmData =>
    cases hl : s.cpuResetn with
    | false => simpa [step, tick, hl] using h
    | true =>
      refine ⟨?_, ?_, ?_⟩
      · simpa [step, tick, hl, clockAdc, h.cdcReset] using body_seen n
      · simpa [step, tick, hl, clockAdc, h.writeReset] using body_seen n
      · intro hn
        simp only [tick, hl, Bool.toNat_true] at hn
        obtain ⟨hsr, hb⟩ := h.held (by omega)
        have hr : s.writeReset.rstN = false := by
          rw [h.writeReset]
          exact decide_eq_false (by omega)
        simp only [step, hl, if_true, clockAdc, hsr, hr]
        exact ⟨rfl, by simp [adcRst, hsr, Bitslip.posedge]⟩

theorem seen_run (line : Bool) (es : List Event) :
    Seen (count step tick (powerUp line) es) (run step (powerUp line) es) := by
  induction es using List.reverseRecOn with
  | nil => exact seen_powerUp line
  | append_singleton es e ih =>
    rw [count_snoc, run_append]
    exact seen_step ih e

theorem adcRstN_iff (line : Bool) (es : List Event) :
    adcRstN (run step (powerUp line) es) = true ↔ 2 ≤ count step tick (powerUp line) es := by
  rw [adcRstN, (seen_run line es).cdcReset, decide_eq_true_eq]

/-! ## While the button is held -/

/-- Under a held button only the bridge on `clk_125m` moves. -/
theorem run_held {s : State} (hs : s.cpuResetn = false) {held : List Event}
    (h : Event.rise ∉ held) :
    run step s held = { s with rstCross125m := (run step s held).rstCross125m } ∧
      count step tick s held = 0 := by
  induction held generalizing s with
  | nil => exact ⟨rfl, rfl⟩
  | cons e held ih =>
    rw [List.mem_cons, not_or] at h
    obtain ⟨he, hheld⟩ := h
    have hn : step s e = { s with rstCross125m := (step s e).rstCross125m } := by
      cases e with
      | clk125m => rfl
      | clkdiv adcEn frmData =>
        have hstep : step s (.clkdiv adcEn frmData) = s := by simp [step, hs]
        rw [hstep]
      | fall => simp [step, ← hs]
      | rise => exact absurd rfl he
    have ht : tick s e = false := by
      cases e with
      | clk125m | fall => rfl
      | clkdiv adcEn frmData => simp [tick, hs]
      | rise => exact absurd rfl he
    have hlow : (step s e).cpuResetn = false := by rw [hn, hs]
    obtain ⟨hr, hc⟩ := ih hlow hheld
    refine ⟨?_, ?_⟩
    · rw [run_cons, hr, hn]
    · rw [count_cons, ht, hc]
      rfl

theorem rst125mN_of_held {s : State} (hs : s.cpuResetn = false) {held : List Event}
    (h : Event.rise ∉ held) (hc : 1 ≤ held.count .clk125m) :
    rst125mN (run step s held) = false := by
  induction held using List.reverseRecOn with
  | nil => simp at hc
  | append_singleton held e ih =>
    have hheld : Event.rise ∉ held := fun hm => h (List.mem_append_left _ hm)
    have hlow : (run step s held).cpuResetn = false := by rw [(run_held hs hheld).1, hs]
    rw [run_snoc]
    cases e with
    | clk125m => simp [step, rst125mN, hlow, RstBridge.body_false]
    | clkdiv adcEn frmData =>
      rw [step, hlow]
      exact ih hheld (by simpa using hc)
    | fall => exact ih hheld (by simpa using hc)
    | rise => exact absurd (List.mem_append_right _ List.mem_cons_self) h

end Step

/-! ## Presses -/

/-- `STOP` is entered from `POLL` with the frame word 0xF0. -/
theorem sampled_of_enters {s : State} {e : Event} (h : ¬ aligned s) (hn : aligned (step s e)) :
    ∃ adcEn, e = .clkdiv adcEn 0xF0#8 ∧ s.cpuResetn = true ∧ s.fcosync.stateCurr = .poll := by
  cases e with
  | clk125m => exact absurd hn h
  | fall => exact absurd hn h
  | rise =>
    rw [step] at hn
    split at hn <;> exact absurd hn h
  | clkdiv adcEn frmData =>
    cases hl : s.cpuResetn with
    | false =>
      rw [step, hl] at hn
      exact absurd hn h
    | true =>
      rw [step, hl, if_pos rfl, aligned, clockAdc, Bitslip.posedge] at hn
      cases hr : adcRst s with
      | true => simp [hr, Bitslip.reset] at hn
      | false =>
        cases hst : s.fcosync.stateCurr with
        | stop => exact absurd hst h
        | startup | slip => simp [hr, Bitslip.comb, hst] at hn; split at hn <;> cases hn
        | poll =>
          have hf : frmData = 0xF0#8 := by
            by_contra hf
            simp [hr, Bitslip.comb, hst, hf] at hn
          exact ⟨adcEn, by rw [hf], rfl, rfl⟩

theorem realigned_of_startup {s : State} {es : List Event} (h0 : s.fcosync.stateCurr = .startup)
    (h : aligned (run step s es)) : Realigned s es := by
  have hna : ¬ aligned s := by
    intro ha
    rw [aligned, h0] at ha
    cases ha
  obtain ⟨pre, e, vs, rfl, hpre, he, _⟩ := exists_entry (P := aligned) hna h
  rw [run_append] at he
  obtain ⟨adcEn, rfl, hl, hp⟩ := sampled_of_enters hpre he
  exact ⟨⟨[], List.nil_prefix, h0⟩, pre, adcEn, ⟨vs, by simp⟩, hl, hp⟩

section Press
variable {line : Bool} {es pre held post : List Event}

theorem cpuResetn_fall (line : Bool) (pre : List Event) :
    (run step (powerUp line) (pre ++ [.fall])).cpuResetn = false := by
  rw [run_append]
  rfl

/-- Nothing reaches the bridges of the ADC clock domain while the button is held. -/
theorem count_tick_held (line : Bool) (pre : List Event) {held : List Event}
    (h : Event.rise ∉ held) : count step tick (powerUp line) (pre ++ .fall :: held) =
      count step tick (powerUp line) pre := by
  have hc := (run_held (cpuResetn_fall line pre) h).2
  have hsplit : pre ++ .fall :: held = (pre ++ [.fall]) ++ held := by simp
  rw [hsplit, count_append, hc, count_append]
  rfl

/-- A press finds `adc_rst_n` still low only before the second event of its clock domain. -/
theorem early_iff (line : Bool) (pre : List Event) {held : List Event} (h : Event.rise ∉ held) :
    adcRstN (run step (powerUp line) (pre ++ .fall :: held)) = false ↔
      count step tick (powerUp line) pre < 2 := by
  rw [← Bool.not_eq_true, adcRstN_iff, count_tick_held line pre h, Nat.not_le]

theorem resets_of_early (hp : Press line es pre held post)
    (hc : count step tick (powerUp line) pre < 2) :
    rst125mN (run step (powerUp line) (pre ++ .fall :: held)) = false ∧
      ∃ before, before <+: held ∧
        adcRstN (run step (powerUp line) (pre ++ .fall :: before)) = false := by
  have hsplit : pre ++ .fall :: held = (pre ++ [.fall]) ++ held := by simp
  refine ⟨?_, [], List.nil_prefix, (early_iff line pre (by simp)).mpr hc⟩
  have hlong := hp.long
  rw [hsplit, run_append]
  exact rst125mN_of_held (cpuResetn_fall line pre) hp.pressed (by omega)

theorem realigns_of_early (hp : Press line es pre held post)
    (hc : count step tick (powerUp line) pre < 2) {later : List Event}
    (h : aligned (run step (powerUp line) (pre ++ .fall :: (held ++ .rise :: later)))) :
    Realigned (run step (powerUp line) (pre ++ .fall :: (held ++ [.rise]))) later := by
  have hseen := seen_run line (pre ++ .fall :: held)
  rw [count_tick_held line pre hp.pressed] at hseen
  have hsplit : pre ++ .fall :: (held ++ [.rise]) = (pre ++ .fall :: held) ++ [.rise] := by simp
  have hlater : pre ++ .fall :: (held ++ .rise :: later) =
      (pre ++ .fall :: (held ++ [.rise])) ++ later := by simp
  rw [hlater, run_append] at h
  apply realigned_of_startup _ h
  rw [hsplit, run_snoc]
  have hb := (hseen.held hc).2
  rw [step]
  split
  · rw [hb]
    rfl
  · simp only [hb]
    rfl

end Press

theorem reaches_iff (line : Bool) (es : List Event) : Reaches line es ↔
    ∀ pre held post, Press line es pre held post → count step tick (powerUp line) pre < 2 := by
  constructor
  · intro h pre held post hp
    obtain ⟨_, before, hb, hlow⟩ := h.resets pre held post hp
    have hrise : Event.rise ∉ before := fun hm => hp.pressed (hb.subset hm)
    exact (early_iff line pre hrise).mp hlow
  · intro h
    constructor
    · intro pre held post hp later _ ha
      exact realigns_of_early hp (h pre held post hp) ha
    · intro pre held post hp
      exact resets_of_early hp (h pre held post hp)

/-- Thirty edges of CLKDIV with the frame word in place, then one press. -/
def pressedRun : List Event :=
  List.replicate 30 (.clkdiv true 0xF0#8) ++ [.fall, .clk125m, .clk125m, .rise]

theorem aligned_across_press : ¬ Reaches true pressedRun := by
  intro h
  have hp : Press true pressedRun (List.replicate 30 (.clkdiv true 0xF0#8))
      [.clk125m, .clk125m] [] := ⟨rfl, by decide, by decide, by decide⟩
  have ha : aligned (run step (powerUp true) pressedRun) := by
    unfold aligned
    decide
  obtain ⟨⟨pre, hpre, hst⟩, _⟩ := h.realigns _ _ _ hp [] List.nil_prefix ha
  obtain rfl := List.prefix_nil.mp hpre
  exact absurd hst (by decide)

end AdcCapture.ResetPress
