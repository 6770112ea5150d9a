import AdcCapture.Drain

/-!
# When a capture may start

`writeController` is back in `init` as soon as every FIFO is empty, while
`readController2` may still wait in `pause` for `axis_tready`. A start accepted
in that window opens a capture that begins under `pause`; any other start opens
one during which the read side stays in `init`.
-/

namespace AdcCapture.AdcBuffer

open Clocked WidthConverter
set_option autoImplicit false

variable {s : Reg} {i : Input}

theorem accepts_iff : accepts s i ↔ s.writeController = .init ∧ i.startBuff = true ∧
    ∀ c, WidthConverter.full (s.buffer c) = false := by
  unfold accepts
  rw [step_writeController, ← orFull_eq_false_iff]
  cases hw : s.writeController <;> simp [WriteController.nextState, writeInput]

/-- A capture that finds the read side at rest. -/
structure Clean (s : Reg) : Prop where
  capturing : s.writeController = .buffer
  waiting : s.readController.currState = .init

theorem clean_step (h : Clean s) (hn : (step s i).writeController = .buffer) :
    Clean (step s i) := by
  refine ⟨hn, ?_⟩
  have hf := (inBuffer_step_iff (i := i) h.capturing).mp hn
  simp [readController_init h.waiting, (orFull_eq_false_iff s).mpr hf]

theorem clean_run (h : Clean s) {is : List Input} (hb : Always step inBuffer s is)
    (hl : (run step s is).writeController = .buffer) : Clean (run step s is) := by
  induction is generalizing s with
  | nil => exact h
  | cons i is ih =>
    have hn : (step s i).writeController = .buffer := by
      cases is with
      | nil => exact hl
      | cons j js => exact hb.2.1
    exact ih (clean_step h hn) hb.2 hl

theorem resume_of_drained (he : ∀ c, (s.buffer c).units = []) :
    ReadController2.resume (empty s) = some .init :=
  (ReadController2.resume_eq_init_iff _).mpr fun c => (WidthConverter.empty_iff _).mpr (he c)

theorem waiting_of_accepts (hs : Inv s) (ha : accepts s i)
    (hr : s.readController.currState = .init ∨ i.axisTready = true) :
    (step s i).readController.currState = .init := by
  rcases hs.resting ha.1 with hi | hp
  · have hf := (orFull_eq_false_iff s).mpr (accepts_iff.mp ha).2.2
    simp [readController_init hi, hf]
  · have ht : i.axisTready = true := hr.resolve_left (by simp [hp])
    simp [readController_pause hp, ht, resume_of_drained (hs.drained ha.1)]

/-! ## Captures with every channel valid -/

/-- A clock with every channel valid. -/
def captureInput (startBuff axisTready : Bool) : Input where
  startBuff := startBuff
  adcValid := fun _ => true
  adc125m := fun _ => 0#16
  axisTready := axisTready
  txDone := false

def captureRun (n : Nat) (axisTready : Bool) : List Input :=
  captureInput true axisTready :: List.replicate n (captureInput false axisTready)

theorem not_accepts_of_idle (h : i.startBuff = false) : ¬ accepts s i := by
  rw [accepts_iff, h]
  simp

theorem filling_of_accepts (hs : Inv s) (ha : accepts s i)
    (hr : s.readController.currState = .init ∨ i.axisTready = true) : Filling 0 (step s i) := by
  have hw : enWr s = false := enWr_eq_false_iff.mpr (by simp [ha.1])
  refine ⟨ha.2, waiting_of_accepts hs ha hr, ?_⟩
  intro c
  have hc := hs.drained ha.1 c
  rw [units_step_of_idle (not_reads_of_nil hc) hw, hc]
  rfl

theorem filling_replicate (h : Filling 0 s) {n : Nat} (hn : n ≤ wrDepth) (t : Bool) :
    Filling n (run step s (List.replicate n (captureInput false t))) := by
  have h := filling_run h (List.replicate n (captureInput false t))
    (fun i hi c => by rw [List.eq_of_mem_replicate hi]; rfl) (by simpa using hn)
  rwa [List.length_replicate, Nat.zero_add] at h

theorem inBuffer_replicate (h : Filling 0 s) {n : Nat} (hn : n ≤ wrDepth) (t : Bool) :
    Always step inBuffer s (List.replicate n (captureInput false t)) := by
  induction n with
  | zero => trivial
  | succ n ih =>
    rw [List.replicate_succ', always_snoc]
    exact ⟨ih (Nat.le_of_succ_le hn), (filling_replicate h (Nat.le_of_succ_le hn) t).capturing⟩

theorem filling_start (t : Bool) : Filling 0 (step reset (captureInput true t)) :=
  filling_of_accepts inv_reset
    (accepts_iff.mpr ⟨rfl, rfl, fun _ => WidthConverter.full_eq_false_of_units_nil rfl⟩)
    (Or.inl rfl)

theorem filling_captureRun {n : Nat} (hn : n ≤ wrDepth) (t : Bool) :
    Filling n (run step reset (captureRun n t)) :=
  filling_replicate (filling_start t) hn t

theorem departs_of_filling (h : Filling wrDepth s) : Departs s i := by
  refine (departs_iff h.waiting).mpr ⟨⟨.adc1, (full_iff _).mpr ?_⟩, ?_⟩
  · rw [h.level]
    omega
  · intro c hc
    have := h.level c
    have := wrDepth_pos
    rw [hc] at *
    simp at *
    omega

theorem stored_captureRun (c : Channel) :
    emits step (stored c) reset (captureRun wrDepth true) ≠ [] := by
  intro hn
  have h := channel_conservation (captureRun wrDepth true) c
  rw [hn, List.flatMap_nil, List.append_eq_nil_iff] at h
  have hl := (filling_captureRun le_rfl true).level c
  have := wrDepth_pos
  rw [h.2, List.length_nil] at hl
  omega

/-- A drain can come to its end with `readController2` still in `pause`. -/
theorem exists_finished : ∃ is, enWr (run step reset (captureRun wrDepth true ++ is)) = false ∧
    finished (run step reset (captureRun wrDepth true ++ is)) := by
  have hd : Departs (run step reset (captureRun wrDepth true)) (captureInput false true) :=
    departs_of_filling (filling_captureRun le_rfl true)
  have hdr := draining_of_departs hd
  generalize hs : step (run step reset (captureRun wrDepth true)) (captureInput false true) = s
    at hdr
  have hjs : Always step (fun s i => i.axisTready = true ∧ ¬ accepts s i) s
      (List.replicate (rank s + 1) (captureInput false true)) := by
    apply always_of_forall_mem
    intro i hi s
    rw [List.eq_of_mem_replicate hi]
    exact ⟨rfl, not_accepts_of_idle rfl⟩
  obtain ⟨pre, post, _, ⟨c, hc⟩, hf⟩ := drain_finishes ⟨_, hdr⟩ hjs (by simp)
  refine ⟨captureInput false true :: pre, ?_⟩
  rw [run_append, run_cons, hs]
  exact ⟨hc.closed, hf⟩

/-- `writeController` can be back in `init` after a whole capture, with `readController2`
still in `pause`: a start is then accepted under either value of `axis_tready`. -/
theorem exists_drained : ∃ is, (∀ c, emits step (stored c) reset is ≠ []) ∧
    (run step reset is).readController.currState = .pause ∧
    ∀ t, accepts (run step reset is) (captureInput true t) := by
  obtain ⟨is, hw, hp, hr⟩ := exists_finished
  have hnil := remaining_eq_nil_iff.mp hr
  -- one clock with `axis_tready` low takes `writeController` back to `init`
  let hold : Input := { captureInput false false with adcValid := fun _ => false }
  refine ⟨captureRun wrDepth true ++ is ++ [hold], ?_, ?_, ?_⟩
  · intro c
    rw [List.append_assoc, emits_append]
    exact List.append_ne_nil_of_left_ne_nil (stored_captureRun c) _
  · rw [run_snoc, readController_pause hp]
    rfl
  · intro t
    rw [run_snoc]
    generalize run step reset (captureRun wrDepth true ++ is) = s at *
    have hwc : (step s hold).writeController = .init := by
      rw [step_writeController]
      cases hc : s.writeController with
      | init => rfl
      | buffer => exact absurd hc (enWr_eq_false_iff.mp hw)
      | pause => simp [WriteController.nextState, writeInput, (andEmpty_iff s).mpr hnil]
    refine accepts_iff.mpr ⟨hwc, rfl, fun c => WidthConverter.full_eq_false_of_units_nil ?_⟩
    rw [units_step_of_idle (not_reads_of_nil (hnil c)) hw, hnil c]

/-! ## Any start -/

theorem start_finds_drained (is : List Input) (i : Input) (ha : accepts (run step reset is) i) :
    let s := run step reset is
    (∀ c, (s.buffer c).units = []) ∧
    (s.readController.currState = .init ∨ s.readController.currState = .pause) ∧
    (s.readController.currState = .init ∨ i.axisTready = true →
      ∀ js, Always step inBuffer (step s i) js → enWr (run step (step s i) js) = true →
        (run step (step s i) js).readController.currState = .init) ∧
    (s.readController.currState = .pause → i.axisTready = false →
      enWr (step s i) = true ∧ (step s i).readController.currState = .pause) := by
  intro s
  have hs : Inv s := inv_run is
  refine ⟨hs.drained ha.1, hs.resting ha.1, ?_, ?_⟩
  · intro hr js hb hw
    have hc : Clean (step s i) := ⟨ha.2, waiting_of_accepts hs ha hr⟩
    exact (clean_run hc hb ((WriteController.wrEn_iff _).mp hw)).waiting
  · intro hp ht
    exact ⟨(WriteController.wrEn_iff _).mpr ha.2, by simp [readController_pause hp, ht]⟩

theorem start_finds_drained_after_capture :
    ∃ is, (∀ c, emits step (stored c) reset is ≠ []) ∧
      let s := run step reset is
      s.readController.currState = .pause ∧ (∀ t, accepts s (captureInput true t)) ∧
      (∀ n ≤ wrDepth, let now := run step s (captureRun n true)
        enWr now = true ∧ now.readController.currState = .init) ∧
      enWr (step s (captureInput true false)) = true ∧
      (step s (captureInput true false)).readController.currState = .pause := by
  obtain ⟨is, hst, hp, ha⟩ := exists_drained
  refine ⟨is, hst, hp, ha, ?_, (start_finds_drained is _ (ha false)).2.2.2 hp rfl⟩
  intro n hn
  have hfill : Filling 0 (step (run step reset is) (captureInput true true)) :=
    filling_of_accepts (inv_run is) (ha true) (Or.inr rfl)
  have hw : enWr (run step (run step reset is) (captureRun n true)) = true :=
    (WriteController.wrEn_iff _).mpr (filling_replicate hfill hn true).capturing
  exact ⟨hw, (start_finds_drained is _ (ha true)).2.2.1 (Or.inr rfl) _
    (inBuffer_replicate hfill hn true) hw⟩

theorem start_during_pause : ¬ ∀ is, enWr (run step reset is) = true →
    (run step reset is).readController.currState = .init := by
  intro h
  obtain ⟨is, _, hp, ha⟩ := exists_drained
  have hbad := h (is ++ [captureInput true false])
  rw [run_snoc, readController_pause hp] at hbad
  exact absurd (hbad ((WriteController.wrEn_iff _).mpr (ha false).2)) (by simp [captureInput])

end AdcCapture.AdcBuffer
