import AdcCapture.AdcBuffer
import AdcCapture.BurstCounter

/-!
# Captures reach the payload stream unchanged

The invariant of all runs from reset, and what it says about one visit of
`writeController` to `buffer`: the FIFOs are empty when the visit starts, every
sample presented before the last clock of the visit is stored, and each stored
sample leaves as its two bytes, in order, under its own channel's address.
-/

namespace AdcCapture.AdcBuffer

open Clocked WidthConverter
set_option autoImplicit false

variable {s : Reg} {i : Input}

theorem transferred_of_not_reads {c : Channel} (h : ¬ reads c s i) : transferred c s i = [] := by
  have hrd := mt (rdEn_iff c).mp h
  rw [Bool.not_eq_true] at hrd
  rw [transferred_eq_taken, hrd, Fifo.taken_false]

theorem stored_of_enWr_false (c : Channel) (h : enWr s = false) : stored c s i = [] := by
  simp [stored, h]

theorem units_step_of_not_reads {c : Channel} (h : ¬ reads c s i) :
    ((step s i).buffer c).units = (s.buffer c).units ++ (stored c s i).flatMap bigEndian := by
  simpa [transferred_of_not_reads h] using transferred_append_step (s := s) (i := i) c

theorem units_step_of_idle {c : Channel} (hr : ¬ reads c s i) (hw : enWr s = false) :
    ((step s i).buffer c).units = (s.buffer c).units := by
  simp [units_step_of_not_reads hr, stored_of_enWr_false c hw]

theorem not_reads_of_nil {c : Channel} (h : (s.buffer c).units = []) : ¬ reads c s i :=
  fun hr => hr.2.2 h

/-! ## The invariant -/

/-- While `writeController` waits in `init` every FIFO is empty and no read state is active.
While `readController2` waits in `init` its counter is cleared. -/
structure Inv (s : Reg) : Prop where
  drained : s.writeController = .init → ∀ c, (s.buffer c).units = []
  resting : s.writeController = .init →
    s.readController.currState = .init ∨ s.readController.currState = .pause
  cleared : s.readController.currState = .init → s.readController.currCount = 0#16

theorem inv_reset : Inv reset := ⟨fun _ _ => rfl, fun _ => Or.inl rfl, fun _ => rfl⟩

theorem drained_of_next_init (hs : Inv s) (h : (step s i).writeController = .init) :
    enWr s = false ∧ ∀ c, (s.buffer c).units = [] := by
  rw [step_writeController] at h
  cases hw : s.writeController with
  | init => exact ⟨by simp [enWr, hw, WriteController.wrEn], hs.drained hw⟩
  | buffer =>
    rw [hw] at h
    simp only [WriteController.nextState] at h
    split at h <;> simp at h
  | pause =>
    rw [hw] at h
    simp only [WriteController.nextState] at h
    split at h
    · rename_i he
      exact ⟨by simp [enWr, hw, WriteController.wrEn], (andEmpty_iff s).mp he⟩
    · simp at h

theorem resting_of_drained (he : ∀ c, (s.buffer c).units = []) :
    (step s i).readController.currState = .init ∨
      (step s i).readController.currState = .pause := by
  have hz : (empty s == 0#6) = false := by
    rw [beq_eq_false_iff_ne]
    exact fun h => (empty_eq_zero_iff s).mp h .adc1 (he .adc1)
  rcases ReadController2.state_cases s.readController.currState with h | h | ⟨c, h⟩
  · left
    simp [readController_init h, hz]
  · have hr : ReadController2.resume (empty s) = some .init :=
      (ReadController2.resume_eq_init_iff _).mpr fun c => (WidthConverter.empty_iff _).mpr (he c)
    rw [readController_pause h, hr]
    cases i.axisTready <;> simp
  · right
    rw [readController_read h, (WidthConverter.empty_iff _).mpr (he c)]
    simp

theorem inv_step (hs : Inv s) (i : Input) : Inv (step s i) := by
  constructor
  · intro h c
    obtain ⟨hw, he⟩ := drained_of_next_init hs h
    rw [units_step_of_idle (not_reads_of_nil (he c)) hw, he c]
  · intro h
    exact resting_of_drained (drained_of_next_init hs h).2
  · exact ReadController2.cleared_step hs.cleared (readInput s i)

theorem inv_run (is : List Input) : Inv (run step reset is) :=
  invariant_run (I := Inv) (fun _ i hs => inv_step hs i) inv_reset is

/-! ## One visit to `buffer` -/

/-- `writeController` accepts a start pulse in this clock. -/
def accepts (s : Reg) (i : Input) : Prop :=
  s.writeController = .init ∧ (step s i).writeController = .buffer

theorem next_ne_buffer (hs : s.writeController ≠ .buffer) (h : ¬ accepts s i) :
    (step s i).writeController ≠ .buffer := by
  intro hn
  cases hw : s.writeController with
  | init => exact h ⟨hw, hn⟩
  | buffer => exact hs hw
  | pause =>
    rw [step_writeController, hw] at hn
    simp only [WriteController.nextState] at hn
    split at hn <;> cases hn

def inBuffer (s : Reg) (_ : Input) : Prop := s.writeController = .buffer

theorem enWr_of_inBuffer (h : inBuffer s i) : enWr s = true := (WriteController.wrEn_iff _).mpr h

theorem inBuffer_step_iff (h : inBuffer s i) : (step s i).writeController = .buffer ↔
    ∀ c, WidthConverter.full (s.buffer c) = false := by
  have h' : s.writeController = .buffer := h
  rw [step_writeController, h', ← orFull_eq_false_iff]
  cases hf : Channel.reduceOr (full s) <;> simp [WriteController.nextState, writeInput, hf]

theorem stored_eq_presented (h : inBuffer s i) (hn : (step s i).writeController = .buffer)
    (c : Channel) : stored c s i = presented c s i := by
  simp [stored, presented, enWr_of_inBuffer h, (inBuffer_step_iff h).mp hn c]

theorem visit_stored {s : Reg} {vs : List Input} {last : Input}
    (h : Always step inBuffer s (vs ++ [last])) (c : Channel) :
    emits step (stored c) s vs = emits step (presented c) s vs := by
  apply emits_eq_of_stays _ h
  intro s i j hi hn
  exact stored_eq_presented hi hn c

/-- Only the sample of the clock that leaves `buffer` can be missing. -/
theorem visit_stored_snoc {s : Reg} {vs : List Input} {last : Input}
    (h : Always step inBuffer s (vs ++ [last])) (c : Channel) :
    emits step (stored c) s (vs ++ [last]) = emits step (presented c) s (vs ++ [last]) ∨
      ((run step s (vs ++ [last])).writeController ≠ .buffer ∧
        emits step (stored c) s (vs ++ [last]) = emits step (presented c) s vs) := by
  have hl : inBuffer (run step s vs) last := ((always_snoc _ _ _).mp h).2
  rw [emits_snoc, emits_snoc, visit_stored h]
  by_cases hn : (step (run step s vs) last).writeController = .buffer
  · exact Or.inl (by rw [stored_eq_presented hl hn])
  · rcases hp : stored c (run step s vs) last with _ | ⟨x, xs⟩
    · exact Or.inr ⟨by simpa using hn, by simp⟩
    · left
      have hv : (enWr (run step s vs) && last.adcValid c &&
          !WidthConverter.full ((run step s vs).buffer c)) = true := by
        by_contra hc
        simp [stored, hc] at hp
      rw [← hp]
      simp only [stored, hv, if_true, presented]
      simp only [Bool.and_eq_true] at hv
      simp [hv.1.2]

/-! ## Filling -/

structure Filling (n : Nat) (s : Reg) : Prop where
  capturing : s.writeController = .buffer
  waiting : s.readController.currState = .init
  level : ∀ c, (s.buffer c).units.length = 2 * n

theorem not_full_of_filling {n : Nat} (h : Filling n s) (hn : n < wrDepth) (c : Channel) :
    WidthConverter.full (s.buffer c) = false := by
  rw [← Bool.not_eq_true, full_iff, h.level c]
  omega

theorem filling_step {n : Nat} (h : Filling n s) (hn : n < wrDepth)
    (hv : ∀ c, i.adcValid c = true) : Filling (n + 1) (step s i) := by
  have hf := not_full_of_filling h hn
  have hor : Channel.reduceOr (full s) = false := (orFull_eq_false_iff s).mpr hf
  refine ⟨(inBuffer_step_iff h.capturing).mpr hf, ?_, ?_⟩
  · simp [readController_init h.waiting, hor]
  · intro c
    have hr : ¬ reads c s i := fun hr => absurd (h.waiting.symm.trans hr.1) (by simp)
    have hw : enWr s = true := (WriteController.wrEn_iff _).mpr h.capturing
    have hst : stored c s i = [i.adc125m c] := by simp [stored, hw, hv c, hf c]
    simp only [units_step_of_not_reads hr, hst, List.length_append, h.level c,
      List.flatMap_cons, List.flatMap_nil, bigEndian_length, List.length_nil]
    omega

theorem filling_run {n : Nat} (h : Filling n s) (is : List Input)
    (hv : ∀ i ∈ is, ∀ c, i.adcValid c = true) (hn : n + is.length ≤ wrDepth) :
    Filling (n + is.length) (run step s is) := by
  induction is generalizing s n with
  | nil => exact h
  | cons i is ih =>
    simp only [List.length_cons] at hn ⊢
    have hnext := filling_step h (by omega) (hv i List.mem_cons_self)
    have := ih hnext (fun j hj => hv j (List.mem_cons_of_mem i hj)) (by omega)
    rw [run_cons, show n + (is.length + 1) = n + 1 + is.length by omega]
    exact this

/-! ## Conservation -/

/-- The bytes sent for a channel, followed by those still buffered, are the bytes stored. -/
theorem channel_conservation (is : List Input) (c : Channel) :
    emits step (transferred c) reset is ++ ((run step reset is).buffer c).units =
      (emits step (stored c) reset is).flatMap bigEndian := by
  rw [← emits_flatMap]
  have h := conservation (fun s => (s.buffer c).units)
    (fun s i => (stored c s i).flatMap bigEndian) (transferred c)
    (fun _ _ => transferred_append_step c) reset is
  simpa [reset] using h

theorem capture_integrity :
    (∀ is i, accepts (run step reset is) i → ∀ c, ((run step reset is).buffer c).units = [] ∧
      ((step (run step reset is) i).buffer c).units = []) ∧
    (∀ is i vs last, accepts (run step reset is) i →
      Always step inBuffer (step (run step reset is) i) (vs ++ [last]) → ∀ c,
      emits step (stored c) (step (run step reset is) i) (vs ++ [last]) =
          emits step (presented c) (step (run step reset is) i) (vs ++ [last]) ∨
        ((run step (step (run step reset is) i) (vs ++ [last])).writeController ≠ .buffer ∧
          emits step (stored c) (step (run step reset is) i) (vs ++ [last]) =
            emits step (presented c) (step (run step reset is) i) vs)) ∧
    (∀ is c, emits step (transferred c) reset is ++ ((run step reset is).buffer c).units =
      (emits step (stored c) reset is).flatMap bigEndian) := by
  refine ⟨?_, ?_, channel_conservation⟩
  · intro is i h c
    have he := (inv_run is).drained h.1 c
    have hw : enWr (run step reset is) = false := by simp [enWr, h.1, WriteController.wrEn]
    exact ⟨he, by rw [units_step_of_idle (not_reads_of_nil he) hw, he]⟩
  · intro is i vs last _ h c
    exact visit_stored_snoc h c

end AdcCapture.AdcBuffer
