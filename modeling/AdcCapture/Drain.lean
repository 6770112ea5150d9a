import AdcCapture.CaptureIntegrity

/-!
# One drain, from `init` back to `init`

From the clock in which `readController2` leaves `init` until a further start,
some channel divides the six FIFOs: those before it are empty, those after it
have not been touched and still hold bytes. `pause` resumes at the dividing
channel or at the next one, so the six contents leave one after the other.
-/

namespace AdcCapture.AdcBuffer

open Clocked WidthConverter
set_option autoImplicit false

variable {s : Reg} {i : Input}

def sent (s : Reg) (i : Input) : List (BitVec 8) := if transfers s i then [dout s i] else []

/-- All buffered bytes in drain order. -/
def remaining (s : Reg) : List (BitVec 8) := Channel.all.flatMap fun c => (s.buffer c).units

theorem remaining_eq_nil_iff : remaining s = [] ↔ ∀ c, (s.buffer c).units = [] := by
  simp only [remaining, List.flatMap_eq_nil_iff]
  exact ⟨fun h c => h c (Channel.mem_all c), fun h c _ => h c⟩

theorem sent_eq_transferred {c : Channel} (h : ∀ d, reads d s i → d = c) :
    sent s i = transferred c s i := by
  unfold sent transferred
  cases ht : transfers s i with
  | false => simp
  | true =>
    obtain ⟨d, hd⟩ := transfers_iff.mp ht
    have hdc := h d hd
    subst d
    simp [addr_of_reads hd]

/-- `c` divides the drained channels from the untouched ones. -/
structure Draining (c : Channel) (s : Reg) : Prop where
  closed : enWr s = false
  lower : ∀ d, d.index < c.index → (s.buffer d).units = []
  upper : ∀ d, c.index < d.index → (s.buffer d).units ≠ []
  active : s.readController.currState = ReadController2.readState c ∨
    s.readController.currState = .pause

namespace Draining
variable {c : Channel}

theorem reads_eq (h : Draining c s) {d : Channel} (hr : reads d s i) : d = c := by
  rcases h.active with ha | ha
  · exact (ReadController2.readState_inj.mp (ha.symm.trans hr.1)).symm
  · exact absurd (ha.symm.trans hr.1) (by simp)

theorem other_units (h : Draining c s) {d : Channel} (hd : d ≠ c) :
    ((step s i).buffer d).units = (s.buffer d).units :=
  units_step_of_idle (fun hr => hd (h.reads_eq hr)) h.closed

theorem self_units (h : Draining c s) :
    transferred c s i ++ ((step s i).buffer c).units = (s.buffer c).units := by
  simpa [stored_of_enWr_false c h.closed] using transferred_append_step (s := s) (i := i) c

theorem sent_append_remaining (h : Draining c s) :
    sent s i ++ remaining (step s i) = remaining s := by
  rw [sent_eq_transferred (fun _ hd => h.reads_eq hd)]
  have hself := h.self_units (i := i)
  have hother := fun d hd => h.other_units (i := i) (d := d) hd
  have hlow := h.lower
  cases c <;>
    simp_all [remaining, Channel.all, Channel.index, ← List.append_assoc]

theorem empty_of_units_ne_nil (h : Draining c s) (hc : (s.buffer c).units ≠ []) (d : Channel) :
    WidthConverter.empty (s.buffer d) = decide (d.index < c.index) := by
  rcases lt_trichotomy d.index c.index with hlt | heq | hgt
  · rw [decide_eq_true hlt, WidthConverter.empty_iff]
    exact h.lower d hlt
  · have hdc := Channel.index_injective heq
    subst d
    rw [decide_eq_false (lt_irrefl _), WidthConverter.empty_eq_false_iff]
    exact hc
  · rw [decide_eq_false (not_lt.mpr hgt.le), WidthConverter.empty_eq_false_iff]
    exact h.upper d hgt

theorem empty_of_units_nil (h : Draining c s) (hc : (s.buffer c).units = []) (d : Channel) :
    WidthConverter.empty (s.buffer d) = decide (d.index < c.index + 1) := by
  rcases lt_trichotomy d.index c.index with hlt | heq | hgt
  · rw [decide_eq_true (by omega), WidthConverter.empty_iff]
    exact h.lower d hlt
  · have hdc := Channel.index_injective heq
    subst d
    rw [decide_eq_true (Nat.lt_succ_self _), WidthConverter.empty_iff]
    exact hc
  · rw [decide_eq_false (by omega), WidthConverter.empty_eq_false_iff]
    exact h.upper d hgt

/-- Where `pause` goes: the first channel that still holds bytes, or `init`. -/
theorem resume_cases (h : Draining c s) :
    (ReadController2.resume (empty s) = some .init ∧ ∀ d, (s.buffer d).units = []) ∨
      ∃ d, ReadController2.resume (empty s) = some (ReadController2.readState d) ∧
        (∀ e, e.index < d.index → (s.buffer e).units = []) ∧
        (∀ e, d.index ≤ e.index → (s.buffer e).units ≠ []) := by
  have hread (d : Channel)
      (hd : ∀ e, WidthConverter.empty (s.buffer e) = decide (e.index < d.index)) :
      ReadController2.resume (empty s) = some (ReadController2.readState d) ∧
        (∀ e, e.index < d.index → (s.buffer e).units = []) ∧
        (∀ e, d.index ≤ e.index → (s.buffer e).units ≠ []) := by
    refine ⟨(ReadController2.resume_eq_read_iff _ d).mpr hd, ?_, ?_⟩
    · intro e he
      exact (WidthConverter.empty_iff _).mp ((hd e).trans (decide_eq_true he))
    · intro e he
      exact (WidthConverter.empty_eq_false_iff _).mp
        ((hd e).trans (decide_eq_false (not_lt.mpr he)))
  by_cases hc : (s.buffer c).units = []
  · rcases Channel.eq_last_or_exists_next c with rfl | ⟨d, hd⟩
    · left
      have hall (d : Channel) : WidthConverter.empty (s.buffer d) = true :=
        (h.empty_of_units_nil hc d).trans (decide_eq_true d.index_lt)
      exact ⟨(ReadController2.resume_eq_init_iff _).mpr hall,
        fun d => (WidthConverter.empty_iff _).mp (hall d)⟩
    · exact Or.inr ⟨d, hread d (hd ▸ h.empty_of_units_nil hc)⟩
  · exact Or.inr ⟨c, hread c (h.empty_of_units_ne_nil hc)⟩

theorem not_reads_of_pause (hp : s.readController.currState = .pause) (d : Channel) :
    ¬ reads d s i := fun hr => absurd (hp.symm.trans hr.1) (by simp)

theorem keep (h : Draining c s) (hw : enWr (step s i) = false)
    (ha : (step s i).readController.currState = ReadController2.readState c ∨
      (step s i).readController.currState = .pause) : Draining c (step s i) := by
  refine ⟨hw, ?_, ?_, ha⟩
  · intro d hd
    rw [h.other_units (by rintro rfl; omega)]
    exact h.lower d hd
  · intro d hd
    rw [h.other_units (by rintro rfl; omega)]
    exact h.upper d hd

theorem step_read (h : Draining c s) (hw : enWr (step s i) = false)
    (hr : s.readController.currState = ReadController2.readState c) : Draining c (step s i) := by
  apply h.keep hw
  rw [readController_read hr]
  split
  · exact Or.inr rfl
  · exact Or.inl rfl

theorem step_pause (h : Draining c s) (hw : enWr (step s i) = false)
    (hp : s.readController.currState = .pause) :
    (∃ d, Draining d (step s i)) ∨
      ((step s i).readController.currState = .init ∧ remaining (step s i) = []) := by
  have hq := readController_pause (i := i) hp
  have hidle (d : Channel) : ((step s i).buffer d).units = (s.buffer d).units :=
    units_step_of_idle (not_reads_of_pause hp d) h.closed
  cases ht : i.axisTready with
  | false => exact Or.inl ⟨c, h.keep hw (Or.inr (by simp [hq, ht]))⟩
  | true =>
    rcases h.resume_cases with ⟨hr, hall⟩ | ⟨d, hr, hlow, hup⟩
    · exact Or.inr ⟨by simp [hq, ht, hr],
        remaining_eq_nil_iff.mpr fun d => (hidle d).trans (hall d)⟩
    · refine Or.inl ⟨d, hw, ?_, ?_, Or.inl (by simp [hq, ht, hr])⟩
      · intro e he
        exact (hidle e).trans (hlow e he)
      · intro e he
        rw [hidle e]
        exact hup e he.le

end Draining

def DrainState (s : Reg) : Prop :=
  (∃ c, Draining c s) ∨ (s.readController.currState = .init ∧ remaining s = [])

/-- The read side has not come back to `init` and no further start is accepted in this clock. -/
def underway (s : Reg) (i : Input) : Prop :=
  s.readController.currState ≠ .init ∧ ¬ accepts s i

theorem enWr_eq_false_iff : enWr s = false ↔ s.writeController ≠ .buffer := by
  rw [← Bool.not_eq_true]
  exact not_congr (WriteController.wrEn_iff _)

theorem enWr_step_eq_false (hs : enWr s = false) (h : ¬ accepts s i) : enWr (step s i) = false :=
  enWr_eq_false_iff.mpr (next_ne_buffer (enWr_eq_false_iff.mp hs) h)

theorem drainState_step (hs : DrainState s) (hu : underway s i) : DrainState (step s i) := by
  rcases hs with ⟨c, hc⟩ | ⟨hi, _⟩
  · have hw := enWr_step_eq_false hc.closed hu.2
    rcases hc.active with hr | hp
    · exact Or.inl ⟨c, hc.step_read hw hr⟩
    · exact hc.step_pause hw hp
  · exact absurd hi hu.1

theorem sent_append_remaining (hs : DrainState s) (hu : underway s i) :
    sent s i ++ remaining (step s i) = remaining s := by
  rcases hs with ⟨c, hc⟩ | ⟨hi, _⟩
  · exact hc.sent_append_remaining
  · exact absurd hi hu.1

theorem empty_mem_masks (hs : DrainState s) (hp : s.readController.currState = .pause) :
    empty s ∈ [0#6, 1#6, 3#6, 7#6, 15#6, 31#6, 63#6] := by
  rcases hs with ⟨c, hc⟩ | ⟨hi, _⟩
  · by_cases hn : (s.buffer c).units = []
    · have he : empty s = Channel.vector fun d => decide (d.index < c.index + 1) :=
        congrArg Channel.vector (funext (hc.empty_of_units_nil hn))
      rw [he]
      cases c <;> decide
    · have he : empty s = Channel.vector fun d => decide (d.index < c.index) :=
        congrArg Channel.vector (funext (hc.empty_of_units_ne_nil hn))
      rw [he]
      cases c <;> decide
  · rw [hp] at hi
    cases hi

/-! ## Leaving `init` -/

structure Departs (s : Reg) (i : Input) : Prop where
  waiting : s.readController.currState = .init
  leaves : (step s i).readController.currState ≠ .init

theorem departs_iff (h : s.readController.currState = .init) : Departs s i ↔
    (∃ c, WidthConverter.full (s.buffer c) = true) ∧ ∀ c, (s.buffer c).units ≠ [] := by
  rw [← orFull_iff, ← empty_eq_zero_iff]
  constructor
  · intro hd
    by_contra hc
    apply hd.leaves
    rw [readController_init h]
    exact if_neg (by simpa using hc)
  · rintro ⟨hf, he⟩
    exact ⟨h, by simp [readController_init h, hf, he]⟩

theorem draining_of_departs (h : Departs s i) : Draining .adc1 (step s i) := by
  obtain ⟨hf, hne⟩ := (departs_iff h.waiting).mp h
  have hor : Channel.reduceOr (full s) = true := (orFull_iff s).mpr hf
  refine ⟨enWr_eq_false_iff.mpr ?_, fun d hd => absurd hd (by simp [Channel.index]), ?_, Or.inl ?_⟩
  · rw [step_writeController]
    cases s.writeController <;>
      simp [WriteController.nextState, writeInput, hor]
    split <;> simp
  · intro d _
    have hr : ¬ reads d s i := fun hr => absurd (h.waiting.symm.trans hr.1) (by simp)
    rw [units_step_of_not_reads hr]
    exact List.append_ne_nil_of_left_ne_nil (hne d) _
  · have he : empty s = 0#6 := (empty_eq_zero_iff s).mpr hne
    simp [readController_init h.waiting, hor, he, ReadController2.readState]

theorem drain_in_order :
    (∀ is i, (run step reset is).readController.currState = .init →
      (∃ c, WidthConverter.full ((run step reset is).buffer c) = true) →
      (∀ c, ((run step reset is).buffer c).units ≠ []) → Departs (run step reset is) i) ∧
    (∀ is i js, Departs (run step reset is) i →
      Always step underway (step (run step reset is) i) js →
      let began := step (run step reset is) i
      let now := run step began js
      (now.readController.currState = .pause →
        empty now ∈ [0#6, 1#6, 3#6, 7#6, 15#6, 31#6, 63#6]) ∧
      emits step sent began js <+: Channel.all.flatMap (fun c => (began.buffer c).units) ∧
      (now.readController.currState = .init → (∀ c, (now.buffer c).units = []) ∧
        emits step sent began js = Channel.all.flatMap fun c => (began.buffer c).units)) := by
  refine ⟨fun is i h hf hne => (departs_iff h).mpr ⟨hf, hne⟩, ?_⟩
  intro is i js hd hu began now
  have hbegan : DrainState began := Or.inl ⟨_, draining_of_departs hd⟩
  have hnow : DrainState now :=
    invariant_run_of (I := DrainState) (fun _ _ hs hu => drainState_step hs hu) hbegan hu
  have hsum : emits step sent began js ++ remaining now = remaining began := by
    have h := conservation_of remaining (fun _ _ => []) sent
      (fun _ _ hs hu => drainState_step hs hu)
      (fun _ _ hs hu => by simpa using sent_append_remaining hs hu) hbegan hu
    rwa [emits_eq_nil, List.append_nil] at h
  refine ⟨empty_mem_masks hnow, ⟨_, hsum⟩, ?_⟩
  intro hi
  have hnil : remaining now = [] := by
    rcases hnow with ⟨c, hc⟩ | ⟨_, hnil⟩
    · rcases hc.active with ha | ha <;> rw [hi] at ha <;> simp at ha
    · exact hnil
  refine ⟨remaining_eq_nil_iff.mp hnil, ?_⟩
  rw [hnil, List.append_nil] at hsum
  exact hsum

/-! ## Progress

With `axis_tready` high every clock moves a byte or brings the next one closer. -/

/-- Clocks until the next byte: one in `pause`, two in a read state that has run dry. -/
def delay (s : Reg) : Nat :=
  if s.readController.currState = .pause then 1
  else if ∃ c, s.readController.currState = ReadController2.readState c ∧ (s.buffer c).units = []
    then 2 else 0

def rank (s : Reg) : Nat := 3 * (remaining s).length + delay s

theorem delay_le (s : Reg) : delay s ≤ 2 := by
  unfold delay
  split
  · omega
  · split <;> omega

theorem delay_of_read {c : Channel} (hr : s.readController.currState = ReadController2.readState c)
    (hc : (s.buffer c).units ≠ []) : delay s = 0 := by
  simp [delay, hr, hc]

/-- The drain is over, `pause` only waits for `axis_tready`. -/
def finished (s : Reg) : Prop := s.readController.currState = .pause ∧ remaining s = []

theorem rank_step (hs : ∃ c, Draining c s) (hf : ¬ finished s) (ht : i.axisTready = true)
    (ha : ¬ accepts s i) : (∃ c, Draining c (step s i)) ∧ rank (step s i) < rank s := by
  obtain ⟨c, hc⟩ := hs
  have hw := enWr_step_eq_false hc.closed ha
  have hlen := congrArg List.length (hc.sent_append_remaining (i := i))
  rw [List.length_append] at hlen
  have hd := delay_le (step s i)
  rcases hc.active with hr | hp
  · refine ⟨⟨c, hc.step_read hw hr⟩, ?_⟩
    by_cases hn : (s.buffer c).units = []
    · have hq := readController_read (i := i) hr
      rw [(WidthConverter.empty_iff _).mpr hn] at hq
      have h1 : delay (step s i) = 1 := by simp [delay, hq]
      have h2 : delay s = 2 := by simp [delay, hr, hn]
      unfold rank
      omega
    · have hsent : (sent s i).length = 1 := by
        simp [sent, transfers_iff.mpr ⟨c, hr, ht, hn⟩]
      have h0 := delay_of_read hr hn
      unfold rank
      omega
  · have hidle (d : Channel) : ((step s i).buffer d).units = (s.buffer d).units :=
      units_step_of_idle (Draining.not_reads_of_pause hp d) hc.closed
    have hq := readController_pause (i := i) hp
    rcases hc.resume_cases with ⟨_, hall⟩ | ⟨d, hres, hlow, hup⟩
    · exact absurd ⟨hp, remaining_eq_nil_iff.mpr hall⟩ hf
    · have hrd : (step s i).readController.currState = ReadController2.readState d := by
        simp [hq, ht, hres]
      have hne : ((step s i).buffer d).units ≠ [] := by
        rw [hidle d]
        exact hup d le_rfl
      refine ⟨⟨d, hw, fun e he => (hidle e).trans (hlow e he), ?_, Or.inl hrd⟩, ?_⟩
      · intro e he
        rw [hidle e]
        exact hup e he.le
      · have h0 := delay_of_read hrd hne
        have h1 : delay s = 1 := by simp [delay, hp]
        unfold rank
        omega

theorem drain_finishes (hs : ∃ c, Draining c s) {js : List Input}
    (hjs : Always step (fun s i => i.axisTready = true ∧ ¬ accepts s i) s js)
    (hlen : rank s < js.length) : ∃ pre post, js = pre ++ post ∧
      (∃ c, Draining c (run step s pre)) ∧ finished (run step s pre) :=
  exists_stop (I := fun s => ∃ c, Draining c s) rank
    (fun _ _ hs hf hk => rank_step hs hf hk.1 hk.2) hs hjs hlen

end AdcCapture.AdcBuffer
