import AdcCapture.AdcCdc
import AdcCapture.CaptureOverlap

/-!
# Which samples a capture holds

Nothing aligns the six crossings with one another: `en_wr` rises for all of
them in one clock of `dout_clk`, whatever each of them has delivered until then.
Every channel stores a gap-free segment of the common list of `adc_clk` edges,
and two segments agree sample by sample exactly when they begin together.
-/

namespace AdcCapture.AdcCdc

open Clocked
set_option autoImplicit false

/-! ## Segments of one list -/

section Segments
variable {α : Type} {us ws ts : List α} {a b : Nat}

/-- Equal at every index that both lists have. -/
def Agree (us ws : List α) : Prop := ∀ (j : Nat) x y, us[j]? = some x → ws[j]? = some y → x = y

theorem segment_of_isPrefix {vs : List α} (h : ws <+: vs) (ht : us ++ vs <+: ts) :
    ws = (ts.drop us.length).take ws.length := by
  obtain ⟨rs, rfl⟩ := h
  obtain ⟨ts, rfl⟩ := ht
  simp

theorem agree_iff_begin_together (hn : ts.Nodup) (hu : us = (ts.drop a).take us.length)
    (hw : ws = (ts.drop b).take ws.length) : Agree us ws ↔ a = b ∨ us = [] ∨ ws = [] := by
  have hget {vs : List α} {k j : Nat} {x : α} (hv : vs = (ts.drop k).take vs.length)
      (hx : vs[j]? = some x) : ts[k + j]? = some x := by
    rw [hv, List.getElem?_take, List.getElem?_drop] at hx
    split at hx
    · exact hx
    · cases hx
  constructor
  · intro h
    by_contra! hc
    obtain ⟨hab, hus, hws⟩ := hc
    obtain ⟨x, us, rfl⟩ := List.exists_cons_of_ne_nil hus
    obtain ⟨y, ws, rfl⟩ := List.exists_cons_of_ne_nil hws
    obtain rfl := h 0 x y rfl rfl
    have hx := hget (j := 0) hu rfl
    have hy := hget (j := 0) hw rfl
    have hlt : a + 0 < ts.length := (List.getElem?_eq_some_iff.mp hx).1
    exact hab ((List.getElem?_inj hlt hn).mp (hx.trans hy.symm))
  · rintro (rfl | rfl | rfl) j x y hx hy
    · exact Option.some.inj ((hget hu hx).symm.trans (hget hw hy))
    · cases hx
    · cases hy

end Segments

/-! ## One capture -/

def capturing (s : State) (_ : Input) : Prop := s.buffer.writeController = .buffer

/-- The start accepted in clock `i`, and clocks `vs` of the capture that follows. -/
structure Capture (is : List Input) (i : Input) (vs : List Input) : Prop where
  accepted : AdcBuffer.accepts (run step reset is).buffer (bufferInput (run step reset is) i)
  capturing : Always step capturing (run step reset (is ++ [i])) vs

/-- What the crossing of the channel has delivered when `en_wr` rises. -/
def skipped (c : Channel) (is : List Input) (i : Input) : List Sample :=
  emits step (delivered c) reset (is ++ [i])

def captured (c : Channel) (is : List Input) (i : Input) (vs : List Input) : List Sample :=
  emits step (stored c) (run step reset (is ++ [i])) vs

def capturedEdges (c : Channel) (is : List Input) (i : Input) (vs : List Input) : List Nat :=
  (captured c is i vs).map Sample.edge

section Visit
variable {s : State} {i : Input} {vs : List Input} {last : Input}

theorem stored_of_capturing (h : capturing s i) (c : Channel) : stored c s i =
    if WidthConverter.full (s.buffer.buffer c) then [] else delivered c s i := by
  have hw : AdcBuffer.enWr s.buffer = true := (WriteController.wrEn_iff _).mpr h
  cases hf : WidthConverter.full (s.buffer.buffer c) <;> simp [stored, hw, hf]

theorem stored_eq_delivered (h : capturing s i) (hn : capturing (step s i) last) (c : Channel) :
    stored c s i = delivered c s i := by
  have hb : AdcBuffer.inBuffer s.buffer (bufferInput s i) := h
  rw [stored_of_capturing h, (AdcBuffer.inBuffer_step_iff hb).mp hn c]
  rfl

/-- Only in the last clock of a capture a full FIFO can lose a sample. -/
theorem visit_stored (h : Always step capturing s (vs ++ [last])) (c : Channel) :
    emits step (stored c) s (vs ++ [last]) = emits step (delivered c) s vs ++
      if WidthConverter.full ((run step s vs).buffer.buffer c) then []
      else delivered c (run step s vs) last := by
  have hl : capturing (run step s vs) last := ((always_snoc _ _ _).mp h).2
  have hvs : emits step (stored c) s vs = emits step (delivered c) s vs := by
    apply emits_eq_of_stays _ h
    intro s i j hi hn
    exact stored_eq_delivered hi hn c
  rw [emits_snoc, hvs, stored_of_capturing hl]

theorem visit_stored_isPrefix (h : Always step capturing s vs) (c : Channel) :
    emits step (stored c) s vs <+: emits step (delivered c) s vs := by
  rcases List.eq_nil_or_concat vs with rfl | ⟨vs, last, rfl⟩
  · exact List.prefix_refl _
  · rw [List.concat_eq_append] at h ⊢
    rw [visit_stored h, emits_snoc, List.prefix_append_right_inj]
    split
    · exact List.nil_prefix
    · exact List.prefix_refl _

/-- A capture sends and holds, for each channel, the bytes of the samples it has stored. -/
theorem visit_held (c : Channel) (s : State) (vs : List Input) :
    emits step (fun s i => AdcBuffer.transferred c s.buffer (bufferInput s i)) s vs ++
        ((run step s vs).buffer.buffer c).units =
      (s.buffer.buffer c).units ++
        ((emits step (stored c) s vs).map Sample.word).flatMap WidthConverter.bigEndian := by
  have hstep (s : State) (i : Input) : AdcBuffer.transferred c s.buffer (bufferInput s i) ++
      ((step s i).buffer.buffer c).units = (s.buffer.buffer c).units ++
        (stored c s i).flatMap fun x => WidthConverter.bigEndian x.word := by
    rw [step_buffer, AdcBuffer.transferred_append_step, ← stored_words, List.flatMap_map]
  rw [conservation (fun s => (s.buffer.buffer c).units)
    (fun s i => (stored c s i).flatMap fun x => WidthConverter.bigEndian x.word)
    (fun s i => AdcBuffer.transferred c s.buffer (bufferInput s i)) hstep s vs,
    emits_flatMap, List.flatMap_map]

end Visit

/-! ## Segments of the common edges -/

section Capture
variable {is : List Input} {i : Input} {vs : List Input}

theorem buffer_run (is : List Input) : (run step reset is).buffer =
    run AdcBuffer.step AdcBuffer.reset (emits step (fun s i => [bufferInput s i]) reset is) :=
  run_component State.buffer bufferInput step_buffer reset is

theorem inv_run (is : List Input) : AdcBuffer.Inv (run step reset is).buffer := by
  rw [buffer_run]
  exact AdcBuffer.inv_run _

theorem units_of_accepted (h : Capture is i vs) (c : Channel) :
    ((run step reset (is ++ [i])).buffer.buffer c).units = [] := by
  have he := (inv_run is).drained h.accepted.1 c
  have hw : AdcBuffer.enWr (run step reset is).buffer = false := by
    simp [AdcBuffer.enWr, h.accepted.1, WriteController.wrEn]
  rw [run_snoc, step_buffer,
    AdcBuffer.units_step_of_idle (AdcBuffer.not_reads_of_nil he) hw, he]

theorem captured_segment (h : Capture is i vs) (c : Channel) :
    capturedEdges c is i vs = ((emits step edgesTaken reset (is ++ i :: vs)).drop
      (skipped c is i).length).take (capturedEdges c is i vs).length := by
  have hd := delivered_isPrefix c (is ++ i :: vs)
  have hsplit : is ++ i :: vs = (is ++ [i]) ++ vs := by simp
  have hall : skipped c is i ++ emits step (delivered c) (run step reset (is ++ [i])) vs <+:
      emits step (pushed c) reset (is ++ i :: vs) := by
    rw [hsplit] at hd ⊢
    rwa [emits_append] at hd
  have hs := segment_of_isPrefix (visit_stored_isPrefix h.capturing c) hall
  have hmap := congrArg (List.map Sample.edge) hs
  rw [List.map_take, List.map_drop, emits_map_edge_pushed] at hmap
  rw [capturedEdges, List.length_map]
  exact hmap

theorem captured_agree_iff (h : Capture is i vs) (c d : Channel) :
    Agree (capturedEdges c is i vs) (capturedEdges d is i vs) ↔
      (skipped c is i).length = (skipped d is i).length ∨ captured c is i vs = [] ∨
        captured d is i vs = [] := by
  have hn := emits_edgesTaken_nodup reset (is ++ i :: vs)
  rw [agree_iff_begin_together hn (captured_segment h c) (captured_segment h d)]
  simp only [capturedEdges, List.map_eq_nil_iff]

end Capture

/-! ## Crossings of one latency -/

/-- All crossings hold equally many samples, and so do all FIFOs behind them. -/
structure Level (s : State) : Prop where
  fifo : ∀ c d, (s.fifo c).length = (s.fifo d).length
  units : ∀ c d, (s.buffer.buffer c).units.length = (s.buffer.buffer d).units.length

section Level
variable {s : State} {i : Input}

theorem delivered_length (c : Channel) (s : State) (i : Input) :
    (delivered c s i).length = if i.crossed c then min 1 (waiting c s i).length else 0 := by
  unfold delivered valid
  cases i.crossed c <;> cases waiting c s i <;> simp

theorem waiting_length (c : Channel) (s : State) (i : Input) :
    (waiting c s i).length = (s.fifo c).length + (taken s i).length := by
  simp [waiting, pushed]

theorem delivered_length_eq (h : ∀ c d, (s.fifo c).length = (s.fifo d).length)
    (hi : ∀ c d, i.crossed c = i.crossed d) (c d : Channel) :
    (delivered c s i).length = (delivered d s i).length := by
  rw [delivered_length, delivered_length, waiting_length, waiting_length, h c d, hi c d]

theorem fifo_length_step (h : ∀ c d, (s.fifo c).length = (s.fifo d).length)
    (hi : ∀ c d, i.crossed c = i.crossed d) (c d : Channel) :
    ((step s i).fifo c).length = ((step s i).fifo d).length := by
  have hc := congrArg List.length (delivered_append_step c s i)
  have hd := congrArg List.length (delivered_append_step d s i)
  have he := delivered_length_eq h hi c d
  have hf := h c d
  simp only [List.length_append, pushed, List.length_map] at hc hd
  omega

theorem stored_length_eq (h : Level s) (hi : ∀ c d, i.crossed c = i.crossed d) (c d : Channel) :
    (stored c s i).length = (stored d s i).length := by
  have hf : WidthConverter.full (s.buffer.buffer c) = WidthConverter.full (s.buffer.buffer d) := by
    rw [Bool.eq_iff_iff, WidthConverter.full_iff, WidthConverter.full_iff, h.units c d]
  have he := delivered_length_eq h.fifo hi c d
  unfold stored
  rw [hf]
  split
  · exact he
  · rfl

theorem units_length_step (hw : s.buffer.readController.currState = .init) (c : Channel) :
    ((step s i).buffer.buffer c).units.length =
      (s.buffer.buffer c).units.length + 2 * (stored c s i).length := by
  have hr : ¬ AdcBuffer.reads c s.buffer (bufferInput s i) := by
    intro hr
    exact absurd (hw.symm.trans hr.1) (by simp)
  have hb : ∀ xs : List (BitVec 16),
      (xs.flatMap WidthConverter.bigEndian).length = 2 * xs.length := by
    intro xs
    simp [List.length_flatMap, WidthConverter.bigEndian_length, Nat.mul_comm]
  rw [step_buffer, AdcBuffer.units_step_of_not_reads hr, ← stored_words, List.length_append, hb,
    List.length_map]

theorem level_step (h : Level s) (hw : s.buffer.readController.currState = .init)
    (hi : ∀ c d, i.crossed c = i.crossed d) : Level (step s i) where
  fifo := fifo_length_step h.fifo hi
  units c d := by
    rw [units_length_step hw, units_length_step hw, h.units c d, stored_length_eq h hi c d]

theorem captured_length_eq {vs : List Input} (h : Level s) (hc : AdcBuffer.Clean s.buffer)
    (hv : Always step capturing s vs) (hi : ∀ v ∈ vs, ∀ c d, v.crossed c = v.crossed d)
    (c d : Channel) :
    (emits step (stored c) s vs).length = (emits step (stored d) s vs).length := by
  induction vs generalizing s with
  | nil => rfl
  | cons v vs ih =>
    have hl := stored_length_eq h (hi v List.mem_cons_self) c d
    have hrest : (emits step (stored c) (step s v) vs).length =
        (emits step (stored d) (step s v) vs).length := by
      cases vs with
      | nil => rfl
      | cons w ws =>
        apply ih (level_step h hc.waiting (hi v List.mem_cons_self)) _ hv.2
        · exact fun u hu => hi u (List.mem_cons_of_mem v hu)
        · exact AdcBuffer.clean_step (i := bufferInput s v) hc hv.2.1
    rw [emits_cons, emits_cons, List.length_append, List.length_append, hl, hrest]

theorem fifo_length_run {is : List Input} (hi : ∀ j ∈ is, ∀ c d, j.crossed c = j.crossed d)
    (h : ∀ c d, (s.fifo c).length = (s.fifo d).length) (c d : Channel) :
    ((run step s is).fifo c).length = ((run step s is).fifo d).length ∧
      (emits step (delivered c) s is).length = (emits step (delivered d) s is).length := by
  induction is generalizing s with
  | nil => exact ⟨h c d, rfl⟩
  | cons i is ih =>
    have hhead := hi i List.mem_cons_self
    obtain ⟨hf, he⟩ := ih (fun j hj => hi j (List.mem_cons_of_mem i hj)) (fifo_length_step h hhead)
    refine ⟨hf, ?_⟩
    rw [emits_cons, emits_cons, List.length_append, List.length_append, he,
      delivered_length_eq h hhead c d]

end Level

theorem level_of_capture {is vs : List Input} {i : Input} (h : Capture is i vs)
    (hi : ∀ j ∈ is ++ [i], ∀ c d, j.crossed c = j.crossed d) :
    Level (run step reset (is ++ [i])) where
  fifo c d := (fifo_length_run hi (fun _ _ => rfl) c d).1
  units c d := by rw [units_of_accepted h c, units_of_accepted h d]

theorem capturedEdges_eq_of_crossed {is vs : List Input} {i : Input} (h : Capture is i vs)
    (hi : ∀ j ∈ is ++ i :: vs, ∀ c d, j.crossed c = j.crossed d)
    (hw : (run step reset (is ++ [i])).buffer.readController.currState = .init) (c d : Channel) :
    capturedEdges c is i vs = capturedEdges d is i vs := by
  have hpre : ∀ j ∈ is ++ [i], ∀ c d, j.crossed c = j.crossed d := by
    intro j hj
    apply hi j
    simp only [List.mem_append, List.mem_cons, List.not_mem_nil, or_false] at hj ⊢
    tauto
  have hvs : ∀ v ∈ vs, ∀ c d, v.crossed c = v.crossed d :=
    fun v hv => hi v (List.mem_append_right _ (List.mem_cons_of_mem i hv))
  have hcap : (run step reset (is ++ [i])).buffer.writeController = .buffer := by
    rw [run_append]
    exact h.accepted.2
  have hskip := (fifo_length_run hpre (s := reset) (fun _ _ => rfl) c d).2
  have hlen := captured_length_eq (level_of_capture h hpre) ⟨hcap, hw⟩ h.capturing hvs c d
  have hc := captured_segment h c
  have hd := captured_segment h d
  have hcd : (capturedEdges c is i vs).length = (capturedEdges d is i vs).length := by
    simpa [capturedEdges, captured] using hlen
  rw [hc, hd, hcd]
  unfold skipped
  rw [hskip]

/-- Which edges a channel stores, when two channels agree, how many samples each stores and
holds, and what one latency for all crossings gives. -/
theorem capture_coherence :
    (∀ is i vs, Capture is i vs → ∀ c,
      capturedEdges c is i vs = ((emits step edgesTaken reset (is ++ i :: vs)).drop
        (skipped c is i).length).take (capturedEdges c is i vs).length) ∧
    (∀ is i vs, Capture is i vs → ∀ c d,
      Agree (capturedEdges c is i vs) (capturedEdges d is i vs) ↔
        (skipped c is i).length = (skipped d is i).length ∨ captured c is i vs = [] ∨
          captured d is i vs = []) ∧
    (∀ is i vs last, Capture is i (vs ++ [last]) → ∀ c,
      captured c is i (vs ++ [last]) = emits step (delivered c) (run step reset (is ++ [i])) vs ++
        if WidthConverter.full ((run step reset (is ++ i :: vs)).buffer.buffer c) then []
        else delivered c (run step reset (is ++ i :: vs)) last) ∧
    (∀ is i vs, Capture is i vs → ∀ c,
      emits step (fun s j => AdcBuffer.transferred c s.buffer (bufferInput s j))
          (run step reset (is ++ [i])) vs ++
        ((run step reset (is ++ i :: vs)).buffer.buffer c).units =
        ((captured c is i vs).map Sample.word).flatMap WidthConverter.bigEndian) ∧
    (∀ is i vs, Capture is i vs → (∀ j ∈ is ++ i :: vs, ∀ c d, j.crossed c = j.crossed d) →
      (run step reset (is ++ [i])).buffer.readController.currState = .init → ∀ c d,
      capturedEdges c is i vs = capturedEdges d is i vs) := by
  refine ⟨fun _ _ _ h => captured_segment h, fun _ _ _ h => captured_agree_iff h, ?_, ?_,
    fun _ _ _ h => capturedEdges_eq_of_crossed h⟩
  · intro is i vs last h c
    rw [run_split reset is i vs]
    exact visit_stored h.capturing c
  · intro is i vs h c
    rw [run_split reset is i vs, visit_held, units_of_accepted h, List.nil_append]
    rfl

/-- A clock in which the heads of the given channels cross. -/
def crossing (edges : List Edge) (crossed : Channel → Bool) (startBuff : Bool) : Input where
  edges := edges
  crossed := crossed
  startBuff := startBuff
  axisTready := false
  txDone := false

def validEdge : Edge := ⟨true, fun _ => 0#16⟩

/-- The crossing of `adc1` is one sample ahead of the others when the start comes. -/
theorem one_crossing_ahead : ¬ ∀ is i vs, Capture is i vs → ∀ c d,
    Agree (capturedEdges c is i vs) (capturedEdges d is i vs) := by
  intro h
  have hc : Capture [crossing [validEdge] (fun _ => false) false]
      (crossing [validEdge] (fun c => c == .adc1) true)
      [crossing [] (fun _ => true) false] := by
    refine ⟨⟨?_, ?_⟩, ?_, trivial⟩
    · decide +kernel
    · decide +kernel
    · unfold capturing
      decide +kernel
  have h1 : capturedEdges .adc1 [crossing [validEdge] (fun _ => false) false]
      (crossing [validEdge] (fun c => c == .adc1) true)
      [crossing [] (fun _ => true) false] = [1] := by decide +kernel
  have h2 : capturedEdges .adc2 [crossing [validEdge] (fun _ => false) false]
      (crossing [validEdge] (fun c => c == .adc1) true)
      [crossing [] (fun _ => true) false] = [0] := by decide +kernel
  have ha := h _ _ _ hc .adc1 .adc2
  rw [h1, h2] at ha
  exact absurd (ha 0 1 0 rfl rfl) (by decide)

end AdcCapture.AdcCdc
