import AdcCapture.TxSystem

/-!
# How far `tx_done` paces the data frames

`readController2` takes every `tx_done` pulse for its own. As long as no ARP
pulse asks for a header while a data frame is unsent, one data frame at most is
outstanding; an ARP frame queued ahead of a data frame breaks this.
-/

namespace AdcCapture.TxSystem

open Clocked
set_option autoImplicit false

variable {s : Reg} {i : Input}

/-- The pulse of an ARP frame requests the next header while a data frame is unsent. -/
structure ArpWakes (s : Reg) (i : Input) : Prop where
  arp : finished s i = some .arp
  paused : currState s = .pause
  ready : s.path.gen.sUdpHdrReady = true
  waiting : unsent s ≠ []

structure Settled (s : Reg) : Prop where
  path : TxPath.Inv s.path
  held : UdpChecksumGen.holdsHeader s.path.gen = true → unsent s = []
  waiting : currState s = .init → unsent s = []
  single : (unsent s).length ≤ 1

theorem settled_reset : Settled reset :=
  ⟨TxPath.inv_reset, fun _ => rfl, fun _ => rfl, Nat.zero_le _⟩

theorem holdsHeader_balance (hs : TxPath.Inv s.path) :
    (UdpChecksumGen.holdsHeader (step s i).path.gen).toNat + (lastAccepted s i).toNat =
      (UdpChecksumGen.holdsHeader s.path.gen).toNat + (hdrAccepted s i).toNat :=
  UdpChecksumGen.holdsHeader_posedge hs.gen

theorem exists_read_of_transfers (h : transfers s i = true) :
    ∃ c, currState s = ReadController2.readState c := by
  obtain ⟨c, hc⟩ := AdcBuffer.transfers_iff.mp h
  exact ⟨c, hc.1⟩

theorem not_init_of_read (hs : TxPath.Inv s.path) {c : Channel}
    (h : currState s = ReadController2.readState c) : currState (step s i) ≠ .init := by
  intro hi
  rcases TxPath.next_of_read (i := pathInput s i) hs h with hp | ⟨hr, _⟩
  · exact absurd (hp.symm.trans hi) (by simp)
  · exact absurd (hr.symm.trans hi) (by simp)

theorem settled_step_of_last (hs : Settled s) (hl : lastAccepted s i = true) :
    Settled (step s i) := by
  have hh := holdsHeader_of_sumPayload (sumPayload_of_lastAccepted hl)
  have hu := unsent_length (s := s) (i := i)
  have hb := holdsHeader_balance (i := i) hs.path
  obtain ⟨c, hc⟩ := exists_read_of_transfers (transfers_of_lastAccepted hl)
  rw [hs.held hh, hl] at hu
  refine ⟨TxPath.inv_step hs.path _, ?_, ?_, ?_⟩
  · intro hn
    have ha : hdrAccepted s i = false := UdpChecksumGen.hdrAccepted_eq_false hs.path.gen
      (by rw [sumPayload_of_lastAccepted hl]; simp)
    rw [hn, hl, hh, ha] at hb
    cases hb
  · intro hi
    exact absurd hi (not_init_of_read hs.path hc)
  · simp at hu
    omega

theorem unsent_step_of_nil (hl : lastAccepted s i = false) (h : unsent s = []) :
    unsent (step s i) = [] := by
  have hu := unsent_length (s := s) (i := i)
  rw [h, hl] at hu
  apply List.eq_nil_of_length_eq_zero
  simp only [List.length_nil, Bool.toNat_false] at hu
  omega

/-- A header is taken over only when the last frame has been sent. -/
theorem unsent_of_hdrAccepted (hs : Settled s) (hk : ¬ ArpWakes s i)
    (hl : lastAccepted s i = false) (ha : hdrAccepted s i = true) : unsent (step s i) = [] := by
  obtain ⟨hr, hi | ⟨hp, hf⟩⟩ := hdrAccepted_cases ha
  · exact unsent_step_of_nil hl (hs.waiting hi)
  · obtain ⟨f, hf⟩ := Option.isSome_iff_exists.mp hf
    cases f with
    | arp =>
      apply unsent_step_of_nil hl
      by_contra hne
      exact hk ⟨hf, hp, hr, hne⟩
    | data d =>
      have hu := unsent_length (s := s) (i := i)
      have hd : dataSent s i = true := by simp [dataSent, hf, Frame.data?]
      have h1 := hs.single
      rw [hd, hl] at hu
      apply List.eq_nil_of_length_eq_zero
      simp only [Bool.toNat_true, Bool.toNat_false] at hu
      omega

theorem settled_step (hs : Settled s) (hk : ¬ ArpWakes s i) : Settled (step s i) := by
  cases hl : lastAccepted s i with
  | true => exact settled_step_of_last hs hl
  | false =>
    have hu := unsent_length (s := s) (i := i)
    have hb := holdsHeader_balance (i := i) hs.path
    have h1 := hs.single
    refine ⟨TxPath.inv_step hs.path _, ?_, ?_, ?_⟩
    · intro hn
      cases ha : hdrAccepted s i with
      | true => exact unsent_of_hdrAccepted hs hk hl ha
      | false =>
        apply unsent_step_of_nil hl
        apply hs.held
        rw [hn, hl, ha] at hb
        cases hh : UdpChecksumGen.holdsHeader s.path.gen with
        | true => rfl
        | false => simp [hh] at hb
    · intro hi
      apply unsent_step_of_nil hl
      rcases ReadController2.state_cases (currState s) with h | h | ⟨c, h⟩
      · exact hs.waiting h
      · exact hs.held (holdsHeader_of_sumPayload
          (TxPath.pause_leaves (i := pathInput s i) h
            fun hp => absurd (hp.symm.trans hi) (by simp)))
      · exact absurd hi (not_init_of_read hs.path h)
    · rw [hl] at hu
      simp at hu
      omega

theorem settled_run {is : List Input} (h : Always step (fun s i => ¬ ArpWakes s i) reset is) :
    Settled (run step reset is) :=
  invariant_run_of (I := Settled) (fun _ _ hs hk => settled_step hs hk) settled_reset h

/-! ## Runs of data frames -/

/-- A clock with valid samples on all channels and no back-pressure. -/
def drive (startBuff arp sent : Bool) : Input where
  startBuff := startBuff
  adcValid := fun _ => true
  adc125m := fun _ => 0#16
  hdr := ⟨0#32, 0#32, 0#16, 0#16⟩
  payloadFifoTready := true
  mUdpHdrReady := true
  append := false
  arp := arp
  sent := sent

theorem not_accepts_of_idle {b : AdcBuffer.Reg} (hi : i.startBuff = false) :
    ¬ AdcBuffer.accepts b (bufferInput s i) := AdcBuffer.not_accepts_of_idle hi

theorem axisTready_drive (h : s.path.gen.state = .sumPayload) (a b c : Bool) :
    (bufferInput s (drive a b c)).axisTready = true := TxPath.axisTready_iff.mpr ⟨rfl, h⟩

theorem axisTready_eq_false (h : s.path.gen.state ≠ .sumPayload) :
    (bufferInput s i).axisTready = false := by
  rw [← Bool.not_eq_true]
  exact fun ht => h (TxPath.axisTready_iff.mp ht).2

theorem finished_of_not_sent (h : i.sent = false) : finished s i = none := by
  simp [finished, Mac.finished, h]

/-- Every pulse is that of a data frame closed three clocks ago or earlier. -/
def Prompt (s : Reg) (i : Input) : Prop :=
  ∀ f, finished s i = some f → ∃ d, f = .data d ∧ d.closedAt + 3 ≤ s.mac.now

/-- `P` is reached with `n` data frames sent. -/
def Reaches (n : Nat) (P : Reg → Prop) : Prop :=
  ∃ is, Always step Prompt reset is ∧ count step dataSent reset is = n ∧ P (run step reset is)

section Reaches
variable {n : Nat} {P Q : Reg → Prop}

theorem Reaches.quiet (h : Reaches n P) (i : Input) (hi : i.sent = false)
    (hP : ∀ s, P s → Q (step s i)) : Reaches n Q := by
  obtain ⟨is, hk, hc, hp⟩ := h
  refine ⟨is ++ [i], (always_snoc _ _ _).mpr ⟨hk, ?_⟩, ?_, ?_⟩
  · intro f hf
    rw [finished_of_not_sent hi] at hf
    cases hf
  · rw [count_snoc, hc, dataSent, finished_of_not_sent hi]
    rfl
  · rw [run_snoc]
    exact hP _ hp

theorem Reaches.quiet_run (h : Reaches n P) (js : List Input) (hi : ∀ j ∈ js, j.sent = false)
    (hP : ∀ s, P s → Q (run step s js)) : Reaches n Q := by
  induction js generalizing P with
  | nil =>
    obtain ⟨is, hk, hc, hp⟩ := h
    exact ⟨is, hk, hc, hP _ hp⟩
  | cons j js ih =>
    have hj : Reaches n fun s => Q (run step s js) := h.quiet j (hi j List.mem_cons_self) hP
    exact ih hj (fun i h => hi i (List.mem_cons_of_mem j h)) fun _ h => h

theorem Reaches.pulse (h : Reaches n P) (i : Input) (hP : ∀ s, P s →
    (∃ d, finished s i = some (.data d) ∧ d.closedAt + 3 ≤ s.mac.now) ∧ Q (step s i)) :
    Reaches (n + 1) Q := by
  obtain ⟨is, hk, hc, hp⟩ := h
  obtain ⟨⟨d, hd, hage⟩, hq⟩ := hP _ hp
  refine ⟨is ++ [i], (always_snoc _ _ _).mpr ⟨hk, ?_⟩, ?_, ?_⟩
  · intro f hf
    obtain rfl := Option.some.inj (hd.symm.trans hf)
    exact ⟨d, rfl, hage⟩
  · rw [count_snoc, hc, dataSent, hd]
    rfl
  · rw [run_snoc]
    exact hq

end Reaches

/-- `queue` is with the MAC and `upstream` ahead of it, all headers are handed over. -/
structure Quiet (queue : List Frame) (upstream : List DataFrame) (s : Reg) : Prop where
  headers : UdpChecksumGen.Headers false 0 false s.path.gen
  queue : s.mac.queue = queue
  upstream : s.mac.upstream = upstream
  handed : s.mac.handed = s.mac.closed

theorem quiet_reset : Quiet [] [] reset := ⟨⟨rfl, rfl, rfl⟩, rfl, rfl, rfl⟩

theorem queue_drive (s : Reg) (startBuff arp sent : Bool) :
    (step s (drive startBuff arp sent)).mac.queue =
      (if sent then s.mac.queue.tail else s.mac.queue) ++ (if arp then [.arp] else []) :=
  congrArg (· ++ if arp then [Frame.arp] else []) (List.append_nil _)

theorem upstream_drive {startBuff arp sent : Bool}
    (hl : lastAccepted s (drive startBuff arp sent) = false) :
    (step s (drive startBuff arp sent)).mac.upstream = s.mac.upstream := by
  rw [step_mac, Mac.step, macInput, hl]
  simp [drive]

theorem handed_eq_of_headers {v : Bool} {l : Nat}
    (h : UdpChecksumGen.Headers v l false s.path.gen) : (step s i).mac.handed = s.mac.handed := by
  have hh : UdpChecksumGen.hdrHandedOver s.path.gen (TxPath.genInput s.path (pathInput s i)) =
      false := by rw [UdpChecksumGen.hdrHandedOver, h.out, Bool.false_and]
  rw [handed_step, hh]
  rfl

theorem headers_of_quiet {q : List Frame} {us : List DataFrame} (h : Quiet q us s)
    (hg : s.path.gen.state ≠ .finishSum) (hi : i.mUdpHdrReady = true) :
    UdpChecksumGen.Headers false 0 false (step s i).path.gen := by
  have hh := UdpChecksumGen.headers_posedge (i := TxPath.genInput s.path (pathInput s i))
    h.headers (by omega) hi
  rw [decide_eq_false hg] at hh
  exact hh

theorem handed_of_quiet {q : List Frame} {us : List DataFrame} (h : Quiet q us s)
    (hl : lastAccepted s i = false) : (step s i).mac.handed = (step s i).mac.closed := by
  rw [handed_eq_of_headers h.headers, h.handed, closed_step hl]

theorem quiet_step {q : List Frame} {us : List DataFrame} (h : Quiet q us s) (startBuff sent : Bool)
    (hg : s.path.gen.state ≠ .finishSum)
    (hl : lastAccepted s (drive startBuff false sent) = false) :
    Quiet (if sent then q.tail else q) us (step s (drive startBuff false sent)) := by
  refine ⟨headers_of_quiet h hg rfl, ?_, (upstream_drive hl).trans h.upstream,
    handed_of_quiet h hl⟩
  rw [queue_drive, h.queue]
  simp

/-- The clock in which a frame with its header handed over joins the queue of the MAC. -/
def join : Input := { drive false false false with append := true }

theorem quiet_join {d : DataFrame} (h : Quiet [] [d] s) (hd : d.seq < s.mac.handed)
    (hg : s.path.gen.state ≠ .finishSum) (hl : lastAccepted s join = false) :
    Quiet [.data d] [] (step s join) := by
  have hj : s.mac.joins join.append = some d := by simp [Mac.joins, join, h.upstream, hd]
  refine ⟨headers_of_quiet h hg rfl, ?_, ?_, handed_of_quiet h hl⟩
  · rw [step_mac, Mac.step, macInput, hj]
    simp [join, drive, h.queue]
  · rw [step_mac, Mac.step, macInput, hj, hl]
    simp [h.upstream]

/-- `n` samples of the first capture are in every FIFO. -/
structure Primed (n : Nat) (s : Reg) : Prop where
  path : TxPath.Inv s.path
  filling : AdcBuffer.Filling n s.path.buffer
  fresh : TxPath.Fresh s.path
  ready : s.path.gen.sUdpHdrReady = true
  quiet : Quiet [] [] s

theorem gen_step_of_fresh (h : TxPath.Fresh s.path) :
    (step s i).path.gen.state = if hdrAccepted s i then .sumHeader1 else .idle := by
  rw [state_step, h.idle]

theorem fresh_step (hs : TxPath.Inv s.path) (h : TxPath.Fresh s.path)
    (hw : currState (step s i) = .init) :
    TxPath.Fresh (step s i).path ∧ (step s i).path.gen.sUdpHdrReady = true := by
  have hf : TxPath.Fresh (step s i).path := by
    rcases (TxPath.inv_step hs (pathInput s i)).waiting hw with hp | hf
    · have hg := (gen_step_of_fresh (i := i) h).symm.trans hp
      split at hg <;> cases hg
    · exact hf
  refine ⟨hf, ?_⟩
  have ha : hdrAccepted s i = false := by
    rw [← Bool.not_eq_true]
    intro ha
    have hg := gen_step_of_fresh (i := i) h
    rw [ha, hf.idle] at hg
    cases hg
  have hnf : UdpChecksumGen.headerFifoFull s.path.gen = false := by
    simp [UdpChecksumGen.headerFifoFull, h.wrPtr, h.rdPtr]
  rw [sUdpHdrReady_step, hnf, h.idle, ha]
  rfl

theorem primed_start : Primed 0 (step reset (drive true false false)) := by
  have hf : AdcBuffer.Filling 0 (step reset (drive true false false)).path.buffer :=
    AdcBuffer.filling_start false
  obtain ⟨hfresh, hready⟩ := fresh_step (s := reset) (i := drive true false false)
    TxPath.inv_reset ⟨rfl, rfl, rfl, rfl, Or.inr fun _ => rfl⟩ hf.waiting
  exact ⟨TxPath.inv_step TxPath.inv_reset _, hf, hfresh, hready,
    quiet_step quiet_reset true false (by simp [reset, TxPath.reset, UdpChecksumGen.reset])
      (TxPath.lastAccepted_eq_false_of_idle (Or.inl rfl))⟩

theorem primed_step {n : Nat} (h : Primed n s) (hn : n < WidthConverter.wrDepth) :
    Primed (n + 1) (step s (drive false false false)) := by
  have hf : AdcBuffer.Filling (n + 1) (step s (drive false false false)).path.buffer :=
    AdcBuffer.filling_step h.filling hn fun _ => rfl
  obtain ⟨hfresh, hready⟩ := fresh_step h.path h.fresh hf.waiting
  exact ⟨TxPath.inv_step h.path _, hf, hfresh, hready,
    quiet_step h.quiet false false (by simp [h.fresh.idle])
      (TxPath.lastAccepted_eq_false_of_idle (Or.inl h.filling.waiting))⟩

theorem reaches_primed {n : Nat} (hn : n ≤ WidthConverter.wrDepth) : Reaches 0 (Primed n) := by
  induction n with
  | zero =>
    have h0 : Reaches 0 fun s => s = reset := ⟨[], trivial, rfl, rfl⟩
    refine h0.quiet (drive true false false) rfl ?_
    rintro s rfl
    exact primed_start
  | succ n ih =>
    exact (ih (by omega)).quiet (drive false false false) rfl fun s h => primed_step h (by omega)

/-- The three clocks that sum up a header. -/
inductive HeaderSum : UdpChecksumGen.State → UdpChecksumGen.State → Prop
  | first : HeaderSum .sumHeader1 .sumHeader2
  | second : HeaderSum .sumHeader2 .sumHeader3
  | third : HeaderSum .sumHeader3 .sumPayload

/-- `n` bytes into a burst of `adc1`, with `m` bytes left in its FIFO. -/
structure Bursts (g : UdpChecksumGen.State) (n m : Nat) (s : Reg) : Prop where
  gen : s.path.gen.state = g
  burst : AdcBuffer.Bursting .adc1 n m s.path.buffer
  draining : AdcBuffer.Draining .adc1 s.path.buffer
  quiet : Quiet [] [] s

theorem bursts_of_primed (h : Primed WidthConverter.wrDepth s) :
    Bursts .sumHeader1 0 (2 * WidthConverter.wrDepth) (step s (drive false false false)) := by
  have hd := AdcBuffer.departs_of_filling h.filling (i := bufferInput s (drive false false false))
  have hb := AdcBuffer.bursting_of_departs h.path.buffer hd
  rw [AdcBuffer.level_step_of_filling h.filling] at hb
  have hg := gen_step_of_fresh (i := drive false false false) h.fresh
  have hh := (TxPath.inv_step h.path (pathInput s (drive false false false))).reading .adc1
    (congrArg ReadController2.Reg.currState hb.reading)
  refine ⟨?_, hb, AdcBuffer.draining_of_departs hd,
    quiet_step h.quiet false false (by simp [h.fresh.idle])
      (TxPath.lastAccepted_eq_false_of_idle (Or.inl h.filling.waiting))⟩
  cases ha : hdrAccepted s (drive false false false) with
  | true => rw [hg, ha]; rfl
  | false =>
    rw [ha, if_neg (by simp)] at hg
    rw [← step_path, UdpChecksumGen.holdsHeader, hg] at hh
    cases hh

section Bursts
variable {g g' : UdpChecksumGen.State} {n m : Nat}

theorem draining_step (h : Bursts g n m s) (hi : i.startBuff = false) :
    AdcBuffer.Draining .adc1 (step s i).path.buffer :=
  h.draining.step_read (AdcBuffer.enWr_step_eq_false h.draining.closed (not_accepts_of_idle hi))
    (by rw [h.burst.reading])

theorem bursts_step_header (h : Bursts g 0 (m + 1) s) (hg : HeaderSum g g') :
    Bursts g' 0 (m + 1) (step s (drive false false false)) := by
  have hnp : s.path.gen.state ≠ .sumPayload := by
    rw [h.gen]
    cases hg <;> simp
  refine ⟨?_, ?_, draining_step h rfl, quiet_step h.quiet false false ?_
    (UdpChecksumGen.lastAccepted_eq_false hnp)⟩
  · rw [state_step, h.gen]
    cases hg <;> rfl
  · exact AdcBuffer.bursting_hold h.burst (by omega) (axisTready_eq_false hnp)
      (not_accepts_of_idle rfl)
  · rw [h.gen]
    cases hg <;> simp

theorem bursts_step_payload (h : Bursts .sumPayload n (m + 1) s) (hn : n < 1023) :
    Bursts .sumPayload (n + 1) m (step s (drive false false false)) := by
  have hl : lastAccepted s (drive false false false) = false := by
    rw [← Bool.not_eq_true, lastAccepted, TxPath.lastAccepted_iff]
    rintro ⟨_, hl⟩
    rw [AdcBuffer.axisTlast_read (c := .adc1) (by rw [h.burst.reading]), h.burst.count_ne hn,
      (WidthConverter.empty_eq_false_iff _).mpr h.burst.units_ne_nil] at hl
    cases hl
  exact ⟨TxPath.sumPayload_step h.gen hl,
    AdcBuffer.bursting_step h.burst hn (axisTready_drive h.gen _ _ _) (not_accepts_of_idle rfl),
    draining_step h rfl, quiet_step h.quiet false false (by simp [h.gen]) hl⟩

theorem reaches_payload {j k : Nat} (h : Reaches j (Bursts .sumPayload n (m + k)))
    (hn : n + k ≤ 1023) : Reaches j (Bursts .sumPayload (n + k) m) := by
  induction k generalizing m with
  | zero => exact h
  | succ k ih =>
    have hk : Reaches j (Bursts .sumPayload (n + k) (m + 1)) := by
      apply ih _ (by omega)
      rwa [Nat.add_assoc, Nat.add_comm 1 k]
    have hlt : n + k < 1023 := by omega
    exact hk.quiet (drive false false false) rfl fun s h => bursts_step_payload h hlt

end Bursts

/-- Between two bursts of `adc1`, with bytes left in its FIFO. -/
structure Paused (g : UdpChecksumGen.State) (m : Nat) (s : Reg) : Prop where
  gen : s.path.gen.state = g
  paused : currState s = .pause
  draining : AdcBuffer.Draining .adc1 s.path.buffer
  left : (s.path.buffer.buffer .adc1).units.length = m + 1

section Paused
variable {g g' : UdpChecksumGen.State} {m : Nat}

theorem lastAccepted_of_paused (h : Paused g m s) : lastAccepted s i = false :=
  TxPath.lastAccepted_eq_false_of_idle (Or.inr h.paused)

theorem hdrAccepted_of_paused (h : Paused g m s) (hf : finished s i = none) :
    hdrAccepted s i = false := by
  rw [← Bool.not_eq_true]
  intro ha
  rcases (hdrAccepted_cases ha).2 with hi | ⟨_, hs⟩
  · exact absurd (h.paused.symm.trans hi) (by simp)
  · simp [hf] at hs

theorem frames_snoc_of_paused {is : List Input} (h : Paused g m (run step reset is)) (i : Input) :
    frames (is ++ [i]) = frames is := by
  apply frames_snoc_of_idle
  rw [← Bool.not_eq_true]
  intro ht
  obtain ⟨c, hc⟩ := exists_read_of_transfers ht
  exact absurd (h.paused.symm.trans hc) (by simp)

/-- In `pause` the FIFOs stand still. -/
theorem kept_of_paused (h : Paused g m s) (hi : i.startBuff = false) :
    AdcBuffer.enWr (step s i).path.buffer = false ∧
      ((step s i).path.buffer.buffer .adc1).units.length = m + 1 := by
  have hu := AdcBuffer.units_step_of_idle
    (AdcBuffer.Draining.not_reads_of_pause (i := bufferInput s i) h.paused .adc1) h.draining.closed
  exact ⟨AdcBuffer.enWr_step_eq_false h.draining.closed (not_accepts_of_idle hi),
    (congrArg List.length hu).trans h.left⟩

theorem paused_step (h : Paused g m s) (hg : g ≠ .sumPayload) (hi : i.startBuff = false) :
    Paused (step s i).path.gen.state m (step s i) := by
  have ht := axisTready_eq_false (i := i) (s := s) (by rw [h.gen]; exact hg)
  have hq := AdcBuffer.readController_pause (i := bufferInput s i) h.paused
  rw [ht] at hq
  have hp : currState (step s i) = .pause := congrArg ReadController2.Reg.currState hq
  obtain ⟨hw, hl⟩ := kept_of_paused h hi
  exact ⟨rfl, hp, h.draining.keep hw (Or.inr hp), hl⟩

theorem paused_step_header (h : Paused g m s) (hg : HeaderSum g g') (hi : i.startBuff = false) :
    Paused g' m (step s i) := by
  have hn := paused_step (i := i) h (by cases hg <;> simp) hi
  rw [state_step, h.gen] at hn
  cases hg <;> exact hn

/-- `pause` goes back to `adc1`. -/
theorem bursting_of_paused (h : Paused .sumPayload m s) :
    let next := (step s (drive false false false)).path
    next.gen.state = .sumPayload ∧ AdcBuffer.Bursting .adc1 0 (m + 1) next.buffer ∧
      AdcBuffer.Draining .adc1 next.buffer := by
  have hq := AdcBuffer.readController_pause (i := bufferInput s (drive false false false)) h.paused
  have hne : (s.path.buffer.buffer .adc1).units ≠ [] := by
    intro hn
    have hl := h.left
    rw [hn] at hl
    cases hl
  have hres : ReadController2.resume (AdcBuffer.empty s.path.buffer) =
      some (ReadController2.readState .adc1) :=
    (ReadController2.resume_eq_read_iff _ _).mpr (h.draining.empty_of_units_ne_nil hne)
  rw [axisTready_drive h.gen, if_pos rfl, hres] at hq
  obtain ⟨hw, hl⟩ := kept_of_paused (i := drive false false false) h rfl
  exact ⟨TxPath.sumPayload_step h.gen (lastAccepted_of_paused h), ⟨hq, hw, hl⟩,
    h.draining.keep hw (Or.inl (congrArg ReadController2.Reg.currState hq))⟩

theorem transfers_of_bursting (hg : s.path.gen.state = .sumPayload)
    (h : AdcBuffer.Bursting .adc1 0 (m + 1) s.path.buffer) (a b c : Bool) :
    transfers s (drive a b c) = true :=
  AdcBuffer.transfers_iff.mpr
    ⟨.adc1, by rw [h.reading], axisTready_drive hg a b c, h.units_ne_nil⟩

/-- A header summed up in `pause` opens the next data frame. -/
theorem opens_frame {is : List Input} (h : Paused .sumHeader3 m (run step reset is)) :
    transfers (run step reset (is ++ [drive false false false, drive false false false]))
      (drive false false false) = true ∧
    frames (is ++ [drive false false false, drive false false false]) = frames is ∧
    count step dataSent reset (is ++ [drive false false false, drive false false false]) =
      count step dataSent reset is ∧
    (frames is).rest = [] := by
  have h1 : Paused .sumPayload m (run step reset (is ++ [drive false false false])) := by
    rw [run_snoc]
    exact paused_step_header h .third rfl
  obtain ⟨hg, hb, _⟩ := bursting_of_paused h1
  rw [show is ++ [drive false false false, drive false false false] =
    is ++ [drive false false false] ++ [drive false false false] by simp]
  refine ⟨?_, ?_, ?_, ?_⟩
  · rw [run_snoc]
    exact transfers_of_bursting hg hb _ _ _
  · rw [frames_snoc_of_paused h1, frames_snoc_of_paused h]
  · rw [count_append, count_append]
    rfl
  · by_contra ho
    exact absurd (h.gen.symm.trans (sumPayload_of_open is ho)) (by simp)

end Paused

/-- The data frame `d` was closed `k` clocks ago, and its header has not been handed over. -/
structure Heads (v : Bool) (l : Nat) (o : Bool) (k : Nat) (queue : List Frame) (d : DataFrame)
    (s : Reg) : Prop where
  headers : UdpChecksumGen.Headers v l o s.path.gen
  queue : s.mac.queue = queue
  upstream : s.mac.upstream = [d]
  handed : s.mac.handed = d.seq
  closed : s.mac.closed = d.seq + 1
  age : s.mac.now = d.closedAt + k

section Heads
variable {m k : Nat} {v : Bool} {l : Nat} {q : List Frame} {d : DataFrame}

theorem closes (h : Bursts .sumPayload 1023 (m + 2) s) (arp : Bool) :
    Paused .finishSum m (step s (drive false arp false)) ∧
      Heads false 0 false 1 (if arp then [.arp] else []) ⟨s.mac.closed, s.mac.now⟩
        (step s (drive false arp false)) := by
  have hrd : AdcBuffer.reads .adc1 s.path.buffer (bufferInput s (drive false arp false)) :=
    ⟨by rw [h.burst.reading], axisTready_drive h.gen _ _ _, h.burst.units_ne_nil⟩
  have hlast : lastAccepted s (drive false arp false) = true := by
    refine TxPath.lastAccepted_iff.mpr ⟨AdcBuffer.transfers_iff.mpr ⟨.adc1, hrd⟩, ?_⟩
    rw [AdcBuffer.axisTlast_read hrd.1, h.burst.reading]
    rfl
  refine ⟨⟨?_, ?_, draining_step h rfl, ?_⟩, ⟨headers_of_quiet h.quiet (by simp [h.gen]) rfl,
    ?_, ?_, ?_, ?_, rfl⟩⟩
  · rw [state_step, h.gen]
    exact if_pos hlast
  · have hq := AdcBuffer.readController_read (i := bufferInput s (drive false arp false)) hrd.1
    rw [h.burst.reading] at hq
    exact congrArg ReadController2.Reg.currState hq
  · have hl := congrArg List.length (AdcBuffer.Draining.self_units h.draining
      (i := bufferInput s (drive false arp false)))
    have ht : AdcBuffer.transferred .adc1 s.path.buffer (bufferInput s (drive false arp false)) =
        [AdcBuffer.dout s.path.buffer (bufferInput s (drive false arp false))] := by
      simp [AdcBuffer.transferred, AdcBuffer.transfers_iff.mpr ⟨.adc1, hrd⟩,
        AdcBuffer.addr_of_reads hrd]
    rw [ht, h.burst.left, List.length_append, List.length_singleton] at hl
    rw [step_path, TxPath.step_buffer]
    exact Nat.add_left_cancel (hl.trans (by omega))
  · rw [queue_drive, h.quiet.queue]
    rfl
  · rw [step_mac, Mac.step, macInput, hlast]
    simp [drive, h.quiet.upstream]
  · rw [handed_eq_of_headers h.quiet.headers, h.quiet.handed]
  · rw [step_mac, Mac.step, macInput, hlast]
    rfl

theorem heads_step {v : Bool} {l : Nat} (h : Heads v l false k q d s) (hl : l < 8)
    (hlast : lastAccepted s (drive false false false) = false) :
    Heads (decide (s.path.gen.state = .finishSum)) (l + v.toNat - (decide (0 < l)).toNat)
      (decide (0 < l)) (k + 1) q d (step s (drive false false false)) := by
  refine ⟨UdpChecksumGen.headers_posedge h.headers hl rfl, ?_,
    (upstream_drive hlast).trans h.upstream,
    (handed_eq_of_headers h.headers).trans h.handed, (closed_step hlast).trans h.closed,
    congrArg Nat.succ h.age⟩
  rw [queue_drive, h.queue]
  simp

/-- `udp_checksum_gen` would take a header over. -/
structure Open (m : Nat) (s : Reg) : Prop where
  paused : Paused .idle m s
  ready : s.path.gen.sUdpHdrReady = true

theorem open_step (h : Paused .idle m s) (hi : i.startBuff = false) (hf : finished s i = none)
    (hl : UdpChecksumGen.level s.path.gen < 8) : Open m (step s i) := by
  have ha := hdrAccepted_of_paused h hf
  have hn := paused_step (i := i) h (by simp) hi
  rw [state_step, h.gen, ha] at hn
  refine ⟨hn, ?_⟩
  rw [sUdpHdrReady_step, h.gen, ha, UdpChecksumGen.headerFifoFull_eq_false hl]
  rfl

/-- Two clocks after its last byte the header of a frame is in the header FIFO. -/
theorem open_of_closed (hp : Paused .finishSum m s) (h : Heads false 0 false k q d s) :
    let next := step (step s (drive false false false)) (drive false false false)
    Open m next ∧ Heads false 1 false (k + 2) q d next := by
  have hp1 := paused_step (i := drive false false false) hp (by simp) rfl
  rw [state_step, hp.gen] at hp1
  have h1 : Heads true 0 false (k + 1) q d (step s (drive false false false)) := by
    have h1 := heads_step h (by omega) (lastAccepted_of_paused hp)
    rw [hp.gen] at h1
    exact h1
  have h2 := heads_step h1 (by omega) (lastAccepted_of_paused hp1)
  rw [hp1.gen] at h2
  exact ⟨open_step hp1 rfl (finished_of_not_sent rfl) (by rw [h1.headers.level]; omega), h2⟩

/-- The pulse of any frame opens the next header in `udp_checksum_gen`. -/
theorem sumHeader1_of_open (h : Open m s) (hi : i.startBuff = false)
    (hf : (finished s i).isSome = true) : Paused .sumHeader1 m (step s i) := by
  have hv := ReadController2.axisTvalidHdr_pause
    (i := AdcBuffer.readInput s.path.buffer (bufferInput s i)) h.paused.paused
  have ha : hdrAccepted s i = true := Bool.and_eq_true_iff.mpr ⟨h.ready, hv.trans hf⟩
  have hn := paused_step (i := i) h.paused (by simp) hi
  rw [state_step, h.paused.gen, ha] at hn
  exact hn

theorem quiet_of_heads (h : Heads false 0 true k [] d s)
    (hg : s.path.gen.state ≠ .finishSum)
    (hlast : lastAccepted s (drive false false false) = false) :
    Quiet [] [d] (step s (drive false false false)) ∧
      d.seq < (step s (drive false false false)).mac.handed := by
  have hh := UdpChecksumGen.headers_posedge
    (i := TxPath.genInput s.path (pathInput s (drive false false false))) h.headers (by omega) rfl
  rw [decide_eq_false hg] at hh
  have hd : (step s (drive false false false)).mac.handed = d.seq + 1 := by
    have ho : UdpChecksumGen.hdrHandedOver s.path.gen
        (TxPath.genInput s.path (pathInput s (drive false false false))) = true := by
      rw [UdpChecksumGen.hdrHandedOver, h.headers.out]
      rfl
    rw [handed_step, ho, h.handed]
    rfl
  have hc : (step s (drive false false false)).mac.closed = d.seq + 1 :=
    (closed_step hlast).trans h.closed
  refine ⟨⟨hh, ?_, (upstream_drive hlast).trans h.upstream, hd.trans hc.symm⟩, by omega⟩
  rw [queue_drive, h.queue]
  rfl

end Heads

/-- The frame `d` is with the MAC, its pulse would be in time. -/
structure Queued (m : Nat) (d : DataFrame) (s : Reg) : Prop where
  opened : Open m s
  quiet : Quiet [.data d] [] s
  age : d.closedAt + 3 ≤ s.mac.now

/-- Three clocks take the header from the header FIFO and the frame to the MAC. -/
theorem queued_of_heads {m k : Nat} {d : DataFrame} (ho : Open m s) (hk : 3 ≤ k)
    (h : Heads false 1 false k [] d s) :
    Queued m d (run step s [drive false false false, drive false false false, join]) := by
  simp only [run_cons, run_nil]
  have ho1 : Open m (step s (drive false false false)) :=
    open_step ho.paused rfl (finished_of_not_sent rfl) (by rw [h.headers.level]; omega)
  have h1 : Heads false 0 true (k + 1) [] d (step s (drive false false false)) := by
    have h1 := heads_step h (by omega) (lastAccepted_of_paused ho.paused)
    rw [ho.paused.gen] at h1
    exact h1
  generalize step s (drive false false false) = t at *
  have ho2 : Open m (step t (drive false false false)) :=
    open_step ho1.paused rfl (finished_of_not_sent rfl) (by rw [h1.headers.level]; omega)
  obtain ⟨hq, hd⟩ := quiet_of_heads h1 (by simp [ho1.paused.gen])
    (lastAccepted_of_paused ho1.paused)
  refine ⟨open_step ho2.paused rfl (finished_of_not_sent rfl) (by rw [hq.headers.level]; omega),
    quiet_join hq hd (by simp [ho2.paused.gen]) (lastAccepted_of_paused ho2.paused), ?_⟩
  have hn : (step (step t (drive false false false)) join).mac.now = t.mac.now + 2 := rfl
  rw [hn, h1.age]
  omega

/-- From the end of a burst to the sum of the next header, with the frame sent in between. -/
theorem reaches_next_header {n m : Nat} (h : Reaches n (Bursts .sumPayload 1023 (m + 2))) :
    Reaches (n + 1) fun s => Paused .sumHeader3 m s ∧ Quiet [] [] s := by
  have hclosed : Reaches n fun s => ∃ d, Paused .finishSum m s ∧ Heads false 0 false 1 [] d s :=
    h.quiet (drive false false false) rfl fun s hs => ⟨_, closes hs false⟩
  have hopen : Reaches n fun s => ∃ d, Open m s ∧ Heads false 1 false 3 [] d s := by
    refine hclosed.quiet_run [drive false false false, drive false false false] (by simp [drive]) ?_
    rintro s ⟨d, hp, hh⟩
    exact ⟨d, open_of_closed hp hh⟩
  have hqueued : Reaches n fun s => ∃ d, Queued m d s := by
    refine hopen.quiet_run [drive false false false, drive false false false, join]
      (by simp [drive, join]) ?_
    rintro s ⟨d, ho, hh⟩
    exact ⟨d, queued_of_heads ho le_rfl hh⟩
  have hsent : Reaches (n + 1) fun s => Paused .sumHeader1 m s ∧ Quiet [] [] s := by
    refine hqueued.pulse (drive false false true) ?_
    rintro s ⟨d, hq⟩
    have hf : finished s (drive false false true) = some (.data d) := by
      simp [finished, Mac.finished, drive, hq.quiet.queue]
    have hg : s.path.gen.state ≠ .finishSum := by simp [hq.opened.paused.gen]
    exact ⟨⟨d, hf, hq.age⟩, sumHeader1_of_open hq.opened rfl (by rw [hf]; rfl),
      quiet_step hq.quiet false true hg (lastAccepted_of_paused hq.opened.paused)⟩
  have hnext {g g' : UdpChecksumGen.State} (hg : HeaderSum g g')
      (h : Reaches (n + 1) fun s => Paused g m s ∧ Quiet [] [] s) :
      Reaches (n + 1) fun s => Paused g' m s ∧ Quiet [] [] s := by
    refine h.quiet (drive false false false) rfl ?_
    rintro s ⟨hp, hq⟩
    exact ⟨paused_step_header hp hg rfl, quiet_step hq false false
      (by rw [hp.gen]; cases hg <;> simp) (lastAccepted_of_paused hp)⟩
  exact hnext .second (hnext .first hsent)

theorem reaches_first_burst {m : Nat} (hm : m + 1025 = 2 * WidthConverter.wrDepth) :
    Reaches 0 (Bursts .sumPayload 1023 (m + 2)) := by
  have hnext {g g' : UdpChecksumGen.State} (hg : HeaderSum g g')
      (h : Reaches 0 (Bursts g 0 (m + 1024 + 1))) : Reaches 0 (Bursts g' 0 (m + 1024 + 1)) :=
    h.quiet (drive false false false) rfl fun s hs => bursts_step_header hs hg
  have h1 : Reaches 0 (Bursts .sumHeader1 0 (2 * WidthConverter.wrDepth)) :=
    (reaches_primed le_rfl).quiet (drive false false false) rfl fun s hs => bursts_of_primed hs
  rw [← hm] at h1
  have h2 := hnext .third (hnext .second (hnext .first h1))
  rw [show m + 1024 + 1 = m + 2 + 1023 by omega] at h2
  exact reaches_payload h2 le_rfl

theorem reaches_next_burst {n m : Nat} (h : Reaches n (Bursts .sumPayload 1023 (m + 1024 + 2))) :
    Reaches (n + 1) (Bursts .sumPayload 1023 (m + 2)) := by
  have h1 : Reaches (n + 1) (Bursts .sumPayload 0 (m + 1024 + 1)) := by
    refine (reaches_next_header h).quiet_run
      [drive false false false, drive false false false] (by simp [drive]) ?_
    rintro s ⟨hp, hq⟩
    have hp1 := paused_step_header (i := drive false false false) hp .third rfl
    have hq1 := quiet_step hq false false (by simp [hp.gen]) (lastAccepted_of_paused hp)
    obtain ⟨hg, hb, hd⟩ := bursting_of_paused hp1
    exact ⟨hg, hb, hd, quiet_step hq1 false false (by simp [hp1.gen]) (lastAccepted_of_paused hp1)⟩
  rw [show m + 1024 + 1 = m + 2 + 1023 by omega] at h1
  exact reaches_payload h1 le_rfl

/-- `n` data frames go out one after the other, as long as `adc1` has bytes for the next one. -/
theorem reaches_burst {n m : Nat} (hm : m + 1024 * n + 1025 = 2 * WidthConverter.wrDepth) :
    Reaches n (Bursts .sumPayload 1023 (m + 2)) := by
  induction n generalizing m with
  | zero => exact reaches_first_burst hm
  | succ n ih => exact reaches_next_burst (ih (by omega))

/-! ## An ARP frame ahead of a data frame -/

/-- A pause with a data frame unsent is reached. -/
def Stalled (g : UdpChecksumGen.State) : Prop :=
  ∃ is m, Paused g m (run step reset is) ∧ unsent (run step reset is) ≠ []

theorem unsent_step_ne_nil (h : unsent s ≠ []) (hf : ∀ d, finished s i ≠ some (.data d)) :
    unsent (step s i) ≠ [] := by
  obtain ⟨d, ds, hd⟩ := List.exists_cons_of_ne_nil h
  have hm : d ∈ unsent s := by rw [hd]; exact List.mem_cons_self
  rcases Mac.mem_unsent_step (macInput s i) hm with hfin | hm'
  · exact absurd hfin (hf d)
  · exact List.ne_nil_of_mem hm'

theorem stalled_sumHeader1 : Stalled .sumHeader1 := by
  obtain ⟨is, _, _, hb⟩ := reaches_burst (n := 0) (m := 64511) (by rw [WidthConverter.wrDepth_eq])
  obtain ⟨hp, hh⟩ := closes hb true
  obtain ⟨ho, hh⟩ := open_of_closed hp hh
  obtain ⟨js, hjs⟩ : ∃ js, run step reset js = step (step (step (run step reset is)
      (drive false true false)) (drive false false false)) (drive false false false) :=
    ⟨is ++ [drive false true false, drive false false false, drive false false false],
      run_append _ _ _⟩
  rw [← hjs] at ho hh
  have hfin : finished (run step reset js) (drive false false true) = some .arp :=
    congrArg List.head? hh.queue
  have hu : unsent (run step reset js) ≠ [] := by
    rw [unsent, Mac.unsent, hh.upstream]
    simp
  refine ⟨js ++ [drive false false true], 64511, ?_, ?_⟩
  · rw [run_snoc]
    exact sumHeader1_of_open ho rfl (congrArg Option.isSome hfin)
  · rw [run_snoc]
    exact unsent_step_ne_nil hu (by simp [hfin])

theorem stalled_step {g g' : UdpChecksumGen.State} (h : Stalled g) (hg : HeaderSum g g') :
    Stalled g' := by
  obtain ⟨is, m, hp, hu⟩ := h
  refine ⟨is ++ [drive false false false], m, ?_, ?_⟩
  · rw [run_snoc]
    exact paused_step_header hp hg rfl
  · rw [run_snoc]
    exact unsent_step_ne_nil hu (by simp [finished_of_not_sent, drive])

/-! ## Pacing -/

/-- Each data frame starts when all earlier ones have been sent, and one at most is
closed or open without having been sent. -/
structure Paced (is : List Input) : Prop where
  starts : ∀ i, transfers (run step reset is) i = true → (frames is).rest = [] →
    (frames is).closed.length = count step dataSent reset is
  outstanding : (frames is).closed.length + (if (frames is).rest = [] then 0 else 1) ≤
    count step dataSent reset is + 1

theorem paced_of_no_arp_wake {is : List Input}
    (h : Always step (fun s i => ¬ ArpWakes s i) reset is) : Paced is := by
  have hs := settled_run h
  have hc := closed_length is
  constructor
  · intro i ht _
    rw [hc, hs.held (holdsHeader_of_sumPayload (sumPayload_of_transfers ht))]
    rfl
  · rw [hc]
    have h1 := hs.single
    split
    · omega
    · rename_i ho
      rw [hs.held (holdsHeader_of_sumPayload (sumPayload_of_open is ho))]
      simp

theorem paced_second_frame : ∃ is i, count step dataSent reset is = 1 ∧
    transfers (run step reset is) i = true ∧ (frames is).rest = [] ∧
    (frames is).closed.length = 1 ∧ Paced is := by
  obtain ⟨is, hk, hc, hp, _⟩ := reaches_next_header
    (reaches_burst (n := 0) (m := 64511) (by rw [WidthConverter.wrDepth_eq]))
  obtain ⟨ht, hf, hcount, hr⟩ := opens_frame hp
  have hk2 : Always step Prompt reset
      (is ++ [drive false false false, drive false false false]) := by
    refine (always_append _ _ _).mpr ⟨hk, always_of_forall_mem ?_ _⟩
    intro i hi s f hfin
    rw [finished_of_not_sent (by simp at hi; rw [hi]; rfl)] at hfin
    cases hfin
  have hpaced : Paced (is ++ [drive false false false, drive false false false]) := by
    apply paced_of_no_arp_wake
    refine hk2.mono fun s i hprompt harp => ?_
    obtain ⟨d, hd, _⟩ := hprompt _ harp.arp
    cases hd
  rw [hc] at hcount
  refine ⟨_, _, hcount, ht, hf ▸ hr, ?_, hpaced⟩
  rw [hpaced.starts _ ht (hf ▸ hr), hcount]

theorem arp_pulse_breaks_pacing : ¬ ∀ is, Paced is := by
  intro h
  obtain ⟨is, m, hp, hu⟩ := stalled_step (stalled_step stalled_sumHeader1 .first) .second
  -- two clocks more and `read1` is entered again, with the first frame unsent
  obtain ⟨ht, hf, hcount, hr⟩ := opens_frame hp
  have hs := (h _).starts _ ht (hf ▸ hr)
  have hc := closed_length is
  have := List.length_pos_of_ne_nil hu
  rw [hf, hcount] at hs
  unfold unsent at *
  omega

end AdcCapture.TxSystem
