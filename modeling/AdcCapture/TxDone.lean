import AdcCapture.AxisGmiiTx

/-!
# One pulse of tx_done for each frame

`axis_gmii_tx` at 1 Gb/s behind a source of frames: the first byte of a frame
stays on offer until it is accepted and is never the last one, any gaps may
follow. A frame is closing from its last byte until the next `STATE_IDLE`.
-/

namespace AdcCapture.TxDone

open Clocked AxisGmiiTx
set_option autoImplicit false

/-- What the source would like to send in this clock. -/
structure Offer where
  tvalid : Bool
  tdata : BitVec 8
  tlast : Bool
  tuser : Bool

/-- `first` is a first byte that has been offered and not been accepted yet. -/
structure Source where
  inFrame : Bool
  first : Option (BitVec 8)
  deriving DecidableEq, Repr

namespace Source

def input (s : Source) (o : Offer) : AxisGmiiTx.Input where
  sAxisTdata := s.first.getD o.tdata
  sAxisTvalid := o.tvalid || s.first.isSome
  sAxisTlast := s.inFrame && o.tlast
  sAxisTuser := o.tuser
  clkEnable := true
  miiSelect := false

def step (tready : Bool) (s : Source) (o : Offer) : Source :=
  let i := s.input o
  if tready && i.sAxisTvalid then ⟨!i.sAxisTlast, none⟩
  else if s.inFrame then s
  else ⟨false, if i.sAxisTvalid then some i.sAxisTdata else none⟩

end Source

structure State where
  mac : Reg
  source : Source

def macInput (s : State) (o : Offer) : AxisGmiiTx.Input := s.source.input o

def step (cfg : Config) (s : State) (o : Offer) : State where
  mac := posedge cfg false s.mac (macInput s o)
  source := s.source.step s.mac.sAxisTready o

/-- Any register contents after a clock of `rst`. -/
def reset (cfg : Config) (r : Reg) (i : AxisGmiiTx.Input) : State :=
  ⟨posedge cfg true r i, ⟨false, none⟩⟩

def txDone (cfg : Config) (s : State) (o : Offer) : Bool := (comb cfg s.mac (macInput s o)).txDone

def lastAccepted (s : State) (o : Offer) : Bool :=
  AxisGmiiTx.lastAccepted s.mac (macInput s o)

def resting (s : State) : Prop := s.mac.state = .idle

/-- A last byte has been accepted, and the transmitter has not been idle since. -/
def Closing (cfg : Config) (s : State) (os : List Offer) : Prop :=
  Since (step cfg) (fun s o => lastAccepted s o = true) (fun s => ¬ resting s) s os

/-! ## The invariant -/

/-- The states that only a last byte leads to. -/
def tail (s : State) : Bool :=
  match s.mac.state with
  | .last | .pad | .fcs | .ifg => true
  | .idle | .preamble | .payload | .waitEnd => false

/-- In each state of the transmitter: its `tready`, and where the source is. -/
def Synced (s : State) : Prop :=
  match s.mac.state with
  | .idle => s.mac.sAxisTready = false ∧ s.source.inFrame = false
  | .preamble => s.source.inFrame = false ∧ s.source.first.isSome = true ∧
      s.mac.framePtr.toNat ≤ 7 ∧ s.mac.sAxisTready = decide (s.mac.framePtr.toNat = 7)
  | .payload | .waitEnd => s.mac.sAxisTready = true ∧ s.source.inFrame = true ∧
      s.source.first = none
  | .last | .pad | .fcs | .ifg => s.mac.sAxisTready = false ∧ s.source.inFrame = false

section Step
variable {cfg : Config} {s : State} {o : Offer}

theorem comb_macInput (cfg : Config) (r : Reg) (s : State) (o : Offer) :
    comb cfg r (macInput s o) = byState cfg r (macInput s o) := by
  simp [comb, macInput, Source.input]

theorem step_state : (step cfg s o).mac.state = (byState cfg s.mac (macInput s o)).stateNext := by
  simp only [step, posedge, comb_macInput]
  rfl

theorem step_framePtr :
    (step cfg s o).mac.framePtr = (byState cfg s.mac (macInput s o)).framePtrNext := by
  simp only [step, posedge, comb_macInput]
  rfl

theorem step_sAxisTready :
    (step cfg s o).mac.sAxisTready = (byState cfg s.mac (macInput s o)).sAxisTreadyNext := by
  simp only [step, posedge, comb_macInput]
  rfl

theorem txDone_eq : txDone cfg s o = (byState cfg s.mac (macInput s o)).txDone := by
  rw [txDone, comb_macInput]

theorem synced_reset (cfg : Config) (r : Reg) (i : AxisGmiiTx.Input) : Synced (reset cfg r i) :=
  ⟨rfl, rfl⟩

/-- What a clock does to the frames. -/
inductive Effect (cfg : Config) (s : State) (o : Offer) : Prop where
  | before (h : tail s = false) (hl : lastAccepted s o = false) (ht : txDone cfg s o = false)
      (hn : tail (step cfg s o) = false)
  | closes (h : tail s = false) (hl : lastAccepted s o = true) (ht : txDone cfg s o = false)
      (hn : tail (step cfg s o) = true)
  | closesShort (h : tail s = false) (hl : lastAccepted s o = true) (ht : txDone cfg s o = true)
      (hn : resting (step cfg s o))
  | within (h : tail s = true) (hl : lastAccepted s o = false) (ht : txDone cfg s o = false)
      (hn : tail (step cfg s o) = true)
  | ends (h : tail s = true) (hl : lastAccepted s o = false) (ht : txDone cfg s o = true)
      (hn : resting (step cfg s o))

theorem source_step_held (cfg : Config) (o : Offer) (hr : s.mac.sAxisTready = false)
    (hf : s.source.inFrame = false) : (step cfg s o).source =
      ⟨false, if (macInput s o).sAxisTvalid then some (macInput s o).sAxisTdata else none⟩ := by
  simp [step, Source.step, hr, hf, macInput]
  rfl

theorem source_step_accepted (cfg : Config) (hr : s.mac.sAxisTready = true)
    (hv : (macInput s o).sAxisTvalid = true) :
    (step cfg s o).source = ⟨!(macInput s o).sAxisTlast, none⟩ := by
  have hv' : (s.source.input o).sAxisTvalid = true := hv
  simp [step, Source.step, hr, hv', macInput]

theorem source_step_gap (hf : s.source.inFrame = true) (hv : (macInput s o).sAxisTvalid = false) :
    (step cfg s o).source = s.source := by
  have hv' : (s.source.input o).sAxisTvalid = false := hv
  simp [step, Source.step, hf, hv']

theorem lastAccepted_of_unready (hr : s.mac.sAxisTready = false) : lastAccepted s o = false := by
  simp [lastAccepted, AxisGmiiTx.lastAccepted, hr]

theorem sAxisTlast_of_first (hf : s.source.inFrame = false) :
    (macInput s o).sAxisTlast = false := by
  simp [macInput, Source.input, hf]

/-! ## One clock in each state -/

theorem idle_step (h : s.mac.state = .idle) (hs : Synced s) :
    Synced (step cfg s o) ∧ Effect cfg s o := by
  simp only [Synced, h] at hs
  obtain ⟨hr, hf⟩ := hs
  have ht : txDone cfg s o = false := by simp [txDone_eq, byState, h]
  have hsrc := source_step_held cfg o hr hf
  have hb (hn : tail (step cfg s o) = false) : Effect cfg s o :=
    .before (by simp [tail, h]) (lastAccepted_of_unready hr) ht hn
  cases hv : (macInput s o).sAxisTvalid with
  | false =>
    have hst : (step cfg s o).mac.state = .idle := by
      simp [step_state, byState, h, AxisGmiiTx.idle, hv]
    refine ⟨?_, hb (by simp [tail, hst])⟩
    simp [Synced, hst, hsrc, step_sAxisTready, byState, h]
  | true =>
    have hst : (step cfg s o).mac.state = .preamble := by
      simp [step_state, byState, h, AxisGmiiTx.idle, hv]
    refine ⟨?_, hb (by simp [tail, hst])⟩
    simp [Synced, hst, hsrc, step_sAxisTready, step_framePtr, byState, h, AxisGmiiTx.idle, hv,
      defaults]

theorem preamble_step (h : s.mac.state = .preamble) (hs : Synced s) :
    Synced (step cfg s o) ∧ Effect cfg s o := by
  simp only [Synced, h] at hs
  obtain ⟨hf, hfirst, hle, hr⟩ := hs
  have hv : (macInput s o).sAxisTvalid = true := by simp [macInput, Source.input, hfirst]
  have hlast := sAxisTlast_of_first (o := o) hf
  have hl : lastAccepted s o = false := by simp [lastAccepted, AxisGmiiTx.lastAccepted, hlast]
  have ht : txDone cfg s o = false := by simp [txDone_eq, byState, h]
  have hb (hn : tail (step cfg s o) = false) : Effect cfg s o :=
    .before (by simp [tail, h]) hl ht hn
  by_cases h6 : s.mac.framePtr = 6#16
  · have hr' : s.mac.sAxisTready = false := by simp [hr, h6]
    have hst : (step cfg s o).mac.state = .preamble := by
      simp [step_state, byState, h, AxisGmiiTx.preamble, h6]
    refine ⟨?_, hb (by simp [tail, hst])⟩
    simp [Synced, hst, source_step_held cfg o hr' hf, hv, step_sAxisTready, step_framePtr,
      byState, h, AxisGmiiTx.preamble, h6]
  · by_cases h7 : s.mac.framePtr = 7#16
    · have hr' : s.mac.sAxisTready = true := by simp [hr, h7]
      have hst : (step cfg s o).mac.state = .payload := by
        simp [step_state, byState, h, AxisGmiiTx.preamble, h7]
      refine ⟨?_, hb (by simp [tail, hst])⟩
      simp [Synced, hst, source_step_accepted cfg hr' hv, hlast, step_sAxisTready, byState, h,
        AxisGmiiTx.preamble, h7, hr']
    · have h6' : s.mac.framePtr.toNat ≠ 6 := fun hn => h6 (BitVec.eq_of_toNat_eq hn)
      have h7' : s.mac.framePtr.toNat ≠ 7 := fun hn => h7 (BitVec.eq_of_toNat_eq hn)
      have hr' : s.mac.sAxisTready = false := by simp [hr, h7']
      have hst : (step cfg s o).mac.state = .preamble := by
        simp [step_state, byState, h, AxisGmiiTx.preamble, h6, h7]
      have hptr : (step cfg s o).mac.framePtr.toNat = s.mac.framePtr.toNat + 1 := by
        simp [step_framePtr, byState, h, AxisGmiiTx.preamble, h6, h7]
        omega
      refine ⟨?_, hb (by simp [tail, hst])⟩
      simp only [Synced, hst, hptr]
      simp [source_step_held cfg o hr' hf, hv, step_sAxisTready, byState, h,
        AxisGmiiTx.preamble, h6, h7, defaults]
      omega

theorem payload_step (h : s.mac.state = .payload) (hs : Synced s) :
    Synced (step cfg s o) ∧ Effect cfg s o := by
  simp only [Synced, h] at hs
  obtain ⟨hr, hf, hfirst⟩ := hs
  have ht : txDone cfg s o = false := by simp [txDone_eq, byState, h]
  cases hv : (macInput s o).sAxisTvalid with
  | false =>
    have hst : (step cfg s o).mac.state = .waitEnd := by
      simp [step_state, byState, h, AxisGmiiTx.payload, hv]
    refine ⟨?_, .before (by simp [tail, h]) ?_ ht (by simp [tail, hst])⟩
    · simp [Synced, hst, source_step_gap hf hv, hf, hfirst, step_sAxisTready, byState, h,
        AxisGmiiTx.payload, hv]
    · simp [lastAccepted, AxisGmiiTx.lastAccepted, hv]
  | true =>
    have hsrc := source_step_accepted cfg hr hv
    cases hl : (macInput s o).sAxisTlast with
    | false =>
      have hst : (step cfg s o).mac.state = .payload := by
        simp [step_state, byState, h, AxisGmiiTx.payload, hv, hl]
      refine ⟨?_, .before (by simp [tail, h]) ?_ ht (by simp [tail, hst])⟩
      · simp [Synced, hst, hsrc, hl, step_sAxisTready, byState, h, AxisGmiiTx.payload, hv]
      · simp [lastAccepted, AxisGmiiTx.lastAccepted, hl]
    | true =>
      have hst : (step cfg s o).mac.state = .ifg ∨ (step cfg s o).mac.state = .last := by
        cases hu : (macInput s o).sAxisTuser <;>
          simp [step_state, byState, h, AxisGmiiTx.payload, hv, hl, hu]
      have hready : (step cfg s o).mac.sAxisTready = false := by
        cases hu : (macInput s o).sAxisTuser <;>
          simp [step_sAxisTready, byState, h, AxisGmiiTx.payload, hv, hl, hu, hr]
      refine ⟨?_, .closes (by simp [tail, h]) ?_ ht ?_⟩
      · rcases hst with hst | hst <;> simp [Synced, hst, hsrc, hl, hready]
      · simp [lastAccepted, AxisGmiiTx.lastAccepted, hr, hv, hl]
      · rcases hst with hst | hst <;> simp [tail, hst]

theorem waitEnd_step (h : s.mac.state = .waitEnd) (hs : Synced s) :
    Synced (step cfg s o) ∧ Effect cfg s o := by
  simp only [Synced, h] at hs
  obtain ⟨hr, hf, hfirst⟩ := hs
  cases hvl : (macInput s o).sAxisTvalid && (macInput s o).sAxisTlast with
  | false =>
    have hst : (step cfg s o).mac.state = .waitEnd := by
      simp [step_state, byState, h, AxisGmiiTx.waitEnd, hvl]
    have hready : (step cfg s o).mac.sAxisTready = true := by
      simp [step_sAxisTready, byState, h, AxisGmiiTx.waitEnd, hvl]
    refine ⟨?_, .before (by simp [tail, h]) ?_ ?_ (by simp [tail, hst])⟩
    · cases hv : (macInput s o).sAxisTvalid with
      | false => simp [Synced, hst, source_step_gap hf hv, hf, hfirst, hready]
      | true =>
        have hl : (macInput s o).sAxisTlast = false := by simpa [hv] using hvl
        simp [Synced, hst, source_step_accepted cfg hr hv, hl, hready]
    · simp [lastAccepted, AxisGmiiTx.lastAccepted, hr, hvl]
    · simp [txDone_eq, byState, h, AxisGmiiTx.waitEnd, hvl, defaults]
  | true =>
    obtain ⟨hv, hl⟩ := Bool.and_eq_true_iff.mp hvl
    have hsrc := source_step_accepted cfg hr hv
    have hla : lastAccepted s o = true := by
      simp [lastAccepted, AxisGmiiTx.lastAccepted, hr, hv, hl]
    cases hg : inGap cfg s.mac with
    | true =>
      have hst : (step cfg s o).mac.state = .ifg := by
        simp [step_state, byState, h, AxisGmiiTx.waitEnd, hvl, hg]
      refine ⟨?_, .closes (by simp [tail, h]) hla ?_ (by simp [tail, hst])⟩
      · simp [Synced, hst, hsrc, hl, step_sAxisTready, byState, h, AxisGmiiTx.waitEnd, hv, hg]
      · simp [txDone_eq, byState, h, AxisGmiiTx.waitEnd, hvl, hg, defaults]
    | false =>
      have hst : (step cfg s o).mac.state = .idle := by
        simp [step_state, byState, h, AxisGmiiTx.waitEnd, hvl, hg]
      refine ⟨?_, .closesShort (by simp [tail, h]) hla ?_ hst⟩
      · simp [Synced, hst, hsrc, hl, step_sAxisTready, byState, h, AxisGmiiTx.waitEnd, hv, hg]
      · simp [txDone_eq, byState, h, AxisGmiiTx.waitEnd, hvl, hg]

/-- Clocks that a closing frame can still take. -/
def rank (cfg : Config) (s : State) : Nat :=
  match s.mac.state with
  | .ifg => cfg.ifgDelay.toNat - s.mac.framePtr.toNat + 1
  | .fcs => 3 - s.mac.framePtr.toNat + 258
  | .pad => cfg.minFrameLength - s.mac.framePtr.toNat + 262
  | .last => cfg.minFrameLength + 263
  | .idle | .preamble | .payload | .waitEnd => 0

/-- A closing frame moves on without a look at the input, and ends with the pulse. -/
theorem tail_moves (cfg : Config) (o : Offer) (h : tail s = true) :
    (tail (step cfg s o) = true ∧ txDone cfg s o = false ∧ rank cfg (step cfg s o) < rank cfg s) ∨
      (resting (step cfg s o) ∧ txDone cfg s o = true) := by
  have hptr := s.mac.framePtr.isLt
  have hifg := cfg.ifgDelay.isLt
  cases hm : s.mac.state with
  | idle | preamble | payload | waitEnd => simp [tail, hm] at h
  | last =>
    left
    cases hp : cfg.enablePadding && isShort cfg s.mac with
    | true =>
      have hst : (step cfg s o).mac.state = .pad := by simp [step_state, byState, hm, last, hp]
      refine ⟨by simp [tail, hst], by simp [txDone_eq, byState, hm], ?_⟩
      simp only [rank, hst, hm]
      omega
    | false =>
      have hst : (step cfg s o).mac.state = .fcs := by simp [step_state, byState, hm, last, hp]
      refine ⟨by simp [tail, hst], by simp [txDone_eq, byState, hm], ?_⟩
      simp only [rank, hst, hm]
      omega
  | pad =>
    left
    cases hp : isShort cfg s.mac with
    | true =>
      have hst : (step cfg s o).mac.state = .pad := by simp [step_state, byState, hm, pad, hp]
      have hlt := isShort_iff.mp hp
      have hmax := cfg.le_max
      refine ⟨by simp [tail, hst], by simp [txDone_eq, byState, hm], ?_⟩
      simp [rank, hst, hm, step_framePtr, byState, pad, hp]
      omega
    | false =>
      have hst : (step cfg s o).mac.state = .fcs := by simp [step_state, byState, hm, pad, hp]
      refine ⟨by simp [tail, hst], by simp [txDone_eq, byState, hm], ?_⟩
      simp only [rank, hst, hm]
      omega
  | fcs =>
    left
    by_cases hp : s.mac.framePtr < 3#16
    · have hst : (step cfg s o).mac.state = .fcs := by simp [step_state, byState, hm, fcs, hp]
      have hlt : s.mac.framePtr.toNat < 3 := hp
      refine ⟨by simp [tail, hst], by simp [txDone_eq, byState, hm], ?_⟩
      simp [rank, hst, hm, step_framePtr, byState, fcs, hp]
      omega
    · have hst : (step cfg s o).mac.state = .ifg := by simp [step_state, byState, hm, fcs, hp]
      refine ⟨by simp [tail, hst], by simp [txDone_eq, byState, hm], ?_⟩
      simp only [rank, hst, hm]
      omega
  | ifg =>
    cases hp : inGap cfg s.mac with
    | true =>
      have hst : (step cfg s o).mac.state = .ifg := by
        simp [step_state, byState, hm, AxisGmiiTx.ifg, hp]
      have hlt := inGap_iff.mp hp
      refine .inl ⟨by simp [tail, hst], ?_, ?_⟩
      · simp [txDone_eq, byState, hm, AxisGmiiTx.ifg, hp, defaults]
      · simp [rank, hst, hm, step_framePtr, byState, AxisGmiiTx.ifg, hp]
        omega
    | false =>
      refine .inr ⟨?_, ?_⟩
      · simp [resting, step_state, byState, hm, AxisGmiiTx.ifg, hp]
      · simp [txDone_eq, byState, hm, AxisGmiiTx.ifg, hp]

theorem synced_of_quiet (h : tail s = true ∨ resting s) (hr : s.mac.sAxisTready = false)
    (hf : s.source.inFrame = false) : Synced s := by
  unfold Synced
  unfold tail resting at h
  cases hm : s.mac.state <;> simp_all

theorem tail_step (h : tail s = true) (hs : Synced s) :
    Synced (step cfg s o) ∧ Effect cfg s o := by
  have hq : s.mac.sAxisTready = false ∧ s.source.inFrame = false := by
    unfold Synced at hs
    unfold tail at h
    cases hm : s.mac.state <;> simp_all
  have hl : lastAccepted s o = false := lastAccepted_of_unready hq.1
  have hready : (step cfg s o).mac.sAxisTready = false := by
    rw [step_sAxisTready]
    unfold tail at h
    cases hm : s.mac.state with
    | idle | preamble | payload | waitEnd => simp [hm] at h
    | last | pad | fcs | ifg => simp [byState, hm]
  have hsrc : (step cfg s o).source.inFrame = false := by rw [source_step_held cfg o hq.1 hq.2]
  rcases tail_moves cfg o h with ⟨hn, ht, _⟩ | ⟨hn, ht⟩
  · exact ⟨synced_of_quiet (.inl hn) hready hsrc, .within h hl ht hn⟩
  · exact ⟨synced_of_quiet (.inr hn) hready hsrc, .ends h hl ht hn⟩

theorem synced_step_effect (cfg : Config) (hs : Synced s) (o : Offer) :
    Synced (step cfg s o) ∧ Effect cfg s o := by
  cases h : s.mac.state with
  | idle => exact idle_step h hs
  | preamble => exact preamble_step h hs
  | payload => exact payload_step h hs
  | waitEnd => exact waitEnd_step h hs
  | last | pad | fcs | ifg => exact tail_step (by simp [tail, h]) hs

theorem synced_step (s : State) (o : Offer) (hs : Synced s) : Synced (step cfg s o) :=
  (synced_step_effect cfg hs o).1

end Step

/-! ## Runs -/

section Run
variable {cfg : Config} {s : State}

theorem synced_run (hs : Synced s) (os : List Offer) : Synced (run (step cfg) s os) :=
  invariant_run synced_step hs os

theorem not_resting_of_tail (h : tail s = true) : ¬ resting s := by
  intro hr
  simp [tail, show s.mac.state = .idle from hr] at h

theorem tail_of_resting (h : resting s) : tail s = false := by
  simp [tail, show s.mac.state = .idle from h]

/-- A pulse more, or a frame more that is closing, for each last byte. -/
theorem tail_balance (cfg : Config) (hs : Synced s) (os : List Offer) :
    (tail (run (step cfg) s os)).toNat + count (step cfg) (txDone cfg) s os =
      (tail s).toNat + count (step cfg) lastAccepted s os := by
  apply count_balance (fun s => (tail s).toNat) lastAccepted (txDone cfg) synced_step _ hs
  intro s o h
  rcases (synced_step_effect cfg h o).2 with ⟨h, hl, ht, hn⟩ | ⟨h, hl, ht, hn⟩ |
    ⟨h, hl, ht, hn⟩ | ⟨h, hl, ht, hn⟩ | ⟨h, hl, ht, hn⟩
  · simp [h, hl, ht, hn]
  · simp [h, hl, ht, hn]
  · simp [h, hl, ht, tail_of_resting hn]
  · simp [h, hl, ht, hn]
  · simp [h, hl, ht, tail_of_resting hn]

theorem closing_iff (hs : Synced s) (h0 : tail s = false) (os : List Offer) :
    Closing cfg s os ↔ tail (run (step cfg) s os) = true := by
  apply since_iff (C := fun s => tail s = true) synced_step _ hs (by simp [h0])
  intro s o h
  rcases (synced_step_effect cfg h o).2 with ⟨h, hl, _, hn⟩ | ⟨h, hl, _, hn⟩ |
    ⟨h, hl, _, hn⟩ | ⟨h, hl, _, hn⟩ | ⟨h, hl, _, hn⟩
  · simp [h, hl, hn]
  · simp [hl, hn, not_resting_of_tail hn]
  · simp [tail_of_resting hn, hn]
  · simp [h, hn, not_resting_of_tail hn]
  · simp [tail_of_resting hn, hn]

theorem rank_pos (h : tail s = true) : 0 < rank cfg s := by
  unfold rank
  cases hm : s.mac.state with
  | idle | preamble | payload | waitEnd => simp [tail, hm] at h
  | last | pad | fcs | ifg => simp only; omega

theorem rank_le (cfg : Config) (s : State) : rank cfg s ≤ cfg.minFrameLength + 263 := by
  have hifg := cfg.ifgDelay.isLt
  have hmin := cfg.min_le
  unfold rank
  cases s.mac.state <;> simp only <;> omega

theorem rank_step (cfg : Config) (h : tail s = true) (o : Offer) :
    (tail (step cfg s o) = true ∨ resting (step cfg s o)) ∧
      rank cfg (step cfg s o) < rank cfg s := by
  rcases tail_moves cfg o h with ⟨hn, _, hlt⟩ | ⟨hn, _⟩
  · exact ⟨.inl hn, hlt⟩
  · have h0 : rank cfg (step cfg s o) = 0 := by
      unfold resting at hn
      simp [rank, hn]
    exact ⟨.inr hn, h0 ▸ rank_pos h⟩

theorem exists_resting (h : tail s = true) {os : List Offer}
    (hlen : cfg.minFrameLength + 263 < os.length) :
    ∃ pre post, os = pre ++ post ∧ resting (run (step cfg) s pre) := by
  have hrank := rank_le cfg s
  have hstep (s : State) (o : Offer) (hs : tail s = true ∨ resting s) (hn : ¬ resting s)
      (_ : True) := rank_step cfg (hs.resolve_right hn) o
  obtain ⟨pre, post, rfl, _, hr⟩ :=
    exists_stop (rank cfg) hstep (.inl h) (always_true s os) (by omega)
  exact ⟨pre, post, rfl, hr⟩

end Run

/-- The pulses and the last bytes up to any clock; each pulse not before its last byte; and each
closing frame ends. -/
theorem one_pulse_per_frame (cfg : Config) (r : Reg) (i : AxisGmiiTx.Input) (os : List Offer) :
    (Closing cfg (reset cfg r i) os → count (step cfg) (txDone cfg) (reset cfg r i) os + 1 =
      count (step cfg) lastAccepted (reset cfg r i) os) ∧
    (¬ Closing cfg (reset cfg r i) os → count (step cfg) (txDone cfg) (reset cfg r i) os =
      count (step cfg) lastAccepted (reset cfg r i) os) ∧
    (∀ o, txDone cfg (run (step cfg) (reset cfg r i) os) o = true →
      lastAccepted (run (step cfg) (reset cfg r i) os) o = true ∨ Closing cfg (reset cfg r i) os) ∧
    (Closing cfg (reset cfg r i) os → ∀ later : List Offer,
      cfg.minFrameLength + 263 < later.length → ∃ pre post, later = pre ++ post ∧
        resting (run (step cfg) (reset cfg r i) (os ++ pre))) := by
  have hs := synced_reset cfg r i
  have h0 : tail (reset cfg r i) = false := rfl
  have hb := tail_balance cfg hs os
  rw [closing_iff hs h0 os]
  rw [h0] at hb
  refine ⟨?_, ?_, ?_, ?_⟩
  · intro ht
    rw [ht] at hb
    simp only [Bool.toNat_true, Bool.toNat_false] at hb
    omega
  · intro ht
    rw [Bool.not_eq_true] at ht
    rw [ht] at hb
    simpa using hb
  · intro o ho
    rcases (synced_step_effect cfg (synced_run hs os) o).2 with ⟨_, _, ht, _⟩ | ⟨_, hl, _, _⟩ |
      ⟨_, hl, _, _⟩ | ⟨h, _, _, _⟩ | ⟨h, _, _, _⟩
    · rw [ht] at ho
      cases ho
    · exact .inl hl
    · exact .inl hl
    · exact .inr h
    · exact .inr h
  · intro ht later hlen
    obtain ⟨pre, post, rfl, hr⟩ := exists_resting ht hlen
    exact ⟨pre, post, rfl, by rwa [run_append]⟩

end AdcCapture.TxDone
