import AdcCapture.AxisGmiiRx
import AdcCapture.Packets

/-!
# Frames through axis_gmii_rx

The receiver at 1 Gb/s reading the wire. The five stages of the delay and the
symbols still to come form one stream, and each clock takes its oldest symbol:
a frame is searched for a start delimiter first, then passed on byte by byte.
-/

namespace AdcCapture.GmiiFrames

open Clocked AxisGmiiRx
set_option autoImplicit false

structure Beat where
  tdata : BitVec 8
  tlast : Bool
  tuser : Bool
  deriving DecidableEq, Repr

/-- The byte on the AXI output. -/
def beat (r : Reg) : List Beat :=
  if r.mAxisTvalid then [⟨r.mAxisTdata, r.mAxisTlast, r.mAxisTuser⟩] else []

def step (r : Reg) (s : Stage) : Reg := posedge false r ⟨s, true, false⟩

def received (r : Reg) (ss : List Stage) : List Beat := emits step (fun r s => beat (step r s)) r ss

def data (b : BitVec 8) : Stage := ⟨b, true, false⟩

theorem rxDv_of_mem {bs : List (BitVec 8)} {s : Stage} (h : s ∈ bs.map data) : s.rxDv = true := by
  obtain ⟨b, _, rfl⟩ := List.mem_map.mp h
  rfl

/-- The bytes of a frame; `tuser` of the last one is `bad`. -/
def beats (bad : Bool) : List (BitVec 8) → List Beat
  | [] => []
  | [b] => [⟨b, true, bad⟩]
  | b :: c :: bs => ⟨b, false, false⟩ :: beats bad (c :: bs)

/-- Waiting for a frame, nothing in the delay. -/
def Quiet (r : Reg) : Prop :=
  r.state = .idle ∧ r.delay.d0.rxDv = false ∧ r.delay.d1.rxDv = false ∧
    r.delay.d2.rxDv = false ∧ r.delay.d3.rxDv = false ∧ r.delay.d4.rxDv = false

/-- The delay, oldest symbol first. -/
def stream (d : Delay) : List Stage := [d.d4, d.d3, d.d2, d.d1, d.d0]

theorem received_append (r : Reg) (as bs : List Stage) :
    received r (as ++ bs) = received r as ++ received (run step r as) bs := emits_append r as bs

section Step
variable {r : Reg} {s : Stage}

theorem step_delay : (step r s).delay = r.delay.gmii s := by
  simp [step, posedge, delayNext]

theorem step_state : (step r s).state = (byState r s).stateNext := by
  simp [step, posedge, comb]

theorem beat_step : beat (step r s) =
    if (byState r s).mAxisTvalidNext then
      [⟨(byState r s).mAxisTdataNext, (byState r s).mAxisTlastNext, (byState r s).mAxisTuserNext⟩]
    else [] := by
  simp [beat, step, posedge, comb]

theorem step_crcState : (step r s).crcState =
    if (byState r s).resetCrc then 0xFFFFFFFF#32
    else if (byState r s).updateCrc then crcNext r
    else r.crcState := by
  simp [step, posedge, comb]

theorem passOn_of_rxDv (h : s.rxDv = true) (t : Stage) : t.passOn s = t := by
  simp [Stage.passOn, h]

theorem stream_step (h : s.rxDv = true) :
    stream (step r s).delay = (stream r.delay).tail ++ [s] := by
  simp [step_delay, Delay.gmii, stream, passOn_of_rxDv h]

/-- The end of a frame empties the delay. -/
theorem quiet_step (h : s.rxDv = false) (hn : (byState r s).stateNext = .idle) :
    Quiet (step r s) := by
  simp [Quiet, step_state, hn, step_delay, Delay.gmii, Stage.passOn, h]

theorem idle_step (h : r.state = .idle) (hs : isSfd r.delay.d4 = false) :
    (step r s).state = .idle ∧ beat (step r s) = [] := by
  simp [step_state, beat_step, byState, h, idle, hs, defaults]

theorem sfd_step (h : r.state = .idle) (hs : isSfd r.delay.d4 = true) :
    (step r s).state = .payload ∧ beat (step r s) = [] ∧ (step r s).crcState = 0xFFFFFFFF#32 := by
  simp [step_state, beat_step, step_crcState, byState, h, idle, hs, defaults]

theorem quiet_gap (hq : Quiet r) (h : s.rxDv = false) :
    Quiet (step r s) ∧ beat (step r s) = [] := by
  obtain ⟨hst, _, _, _, _, h4⟩ := hq
  have hs : isSfd r.delay.d4 = false := by simp [isSfd, h4]
  refine ⟨quiet_step h ?_, (idle_step hst hs).2⟩
  simp [byState, hst, idle, hs]

end Step

/-! ## Hunting for the start delimiter -/

theorem hunt {r : Reg} (h : r.state = .idle) (as bs xs : List Stage) {d : Stage}
    (hd : isSfd d = true) (has : ∀ a ∈ as, isSfd a = false) (hxs : ∀ x ∈ xs, x.rxDv = true)
    (hlen : xs.length = as.length + 1) (hstream : stream r.delay ++ xs = as ++ d :: bs) :
    (run step r xs).state = .payload ∧ stream (run step r xs).delay = bs ∧
      (run step r xs).crcState = 0xFFFFFFFF#32 ∧ received r xs = [] := by
  induction as generalizing r xs with
  | nil =>
    obtain ⟨x, rfl⟩ := List.length_eq_one_iff.mp hlen
    have hx : x.rxDv = true := hxs x List.mem_cons_self
    have h4 : r.delay.d4 = d := by simpa [stream] using congrArg List.head? hstream
    obtain ⟨hst, hbeat, hcrc⟩ := sfd_step (s := x) h (h4 ▸ hd)
    refine ⟨hst, ?_, hcrc, ?_⟩
    · have htail := congrArg List.tail hstream
      rw [List.tail_append_of_ne_nil (by simp [stream])] at htail
      exact (stream_step hx).trans htail
    · rw [received, emits_cons, hbeat]
      rfl
  | cons a as ih =>
    cases xs with
    | nil => simp at hlen
    | cons x xs =>
      have hx : x.rxDv = true := hxs x List.mem_cons_self
      have h4 : r.delay.d4 = a := by simpa [stream] using congrArg List.head? hstream
      have ha : isSfd r.delay.d4 = false := h4 ▸ has a List.mem_cons_self
      obtain ⟨hst, hbeat⟩ := idle_step (s := x) h ha
      have hnext : stream (step r x).delay ++ xs = as ++ d :: bs := by
        have htail := congrArg List.tail hstream
        rw [List.tail_append_of_ne_nil (by simp [stream])] at htail
        rw [stream_step hx, List.append_assoc]
        exact htail
      obtain ⟨h1, h2, h3, h4⟩ := ih hst _ (fun b hb => has b (List.mem_cons_of_mem a hb))
        (fun y hy => hxs y (List.mem_cons_of_mem x hy)) (by simpa using hlen) hnext
      refine ⟨h1, h2, h3, ?_⟩
      rw [received, emits_cons, hbeat]
      exact h4

/-! ## The bytes of a frame -/

def crcOf (c : BitVec 32) (bytes : List (BitVec 8)) : BitVec 32 :=
  bytes.foldl (fun s b => EthCrc.crcNext b s) c

/-- The frame check sequence as it is sent, least significant byte first. -/
def fcsBytes (c : BitVec 32) : List (BitVec 8) :=
  [~~~c.extractLsb' 0 8, ~~~c.extractLsb' 8 8, ~~~c.extractLsb' 16 8, ~~~c.extractLsb' 24 8]

theorem append_eq_iff (a b c d : BitVec 8) (v : BitVec 32) : d ++ c ++ b ++ a = v ↔
    a = v.extractLsb' 0 8 ∧ b = v.extractLsb' 8 8 ∧ c = v.extractLsb' 16 8 ∧
      d = v.extractLsb' 24 8 := by
  constructor
  · rintro rfl
    refine ⟨?_, ?_, ?_, ?_⟩
    all_goals
      apply BitVec.eq_of_getLsbD_eq
      intro i hi
      simp only [BitVec.getLsbD_extractLsb', BitVec.getLsbD_append]
      grind
  · rintro ⟨rfl, rfl, rfl, rfl⟩
    apply BitVec.eq_of_getLsbD_eq
    intro i hi
    simp only [BitVec.getLsbD_append, BitVec.getLsbD_extractLsb']
    grind

theorem not_extractLsb' (c : BitVec 32) {k : Nat} (hk : k + 8 ≤ 32) :
    ~~~c.extractLsb' k 8 = (~~~c).extractLsb' k 8 := by
  apply BitVec.eq_of_getLsbD_eq
  intro i hi
  have hlt : k + i < 32 := by omega
  simp [hi, hlt]

theorem fcs_iff (a b c d : BitVec 8) (v : BitVec 32) :
    d ++ c ++ b ++ a = ~~~v ↔ [a, b, c, d] = fcsBytes v := by
  rw [append_eq_iff, fcsBytes, not_extractLsb' v (by omega), not_extractLsb' v (by omega),
    not_extractLsb' v (by omega), not_extractLsb' v (by omega)]
  simp

section Payload
variable {r : Reg} {s : Stage} {b : BitVec 8}

theorem payload_step (h : r.state = .payload) (h4 : r.delay.d4 = data b) (hs : s.rxDv = true) :
    (step r s).state = .payload ∧ beat (step r s) = [⟨b, false, false⟩] ∧
      (step r s).crcState = EthCrc.crcNext b r.crcState := by
  simp [step_state, beat_step, step_crcState, byState, h, payload, h4, data, hs, defaults, crcNext]

theorem payload_end (h : r.state = .payload) {f0 f1 f2 f3 : BitVec 8}
    (hd : stream r.delay = [b, f0, f1, f2, f3].map data) (hs : s.rxDv = false) :
    Quiet (step r s) ∧ beat (step r s) =
      [⟨b, true, decide ([f0, f1, f2, f3] ≠ fcsBytes (EthCrc.crcNext b r.crcState))⟩] := by
  simp only [stream, List.map_cons, List.map_nil, List.cons.injEq, and_true] at hd
  obtain ⟨h4, h3, h2, h1, h0⟩ := hd
  have herr : fcsError r.delay = false := by simp [fcsError, h0, h1, h2, h3, data]
  have hfcs : (fcs r.delay = ~~~crcNext r) ↔
      [f0, f1, f2, f3] = fcsBytes (EthCrc.crcNext b r.crcState) := by
    rw [← fcs_iff]
    simp [fcs, crcNext, h0, h1, h2, h3, h4, data]
  by_cases hc : fcs r.delay = ~~~crcNext r
  · refine ⟨quiet_step hs ?_, ?_⟩
    · simp [byState, h, payload, h4, data, hs, herr, hc]
    · simp [beat_step, byState, h, payload, h4, data, hs, herr, hc, hfcs.mp hc]
  · have hn := mt hfcs.mpr hc
    refine ⟨quiet_step hs ?_, ?_⟩
    · simp [byState, h, payload, h4, data, hs, herr, hc]
    · simp [beat_step, byState, h, payload, h4, data, hs, herr, hc, hn]

end Payload

/-- The oldest symbol leaves first: a frame in payload is passed on up to its check. -/
theorem payload_run {r : Reg} (h : r.state = .payload) {p f : List (BitVec 8)} {xs : List Stage}
    {g : Stage} (hg : g.rxDv = false) (hf : f.length = 4) (hlen : xs.length + 1 = p.length)
    (hstream : stream r.delay ++ xs = (p ++ f).map data) :
    received r (xs ++ [g]) = beats (decide (f ≠ fcsBytes (crcOf r.crcState p))) p ∧
      Quiet (run step r (xs ++ [g])) := by
  induction xs generalizing r p with
  | nil =>
    obtain ⟨b, rfl⟩ := List.length_eq_one_iff.mp hlen.symm
    obtain ⟨f0, f1, f2, f3, rfl⟩ : ∃ f0 f1 f2 f3, f = [f0, f1, f2, f3] := by
      match f, hf with
      | [f0, f1, f2, f3], _ => exact ⟨f0, f1, f2, f3, rfl⟩
    obtain ⟨hq, hb⟩ := payload_end h (by simpa using hstream) hg
    refine ⟨?_, hq⟩
    rw [List.nil_append, received, emits_cons, hb]
    rfl
  | cons x xs ih =>
    obtain ⟨b, c, p, rfl⟩ : ∃ b c p', p = b :: c :: p' := by
      match p, hlen with
      | b :: c :: p', _ => exact ⟨b, c, p', rfl⟩
    have h4 : r.delay.d4 = data b := by simpa [stream] using congrArg List.head? hstream
    have hmem : x ∈ (b :: c :: p ++ f).map data := hstream ▸ by simp
    have hx : x.rxDv = true := rxDv_of_mem hmem
    obtain ⟨hst, hb, hcrc⟩ := payload_step h h4 hx
    have hnext : stream (step r x).delay ++ xs = (c :: p ++ f).map data := by
      have htail := congrArg List.tail hstream
      rw [List.tail_append_of_ne_nil (by simp [stream])] at htail
      rw [stream_step hx, List.append_assoc]
      exact htail
    obtain ⟨hrec, hq⟩ := ih hst (by simpa using hlen) hnext
    refine ⟨?_, hq⟩
    rw [List.cons_append, received, emits_cons, hb, ← received, hrec, hcrc]
    rfl

/-! ## Whole frames -/

/-- A frame on the wire: bytes before the delimiter, the payload, its check, and a gap. -/
def symbols (pre p f : List (BitVec 8)) (g : Stage) : List Stage :=
  (pre ++ ethSfd :: (p ++ f)).map data ++ [g]

theorem isSfd_data (b : BitVec 8) : isSfd (data b) = decide (b = ethSfd) := by
  simp [isSfd, data, beq_eq_decide]

theorem not_isSfd_stream {r : Reg} (hr : Quiet r) : ∀ a ∈ stream r.delay, isSfd a = false := by
  obtain ⟨_, h0, h1, h2, h3, h4⟩ := hr
  simp [stream, isSfd, h0, h1, h2, h3, h4]

theorem frame_run {r : Reg} (hr : Quiet r) {pre p f : List (BitVec 8)} {g : Stage}
    (hpre : ethSfd ∉ pre) (hp : p ≠ []) (hf : f.length = 4) (hg : g.rxDv = false) :
    received r (symbols pre p f g) = beats (decide (f ≠ fcsBytes (crcOf 0xFFFFFFFF#32 p))) p ∧
      Quiet (run step r (symbols pre p f g)) := by
  have hpos : 0 < p.length := List.length_pos_of_ne_nil hp
  have hlen : (p ++ f).length = p.length + 4 := by simp [hf]
  -- the delay is five symbols long: the first five bytes are in it when the payload starts
  obtain ⟨ws, xs, hsplit, hws⟩ : ∃ ws xs, p ++ f = ws ++ xs ∧ ws.length = 5 :=
    ⟨(p ++ f).take 5, (p ++ f).drop 5, (List.take_append_drop 5 _).symm, by
      rw [List.length_take]
      omega⟩
  have hsymbols : symbols pre p f g =
      (pre ++ ethSfd :: ws).map data ++ (xs.map data ++ [g]) := by
    simp [symbols, hsplit]
  have has : ∀ a ∈ stream r.delay ++ pre.map data, isSfd a = false := by
    intro a ha
    rcases List.mem_append.mp ha with ha | ha
    · exact not_isSfd_stream hr a ha
    · obtain ⟨b, hb, rfl⟩ := List.mem_map.mp ha
      have hne : b ≠ ethSfd := fun he => hpre (he ▸ hb)
      simp [isSfd_data, hne]
  obtain ⟨hst, hstream, hcrc, hnone⟩ := hunt (d := data ethSfd) hr.1
    (stream r.delay ++ pre.map data) (ws.map data) ((pre ++ ethSfd :: ws).map data)
    (by simp [isSfd_data]) has
    (fun _ => rxDv_of_mem) (by simp [stream, hws]) (by simp)
  have hxs : (xs.map data).length + 1 = p.length := by
    rw [hsplit, List.length_append] at hlen
    rw [List.length_map]
    omega
  obtain ⟨hrec, hq⟩ := payload_run (p := p) (f := f) hst hg hf hxs
    (by rw [hstream, ← List.map_append, ← hsplit])
  rw [hcrc] at hrec
  rw [hsymbols]
  constructor
  · rw [received_append, hnone, hrec, List.nil_append]
  · rw [run_append]
    exact hq

/-- What stands on the wire: a symbol outside of frames, or a frame and the gap after it. -/
inductive Item where
  | gap (g : Stage)
  | frame (pre p f : List (BitVec 8)) (g : Stage)

namespace Item

def WellFormed : Item → Prop
  | gap g => g.rxDv = false
  | frame pre p f g => ethSfd ∉ pre ∧ p ≠ [] ∧ f.length = 4 ∧ g.rxDv = false

def symbols : Item → List Stage
  | gap g => [g]
  | frame pre p f g => GmiiFrames.symbols pre p f g

/-- The payload, marked when its check is wrong. -/
def beats : Item → List Beat
  | gap _ => []
  | frame _ p f _ => GmiiFrames.beats (decide (f ≠ fcsBytes (crcOf 0xFFFFFFFF#32 p))) p

end Item

theorem item_run {r : Reg} (hr : Quiet r) {it : Item} (h : it.WellFormed) :
    received r it.symbols = it.beats ∧ Quiet (run step r it.symbols) := by
  cases it with
  | gap g =>
    obtain ⟨hq, hb⟩ := quiet_gap hr h
    refine ⟨?_, hq⟩
    rw [Item.symbols, received, emits_cons, hb]
    rfl
  | frame pre p f g =>
    obtain ⟨hpre, hp, hf, hg⟩ := h
    exact frame_run hr hpre hp hf hg

theorem items_run {r : Reg} (hr : Quiet r) {items : List Item} (h : ∀ it ∈ items, it.WellFormed) :
    received r (items.flatMap Item.symbols) = items.flatMap Item.beats ∧
      Quiet (run step r (items.flatMap Item.symbols)) := by
  induction items generalizing r with
  | nil => exact ⟨rfl, hr⟩
  | cons it items ih =>
    obtain ⟨hrec, hq⟩ := item_run hr (h it List.mem_cons_self)
    obtain ⟨hrec', hq'⟩ := ih hq fun j hj => h j (List.mem_cons_of_mem it hj)
    rw [List.flatMap_cons, List.flatMap_cons]
    constructor
    · rw [received_append, hrec, hrec']
    · rw [run_append]
      exact hq'

/-! ## Frames that have not ended -/

/-- No error in the delay, and no frame that is being thrown away. -/
def Sound (r : Reg) : Prop :=
  r.state ≠ .waitLast ∧ ∀ s ∈ stream r.delay, s.rxDv = true → s.rxEr = false

theorem Quiet.sound {r : Reg} (h : Quiet r) : Sound r := by
  obtain ⟨hst, h0, h1, h2, h3, h4⟩ := h
  simp [Sound, hst, stream, h0, h1, h2, h3, h4]

theorem sound_step {r : Reg} (h : Sound r) (b : BitVec 8) :
    Sound (step r (data b)) ∧ ∀ x ∈ beat (step r (data b)), x.tlast = false := by
  obtain ⟨hst, her⟩ := h
  have h4 : (r.delay.d4.rxDv && r.delay.d4.rxEr) = false := by
    have h4' := her r.delay.d4 (by simp [stream])
    cases hv : r.delay.d4.rxDv <;> simp [hv] at h4' ⊢
    exact h4'
  have hnext : ∀ s ∈ stream (step r (data b)).delay, s.rxDv = true → s.rxEr = false := by
    rw [stream_step rfl]
    intro s hs
    rcases List.mem_append.mp hs with hs | hs
    · exact her s (List.mem_of_mem_tail hs)
    · rw [List.mem_singleton.mp hs]
      intro _
      rfl
  cases hr : r.state with
  | idle =>
    cases hs : isSfd r.delay.d4 with
    | false =>
      obtain ⟨hst', hb⟩ := idle_step (s := data b) hr hs
      exact ⟨⟨by simp [hst'], hnext⟩, by simp [hb]⟩
    | true =>
      obtain ⟨hst', hb, _⟩ := sfd_step (s := data b) hr hs
      exact ⟨⟨by simp [hst'], hnext⟩, by simp [hb]⟩
  | payload =>
    refine ⟨⟨?_, hnext⟩, ?_⟩
    · simp [step_state, byState, hr, payload, h4, data]
    · simp [beat_step, byState, hr, payload, h4, data, defaults]
  | waitLast => exact absurd hr hst

theorem received_open {r : Reg} (h : Sound r) (bs : List (BitVec 8)) :
    ∀ x ∈ received r (bs.map data), x.tlast = false := by
  induction bs generalizing r with
  | nil => simp [received]
  | cons b bs ih =>
    obtain ⟨hs, hb⟩ := sound_step h b
    intro x hx
    rw [List.map_cons, received, emits_cons] at hx
    rcases List.mem_append.mp hx with hx | hx
    · exact hb x hx
    · exact ih hs x hx

theorem foldl_push_beats (bad : Bool) {bs : List (BitVec 8)} (h : bs ≠ []) (p : Packets Beat) :
    (beats bad bs).foldl (Packets.push Beat.tlast) p =
      ⟨p.closed ++ [p.rest ++ beats bad bs], []⟩ := by
  induction bs generalizing p with
  | nil => exact absurd rfl h
  | cons b bs ih =>
    cases bs with
    | nil => rfl
    | cons c bs =>
      rw [beats, List.foldl_cons, ih (by simp), Packets.push]
      simp

/-! ## Bursts of errors -/

/-- The bytes of a frame with the check that belongs to them. -/
def withFcs (p : List (BitVec 8)) : List (BitVec 8) := p ++ fcsBytes (crcOf 0xFFFFFFFF#32 p)

/-- `sent` and `got` differ in a window of at most 32 bits, in the order of the wire. -/
def Burst (sent got : List (BitVec 8)) : Prop :=
  ∃ as xs ys bs, EthCrc.bitsOf sent = as ++ xs ++ bs ∧ EthCrc.bitsOf got = as ++ ys ++ bs ∧
    xs.length = ys.length ∧ xs.length ≤ 32

theorem bitsOf_fcsBytes (c : BitVec 32) : EthCrc.bitsOf (fcsBytes c) = Crc.lsbFirst (~~~c) := by
  simp [EthCrc.bitsOf, fcsBytes, Crc.lsbFirst, List.range_succ]

theorem crcOf_eq (c : BitVec 32) (p : List (BitVec 8)) :
    crcOf c p = Crc.crc EthCrc.polynomial c (EthCrc.bitsOf p) := EthCrc.foldl_crcNext c p

theorem crc_withFcs (p : List (BitVec 8)) :
    Crc.crc EthCrc.polynomial 0xFFFFFFFF#32 (EthCrc.bitsOf (withFcs p)) =
      Crc.residue EthCrc.polynomial := by
  rw [withFcs, EthCrc.bitsOf_append, Crc.crc_append, bitsOf_fcsBytes, crcOf_eq,
    Crc.crc_complement]

/-- A check that is right after a burst was not hit, and neither were the bytes before it. -/
theorem fcs_right_iff {p p' f' : List (BitVec 8)} (hf : f'.length = 4)
    (hb : Burst (withFcs p) (p' ++ f')) :
    f' = fcsBytes (crcOf 0xFFFFFFFF#32 p') ↔ p' ++ f' = withFcs p := by
  constructor
  · rintro rfl
    obtain ⟨as, xs, ys, bs, hsent, hgot, hlen, hle⟩ := hb
    have hsame : Crc.crc EthCrc.polynomial 0xFFFFFFFF#32 (as ++ xs ++ bs) =
        Crc.crc EthCrc.polynomial 0xFFFFFFFF#32 (as ++ ys ++ bs) := by
      rw [← hsent, ← hgot, crc_withFcs, ← withFcs, crc_withFcs]
    have hxy : xs = ys := Crc.crc_burst EthCrc.polynomial_top _ hlen hle hsame
    apply EthCrc.bitsOf_inj
    rw [hsent, hgot, hxy]
  · intro h
    obtain ⟨rfl, rfl⟩ := List.append_inj' h (by simp [hf, fcsBytes])
    rfl

/-- A frame sent with the payload `sent`, as it arrives after a burst on its payload and check. -/
structure Arrival where
  idle : List Stage
  pre : List (BitVec 8)
  sent : List (BitVec 8)
  payload : List (BitVec 8)
  fcs : List (BitVec 8)
  gap : Stage
  idle_quiet : ∀ s ∈ idle, s.rxDv = false
  pre_ok : ethSfd ∉ pre
  payload_ne : payload ≠ []
  fcs_length : fcs.length = 4
  gap_quiet : gap.rxDv = false
  burst : Burst (withFcs sent) (payload ++ fcs)

namespace Arrival

def symbols (a : Arrival) : List Stage := a.idle ++ GmiiFrames.symbols a.pre a.payload a.fcs a.gap

def hit (a : Arrival) : Bool := decide (a.payload ++ a.fcs ≠ withFcs a.sent)

def items (a : Arrival) : List Item :=
  a.idle.map Item.gap ++ [Item.frame a.pre a.payload a.fcs a.gap]

theorem items_wellFormed (a : Arrival) : ∀ it ∈ a.items, it.WellFormed := by
  intro it hit
  rcases List.mem_append.mp hit with h | h
  · obtain ⟨s, hs, rfl⟩ := List.mem_map.mp h
    exact a.idle_quiet s hs
  · rw [List.mem_singleton.mp h]
    exact ⟨a.pre_ok, a.payload_ne, a.fcs_length, a.gap_quiet⟩

theorem flatMap_symbols (a : Arrival) : a.items.flatMap Item.symbols = a.symbols := by
  simp [items, symbols, List.flatMap_append, List.flatMap_map, Item.symbols]

theorem flatMap_beats (a : Arrival) : a.items.flatMap Item.beats = beats a.hit a.payload := by
  have hbad : decide (a.fcs ≠ fcsBytes (crcOf 0xFFFFFFFF#32 a.payload)) = a.hit := by
    rw [hit, decide_eq_decide]
    exact not_congr (fcs_right_iff a.fcs_length a.burst)
  have hidle : (a.idle.map Item.gap).flatMap Item.beats = [] := by
    simp [List.flatMap_map, Item.beats]
  rw [items, List.flatMap_append, hidle, List.flatMap_singleton, Item.beats, hbad, List.nil_append]

end Arrival

theorem quiet_reset (r : Reg) (i : Input) : Quiet (posedge true r i) :=
  ⟨rfl, rfl, rfl, rfl, rfl, rfl⟩

theorem received_arrivals {r : Reg} (hr : Quiet r) (as : List Arrival) :
    received r (as.flatMap Arrival.symbols) = as.flatMap fun a => beats a.hit a.payload := by
  have hwf : ∀ it ∈ as.flatMap Arrival.items, it.WellFormed := by
    intro it hit
    obtain ⟨a, _, ha⟩ := List.mem_flatMap.mp hit
    exact a.items_wellFormed it ha
  have hrun := (items_run hr hwf).1
  simpa only [List.flatMap_assoc, Arrival.flatMap_symbols, Arrival.flatMap_beats] using hrun

/-- Every frame arrives once and in order, and `tuser` of its last byte tells whether it was hit. -/
theorem burst_detected (r : Reg) (i : Input) (as : List Arrival) :
    received (posedge true r i) (as.flatMap Arrival.symbols) =
      as.flatMap fun a => beats a.hit a.payload :=
  received_arrivals (quiet_reset r i) as

end AdcCapture.GmiiFrames
