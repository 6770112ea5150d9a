import AdcCapture.AsyncGapless
import AdcCapture.MacLink

/-!
# The transmit half of eth_mac_1g_rgmii_fifo

`tx_fifo` in front of `axis_gmii_tx` at 1 Gb/s. Words come in with `logic_clk`,
the transmitter runs with `tx_clk`. It sees a source that keeps the first word of
a frame on offer and never pauses inside one.
-/

namespace AdcCapture.MacTransmit

open Clocked
open AxisAsyncFifo (Word Skew Event txFifo wordIn asyncRst Tracked Gapless cutFrames intact passed
  handed)
open Packets (Ends IsPacket)
set_option autoImplicit false

structure State where
  fifo : AxisAsyncFifo.Reg Word 15
  mac : AxisGmiiTx.Reg

/-- What is on the AXI input. -/
structure Input where
  word : Word
  tvalid : Bool

inductive Edge where
  | logic (i : Input)
  | tx
  | both (i : Input) (skew : Skew Word 15)

def fifoEvent (s : State) : Edge → Event Word 15 1
  | .logic i => .s (wordIn i.word i.tvalid)
  | .tx => .m s.mac.sAxisTready
  | .both i k => .both (wordIn i.word i.tvalid) s.mac.sAxisTready k

def macInput (s : State) : AxisGmiiTx.Input where
  sAxisTdata := s.fifo.m.mAxis.tdata
  sAxisTvalid := s.fifo.m.mAxisTvalid
  sAxisTlast := s.fifo.m.mAxis.tlast
  sAxisTuser := s.fifo.m.mAxis.tuser == 1#1
  clkEnable := true
  miiSelect := false

section Step
variable (cfg : AxisGmiiTx.Config) (s : State)

def macEdge : AxisGmiiTx.Reg := AxisGmiiTx.posedge cfg false s.mac (macInput s)

def step (e : Edge) : State where
  fifo := AxisAsyncFifo.step txFifo s.fifo (fifoEvent s e)
  mac := match e with
    | .logic _ => s.mac
    | .tx | .both _ _ => macEdge cfg s

/-- Any register contents after a clock of `tx_rst`, which is `async_rst` too. -/
def reset : State where
  fifo := asyncRst (AxisAsyncFifo.step txFifo (asyncRst s.fifo) (.m s.mac.sAxisTready))
  mac := AxisGmiiTx.posedge cfg true s.mac (macInput s)

/-- The symbols on the GMII pins, one for each edge of `tx_clk`. -/
def symbols (e : Edge) : List AxisGmiiRx.Stage :=
  match e with
  | .logic _ => []
  | .tx | .both _ _ => [MacLink.symbol (step cfg s e).mac]

def wire (es : List Edge) : List AxisGmiiRx.Stage := emits (step cfg) (symbols cfg) s es

end Step

abbrev Beat := AxisAsyncFifo.Beat Word

def accepted (s : State) (e : Edge) : List Beat :=
  AxisAsyncFifo.accepted txFifo s.fifo (fifoEvent s e)

/-- The words that the transmitter takes. -/
def taken (s : State) (e : Edge) : List Word := AxisAsyncFifo.delivered s.fifo (fifoEvent s e)

/-- The frames that `tx_fifo` does not drop. -/
def intactFrames (bs : List Beat) : List (List Word) :=
  ((cutFrames bs).closed.filter (intact 15)).map (List.map AxisAsyncFifo.Beat.word)

theorem passed_eq (bs : List Beat) : passed txFifo bs = (intactFrames bs).flatten := by
  rw [intactFrames, List.flatten_eq_flatMap, List.flatMap_map]
  rfl

/-! ## The words of intact frames -/

/-- The mark and the flag are those of the word. -/
def Tagged (b : Beat) : Prop := b.last = b.word.tlast ∧ b.bad = (b.word.tuser == 1#1)

theorem badFrame_wordIn (w : Word) (v : Bool) :
    AxisAsyncFifo.badFrame txFifo (wordIn w v) = (w.tuser == 1#1) := by
  have hall : ∀ t : BitVec 1, (1#1 &&& ~~~(t ^^^ 1#1) != 0#1) = (t == 1#1) := by decide
  exact hall w.tuser

theorem tagged_accepted (s : State) (e : Edge) : ∀ b ∈ accepted s e, Tagged b := by
  have htakes (i : Input) : ∀ b ∈ AxisAsyncFifo.takes txFifo s.fifo.s (wordIn i.word i.tvalid),
      Tagged b := by
    intro b hb
    simp only [AxisAsyncFifo.takes] at hb
    split at hb
    · rw [List.mem_singleton.mp hb]
      exact ⟨rfl, badFrame_wordIn i.word i.tvalid⟩
    · simp at hb
  cases e with
  | logic i => exact htakes i
  | tx => simp [accepted, fifoEvent, AxisAsyncFifo.accepted, Event.sInput]
  | both i k => exact htakes i

section Intact
variable {bs : List Beat} (hb : ∀ b ∈ bs, Tagged b)
include hb

theorem tagged_of_closed {f : List Beat} (hf : f ∈ (cutFrames bs).closed) : ∀ b ∈ f, Tagged b := by
  intro b hbf
  apply hb
  have hflat := Packets.flatten_closed AxisAsyncFifo.Beat.last bs
  rw [← hflat]
  exact List.mem_append_left _ (List.mem_flatten.mpr ⟨f, hf, hbf⟩)

theorem isPacket_intact : ∀ f ∈ intactFrames bs, IsPacket Word.tlast f := by
  intro f hf
  obtain ⟨g, hg, rfl⟩ := List.mem_map.mp hf
  have hclosed := (List.mem_filter.mp hg).1
  apply Packets.isPacket_map _ _ ((Packets.cut_packets bs).1 g hclosed)
  intro b hbg
  exact (tagged_of_closed hb hclosed b hbg).1.symm

theorem cut_passed : Packets.cut Word.tlast (passed txFifo bs) = ⟨intactFrames bs, []⟩ := by
  rw [passed_eq]
  exact Packets.cut_flatten (isPacket_intact hb)

/-- A frame whose last word is marked as bad has been dropped. -/
theorem tuser_of_intact {w : Word} (hw : w ∈ passed txFifo bs) (hl : w.tlast = true) :
    (w.tuser == 1#1) = false := by
  rw [passed_eq] at hw
  obtain ⟨f, hf, hwf⟩ := List.mem_flatten.mp hw
  obtain ⟨g, hg, rfl⟩ := List.mem_map.mp hf
  obtain ⟨b, hbg, rfl⟩ := List.mem_map.mp hwf
  obtain ⟨hclosed, hint⟩ := List.mem_filter.mp hg
  obtain ⟨hlast, hbad⟩ := tagged_of_closed hb hclosed b hbg
  obtain ⟨q, x, rfl, hopen, _⟩ := (Packets.cut_packets bs).1 g hclosed
  rcases List.mem_append.mp hbg with h | h
  · rw [← hlast, hopen b h] at hl
    cases hl
  · obtain rfl := List.mem_singleton.mp h
    have hgood : b.bad = false := by
      simp only [intact, Bool.and_eq_true] at hint
      simpa using hint.2
    rw [← hbad, hgood]

/-- If no frame is a single word, the first word of a frame is not its last. -/
theorem not_tlast_of_ends (hlong : ∀ f ∈ intactFrames bs, f.length ≠ 1) {out : List Word} {w : Word}
    (hw : out ++ [w] <+: passed txFifo bs) (he : Ends Word.tlast out) : w.tlast = false := by
  rw [← Bool.not_eq_true]
  intro hl
  have hclosed := Packets.isPrefix_closed Word.tlast hw
  have hrest := (Packets.rest_eq_nil_iff out).mpr he
  rw [cut_passed hb, Packets.cut_snoc, Packets.push, if_pos hl, hrest] at hclosed
  exact hlong [w] (hclosed.subset (by simp)) rfl

end Intact

/-! ## The FIFO as a source of frames -/

/-- Nothing is left from before the reset, and what the FIFO gives are whole frames. -/
structure Feeding (s : State) (bs : List Beat) (out : List Word) : Prop where
  tracked : Tracked txFifo s.fifo bs out
  gapless : Gapless txFifo Word.tlast s.fifo out
  quiet : s.fifo.m.mRstSync3 = true → s.fifo.m.mAxisTvalid = false
  tagged : ∀ b ∈ bs, Tagged b

theorem quiet_step {r : AxisAsyncFifo.Reg Word 15} {bs : List Beat} {out : List Word}
    (h : Tracked txFifo r bs out) (hq : r.m.mRstSync3 = true → r.m.mAxisTvalid = false)
    (e : Event Word 15 1) : (AxisAsyncFifo.step txFifo r e).m.mRstSync3 = true →
      (AxisAsyncFifo.step txFifo r e).m.mAxisTvalid = false := by
  rcases h with ⟨hst, _, _⟩ | ⟨C, P, n, hinv, _⟩
  · intro _
    cases e with
    | s i => exact hq hst.m3
    | m t | both i t k => simp [AxisAsyncFifo.step, AxisAsyncFifo.mEdge, hst.m3]
  · intro h3
    cases e with
    | s i => exact hq h3
    | m t =>
      obtain ⟨n', _, hnext⟩ := AxisAsyncFifo.inv_mEdge (t := t) hinv
        (AxisAsyncFifo.fair_old hinv) (AxisAsyncFifo.sent_le_stored hinv)
        (AxisAsyncFifo.getElem?_of_read hinv)
      exact (hnext.m.resting h3).2.2.2.2.2.2.2
    | both i t k =>
      obtain ⟨n', p, _, _, hnext⟩ := AxisAsyncFifo.inv_both hinv i t k
      exact (hnext.m.resting h3).2.2.2.2.2.2.2

theorem feeding_step {cfg : AxisGmiiTx.Config} {s : State} {bs : List Beat} {out : List Word}
    (h : Feeding s bs out) (e : Edge) :
    Feeding (step cfg s e) (bs ++ accepted s e) (out ++ taken s e) := by
  constructor
  case tracked => exact AxisAsyncFifo.tracked_step rfl h.tracked _
  case gapless =>
    apply AxisAsyncFifo.gapless_step rfl h.gapless
    cases e with
    | logic i | both i k =>
      rintro j ⟨⟩
      rfl
    | tx => simp [AxisAsyncFifo.Packed, fifoEvent, Event.sInput]
  case quiet => exact quiet_step h.tracked h.quiet _
  case tagged =>
    intro b hb
    rcases List.mem_append.mp hb with hb | hb
    · exact h.tagged b hb
    · exact tagged_accepted s e b hb

section Feeding
variable {s : State} {bs : List Beat} {out : List Word} (h : Feeding s bs out)
include h

theorem handed_eq (t : Bool) : handed s.fifo.m t =
    if s.fifo.m.mAxisTvalid && t then [s.fifo.m.mAxis] else [] := by
  have hq := h.quiet
  rw [AxisAsyncFifo.handed]
  cases hv : s.fifo.m.mAxisTvalid with
  | false => simp
  | true =>
    have h3 : s.fifo.m.mRstSync3 = false := by
      rw [← Bool.not_eq_true]
      intro h3
      rw [hq h3] at hv
      cases hv
    simp [h3]

theorem isPrefix_offered (hv : s.fifo.m.mAxisTvalid = true) :
    out ++ [s.fifo.m.mAxis] <+: passed txFifo bs := by
  rcases h.tracked with ⟨hst, _, _⟩ | ⟨C, P, n, hinv, hk⟩
  · rw [h.quiet hst.m3] at hv
    cases hv
  · have hdata := hinv.data
    rw [AxisAsyncFifo.waiting, if_pos hv, ← List.append_assoc] at hdata
    rw [← hk.stored]
    apply (List.prefix_append _ _).trans
    · rw [← hdata]
      exact List.take_prefix _ _

/-- Inside a frame the next word is on offer. -/
theorem offered_of_open (ho : ¬ Ends Word.tlast out) : s.fifo.m.mAxisTvalid = true := by
  rcases h.gapless with ⟨_, rfl⟩ | ⟨C, P, n, _, hw⟩
  · exact absurd Packets.ends_nil ho
  · exact hw.offered ho

end Feeding

/-- A word on offer that is not taken stays there. -/
theorem held_mEdge {m : AxisAsyncFifo.MReg Word 15} {y : AxisAsyncFifo.FromS 15} {w : Word}
    (hv : m.mAxisTvalid = true) (h3 : m.mRstSync3 = false) :
    (AxisAsyncFifo.mEdge txFifo m false y w).mAxisTvalid = true ∧
      (AxisAsyncFifo.mEdge txFifo m false y w).mAxis = m.mAxis := by
  simp [AxisAsyncFifo.mEdge, AxisAsyncFifo.storeOutput, hv, h3]

/-! ## The transmitter behind it -/

/-- What the transmitter sees at an edge of `tx_clk`. -/
def offer (s : State) : TxDone.Offer where
  tvalid := s.fifo.m.mAxisTvalid
  tdata := s.fifo.m.mAxis.tdata
  tlast := s.fifo.m.mAxis.tlast
  tuser := s.fifo.m.mAxis.tuser == 1#1

def offers (s : State) (e : Edge) : List TxDone.Offer :=
  match e with
  | .logic _ => []
  | .tx | .both _ _ => [offer s]

/-- The transmitter in `t` has the FIFO as its source. -/
structure Linked (s : State) (t : TxDone.State) (out : List Word) : Prop where
  mac : t.mac = s.mac
  inFrame : t.source.inFrame = true ↔ ¬ Ends Word.tlast out
  first : ∀ b ∈ t.source.first, s.fifo.m.mAxisTvalid = true ∧ s.fifo.m.mAxis.tdata = b

/-- `s_axis_tlast` does not matter without `s_axis_tvalid`. -/
theorem posedge_tlast (cfg : AxisGmiiTx.Config) (r : AxisGmiiTx.Reg) {i : AxisGmiiTx.Input}
    (hv : i.sAxisTvalid = false) (l : Bool) :
    AxisGmiiTx.posedge cfg false r { i with sAxisTlast := l } =
      AxisGmiiTx.posedge cfg false r i := by
  have hstate : AxisGmiiTx.byState cfg r { i with sAxisTlast := l } =
      AxisGmiiTx.byState cfg r i := by
    unfold AxisGmiiTx.byState
    cases r.state with
    | payload => simp [AxisGmiiTx.payload, hv]
    | waitEnd => simp [AxisGmiiTx.waitEnd, hv]
    | idle | preamble | last | pad | fcs | ifg => rfl
  have hcomb : AxisGmiiTx.comb cfg r { i with sAxisTlast := l } = AxisGmiiTx.comb cfg r i := by
    simp only [AxisGmiiTx.comb, hstate]
  simp only [AxisGmiiTx.posedge, hcomb]

section Linked
variable {cfg : AxisGmiiTx.Config} {s : State} {t : TxDone.State} {bs : List Beat}
  {out : List Word} (h : Feeding s bs out) (hl : Linked s t out)
include hl

theorem macInput_eq : TxDone.macInput t (offer s) =
    { macInput s with sAxisTlast := t.source.inFrame && s.fifo.m.mAxis.tlast } := by
  have hfirst := hl.first
  cases hf : t.source.first with
  | none => simp [TxDone.macInput, TxDone.Source.input, offer, macInput, hf]
  | some b =>
    obtain ⟨hv, hd⟩ := hfirst b hf
    simp [TxDone.macInput, TxDone.Source.input, offer, macInput, hf, hv, hd]

include h

theorem clean : MacLink.Clean t (offer s) := by
  intro hf
  have hv := offered_of_open h (hl.inFrame.mp hf)
  refine ⟨hv, ?_⟩
  intro hlast
  apply tuser_of_intact h.tagged ((isPrefix_offered h hv).subset _) hlast
  simp

variable (hlong : ∀ f ∈ intactFrames bs, f.length ≠ 1)
include hlong

theorem tlast_eq (hv : s.fifo.m.mAxisTvalid = true) :
    (t.source.inFrame && s.fifo.m.mAxis.tlast) = s.fifo.m.mAxis.tlast := by
  cases hf : t.source.inFrame with
  | true => simp
  | false =>
    have hends : Ends Word.tlast out := by
      by_contra hne
      rw [hl.inFrame.mpr hne] at hf
      cases hf
    rw [not_tlast_of_ends h.tagged hlong (isPrefix_offered h hv) hends]
    rfl

theorem macEdge_eq : (TxDone.step cfg t (offer s)).mac = macEdge cfg s := by
  rw [TxDone.step, macInput_eq hl, hl.mac, macEdge]
  cases hv : s.fifo.m.mAxisTvalid with
  | false => exact posedge_tlast cfg s.mac hv _
  | true =>
    rw [tlast_eq h hl hlong hv]
    rfl

theorem acceptedByte_eq : MacLink.acceptedByte t (offer s) =
    (handed s.fifo.m s.mac.sAxisTready).map fun w => (w.tdata, w.tlast) := by
  rw [handed_eq h, MacLink.acceptedByte, macInput_eq hl, hl.mac]
  cases hv : s.fifo.m.mAxisTvalid with
  | false => simp [macInput, hv]
  | true =>
    rw [tlast_eq h hl hlong hv]
    cases s.mac.sAxisTready <;> simp [macInput, hv]

theorem linked_tx {y : AxisAsyncFifo.FromS 15} {w : Word} {s' : State}
    (hm : s'.fifo.m = AxisAsyncFifo.mEdge txFifo s.fifo.m s.mac.sAxisTready y w)
    (hmac : s'.mac = macEdge cfg s) :
    Linked s' (TxDone.step cfg t (offer s)) (out ++ handed s.fifo.m s.mac.sAxisTready) := by
  have hsame : (TxDone.step cfg t (offer s)).mac = macEdge cfg s := macEdge_eq h hl hlong
  have hin : t.source.input (offer s) = _ := macInput_eq hl
  have hstep : (TxDone.step cfg t (offer s)).source =
      t.source.step s.mac.sAxisTready (offer s) := by
    rw [← hl.mac]
    rfl
  have hvalid : (t.source.input (offer s)).sAxisTvalid = s.fifo.m.mAxisTvalid := by
    rw [hin]
    rfl
  have hhand := handed_eq h s.mac.sAxisTready
  cases ha : s.mac.sAxisTready && s.fifo.m.mAxisTvalid with
  | true =>
    obtain ⟨hr, hv⟩ := Bool.and_eq_true_iff.mp ha
    have htlast : (t.source.input (offer s)).sAxisTlast = s.fifo.m.mAxis.tlast := by
      rw [hin]
      exact tlast_eq h hl hlong hv
    have hsrc : (TxDone.step cfg t (offer s)).source = ⟨!s.fifo.m.mAxis.tlast, none⟩ := by
      rw [hstep, TxDone.Source.step, hvalid, ha, htlast, if_pos rfl]
    rw [hr, hv, Bool.and_self, if_pos rfl] at hhand
    refine ⟨hsame.trans hmac.symm, ?_, by simp [hsrc]⟩
    rw [hsrc, hr, hhand, Packets.ends_snoc]
    simp
  | false =>
    have hnone : handed s.fifo.m s.mac.sAxisTready = [] := by
      rw [hhand, Bool.and_comm, ha]
      rfl
    have hheld (hv : s.fifo.m.mAxisTvalid = true) : s'.fifo.m.mAxisTvalid = true ∧
        s'.fifo.m.mAxis = s.fifo.m.mAxis := by
      have hr : s.mac.sAxisTready = false := by simpa [hv] using ha
      have h3 : s.fifo.m.mRstSync3 = false := by
        rw [← Bool.not_eq_true]
        intro h3
        simp [h.quiet h3] at hv
      rw [hm, hr]
      exact held_mEdge hv h3
    have hsrc : (TxDone.step cfg t (offer s)).source = if t.source.inFrame then t.source
        else ⟨false, if s.fifo.m.mAxisTvalid then some s.fifo.m.mAxis.tdata else none⟩ := by
      rw [hstep, TxDone.Source.step, hvalid, ha, hin, if_neg Bool.false_ne_true]
      rfl
    rw [hnone, List.append_nil]
    refine ⟨hsame.trans hmac.symm, ?_, ?_⟩
    · rw [hsrc, ← hl.inFrame]
      cases hf : t.source.inFrame <;> simp [hf]
    · intro b hb
      rw [hsrc] at hb
      cases hf : t.source.inFrame with
      | true =>
        rw [hf, if_pos rfl] at hb
        obtain ⟨hv, hd⟩ := hl.first b hb
        rw [(hheld hv).2]
        exact ⟨(hheld hv).1, hd⟩
      | false =>
        cases hv : s.fifo.m.mAxisTvalid with
        | false => simp [hf, hv] at hb
        | true =>
          rw [(hheld hv).2]
          refine ⟨(hheld hv).1, ?_⟩
          simpa [hf, hv] using hb

end Linked

/-! ## Runs -/

/-- The run of the transmitter that a run of both is. -/
structure Simulated (cfg : AxisGmiiTx.Config) (s : State) (t : TxDone.State) (es : List Edge) :
    Prop where
  feeding : Feeding (run (step cfg) s es) (emits (step cfg) accepted s es)
    (emits (step cfg) taken s es)
  linked : Linked (run (step cfg) s es) (run (TxDone.step cfg) t (emits (step cfg) offers s es))
    (emits (step cfg) taken s es)
  clean : Always (TxDone.step cfg) MacLink.Clean t (emits (step cfg) offers s es)
  wire : MacLink.wire cfg t (emits (step cfg) offers s es) = wire cfg s es
  bytes : emits (TxDone.step cfg) MacLink.acceptedByte t (emits (step cfg) offers s es) =
    (emits (step cfg) taken s es).map fun w => (w.tdata, w.tlast)

theorem isPrefix_intactFrames (bs cs : List Beat) :
    intactFrames bs <+: intactFrames (bs ++ cs) := by
  have hclosed := Packets.isPrefix_closed AxisAsyncFifo.Beat.last
    (List.prefix_append bs cs)
  exact (hclosed.filter _).map _

section Run
variable {cfg : AxisGmiiTx.Config} {s : State} {t : TxDone.State} {es : List Edge}

theorem simulated_logic (h : Simulated cfg s t es) (i : Input) :
    Simulated cfg s t (es ++ [.logic i]) := by
  have hoffers : emits (step cfg) offers s (es ++ [.logic i]) = emits (step cfg) offers s es := by
    rw [emits_snoc]
    exact List.append_nil _
  have htaken : emits (step cfg) taken s (es ++ [.logic i]) = emits (step cfg) taken s es := by
    rw [emits_snoc]
    exact List.append_nil _
  constructor
  case feeding =>
    rw [run_snoc, emits_snoc, emits_snoc]
    exact feeding_step h.feeding _
  case linked =>
    rw [run_snoc, hoffers, htaken]
    exact ⟨h.linked.mac, h.linked.inFrame, h.linked.first⟩
  case clean =>
    rw [hoffers]
    exact h.clean
  case wire =>
    rw [hoffers, h.wire, wire, wire, emits_snoc]
    exact (List.append_nil _).symm
  case bytes =>
    rw [hoffers, htaken]
    exact h.bytes

theorem simulated_tx (h : Simulated cfg s t es)
    (hlong : ∀ f ∈ intactFrames (emits (step cfg) accepted s es), f.length ≠ 1) (e : Edge)
    (ho : offers (run (step cfg) s es) e = [offer (run (step cfg) s es)])
    (ht : taken (run (step cfg) s es) e =
      handed (run (step cfg) s es).fifo.m (run (step cfg) s es).mac.sAxisTready)
    (hmac : (step cfg (run (step cfg) s es) e).mac = macEdge cfg (run (step cfg) s es))
    (hw : symbols cfg (run (step cfg) s es) e =
      [MacLink.symbol (step cfg (run (step cfg) s es) e).mac])
    (hm : ∃ y w, (step cfg (run (step cfg) s es) e).fifo.m =
      AxisAsyncFifo.mEdge txFifo (run (step cfg) s es).fifo.m
        (run (step cfg) s es).mac.sAxisTready y w) :
    Simulated cfg s t (es ++ [e]) := by
  obtain ⟨y, w, hm⟩ := hm
  have hedge : (TxDone.step cfg (run (TxDone.step cfg) t (emits (step cfg) offers s es))
      (offer (run (step cfg) s es))).mac = macEdge cfg (run (step cfg) s es) :=
    macEdge_eq h.feeding h.linked hlong
  constructor
  case feeding =>
    rw [run_snoc, emits_snoc, emits_snoc]
    exact feeding_step h.feeding _
  case linked =>
    rw [run_snoc, emits_snoc, emits_snoc, ho, ht, run_snoc]
    exact linked_tx h.feeding h.linked hlong hm hmac
  case clean =>
    rw [emits_snoc, ho, always_snoc]
    exact ⟨h.clean, clean h.feeding h.linked⟩
  case wire =>
    have hbefore := h.wire
    rw [MacLink.wire, wire] at hbefore ⊢
    rw [emits_snoc, emits_snoc, ho, emits_snoc, hw, hbefore, hmac, hedge]
  case bytes =>
    rw [emits_snoc, ho, emits_snoc, emits_snoc, ht, h.bytes, List.map_append]
    rw [acceptedByte_eq h.feeding h.linked hlong]

theorem simulated_reset (cfg : AxisGmiiTx.Config) (s : State) :
    Simulated cfg (reset cfg s) (TxDone.reset cfg s.mac (macInput s)) [] := by
  constructor
  case feeding =>
    constructor
    case tracked => exact .inl ⟨AxisAsyncFifo.starting_asyncRst _, rfl, rfl⟩
    case gapless => exact .inl ⟨AxisAsyncFifo.starting_asyncRst _, rfl⟩
    case quiet =>
      intro _
      simp [reset, asyncRst, AxisAsyncFifo.step, AxisAsyncFifo.mEdge]
    case tagged => simp
  case linked =>
    constructor
    case mac => rfl
    case inFrame => simp [TxDone.reset, Packets.ends_nil]
    case first => simp [TxDone.reset]
  case clean => exact always_nil _
  case wire => rfl
  case bytes => rfl

theorem simulated_run (cfg : AxisGmiiTx.Config) (s : State) {es : List Edge}
    (hlong : ∀ f ∈ intactFrames (emits (step cfg) accepted (reset cfg s) es), f.length ≠ 1) :
    Simulated cfg (reset cfg s) (TxDone.reset cfg s.mac (macInput s)) es := by
  induction es using List.reverseRecOn with
  | nil => exact simulated_reset cfg s
  | append_singleton es e ih =>
    rw [emits_snoc] at hlong
    have hbefore : ∀ f ∈ intactFrames (emits (step cfg) accepted (reset cfg s) es),
        f.length ≠ 1 := by
      intro f hf
      exact hlong f ((isPrefix_intactFrames _ _).subset hf)
    have hsim := ih hbefore
    cases e with
    | logic i => exact simulated_logic hsim i
    | tx => exact simulated_tx hsim hbefore .tx rfl rfl rfl rfl ⟨_, _, rfl⟩
    | both i k => exact simulated_tx hsim hbefore (.both i k) rfl rfl rfl rfl ⟨_, _, rfl⟩

/-- The frames that the transmitter has taken whole. -/
theorem frames_taken (h : Simulated cfg s t es) :
    MacLink.frames (MacLink.accepted cfg t (emits (step cfg) offers s es)) =
      (Packets.cut Word.tlast (emits (step cfg) taken s es)).closed.map (List.map Word.tdata) := by
  have hcut := Packets.cut_map Word.tlast (fun b => b.2) (fun w => (w.tdata, w.tlast))
    (fun _ => rfl) (emits (step cfg) taken s es)
  have hfst : List.map Prod.fst ∘ List.map (fun w : Word => (w.tdata, w.tlast)) =
      List.map Word.tdata := by
    funext f
    simp [Function.comp_def]
  rw [MacLink.accepted, h.bytes, MacLink.frames, hcut, List.map_map, hfst]

/--
A receiver at the wire passes on the intact frames with their padding, in order and
as far as they have come; all of them, and nothing else, once the FIFO is drained
and the transmitter rests.
-/
theorem transmit_delivers (hcrc : cfg.crcNext = EthCrc.crcNext) (s : State)
    (rx : AxisGmiiRx.Reg) (rxi : AxisGmiiRx.Input) {es : List Edge}
    (hlong : ∀ f ∈ intactFrames (emits (step cfg) accepted (reset cfg s) es), f.length ≠ 1) :
    let frames := intactFrames (emits (step cfg) accepted (reset cfg s) es)
    let sent := frames.map fun f => MacLink.delivered cfg (f.map Word.tdata)
    let got := Packets.cut GmiiFrames.Beat.tlast
      (GmiiFrames.received (AxisGmiiRx.posedge true rx rxi) (wire cfg (reset cfg s) es))
    got.closed <+: sent ∧
      (emits (step cfg) taken (reset cfg s) es = frames.flatten →
        (run (step cfg) (reset cfg s) es).mac.state = .idle →
          got.closed = sent ∧ got.rest = []) := by
  intro frames sent got
  have hsim := simulated_run cfg s hlong
  have hlink := MacLink.received_sent (MacLink.sent_run hcrc s.mac (macInput s) hsim.clean)
    (MacLink.frames_ne_nil _) (GmiiFrames.quiet_reset rx rxi)
  rw [hsim.wire] at hlink
  obtain ⟨⟨flying, hflying, _⟩, hrest⟩ := hlink
  have hsent : sent = (frames.map (List.map Word.tdata)).map (MacLink.delivered cfg) := by
    rw [List.map_map]
    rfl
  constructor
  · have hclosed := Packets.isPrefix_closed Word.tlast hsim.feeding.tracked.prefix_passed
    rw [cut_passed hsim.feeding.tagged] at hclosed
    have hpart := (hclosed.map (List.map Word.tdata)).map (MacLink.delivered cfg)
    rw [← frames_taken hsim, hflying, ← hsent] at hpart
    exact (List.prefix_append _ _).trans hpart
  · intro hall hidle
    have hmac := hsim.linked.mac
    obtain ⟨hclosed, hnone⟩ := hrest (by rw [TxDone.resting, hmac, hidle])
    refine ⟨?_, hnone⟩
    rw [frames_taken hsim, hall, ← passed_eq, cut_passed hsim.feeding.tagged, ← hsent] at hclosed
    exact hclosed.symm

end Run

/-- A frame of two words, and the clocks that it needs. -/
def twoWords : List Edge :=
  List.replicate 3 (.both ⟨⟨1#8, true, 0#1⟩, false⟩ AxisAsyncFifo.noSkew) ++
    .both ⟨⟨5#8, false, 0#1⟩, true⟩ AxisAsyncFifo.noSkew ::
    .both ⟨⟨6#8, true, 0#1⟩, true⟩ AxisAsyncFifo.noSkew ::
      List.replicate 26 (.both ⟨⟨1#8, true, 0#1⟩, false⟩ AxisAsyncFifo.noSkew)

theorem transmit_delivers_twoWords :
    (Packets.cut GmiiFrames.Beat.tlast (GmiiFrames.received
      (AxisGmiiRx.posedge true MacLink.someRxReg ⟨GmiiFrames.data 0#8, true, false⟩)
      (wire MacLink.ethConfig (reset MacLink.ethConfig ⟨AxisAsyncFifo.someFifo, MacLink.someReg⟩)
        twoWords))).closed = [MacLink.delivered MacLink.ethConfig [5#8, 6#8]] := by
  have hframes : intactFrames (emits (step MacLink.ethConfig) accepted
      (reset MacLink.ethConfig ⟨AxisAsyncFifo.someFifo, MacLink.someReg⟩) twoWords) =
      [[⟨5#8, false, 0#1⟩, ⟨6#8, true, 0#1⟩]] := by
    decide +kernel
  have hlong : ∀ f ∈ intactFrames (emits (step MacLink.ethConfig) accepted
      (reset MacLink.ethConfig ⟨AxisAsyncFifo.someFifo, MacLink.someReg⟩) twoWords),
      f.length ≠ 1 := by
    rw [hframes]
    decide
  obtain ⟨hgot, _⟩ := (transmit_delivers rfl ⟨AxisAsyncFifo.someFifo, MacLink.someReg⟩
    MacLink.someRxReg ⟨GmiiFrames.data 0#8, true, false⟩ hlong).2
      (by rw [hframes]; decide +kernel) (by decide +kernel)
  rw [hgot, hframes]
  rfl

end AdcCapture.MacTransmit
