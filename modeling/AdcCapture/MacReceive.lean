import AdcCapture.AsyncProgress
import AdcCapture.GmiiFrames

/-!
# The receive half of eth_mac_1g_rgmii_fifo

`axis_gmii_rx` at 1 Gb/s in front of `rx_fifo`. The receiver cannot wait: the
`s_axis_tready` of the FIFO is left open, so a byte that finds it full is lost.
-/

namespace AdcCapture.MacReceive

open Clocked
open AxisAsyncFifo (Word Skew Event Side Config wordIn asyncRst Tracked Ranked Rank passed cutFrames
  intact)
open AxisGmiiRx (Stage)
open GmiiFrames (Arrival beat received)
set_option autoImplicit false

structure State where
  rx : AxisGmiiRx.Reg
  fifo : AxisAsyncFifo.Reg Word 12

/-- Only the depth is its own: the instance names the parameters of `tx_fifo` again. -/
def rxFifo : Config 12 1 where
  frameFifo := AxisAsyncFifo.txFifo.frameFifo
  dropBadFrame := AxisAsyncFifo.txFifo.dropBadFrame
  dropWhenFull := AxisAsyncFifo.txFifo.dropWhenFull
  userBadFrameValue := 1#1
  userBadFrameMask := 1#1
  bad_frame := AxisAsyncFifo.txFifo.bad_frame
  when_full := AxisAsyncFifo.txFifo.when_full
  bad_mask := AxisAsyncFifo.txFifo.bad_mask
  addr_width := Nat.succ_lt_succ (Nat.succ_pos 10)

inductive Edge where
  | rx (gmii : Stage)
  | logic (tready : Bool)
  | both (gmii : Stage) (tready : Bool) (skew : Skew Word 12)

def word (b : GmiiFrames.Beat) : Word := ⟨b.tdata, b.tlast, BitVec.ofBool b.tuser⟩

section Step
variable (s : State)

/-- What the receiver puts before the FIFO. -/
def fifoInput : AxisAsyncFifo.SInput Word 1 :=
  wordIn (word ⟨s.rx.mAxisTdata, s.rx.mAxisTlast, s.rx.mAxisTuser⟩) s.rx.mAxisTvalid

def fifoEvent : Edge → Event Word 12 1
  | .rx _ => .s (fifoInput s)
  | .logic t => .m t
  | .both _ t k => .both (fifoInput s) t k

def step (e : Edge) : State where
  rx := match e with
    | .logic _ => s.rx
    | .rx g | .both g _ _ => GmiiFrames.step s.rx g
  fifo := AxisAsyncFifo.step rxFifo s.fifo (fifoEvent s e)

def accepted (e : Edge) : List (AxisAsyncFifo.Beat Word) :=
  AxisAsyncFifo.accepted rxFifo s.fifo (fifoEvent s e)

def delivered (e : Edge) : List Word := AxisAsyncFifo.delivered s.fifo (fifoEvent s e)

/-- No byte comes while the FIFO is full. -/
def Heard (e : Edge) : Prop :=
  match e with
  | .logic _ => True
  | .rx _ | .both _ _ _ => s.rx.mAxisTvalid = true →
      AxisAsyncFifo.sAxisTready rxFifo s.fifo.s = true

instance (e : Edge) : Decidable (Heard s e) :=
  match e with
  | .logic _ => isTrue trivial
  | .rx _ | .both _ _ _ => inferInstanceAs (Decidable (_ → _))

end Step

/-- Any register contents after a clock of `rx_rst`, which is `async_rst` too. -/
def reset (rx : AxisGmiiRx.Reg) (i : AxisGmiiRx.Input) (fifo : AxisAsyncFifo.Reg Word 12) : State :=
  ⟨AxisGmiiRx.posedge true rx i, asyncRst fifo⟩

namespace Edge

/-- The symbol on the GMII pins. -/
def symbol : Edge → List Stage
  | rx g | both g _ _ => [g]
  | logic _ => []

def tready : Edge → Option Bool
  | rx _ => none
  | logic t | both _ t _ => some t

def ticks : Edge → Side → Prop
  | rx _, k => k = .s
  | logic _, k => k = .m
  | both _ _ _, _ => True

end Edge

def wire (es : List Edge) : List Stage := es.flatMap Edge.symbol

/-- The words of the frames that were not hit and fit into the FIFO. -/
def undamaged (as : List Arrival) : List Word :=
  (as.filter fun a => !a.hit && decide (a.payload.length ≤ 2 ^ 12)).flatMap
    fun a => (GmiiFrames.beats false a.payload).map word

/-! ## From the wire into the FIFO -/

def tagged (b : GmiiFrames.Beat) : AxisAsyncFifo.Beat Word := ⟨word b, b.tlast, b.tuser⟩

theorem badFrame_word (b : GmiiFrames.Beat) (v : Bool) :
    AxisAsyncFifo.badFrame rxFifo (wordIn (word b) v) = b.tuser := by
  have hall : ∀ u : Bool, (1#1 &&& ~~~(BitVec.ofBool u ^^^ 1#1) != 0#1) = u := by decide
  exact hall b.tuser

/-- What a clock puts into the FIFO, the receiver had in its output register. -/
theorem accepted_step (s : State) (e : Edge) (h : Heard s e) :
    accepted s e ++ (beat (step s e).rx).map tagged =
      (beat s.rx).map tagged ++ (received s.rx e.symbol).map tagged := by
  have htakes (hr : s.rx.mAxisTvalid = true →
      AxisAsyncFifo.sAxisTready rxFifo s.fifo.s = true) :
      AxisAsyncFifo.takes rxFifo s.fifo.s (fifoInput s) = (beat s.rx).map tagged := by
    rw [AxisAsyncFifo.takes, AxisAsyncFifo.transfer, beat]
    cases hv : s.rx.mAxisTvalid with
    | false => simp [fifoInput, wordIn, hv]
    | true =>
      have hbad := badFrame_word ⟨s.rx.mAxisTdata, s.rx.mAxisTlast, s.rx.mAxisTuser⟩ true
      simp [fifoInput, hr hv, wordIn, hv, tagged, word] at hbad ⊢
      exact hbad
  cases e with
  | logic t =>
    have hnone : accepted s (.logic t) = [] := rfl
    simp [hnone, step, Edge.symbol, received]
  | rx g | both g t k =>
    have hacc := htakes h
    have hgot : received s.rx [g] = beat (GmiiFrames.step s.rx g) := by
      simp [received, emits_cons]
    simp only [Edge.symbol, hgot, step]
    rw [← hacc]
    rfl

theorem received_run (s : State) (es : List Edge) :
    emits step (fun s e => (received s.rx e.symbol).map tagged) s es =
      (received s.rx (wire es)).map tagged ∧
    (run step s es).rx = run GmiiFrames.step s.rx (wire es) := by
  induction es generalizing s with
  | nil => exact ⟨rfl, rfl⟩
  | cons e es ih =>
    obtain ⟨hrec, hrun⟩ := ih (step s e)
    have hrx : (step s e).rx = run GmiiFrames.step s.rx e.symbol := by
      cases e <;> rfl
    have hwire : wire (e :: es) = e.symbol ++ wire es := List.flatMap_cons
    rw [emits_cons, hrec, run_cons, hrun, hwire, GmiiFrames.received_append, run_append, hrx,
      List.map_append]
    exact ⟨rfl, rfl⟩

section Reset
variable (rx : AxisGmiiRx.Reg) (i : AxisGmiiRx.Input) (fifo : AxisAsyncFifo.Reg Word 12)
  {es : List Edge}

theorem conserved (hK : Always step Heard (reset rx i fifo) es) :
    emits step accepted (reset rx i fifo) es ++
        (beat (run step (reset rx i fifo) es).rx).map tagged =
      (received (AxisGmiiRx.posedge true rx i) (wire es)).map tagged := by
  have hsame := conservation_of (I := fun _ => True) (fun s => (beat s.rx).map tagged)
    (fun s e => (received s.rx e.symbol).map tagged) accepted (fun _ _ _ _ => trivial)
    (fun s e _ h => accepted_step s e h) trivial hK
  have hnone : (beat (reset rx i fifo).rx).map tagged = [] := rfl
  rw [hsame, hnone, List.nil_append]
  exact (received_run (reset rx i fifo) es).1

theorem isPrefix_accepted (hK : Always step Heard (reset rx i fifo) es) :
    emits step accepted (reset rx i fifo) es <+:
      (received (AxisGmiiRx.posedge true rx i) (wire es)).map tagged := by
  rw [← conserved rx i fifo hK]
  exact List.prefix_append _ _

/-- One symbol later everything that has been received is in the FIFO. -/
theorem prefix_accepted (hK : Always step Heard (reset rx i fifo) es) {ss : List Stage} {g : Stage}
    (hwire : ss ++ [g] <+: wire es) :
    (received (AxisGmiiRx.posedge true rx i) ss).map tagged <+:
      emits step accepted (reset rx i fifo) es := by
  obtain ⟨ts, hts⟩ := hwire
  have hne : g :: ts ≠ [] := List.cons_ne_nil g ts
  have hlast : wire es = (ss ++ (g :: ts).dropLast) ++ [(g :: ts).getLast hne] := by
    rw [List.append_assoc, List.dropLast_append_getLast hne, ← hts]
    simp
  have hsame := conserved rx i fifo hK
  rw [(received_run (reset rx i fifo) es).2, hlast, GmiiFrames.received_append, run_snoc] at hsame
  have hbeat : received (run GmiiFrames.step (AxisGmiiRx.posedge true rx i)
      (ss ++ (g :: ts).dropLast)) [(g :: ts).getLast hne] = beat (GmiiFrames.step
        (run GmiiFrames.step (AxisGmiiRx.posedge true rx i) (ss ++ (g :: ts).dropLast))
        ((g :: ts).getLast hne)) := by
    simp [received, emits_cons]
  rw [hbeat, List.map_append] at hsame
  rw [List.append_cancel_right hsame, GmiiFrames.received_append, List.map_append]
  exact List.prefix_append _ _

end Reset

/-! ## Frames -/

theorem isPacket_beats (bad : Bool) {p : List (BitVec 8)} (h : p ≠ []) :
    Packets.IsPacket GmiiFrames.Beat.tlast (GmiiFrames.beats bad p) := by
  induction p with
  | nil => exact absurd rfl h
  | cons b p ih =>
    cases p with
    | nil => exact ⟨[], _, rfl, by simp, rfl⟩
    | cons c p =>
      obtain ⟨q, x, hq, hopen, hx⟩ := ih (List.cons_ne_nil c p)
      refine ⟨⟨b, false, false⟩ :: q, x, ?_, ?_, hx⟩
      · rw [GmiiFrames.beats, hq, List.cons_append]
      · intro y hy
        rcases List.mem_cons.mp hy with rfl | hy
        · rfl
        · exact hopen y hy

theorem length_beats (bad : Bool) (p : List (BitVec 8)) :
    (GmiiFrames.beats bad p).length = p.length := by
  induction p with
  | nil => rfl
  | cons b p ih =>
    cases p with
    | nil => rfl
    | cons c p => simp [GmiiFrames.beats, ih]

theorem getLast?_beats (bad : Bool) {p : List (BitVec 8)} (h : p ≠ []) :
    (GmiiFrames.beats bad p).getLast?.any GmiiFrames.Beat.tuser = bad := by
  induction p with
  | nil => exact absurd rfl h
  | cons b p ih =>
    cases p with
    | nil => simp [GmiiFrames.beats]
    | cons c p =>
      have hne : GmiiFrames.beats bad (c :: p) ≠ [] := by
        rw [← List.length_pos_iff, length_beats]
        simp
      rw [GmiiFrames.beats, List.getLast?_cons_of_ne_nil hne]
      exact ih (List.cons_ne_nil c p)

theorem intact_beats (a : Arrival) : intact 12 ((GmiiFrames.beats a.hit a.payload).map tagged) =
    (!a.hit && decide (a.payload.length ≤ 2 ^ 12)) := by
  have hlast : (GmiiFrames.beats a.hit a.payload).getLast?.any (fun b => (tagged b).bad) =
      a.hit := getLast?_beats a.hit a.payload_ne
  rw [intact, List.length_map, length_beats, Bool.and_comm, List.getLast?_map, Option.any_map,
    hlast]

/-- What the FIFO makes of the frames on the wire. -/
theorem passed_arrivals {rx : AxisGmiiRx.Reg} (hrx : GmiiFrames.Quiet rx) (as : List Arrival) :
    passed rxFifo ((received rx (as.flatMap Arrival.symbols)).map tagged) = undamaged as := by
  have hpackets : ∀ p ∈ as.map fun a => (GmiiFrames.beats a.hit a.payload).map tagged,
      Packets.IsPacket AxisAsyncFifo.Beat.last p := by
    intro p hp
    obtain ⟨a, _, rfl⟩ := List.mem_map.mp hp
    exact Packets.isPacket_map tagged (fun _ _ => rfl) (isPacket_beats a.hit a.payload_ne)
  have hflat : (received rx (as.flatMap Arrival.symbols)).map tagged =
      (as.map fun a => (GmiiFrames.beats a.hit a.payload).map tagged).flatten := by
    rw [GmiiFrames.received_arrivals hrx, List.map_flatMap, List.flatMap_def]
  have hpassed (bs : List (AxisAsyncFifo.Beat Word)) : passed rxFifo bs =
      ((cutFrames bs).closed.filter (intact 12)).flatMap
        (List.map AxisAsyncFifo.Beat.word) := rfl
  have hkept : (intact 12 ∘ fun a : Arrival => (GmiiFrames.beats a.hit a.payload).map tagged) =
      fun a => !a.hit && decide (a.payload.length ≤ 2 ^ 12) := funext intact_beats
  rw [hpassed, hflat, cutFrames, Packets.cut_flatten hpackets, List.filter_map, hkept, undamaged,
    List.flatMap_map]
  apply List.flatMap_congr
  intro a ha
  have hhit : a.hit = false := by
    have hgood := (List.mem_filter.mp ha).2
    rw [Bool.and_eq_true] at hgood
    simpa using hgood.1
  rw [hhit, List.map_map]
  rfl

/-! ## Runs -/

section Run
variable (rx : AxisGmiiRx.Reg) (i : AxisGmiiRx.Input) (fifo : AxisAsyncFifo.Reg Word 12)

theorem tracked (es : List Edge) : Tracked rxFifo (run step (reset rx i fifo) es).fifo
    (emits step accepted (reset rx i fifo) es) (emits step delivered (reset rx i fifo) es) := by
  induction es using List.reverseRecOn with
  | nil => exact .inl ⟨AxisAsyncFifo.starting_asyncRst fifo, rfl, rfl⟩
  | append_singleton es e ih =>
    rw [run_snoc, emits_snoc, emits_snoc]
    exact AxisAsyncFifo.tracked_step rfl ih _

theorem passed_mono {bs cs : List (AxisAsyncFifo.Beat Word)} (h : bs <+: cs) :
    passed rxFifo bs <+: passed rxFifo cs := by
  obtain ⟨ds, rfl⟩ := h
  exact AxisAsyncFifo.passed_prefix rxFifo bs ds

theorem received_mono {r : AxisGmiiRx.Reg} {ss ts : List Stage} (h : ss <+: ts) :
    received r ss <+: received r ts := by
  obtain ⟨us, rfl⟩ := h
  rw [GmiiFrames.received_append]
  exact List.prefix_append _ _

theorem ranked_step (T : Nat) (p : State × List Word) (e : Edge) (x : Rank)
    (h : Ranked rxFifo T (p.1.fifo, p.2) x) (he : e.tready ≠ some false) :
    ∃ x', Ranked rxFifo T
        ((recorded step delivered p e).1.fifo, (recorded step delivered p e).2) x' ∧
      (x'.measure < x.measure ∨ x' = x ∧ (x.measure = 0 ∨ ¬ e.ticks x.need)) := by
  have hready : (fifoEvent p.1 e).mAxisTready = e.tready := by
    cases e <;> rfl
  have hticks : (fifoEvent p.1 e).ticks x.need ↔ e.ticks x.need := by
    cases e <;> rfl
  obtain ⟨x', hx', hmove⟩ := AxisAsyncFifo.ranked_step T (p.1.fifo, p.2) (fifoEvent p.1 e) x h
    (by rwa [hready])
  rw [hticks] at hmove
  exact ⟨x', hx', hmove⟩

end Run

def quietSymbol : Stage := ⟨0#8, false, false⟩

def someRx : AxisGmiiRx.Reg :=
  ⟨.payload, false, false, ⟨quietSymbol, quietSymbol, quietSymbol, quietSymbol, quietSymbol⟩, 0#8,
    true, true, false, false, false, false, 0#32⟩

def someFifo : AxisAsyncFifo.Reg Word 12 where
  s := ⟨9#13, 9#13, 13#13, 13#13, 13#13, 9#13, 12#13, 12#13, true, true, false, false, false, false,
    false, true, .zero, .zero, fun _ => ⟨7#8, true, 0#1⟩⟩
  m := ⟨8#13, 12#13, 8#13, 13#13, 13#13, true, false, false, false, false, false, ⟨7#8, true, 0#1⟩,
    true, ⟨7#8, true, 0#1⟩, true, .zero, .zero, .zero⟩

/-- One byte, in which a bit has been hit, and then one that has not been hit. -/
def arrivals : List Arrival :=
  [{  idle := List.replicate 4 quietSymbol
      pre := List.replicate 7 0x55#8
      sent := [0xAB#8]
      payload := [0xAA#8]
      fcs := GmiiFrames.fcsBytes (GmiiFrames.crcOf 0xFFFFFFFF#32 [0xAB#8])
      gap := quietSymbol
      idle_quiet := by decide
      pre_ok := by decide
      payload_ne := by decide
      fcs_length := rfl
      gap_quiet := rfl
      burst := ⟨[], EthCrc.bitsOf [0xAB#8], EthCrc.bitsOf [0xAA#8], _, rfl, rfl, rfl, by decide⟩ },
   {  idle := []
      pre := List.replicate 7 0x55#8
      sent := [0xAB#8]
      payload := [0xAB#8]
      fcs := GmiiFrames.fcsBytes (GmiiFrames.crcOf 0xFFFFFFFF#32 [0xAB#8])
      gap := quietSymbol
      idle_quiet := by decide
      pre_ok := by decide
      payload_ne := by decide
      fcs_length := rfl
      gap_quiet := rfl
      burst := ⟨[], [], [], _, rfl, rfl, rfl, by decide⟩ }]

def noSkew : Skew Word 12 :=
  ⟨⟨0#13, 0#13, false, false, .zero⟩, ⟨0#13, false, false⟩, ⟨0#8, false, 0#1⟩⟩

def ticksTogether (ss : List Stage) : List Edge := ss.map fun g => .both g true noSkew

end AdcCapture.MacReceive
