import AdcCapture.EthAxisRx

/-!
# From eth_axis_tx to eth_axis_rx

The receiver takes apart what the transmitter has put together.
-/

namespace AdcCapture.EthLink

open Clocked
open AxisOutput (Word)
open EthAxisTx (EthHdr Sending)
open EthAxisRx (Receiving head heads payloads)
set_option autoImplicit false

structure State where
  tx : EthAxisTx.Reg
  rx : EthAxisRx.Reg

structure Input where
  sEthHdrValid : Bool
  sEthHdr : EthHdr
  payload : Word
  payloadTvalid : Bool
  mEthHdrReady : Bool
  mPayloadTready : Bool

section Step
variable (s : State) (i : Input)

def txInput : EthAxisTx.Input :=
  ⟨i.sEthHdrValid, i.sEthHdr, i.payload, i.payloadTvalid, s.rx.sAxisTready⟩

def rxInput : EthAxisRx.Input :=
  ⟨s.tx.output.out, s.tx.output.tvalid, i.mEthHdrReady, i.mPayloadTready⟩

def step : State := ⟨EthAxisTx.step s.tx (txInput s i), EthAxisRx.step s.rx (rxInput s i)⟩

def hdrIn : List EthHdr := EthAxisTx.hdrAccepted s.tx (txInput s i)

def payloadIn : List Word := EthAxisTx.payloadAccepted s.tx (txInput s i)

def hdrOut : List EthHdr := EthAxisRx.hdrSent s.rx (rxInput s i)

def payloadOut : List Word := EthAxisRx.payloadSent s.rx (rxInput s i)

/-- The words on the stream between the two. -/
def between : List Word := EthAxisTx.sent s.tx (txInput s i)

theorem accepted_eq : EthAxisRx.accepted s.rx (rxInput s i) = between s i := by
  have hcomm : EthAxisRx.transfer s.rx (rxInput s i) =
      (s.tx.output.tvalid && s.rx.sAxisTready) := Bool.and_comm _ _
  rw [EthAxisRx.accepted, hcomm]
  rfl

end Step

/-- Any register contents after a clock of `rst`. -/
def reset (s : State) (i : Input) : State :=
  ⟨EthAxisTx.posedge s.tx (txInput s i) true, EthAxisRx.posedge s.rx (rxInput s i) true⟩

/-! ## The format -/

theorem not_last_words (h : EthHdr) : ∀ w ∈ h.words, w.tlast = false := by
  intro w hw
  obtain ⟨b, _, rfl⟩ := List.mem_map.mp hw
  rfl

theorem length_words (h : EthHdr) : h.words.length = 14 := by
  rw [EthHdr.words, List.length_map, EthHdr.length_bytes]

theorem head_frame (h : EthHdr) (q : List Word) :
    head (EthHdr.frame h q) = [h.bytes] := by
  have hlen := length_words h
  have hle : 14 ≤ (EthHdr.frame h q).length := by
    rw [EthHdr.frame, List.length_append, hlen]
    exact Nat.le_add_right 14 _
  have htake : (h.words ++ q).take 14 = h.words := by
    rw [← hlen]
    exact List.take_left
  have hid : Word.tdata ∘ (fun b : BitVec 8 => (⟨b, false, false⟩ : Word)) = id := rfl
  rw [head, if_pos hle, EthHdr.frame, htake, EthHdr.words, List.map_map, hid, List.map_id]

theorem drop_frame (h : EthHdr) (q : List Word) :
    (EthHdr.frame h q).drop 14 = q := by
  rw [EthHdr.frame, ← length_words h]
  exact List.drop_left

theorem isPacket_frame (h : EthHdr) (q : List Word) (hq : Packets.IsPacket Word.tlast q) :
    Packets.IsPacket Word.tlast (EthHdr.frame h q) := by
  obtain ⟨r, b, rfl, hr, hb⟩ := hq
  refine ⟨h.words ++ r, b, (List.append_assoc _ _ _).symm, ?_, hb⟩
  intro w hw
  rcases List.mem_append.mp hw with hw | hw
  · exact not_last_words h w hw
  · exact hr w hw

theorem open_frame (h : EthHdr) (q : List Word) (hq : ∀ w ∈ q, w.tlast = false) :
    ∀ w ∈ EthHdr.frame h q, w.tlast = false := by
  intro w hw
  rcases List.mem_append.mp hw with hw | hw
  · exact not_last_words h w hw
  · exact hq w hw

/-- What the receiver takes from the frames. -/
theorem flatMap_frames {hs : List EthHdr} {qs : List (List Word)} (hlen : hs.length = qs.length) :
    (List.zipWith EthHdr.frame hs qs).flatMap head = hs.map EthHdr.bytes ∧
      (List.zipWith EthHdr.frame hs qs).flatMap (List.drop 14) = qs.flatten := by
  induction hs generalizing qs with
  | nil =>
    cases qs with
    | nil => exact ⟨rfl, rfl⟩
    | cons q qs => simp at hlen
  | cons h hs ih =>
    cases qs with
    | nil => simp at hlen
    | cons q qs =>
      obtain ⟨h1, h2⟩ := ih (by simpa using hlen)
      simp [head_frame, drop_frame, h1, h2]

theorem length_frame_ne {qs : List (List Word)} (hq : ∀ q ∈ qs, q ≠ []) (hs : List EthHdr) :
    ∀ f ∈ List.zipWith EthHdr.frame hs qs, f.length ≠ 14 := by
  induction hs generalizing qs with
  | nil => simp
  | cons h hs ih =>
    cases qs with
    | nil => simp
    | cons q qs =>
      intro f hf
      rw [List.zipWith_cons_cons, List.mem_cons] at hf
      rcases hf with rfl | hf
      · have hpos := List.length_pos_iff.mpr (hq q List.mem_cons_self)
        rw [EthHdr.frame, List.length_append, length_words]
        omega
      · exact ih (fun x hx => hq x (List.mem_cons_of_mem q hx)) f hf

/-- The receiver's view of what the transmitter encodes. -/
theorem decode_encode {hs : List EthHdr} {ps : List Word}
    (h : Framing.Paired hs (Packets.cut Word.tlast ps)) :
    let f := Packets.cut Word.tlast (Framing.encode EthHdr.frame hs (Packets.cut Word.tlast ps))
    heads f = hs.map EthHdr.bytes ∧ payloads f = ps ∧ ∀ q ∈ f.closed, q.length ≠ 14 := by
  intro f
  have hflat := Packets.flatten_closed Word.tlast ps
  rcases h with ⟨hlen, hrest⟩ | ⟨gs, h, rfl, hlen⟩
  · have hcut : f = ⟨List.zipWith EthHdr.frame hs
        (Packets.cut Word.tlast ps).closed, []⟩ :=
      Framing.cut_encode_closed isPacket_frame ps hlen
    obtain ⟨hheads, hpays⟩ := flatMap_frames hlen
    rw [hrest, List.append_nil] at hflat
    rw [hcut]
    refine ⟨?_, ?_, length_frame_ne (Packets.closed_ne_nil ps) hs⟩
    · rw [heads, Packets.collect, hheads]
      exact List.append_nil _
    · rw [payloads, Packets.collect, hpays, hflat]
      exact List.append_nil _
  · have hcut : f = ⟨List.zipWith EthHdr.frame gs
        (Packets.cut Word.tlast ps).closed, EthHdr.frame h
          (Packets.cut Word.tlast ps).rest⟩ :=
      Framing.cut_encode_open isPacket_frame open_frame ps h hlen
    obtain ⟨hheads, hpays⟩ := flatMap_frames hlen
    rw [hcut]
    refine ⟨?_, ?_, length_frame_ne (Packets.closed_ne_nil ps) gs⟩
    · rw [heads, Packets.collect, hheads, head_frame, List.map_append]
      rfl
    · rw [payloads, Packets.collect, hpays, drop_frame, hflat]

/-! ## Runs -/

theorem heads_mono {as bs : List Word} (h : as <+: bs) :
    heads (Packets.cut Word.tlast as) <+: heads (Packets.cut Word.tlast bs) := by
  apply Packets.collect_mono rfl _ h
  intro q b
  rw [EthAxisRx.head_snoc]
  exact List.prefix_append _ _

theorem payloads_mono {as bs : List Word} (h : as <+: bs) :
    payloads (Packets.cut Word.tlast as) <+: payloads (Packets.cut Word.tlast bs) := by
  apply Packets.collect_mono rfl _ h
  intro q b
  rw [EthAxisRx.drop_snoc]
  exact List.prefix_append _ _

/-- The words between the two, and what has come out of the receiver. -/
structure Linked (s : State) (hs : List EthHdr) (ps ws : List Word) (gs : List EthHdr)
    (qs : List Word) : Prop where
  tx : Sending s.tx hs ps ws
  rx : Receiving s.rx ws gs qs

theorem linked_step {s : State} {hs gs : List EthHdr} {ps ws qs : List Word}
    (h : Linked s hs ps ws gs qs) (i : Input) :
    Linked (step s i) (hs ++ hdrIn s i) (ps ++ payloadIn s i) (ws ++ between s i)
      (gs ++ hdrOut s i) (qs ++ payloadOut s i) := by
  have htx := EthAxisTx.sending_step h.tx (txInput s i)
  refine ⟨htx, ?_⟩
  have hframes := (decode_encode htx.phase.paired).2.2
  have hclosed := Packets.isPrefix_closed Word.tlast htx.isPrefix
  have hrx := EthAxisRx.receiving_step h.rx (rxInput s i)
  rw [accepted_eq] at hrx
  apply hrx
  intro f hf
  exact hframes f (hclosed.subset hf)

theorem linked_reset (s : State) (i : Input) : Linked (reset s i) [] [] [] [] [] :=
  ⟨EthAxisTx.sending_reset _ _, EthAxisRx.receiving_reset _ _⟩

theorem linked_run (s : State) (i : Input) (is : List Input) :
    Linked (run step (reset s i) is) (emits step hdrIn (reset s i) is)
      (emits step payloadIn (reset s i) is) (emits step between (reset s i) is)
      (emits step hdrOut (reset s i) is) (emits step payloadOut (reset s i) is) := by
  induction is using List.reverseRecOn with
  | nil => exact linked_reset s i
  | append_singleton is j ih =>
    simp only [run_snoc, emits_snoc]
    exact linked_step ih j

/-- Nothing is on its way between the two. -/
def Drained (s : State) : Prop :=
  s.tx.state ≠ .writeHeader ∧ AxisOutput.contents s.tx.output = [] ∧
    s.rx.mEthHdrValid = false ∧ AxisOutput.contents s.rx.output = []

section Linked
variable {s : State} {hs gs : List EthHdr} {ps ws qs : List Word}

theorem Linked.isPrefix (h : Linked s hs ps ws gs qs) : gs <+: hs ∧ qs <+: ps := by
  obtain ⟨htx, hrx⟩ := h
  obtain ⟨hheads, hpays, _⟩ := decode_encode htx.phase.paired
  have hh := heads_mono htx.isPrefix
  have hp := payloads_mono htx.isPrefix
  rw [hheads, ← hrx.hdrs] at hh
  rw [hpays, ← hrx.words] at hp
  have hinj : Function.Injective EthHdr.bytes := fun _ _ => EthHdr.bytes_inj
  refine ⟨?_, (List.prefix_append _ _).trans hp⟩
  exact (List.prefix_map_iff_of_injective hinj).mp ((List.prefix_append _ _).trans hh)

theorem Linked.complete (h : Linked s hs ps ws gs qs) (hd : Drained s) : gs = hs ∧ qs = ps := by
  obtain ⟨htx, hrx⟩ := h
  obtain ⟨hheads, hpays, _⟩ := decode_encode htx.phase.paired
  obtain ⟨hstate, hout, hvalid, hdone⟩ := hd
  have hall := htx.phase.complete hstate
  rw [hout, List.append_nil] at hall
  have h1 := hrx.hdrs
  have h2 := hrx.words
  rw [hall, hheads, EthAxisRx.pending, hvalid, if_neg Bool.false_ne_true, List.append_nil] at h1
  rw [hall, hpays, hdone, List.append_nil] at h2
  exact ⟨List.map_injective_iff.mpr (fun _ _ => EthHdr.bytes_inj) h1, h2⟩

end Linked

/--
Headers and payload come out as they went in and in order, whatever the stalls;
nothing is missing once the two are drained.
-/
theorem round_trip (s : State) (i : Input) (is : List Input) :
    emits step hdrOut (reset s i) is <+: emits step hdrIn (reset s i) is ∧
    emits step payloadOut (reset s i) is <+: emits step payloadIn (reset s i) is ∧
    (Drained (run step (reset s i) is) →
      emits step hdrOut (reset s i) is = emits step hdrIn (reset s i) is ∧
      emits step payloadOut (reset s i) is = emits step payloadIn (reset s i) is) := by
  have h := linked_run s i is
  exact ⟨h.isPrefix.1, h.isPrefix.2, h.complete⟩

end AdcCapture.EthLink
