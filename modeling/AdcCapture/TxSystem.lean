import AdcCapture.PayloadFraming
import AdcCapture.TxPath

/-!
# The transmit side with its MAC

The MAC sends frames first in, first out and pulses `tx_done` for each of them,
data frame or ARP frame alike. A data frame is closed by its accepted `tlast`
and joins the queue of the MAC at some later clock, behind its header; when it
does, when ARP frames join and when the head is sent is left to the input.
-/

namespace AdcCapture

open Clocked
set_option autoImplicit false

/-- A closed data frame: its number and the clock in which its `tlast` was accepted. -/
structure DataFrame where
  seq : Nat
  closedAt : Nat
  deriving DecidableEq, Repr

inductive Frame where
  | data (d : DataFrame)
  | arp
  deriving DecidableEq, Repr

def Frame.data? : Frame → Option DataFrame
  | .data d => some d
  | .arp => none

/-- `closed` frames have been closed and `handed` headers handed over before clock `now`. -/
structure Mac where
  now : Nat
  closed : Nat
  handed : Nat
  upstream : List DataFrame
  queue : List Frame

namespace Mac

structure Input where
  append : Bool
  arp : Bool
  sent : Bool
  closing : Bool
  handing : Bool

def reset : Mac := ⟨0, 0, 0, [], []⟩

def finished (m : Mac) (sent : Bool) : Option Frame := if sent then m.queue.head? else none

/-- The oldest closed frame joins the queue once its header has been handed over: `udp_ip_tx`
takes no payload byte before the header of its frame. -/
def joins (m : Mac) (append : Bool) : Option DataFrame :=
  if append then m.upstream.head?.filter (·.seq < m.handed) else none

def step (m : Mac) (i : Input) : Mac where
  now := m.now + 1
  closed := m.closed + i.closing.toNat
  handed := m.handed + i.handing.toNat
  upstream := m.upstream.drop (m.joins i.append).toList.length ++
    (if i.closing then [⟨m.closed, m.now⟩] else [])
  queue := (if i.sent then m.queue.tail else m.queue) ++
    (m.joins i.append).toList.map Frame.data ++ (if i.arp then [.arp] else [])

/-- The data frames closed and not yet sent, oldest first. -/
def unsent (m : Mac) : List DataFrame := m.queue.filterMap Frame.data? ++ m.upstream

def sentData (m : Mac) (sent : Bool) : List DataFrame :=
  ((m.finished sent).bind Frame.data?).toList

def closes (m : Mac) (i : Input) : List DataFrame := if i.closing then [⟨m.closed, m.now⟩] else []

@[simp] theorem joins_false (m : Mac) : m.joins false = none := rfl

theorem upstream_of_joins {m : Mac} {append : Bool} {d : DataFrame}
    (h : m.joins append = some d) : ∃ ds, m.upstream = d :: ds := by
  unfold joins at h
  split at h
  · obtain ⟨hh, _⟩ := Option.filter_eq_some_iff.mp h
    exact List.head?_eq_some_iff.mp hh
  · cases h

theorem handed_of_joins {m : Mac} {append : Bool} {d : DataFrame}
    (h : m.joins append = some d) : d.seq < m.handed := by
  unfold joins at h
  split at h
  · exact of_decide_eq_true (Option.filter_eq_some_iff.mp h).2
  · cases h

def Headed (m : Mac) : Prop := ∀ d, Frame.data d ∈ m.queue → d.seq < m.handed

theorem headed_step {m : Mac} (h : m.Headed) (i : Input) : (m.step i).Headed := by
  intro d hd
  have hlt : d.seq < m.handed := by
    simp only [step, List.mem_append, List.mem_map] at hd
    rcases hd with (hd | ⟨e, he, hed⟩) | hd
    · apply h d
      split at hd
      · exact List.mem_of_mem_tail hd
      · exact hd
    · obtain rfl : e = d := by injection hed
      exact handed_of_joins (Option.mem_toList.mp he)
    · split at hd <;> simp at hd
  exact Nat.lt_add_right _ hlt

theorem handed_of_finished {m : Mac} (h : m.Headed) {sent : Bool} {d : DataFrame}
    (hf : m.finished sent = some (.data d)) : d.seq < m.handed := by
  unfold finished at hf
  split at hf
  · exact h d (List.mem_of_mem_head? hf)
  · cases hf

/-- Data frames are sent in the order in which they were closed. -/
theorem sentData_append_unsent (m : Mac) (i : Input) :
    m.sentData i.sent ++ (m.step i).unsent = m.unsent ++ m.closes i := by
  have hq : m.sentData i.sent ++ (if i.sent then m.queue.tail else m.queue).filterMap Frame.data? =
      m.queue.filterMap Frame.data? := by
    unfold sentData finished
    cases i.sent with
    | false => simp
    | true =>
      rcases m.queue with _ | ⟨f, fs⟩
      · rfl
      · cases f <;> simp [Frame.data?, List.filterMap_cons]
  have ha : (if i.arp then [Frame.arp] else []).filterMap Frame.data? = [] := by
    cases i.arp <;> rfl
  have hu : ((m.joins i.append).toList.map Frame.data).filterMap Frame.data? ++
      m.upstream.drop (m.joins i.append).toList.length = m.upstream := by
    rw [List.filterMap_map]
    rcases hj : m.joins i.append with _ | d
    · rfl
    · obtain ⟨ds, hds⟩ := upstream_of_joins hj
      simp [hds, Frame.data?]
  unfold unsent closes
  simp only [step, List.filterMap_append, ha, List.append_nil]
  rw [← hq]
  simp only [List.append_assoc]
  rw [← List.append_assoc (List.filterMap _ (List.map _ _)), hu]

theorem unsent_length_step (m : Mac) (i : Input) :
    (m.sentData i.sent).length + (m.step i).unsent.length =
      m.unsent.length + i.closing.toNat := by
  have h := congrArg List.length (sentData_append_unsent m i)
  rw [List.length_append, List.length_append] at h
  rw [h]
  cases hc : i.closing <;> simp [closes, hc]

theorem mem_unsent_step {m : Mac} {d : DataFrame} (i : Input) (h : d ∈ m.unsent) :
    m.finished i.sent = some (.data d) ∨ d ∈ (m.step i).unsent := by
  have hd : d ∈ m.sentData i.sent ++ (m.step i).unsent := by
    rw [sentData_append_unsent]
    exact List.mem_append_left _ h
  rcases List.mem_append.mp hd with hd | hd
  · left
    unfold sentData at hd
    rcases hf : m.finished i.sent with _ | f
    · simp [hf] at hd
    · cases f with
      | arp => simp [hf, Frame.data?] at hd
      | data e => simpa [hf, Frame.data?, eq_comm] using hd
  · exact Or.inr hd

end Mac

namespace TxSystem

structure Reg where
  path : TxPath.Reg
  mac : Mac

structure Input where
  startBuff : Bool
  adcValid : Channel → Bool
  adc125m : Channel → BitVec 16
  hdr : UdpChecksumGen.Header
  payloadFifoTready : Bool
  mUdpHdrReady : Bool
  append : Bool
  arp : Bool
  sent : Bool

/-- The frame whose `tx_done` pulse falls into this clock. -/
def finished (s : Reg) (i : Input) : Option Frame := s.mac.finished i.sent

def pathInput (s : Reg) (i : Input) : TxPath.Input where
  startBuff := i.startBuff
  adcValid := i.adcValid
  adc125m := i.adc125m
  txDone := (finished s i).isSome
  hdr := i.hdr
  payloadFifoTready := i.payloadFifoTready
  mUdpHdrReady := i.mUdpHdrReady

def lastAccepted (s : Reg) (i : Input) : Bool := TxPath.lastAccepted s.path (pathInput s i)

def hdrAccepted (s : Reg) (i : Input) : Bool := TxPath.hdrAccepted s.path (pathInput s i)

def macInput (s : Reg) (i : Input) : Mac.Input where
  append := i.append
  arp := i.arp
  sent := i.sent
  closing := lastAccepted s i
  handing := UdpChecksumGen.hdrHandedOver s.path.gen (TxPath.genInput s.path (pathInput s i))

def reset : Reg := ⟨TxPath.reset, Mac.reset⟩

def step (s : Reg) (i : Input) : Reg where
  path := TxPath.step s.path (pathInput s i)
  mac := s.mac.step (macInput s i)

def unsent (s : Reg) : List DataFrame := s.mac.unsent

def currState (s : Reg) : ReadController2.State := s.path.buffer.readController.currState

def bufferInput (s : Reg) (i : Input) : AdcBuffer.Input :=
  TxPath.bufferInput s.path (pathInput s i)

def transfers (s : Reg) (i : Input) : Bool := AdcBuffer.transfers s.path.buffer (bufferInput s i)

def beat (s : Reg) (i : Input) : List AdcBuffer.Beat :=
  AdcBuffer.beat s.path.buffer (bufferInput s i)

/-- The data frames of a run: the closed ones, and the one that is open. -/
def frames (is : List Input) : Packets AdcBuffer.Beat :=
  Packets.cut AdcBuffer.Beat.last (emits step beat reset is)

def dataSent (s : Reg) (i : Input) : Bool := ((finished s i).bind Frame.data?).isSome

section Step
variable {s : Reg} {i : Input}

theorem step_path : (step s i).path = TxPath.step s.path (pathInput s i) := rfl

theorem step_mac : (step s i).mac = s.mac.step (macInput s i) := rfl

theorem state_step : (step s i).path.gen.state =
    match s.path.gen.state with
    | .idle => if hdrAccepted s i then .sumHeader1 else .idle
    | .sumHeader1 => .sumHeader2
    | .sumHeader2 => .sumHeader3
    | .sumHeader3 => .sumPayload
    | .sumPayload => if lastAccepted s i then .finishSum else .sumPayload
    | .finishSum => .idle := UdpChecksumGen.state_posedge

theorem sUdpHdrReady_step : (step s i).path.gen.sUdpHdrReady =
    (decide (s.path.gen.state = .idle) && !hdrAccepted s i &&
      !UdpChecksumGen.headerFifoFull s.path.gen) := UdpChecksumGen.sUdpHdrReady_posedge

theorem closed_step (hl : lastAccepted s i = false) : (step s i).mac.closed = s.mac.closed := by
  rw [step_mac, Mac.step, macInput, hl]
  rfl

theorem handed_step : (step s i).mac.handed = s.mac.handed +
    (UdpChecksumGen.hdrHandedOver s.path.gen (TxPath.genInput s.path (pathInput s i))).toNat := rfl

theorem transfers_of_lastAccepted (h : lastAccepted s i = true) : transfers s i = true :=
  (TxPath.lastAccepted_iff.mp h).1

theorem sumPayload_of_transfers (h : transfers s i = true) : s.path.gen.state = .sumPayload :=
  (TxPath.axisTready_iff.mp (Bool.and_eq_true_iff.mp h).2).2

theorem sumPayload_of_lastAccepted (h : lastAccepted s i = true) :
    s.path.gen.state = .sumPayload := sumPayload_of_transfers (transfers_of_lastAccepted h)

theorem holdsHeader_of_sumPayload (h : s.path.gen.state = .sumPayload) :
    UdpChecksumGen.holdsHeader s.path.gen = true := by simp [UdpChecksumGen.holdsHeader, h]

theorem unsent_length : ((dataSent s i).toNat + (unsent (step s i)).length) =
    (unsent s).length + (lastAccepted s i).toNat := by
  have h := Mac.unsent_length_step s.mac (macInput s i)
  have hd : (s.mac.sentData (macInput s i).sent).length = (dataSent s i).toNat := by
    unfold Mac.sentData dataSent finished
    rw [show (macInput s i).sent = i.sent from rfl]
    cases (s.mac.finished i.sent).bind Frame.data? <;> rfl
  rw [hd] at h
  exact h

theorem hdrAccepted_cases (h : hdrAccepted s i = true) :
    s.path.gen.sUdpHdrReady = true ∧
      (currState s = .init ∨ currState s = .pause ∧ (finished s i).isSome = true) := by
  obtain ⟨hr, hv⟩ := Bool.and_eq_true_iff.mp h
  refine ⟨hr, ?_⟩
  rcases ReadController2.state_cases (currState s) with hi | hp | ⟨c, hc⟩
  · exact Or.inl hi
  · have hh := ReadController2.axisTvalidHdr_pause
      (i := AdcBuffer.readInput s.path.buffer (bufferInput s i)) hp
    exact Or.inr ⟨hp, hh.symm.trans hv⟩
  · have hh := ReadController2.axisTvalidHdr_read
      (i := AdcBuffer.readInput s.path.buffer (bufferInput s i)) hc
    exact absurd (hh.symm.trans hv) (by simp)

end Step

/-! ## Frames -/

section Frames
variable {is : List Input} {i : Input}

theorem frames_snoc_of_idle (h : transfers (run step reset is) i = false) :
    frames (is ++ [i]) = frames is := by
  have hb : beat (run step reset is) i = [] := by
    rw [beat, AdcBuffer.beat, show AdcBuffer.transfers _ _ = false from h]
    rfl
  rw [frames, emits_snoc, hb, List.append_nil, frames]

theorem frames_snoc_of_last (h : lastAccepted (run step reset is) i = true) :
    ∃ f, frames (is ++ [i]) = ⟨(frames is).closed ++ [f], []⟩ := by
  obtain ⟨ht, hl⟩ := TxPath.lastAccepted_iff.mp h
  rw [frames, emits_snoc, beat, AdcBuffer.beat, bufferInput, if_pos ht, Packets.cut_snoc,
    Packets.push, if_pos hl]
  exact ⟨_, rfl⟩

theorem frames_snoc_of_not_last (hl : lastAccepted (run step reset is) i = false) :
    (frames (is ++ [i])).closed = (frames is).closed := by
  cases ht : transfers (run step reset is) i with
  | false => rw [frames_snoc_of_idle ht]
  | true =>
    have hn : (AdcBuffer.out (run step reset is).path.buffer
        (bufferInput (run step reset is) i)).axisTlast = false := by
      rw [← Bool.not_eq_true]
      intro hn
      exact absurd ((TxPath.lastAccepted_iff.mpr ⟨ht, hn⟩).symm.trans hl) (by simp)
    rw [frames, emits_snoc, beat, AdcBuffer.beat, if_pos (by exact ht), Packets.cut_snoc,
      Packets.push, if_neg (by simp [hn]), frames]

/-- The closed frames are those sent and those still with the MAC. -/
theorem closed_length (is : List Input) : (frames is).closed.length =
    count step dataSent reset is + (unsent (run step reset is)).length := by
  induction is using List.reverseRecOn with
  | nil => rfl
  | append_singleton is i ih =>
    have hu := unsent_length (s := run step reset is) (i := i)
    rw [count_snoc, run_snoc]
    cases hl : lastAccepted (run step reset is) i with
    | false =>
      rw [hl] at hu
      rw [frames_snoc_of_not_last hl, ih]
      simp at hu
      omega
    | true =>
      obtain ⟨f, hf⟩ := frames_snoc_of_last hl
      rw [hl] at hu
      rw [hf, List.length_append, ih]
      simp at hu ⊢
      omega

theorem sumPayload_of_open (is : List Input) (h : (frames is).rest ≠ []) :
    (run step reset is).path.gen.state = .sumPayload := by
  induction is using List.reverseRecOn with
  | nil => exact absurd rfl h
  | append_singleton is i ih =>
    rw [run_append]
    cases hl : lastAccepted (run step reset is) i with
    | true =>
      obtain ⟨f, hf⟩ := frames_snoc_of_last hl
      exact absurd (by rw [hf]) h
    | false =>
      have hp : (run step reset is).path.gen.state = .sumPayload := by
        cases ht : transfers (run step reset is) i with
        | true => exact sumPayload_of_transfers ht
        | false =>
          rw [frames_snoc_of_idle ht] at h
          exact ih h
      exact TxPath.sumPayload_step hp hl

end Frames

end TxSystem

end AdcCapture
