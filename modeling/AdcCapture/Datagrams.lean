import AdcCapture.CommandPath

/-!
# Commands and datagrams

`udpDetector` does not read `axis_tlast`, so the four-byte groups run on from one
datagram into the next. A datagram is judged by its own bytes exactly when the
command bytes before it make up whole groups.
-/

namespace AdcCapture.CommandPath

open Clocked UdpDetector
set_option autoImplicit false

structure Datagram where
  destPort : BitVec 16
  payload : List (BitVec 8)
  deriving DecidableEq, Repr

structure RxBeat where
  destPort : BitVec 16
  data : BitVec 8
  last : Bool
  deriving DecidableEq, Repr

/-- A payload on the stream, its last byte marked by `axis_tlast`. -/
def payloadBeats (port : BitVec 16) : List (BitVec 8) → List RxBeat
  | [] => []
  | [b] => [⟨port, b, true⟩]
  | b :: bs => ⟨port, b, false⟩ :: payloadBeats port bs

def Datagram.beats (d : Datagram) : List RxBeat := payloadBeats d.destPort d.payload

def rxBeat (i : Input) : List RxBeat :=
  if i.axisTvalid then [⟨i.destPort, i.axisTdata, i.axisTlast⟩] else []

/-- The datagrams arrive in order, with gaps anywhere, and the command path comes to rest. -/
structure Delivers (is : List Input) (ds : List Datagram) : Prop where
  stream : is.flatMap rxBeat = ds.flatMap Datagram.beats
  rests : ∃ pre quiet, is = pre ++ quiet ∧ 46 ≤ quiet.length ∧ ∀ i ∈ quiet, i.axisTvalid = false

def commandBytes (ds : List Datagram) : List (BitVec 8) :=
  ds.flatMap fun d => if d.destPort = 0x1000#16 then d.payload else []

def send : List (BitVec 8) := [0x73#8, 0x65#8, 0x6e#8, 0x64#8]

def pulses (held : BitVec 32) (is : List Input) : Nat := count step sendAdcData (reset held) is

/-- After `history` a datagram triggers what it triggers alone: one pulse for the send
command to port 0x1000, none if it goes elsewhere or has no such group. -/
structure PerDatagram (history : List Datagram) : Prop where
  alone : ∀ held d is js ks, Delivers is history → Delivers js (history ++ [d]) →
    Delivers ks [d] → pulses held js = pulses held is + pulses held ks
  recognised : ∀ held is js, Delivers is history →
    Delivers js (history ++ [⟨0x1000#16, send⟩]) → pulses held js = pulses held is + 1
  ignored : ∀ held d is js, Delivers is history → Delivers js (history ++ [d]) →
    d.destPort ≠ 0x1000#16 ∨ 0x73656e64#32 ∉ groups d.payload → pulses held js = pulses held is

/-! ## Pulses of a delivery -/

def commandByte (b : RxBeat) : List (BitVec 8) := if b.destPort = 0x1000#16 then [b.data] else []

theorem payloadBeats_flatMap (port : BitVec 16) (bs : List (BitVec 8)) :
    (payloadBeats port bs).flatMap commandByte = if port = 0x1000#16 then bs else [] := by
  induction bs using payloadBeats.induct with
  | case1 => simp [payloadBeats]
  | case2 b => simp [payloadBeats, commandByte]
  | case3 b bs hne ih =>
    rw [payloadBeats, List.flatMap_cons, ih, commandByte]
    · split <;> rfl
    · exact hne

theorem received_eq (s : Reg) (i : Input) : received s i = (rxBeat i).flatMap commandByte := by
  unfold received rxBeat
  cases i.axisTvalid with
  | false => rfl
  | true => by_cases hp : i.destPort = 0x1000#16 <;> simp [commandByte, hp]

theorem emits_received (s : Reg) (is : List Input) :
    emits step received s is = (is.flatMap rxBeat).flatMap commandByte := by
  have h : received = fun _ i => (rxBeat i).flatMap commandByte :=
    funext fun s => funext fun i => received_eq s i
  rw [h, emits_inputs, List.flatMap_assoc]

theorem emits_received_of_delivers {is : List Input} {ds : List Datagram} (h : Delivers is ds)
    (s : Reg) : emits step received s is = commandBytes ds := by
  rw [emits_received, h.stream, List.flatMap_assoc, commandBytes]
  exact congrArg ds.flatMap (funext fun d => payloadBeats_flatMap d.destPort d.payload)

theorem pulses_of_delivers {is : List Input} {ds : List Datagram} (h : Delivers is ds)
    (held : BitVec 32) : pulses held is = (groups (commandBytes ds)).count 0x73656e64#32 := by
  obtain ⟨pre, quiet, rfl, hlen, hq⟩ := h.rests
  have hr : emits step received (reset held) (pre ++ quiet) =
      emits step received (reset held) pre := by
    have hnil : quiet.flatMap rxBeat = [] := by
      rw [List.flatMap_eq_nil_iff]
      intro i hi
      simp [rxBeat, hq i hi]
    rw [emits_append, emits_received _ quiet, hnil, List.flatMap_nil, List.append_nil]
  have h1 := groups_prefix_parsed held pre quiet hlen
  have h2 := groups_received held (pre ++ quiet)
  have h3 : emits step parsed (reset held) (pre ++ quiet) =
      groups (emits step received (reset held) (pre ++ quiet)) := by
    apply List.IsPrefix.eq_of_length_le
    · rw [h2]
      exact List.prefix_append _ _
    · rw [hr]
      exact h1.length_le
  rw [pulses, count_sendAdcData, h3, emits_received_of_delivers h]

/-! ## Groups across datagrams -/

theorem groups_append_of_dvd (bs cs : List (BitVec 8)) (h : bs.length % 4 = 0) :
    groups (bs ++ cs) = groups bs ++ groups cs := by
  induction bs using groups.induct with
  | case1 a b c d bs ih =>
    have hl : bs.length % 4 = 0 := by
      simp only [List.length_cons] at h
      omega
    exact congrArg (List.cons (word [a, b, c, d])) (ih hl)
  | case2 bs hb =>
    rcases bs with _ | ⟨a, _ | ⟨b, _ | ⟨c, _ | ⟨d, bs⟩⟩⟩⟩
    · rfl
    · simp at h
    · simp at h
    · simp at h
    · exact absurd rfl (hb a b c d bs)

theorem commandBytes_snoc (ds : List Datagram) (d : Datagram) : commandBytes (ds ++ [d]) =
    commandBytes ds ++ if d.destPort = 0x1000#16 then d.payload else [] := by
  simp [commandBytes]

theorem word_ne_send {x : List (BitVec 8)} (h : x.length = 4) (hx : x ≠ send) :
    word x ≠ 0x73656e64#32 := by
  intro hw
  have hb := congrArg wordBytes hw
  rw [wordBytes_word h] at hb
  exact hx (hb.trans (by decide))

/-- Bytes left over from before hide the send command. -/
theorem count_groups_append_send {bs : List (BitVec 8)} (h : bs.length % 4 ≠ 0) :
    (groups (bs ++ send)).count 0x73656e64#32 = (groups bs).count 0x73656e64#32 := by
  induction bs using groups.induct with
  | case1 a b c d bs ih =>
    have hl : bs.length % 4 ≠ 0 := by
      simp only [List.length_cons] at h
      omega
    have h1 : groups (a :: b :: c :: d :: bs ++ send) = word [a, b, c, d] :: groups (bs ++ send) :=
      rfl
    have h2 : groups (a :: b :: c :: d :: bs) = word [a, b, c, d] :: groups bs := rfl
    rw [h1, h2, List.count_cons, List.count_cons, ih hl]
  | case2 bs hb =>
    have hone {x : List (BitVec 8)} (h4 : x.length = 4) (hx : x ≠ send) :
        [word x].count 0x73656e64#32 = 0 := by
      rw [List.count_eq_zero, List.mem_singleton]
      exact fun he => word_ne_send h4 hx he.symm
    rcases bs with _ | ⟨a, _ | ⟨b, _ | ⟨c, _ | ⟨d, bs⟩⟩⟩⟩
    · exact absurd rfl h
    · exact hone (x := [a, 0x73#8, 0x65#8, 0x6e#8]) rfl (by simp [send])
    · exact hone (x := [a, b, 0x73#8, 0x65#8]) rfl (by simp [send])
    · exact hone (x := [a, b, c, 0x73#8]) rfl (by simp [send])
    · exact absurd rfl (hb a b c d bs)

/-! ## Schedules -/

def rxInput (b : RxBeat) : Input := ⟨b.destPort, b.data, true, b.last, 0, 0#32⟩

def idleInput : Input := ⟨0#16, 0#8, false, false, 0, 0#32⟩

def schedule (ds : List Datagram) : List Input :=
  (ds.flatMap Datagram.beats).map rxInput ++ List.replicate 46 idleInput

theorem delivers_schedule (ds : List Datagram) : Delivers (schedule ds) ds where
  stream := by
    have h1 : (List.replicate 46 idleInput).flatMap rxBeat = [] := by decide
    rw [schedule, List.flatMap_append, h1, List.append_nil, List.flatMap_map]
    exact List.flatMap_singleton' _
  rests := ⟨_, _, rfl, by simp, fun i hi => by rw [List.eq_of_mem_replicate hi]; rfl⟩

theorem per_datagram_iff (history : List Datagram) :
    PerDatagram history ↔ 4 ∣ (commandBytes history).length := by
  constructor
  · intro h
    by_contra hd
    -- behind a ragged history the send command gives no pulse
    have hr := h.recognised 0#32 _ _ (delivers_schedule _) (delivers_schedule _)
    rw [pulses_of_delivers (delivers_schedule _), pulses_of_delivers (delivers_schedule _),
      commandBytes_snoc, if_pos rfl, count_groups_append_send (by omega)] at hr
    omega
  · intro h
    have happ (d : Datagram) := groups_append_of_dvd (commandBytes history)
      (if d.destPort = 0x1000#16 then d.payload else []) (by omega)
    constructor
    · intro held d is js ks his hjs hks
      rw [pulses_of_delivers his, pulses_of_delivers hjs, pulses_of_delivers hks, commandBytes_snoc,
        happ, List.count_append]
      simp [commandBytes]
    · intro held is js his hjs
      rw [pulses_of_delivers his, pulses_of_delivers hjs, commandBytes_snoc, happ,
        List.count_append, if_pos rfl]
      rfl
    · intro held d is js his hjs hd
      rw [pulses_of_delivers his, pulses_of_delivers hjs, commandBytes_snoc, happ,
        List.count_append, Nat.add_eq_left, List.count_eq_zero]
      split
      · rename_i hp
        exact hd.resolve_left (fun hn => hn hp)
      · simp [groups]

theorem one_byte_datagram_breaks_framing : ¬ PerDatagram [⟨0x1000#16, [0x00#8]⟩] := by
  intro h
  have hr := h.recognised 0#32 _ _ (delivers_schedule _) (delivers_schedule _)
  rw [pulses_of_delivers (delivers_schedule _), pulses_of_delivers (delivers_schedule _)] at hr
  exact absurd hr (by decide)

end AdcCapture.CommandPath
