import Mathlib.Data.List.Forall2
import AdcCapture.Clocked
import AdcCapture.OnesComplement
import AdcCapture.Packets
import AdcCapture.Ring
import AdcCapture.UdpChecksumGen

/-!
# The checksums udp_checksum_gen hands over

Each entry that leaves the header FIFO belongs to one datagram: a header that
was accepted and the payload accepted after it. Its length and checksum are
those of the datagram, whatever stalls there were.
-/

namespace AdcCapture.UdpChecksum

open Clocked UdpChecksumGen
set_option autoImplicit false

/-- What a receiver sums: the pseudo header, the UDP header and the payload. -/
def checkedWords (e : Entry) (p : List (BitVec 8)) : List (BitVec 16) :=
  [e.hdr.ipSourceIp.extractLsb' 16 16, e.hdr.ipSourceIp.extractLsb' 0 16,
    e.hdr.ipDestIp.extractLsb' 16 16, e.hdr.ipDestIp.extractLsb' 0 16, 0x0011#16, e.udpLength,
    e.hdr.udpSourcePort, e.hdr.udpDestPort, e.udpLength] ++
    e.udpChecksum :: OnesComplement.words p

/-- The entry for a header and its payload. A length that fits makes the checksum verify. -/
structure Right (d : Header × List (BitVec 8)) (e : Entry) : Prop where
  hdr : e.hdr = d.1
  length : e.udpLength = BitVec.ofNat 16 (8 + d.2.length)
  checksum : 8 + d.2.length < 65536 →
    OnesComplement.sum (checkedWords e d.2) = BitVec.allOnes 16

/-! ## The sum -/

/-- The sum of the constant words and the words of the header. -/
def base (h : Header) : Nat :=
  33 + OnesComplement.total [h.ipSourceIp.extractLsb' 16 16, h.ipSourceIp.extractLsb' 0 16,
    h.ipDestIp.extractLsb' 16 16, h.ipDestIp.extractLsb' 0 16, h.udpSourcePort, h.udpDestPort]

/-- The length is counted twice, once for the pseudo header. -/
def acc (h : Header) (p : List (BitVec 8)) : Nat :=
  base h + OnesComplement.total (OnesComplement.words p) + 2 * p.length

/-- The payload bytes `p` of header `h` are in the sum. -/
structure Progress (r : Reg) (h : Header) (p : List (BitVec 8)) : Prop where
  hdr : r.hdr = h
  framePtr : r.framePtr = BitVec.ofNat 16 (8 + p.length)
  checksum : r.checksum = BitVec.ofNat 32 (acc h p)

/-- `STATE_FINISH_SUM` on the value of `checksum_reg`. -/
def finished (c : BitVec 32) : BitVec 32 :=
  let part := (c.extractLsb' 0 16).zeroExtend 32 + (c.extractLsb' 16 16).zeroExtend 32
  ~~~((part.extractLsb' 0 16).zeroExtend 32 + (part.extractLsb' 16 1).zeroExtend 32)

theorem toNat_finished (c : BitVec 32) :
    ((finished c).extractLsb' 0 16).toNat = 2 ^ 16 - 1 - OnesComplement.rep 16 c.toNat := by
  have hc := c.isLt
  generalize hpart : (c.extractLsb' 0 16).zeroExtend 32 + (c.extractLsb' 16 16).zeroExtend 32 = part
  have hs : part.toNat = c.toNat % 65536 + c.toNat / 65536 := by
    have hhi : c.toNat / 65536 % 65536 = c.toNat / 65536 := Nat.mod_eq_of_lt (by omega)
    rw [← hpart, BitVec.toNat_add]
    simp only [BitVec.zeroExtend, BitVec.toNat_setWidth, BitVec.extractLsb'_toNat,
      Nat.shiftRight_eq_div_pow]
    simp [hhi]
    omega
  have hle : part.toNat ≤ 131070 := by omega
  have hfold : ((part.extractLsb' 0 16).zeroExtend 32 + (part.extractLsb' 16 1).zeroExtend 32).toNat
      = part.toNat % 65536 + part.toNat / 65536 := by
    have hhi : part.toNat / 65536 % 2 = part.toNat / 65536 := Nat.mod_eq_of_lt (by omega)
    rw [BitVec.toNat_add]
    simp only [BitVec.zeroExtend, BitVec.toNat_setWidth, BitVec.extractLsb'_toNat,
      Nat.shiftRight_eq_div_pow]
    simp [hhi]
    omega
  have hval : ((finished c).extractLsb' 0 16).toNat =
      65535 - (part.toNat % 65536 + part.toNat / 65536) := by
    simp only [finished, hpart, BitVec.extractLsb'_toNat, BitVec.toNat_not, hfold,
      Nat.shiftRight_zero]
    omega
  have hrep : OnesComplement.rep 16 c.toNat = part.toNat % 65536 + part.toNat / 65536 := by
    rcases Nat.eq_zero_or_pos c.toNat with h0 | hpos
    · rw [hs, h0]
      rfl
    · apply OnesComplement.rep_unique (by omega) (by omega) hpos
      simp only [Nat.ModEq]
      omega
  rw [hval, hrep]
  rfl

theorem acc_snoc (h : Header) (p : List (BitVec 8)) (b : BitVec 8) :
    acc h (p ++ [b]) = acc h p + (if p.length % 2 = 0 then 256 * b.toNat else b.toNat) + 2 := by
  rw [acc, acc, OnesComplement.total_words_snoc, List.length_append, List.length_singleton]
  omega

theorem total_words_le (p : List (BitVec 8)) :
    OnesComplement.total (OnesComplement.words p) ≤ 65535 * ((p.length + 1) / 2) := by
  induction p using OnesComplement.words.induct with
  | case1 => simp [OnesComplement.words, OnesComplement.total]
  | case2 a =>
    have ha := a.isLt
    simp [OnesComplement.words, OnesComplement.total, OnesComplement.toNat_append_byte]
    omega
  | case3 a b p ih =>
    have ha := a.isLt
    have hb := b.isLt
    simp only [OnesComplement.total] at ih
    simp only [OnesComplement.words, OnesComplement.total, List.map_cons, List.sum_cons,
      OnesComplement.toNat_append_byte, List.length_cons]
    omega

theorem base_pos (h : Header) : 0 < base h := by
  rw [base]
  omega

/-- The sum does not overflow while the length fits its field. -/
theorem acc_lt (h : Header) {p : List (BitVec 8)} (hp : 8 + p.length < 65536) :
    acc h p < 2 ^ 32 := by
  have hw := total_words_le p
  have hbase : base h ≤ 33 + 6 * 65535 := by
    have h1 := (h.ipSourceIp.extractLsb' 16 16).isLt
    have h2 := (h.ipSourceIp.extractLsb' 0 16).isLt
    have h3 := (h.ipDestIp.extractLsb' 16 16).isLt
    have h4 := (h.ipDestIp.extractLsb' 0 16).isLt
    have h5 := h.udpSourcePort.isLt
    have h6 := h.udpDestPort.isLt
    simp only [base, OnesComplement.total, List.map_cons, List.map_nil, List.sum_cons, List.sum_nil]
    omega
  rw [acc]
  omega

theorem right_of_progress {r : Reg} {h : Header} {p : List (BitVec 8)} (hp : Progress r h p) :
    Right (h, p) ⟨r.hdr, r.framePtr, (finished r.checksum).extractLsb' 0 16⟩ := by
  refine ⟨hp.hdr, hp.framePtr, ?_⟩
  intro hlen
  have hlt := acc_lt h hlen
  have hacc : r.checksum.toNat = acc h p := by
    rw [hp.checksum, BitVec.toNat_ofNat, Nat.mod_eq_of_lt hlt]
  apply OnesComplement.sum_complement (by decide) (n := acc h p)
  · have hl : (BitVec.ofNat 16 (8 + p.length)).toNat = 8 + p.length := by
      rw [BitVec.toNat_ofNat, Nat.mod_eq_of_lt hlen]
    simp only [OnesComplement.total, List.map_cons, List.map_nil, List.sum_cons, List.sum_nil,
      hp.hdr, hp.framePtr, hl, acc, base]
    simp
    omega
  · have hb := base_pos h
    rw [acc]
    omega
  · rw [toNat_finished, hacc]

/-! ## One clock of the state machine -/

section Step
variable {r : Reg} {i : Input}

theorem progress_posedge (h : r.state = .sumPayload) (hb : byteAccepted r i = true) {hd : Header}
    {p : List (BitVec 8)} (hp : Progress r hd p) :
    Progress (posedge false r i) hd (p ++ [i.sUdpPayloadAxisTdata]) := by
  have hodd : r.framePtr.getLsbD 0 = decide (p.length % 2 = 1) := by
    rw [hp.framePtr, BitVec.getLsbD_ofNat]
    simp [Nat.testBit_zero]
    omega
  refine ⟨?_, ?_, ?_⟩
  · simpa [posedge, comb, h, hb, defaults] using hp.hdr
  · have hptr : (posedge false r i).framePtr = r.framePtr + 1#16 := by
      simp [posedge, comb, h, hb]
    rw [hptr, hp.framePtr, List.length_append, List.length_singleton, ← Nat.add_assoc]
    exact (BitVec.ofNat_add _ 1).symm
  · have hsum : (posedge false r i).checksum =
        if r.framePtr.getLsbD 0 then
          r.checksum + (0#8 ++ i.sUdpPayloadAxisTdata).zeroExtend 32 + 2#32
        else r.checksum + (i.sUdpPayloadAxisTdata ++ 0#8).zeroExtend 32 + 2#32 := by
      simp [posedge, comb, h, hb]
    have hd := i.sUdpPayloadAxisTdata.isLt
    rw [hsum, hodd, acc_snoc, hp.checksum]
    by_cases hpar : p.length % 2 = 1
    · have heven : ¬ p.length % 2 = 0 := by omega
      rw [if_pos (by simpa using hpar), if_neg heven, BitVec.ofNat_add, BitVec.ofNat_add]
      congr 2
      apply BitVec.eq_of_toNat_eq
      simp [OnesComplement.toNat_append_byte]
    · have heven : p.length % 2 = 0 := by omega
      rw [if_neg (by simpa using hpar), if_pos heven, BitVec.ofNat_add, BitVec.ofNat_add]
      congr 2
      apply BitVec.eq_of_toNat_eq
      simp [OnesComplement.toNat_append_byte]

end Step

/-! ## Which datagram is where -/

abbrev Datagram : Type := Header × List (BitVec 8)

def entryOf (r : Reg) : Entry := ⟨r.hdr, r.framePtr, r.checksum.extractLsb' 0 16⟩

/-- In each state: the datagram being read, and the one whose entry is not written yet. -/
def Phase (r : Reg) (cur pend : Option Datagram) : Prop :=
  match r.state with
  | .idle => cur = none ∧
      if r.hdrValid then ∃ d, pend = some d ∧ Right d (entryOf r) else pend = none
  | .sumHeader1 => pend = none ∧ cur = some (r.hdr, []) ∧ r.checksum = 33#32
  | .sumHeader2 => pend = none ∧ cur = some (r.hdr, []) ∧ r.checksum =
      33#32 + (r.hdr.ipSourceIp.extractLsb' 16 16).zeroExtend 32 +
        (r.hdr.ipSourceIp.extractLsb' 0 16).zeroExtend 32
  | .sumHeader3 => pend = none ∧ cur = some (r.hdr, []) ∧ r.checksum =
      33#32 + (r.hdr.ipSourceIp.extractLsb' 16 16).zeroExtend 32 +
        (r.hdr.ipSourceIp.extractLsb' 0 16).zeroExtend 32 +
        (r.hdr.ipDestIp.extractLsb' 16 16).zeroExtend 32 +
        (r.hdr.ipDestIp.extractLsb' 0 16).zeroExtend 32
  | .sumPayload => pend = none ∧ ∃ d, cur = some d ∧ Progress r d.1 d.2
  | .finishSum => cur = none ∧ ∃ d, pend = some d ∧ Progress r d.1 d.2

/-- What a clock takes in. -/
inductive Take where
  | nothing
  | header (h : Header)
  | byte (b : BitVec 8) (last : Bool)

def take (r : Reg) (i : Input) : Take :=
  if hdrAccepted r i then .header i.sHdr
  else if byteAccepted r i then .byte i.sUdpPayloadAxisTdata i.sUdpPayloadAxisTlast
  else .nothing

/-- The datagram being read after a clock, and the one completed by it. -/
inductive Reads : Option Datagram → Take → Option Datagram → Option Datagram → Prop where
  | nothing (cur : Option Datagram) : Reads cur .nothing cur none
  | header (h : Header) : Reads none (.header h) (some (h, [])) none
  | byte (h : Header) (p : List (BitVec 8)) (b : BitVec 8) :
      Reads (some (h, p)) (.byte b false) (some (h, p ++ [b])) none
  | last (h : Header) (p : List (BitVec 8)) (b : BitVec 8) :
      Reads (some (h, p)) (.byte b true) none (some (h, p ++ [b]))

section Phase
variable {r : Reg} {i : Input} {cur pend : Option Datagram}

theorem byteAccepted_eq_false (hs : r.state ≠ .sumPayload) : byteAccepted r i = false := by
  rw [← Bool.not_eq_true]
  intro hb
  simp only [byteAccepted, Bool.and_eq_true, sUdpPayloadAxisTready_iff] at hb
  exact hs hb.1.2

theorem reads_busy (h : Inv r) (h1 : r.state ≠ .idle) (h2 : r.state ≠ .sumPayload)
    (cur : Option Datagram) : Reads cur (take r i) cur none := by
  have hnone : take r i = .nothing := by
    simp [take, hdrAccepted_eq_false h h1, byteAccepted_eq_false h2]
  rw [hnone]
  exact .nothing cur

/-- A clock keeps the phase: a completed datagram waits for its entry to be written. -/
theorem phase_posedge (h : Inv r) (hp : Phase r cur pend) :
    ∃ cur' done, Phase (posedge false r i) cur' (if r.state = .finishSum then pend else done) ∧
      Reads cur (take r i) cur' done := by
  have hst := state_posedge (r := r) (i := i)
  have hv := hdrValid_posedge (r := r) (i := i)
  cases hs : r.state with
  | idle =>
    simp only [Phase, hs] at hp
    obtain ⟨rfl, _⟩ := hp
    have hb : byteAccepted r i = false := byteAccepted_eq_false (by simp [hs])
    cases ha : hdrAccepted r i with
    | false =>
      refine ⟨none, none, ?_, ?_⟩
      · simp [Phase, hst, hs, ha, hv]
      · rw [take, ha, hb]
        exact .nothing none
    | true =>
      refine ⟨some (i.sHdr, []), none, ?_, ?_⟩
      · simp [Phase, hs, ha, posedge, comb]
      · rw [take, ha]
        exact .header i.sHdr
  | sumHeader1 =>
    simp only [Phase, hs] at hp
    obtain ⟨_, rfl, hc⟩ := hp
    refine ⟨_, none, ?_, reads_busy h (by simp [hs]) (by simp [hs]) _⟩
    simp [Phase, hs, posedge, comb, hc, defaults]
  | sumHeader2 =>
    simp only [Phase, hs] at hp
    obtain ⟨_, rfl, hc⟩ := hp
    refine ⟨_, none, ?_, reads_busy h (by simp [hs]) (by simp [hs]) _⟩
    simp [Phase, hs, posedge, comb, hc, defaults]
  | sumHeader3 =>
    simp only [Phase, hs] at hp
    obtain ⟨_, rfl, hc⟩ := hp
    refine ⟨_, none, ?_, reads_busy h (by simp [hs]) (by simp [hs]) _⟩
    simp only [Phase, hst, hs]
    refine ⟨by simp, _, rfl, ?_, ?_, ?_⟩
    · simp [posedge, comb, hs, defaults]
    · simp [posedge, comb, hs]
    · apply BitVec.eq_of_toNat_eq
      simp [posedge, comb, hs, hc, acc, base, OnesComplement.total, OnesComplement.words]
      omega
  | sumPayload =>
    simp only [Phase, hs] at hp
    obtain ⟨_, ⟨hd, p⟩, rfl, hprog⟩ := hp
    have ha : hdrAccepted r i = false := hdrAccepted_eq_false h (by simp [hs])
    cases hb : byteAccepted r i with
    | false =>
      refine ⟨some (hd, p), none, ?_, ?_⟩
      · simp only [Phase, hst, hs, lastAccepted, hb]
        refine ⟨by simp, _, rfl, ?_, ?_, ?_⟩
        · simpa [posedge, comb, hs, hb, defaults] using hprog.hdr
        · simpa [posedge, comb, hs, hb, defaults] using hprog.framePtr
        · simpa [posedge, comb, hs, hb, defaults] using hprog.checksum
      · rw [take, ha, hb]
        exact .nothing _
    | true =>
      have hnext := progress_posedge hs hb hprog
      cases hl : i.sUdpPayloadAxisTlast with
      | false =>
        refine ⟨some (hd, p ++ [i.sUdpPayloadAxisTdata]), none, ?_, ?_⟩
        · simp only [Phase, hst, hs, lastAccepted, hb, hl]
          exact ⟨by simp, _, rfl, hnext⟩
        · rw [take, ha, hb, hl]
          exact .byte hd p _
      | true =>
        refine ⟨none, some (hd, p ++ [i.sUdpPayloadAxisTdata]), ?_, ?_⟩
        · simp only [Phase, hst, hs, lastAccepted, hb, hl]
          exact ⟨trivial, _, rfl, hnext⟩
        · rw [take, ha, hb, hl]
          exact .last hd p _
  | finishSum =>
    simp only [Phase, hs] at hp
    obtain ⟨rfl, ⟨hd, p⟩, rfl, hprog⟩ := hp
    refine ⟨none, none, ?_, reads_busy h (by simp [hs]) (by simp [hs]) _⟩
    simp only [Phase, hst, hs, hv]
    refine ⟨trivial, (hd, p), rfl, ?_⟩
    have hright := right_of_progress hprog
    simpa [entryOf, posedge, comb, hs, defaults, finished] using hright

end Phase

/-! ## The header FIFO -/

/-- Entries in the output register and in the memory, oldest first. -/
def Queue (r : Reg) (es : List Entry) : Prop :=
  ∃ q, Ring.Holds (a := 3) r.mem r.headerFifoWrPtr r.headerFifoRdPtr q ∧
    es = (if r.mUdpHdrValid then [r.m] else []) ++ q

def handed (r : Reg) (i : Input) : List Entry := if hdrHandedOver r i then [r.m] else []

def written (r : Reg) : List Entry := if headerFifoWrite r then [entryOf r] else []

section Queue
variable {r : Reg} {i : Input} {es : List Entry}

theorem extract_eq_low (p : BitVec 4) : p.extractLsb' 0 3 = Ring.low (a := 3) p := by
  rw [Ring.low, BitVec.setWidth_eq_extractLsb' (by decide)]

theorem full_iff {q : List Entry}
    (h : Ring.Holds (a := 3) r.mem r.headerFifoWrPtr r.headerFifoRdPtr q) :
    headerFifoFull r = true ↔ q.length = 8 := by
  rw [headerFifoFull_iff, level, Ring.toNat_sub h]

theorem empty_iff {q : List Entry}
    (h : Ring.Holds (a := 3) r.mem r.headerFifoWrPtr r.headerFifoRdPtr q) :
    headerFifoEmpty r = true ↔ q = [] := by
  rw [headerFifoEmpty, beq_iff_eq]
  exact Ring.empty_iff h

/-- The memory after the write of this clock. -/
theorem holds_written {q : List Entry}
    (h : Ring.Holds (a := 3) r.mem r.headerFifoWrPtr r.headerFifoRdPtr q) :
    Ring.Holds (a := 3) (posedge false r i).mem (posedge false r i).headerFifoWrPtr
      r.headerFifoRdPtr (q ++ written r) := by
  cases hw : headerFifoWrite r with
  | false => simpa [posedge, written, hw] using h
  | true =>
    have hlt : q.length < 2 ^ 3 := by
      have hle := h.bounded
      have hne : q.length ≠ 8 := by
        intro h8
        rw [headerFifoWrite, (full_iff h).mpr h8] at hw
        simp at hw
      omega
    have hpush := Ring.push h (entryOf r) hlt
    simpa [posedge, written, hw, extract_eq_low, entryOf] using hpush

/-- What is handed over and what stays is what was there and what is written. -/
theorem queue_posedge (h : Queue r es) :
    ∃ es', Queue (posedge false r i) es' ∧ handed r i ++ es' = es ++ written r := by
  obtain ⟨q, hq, rfl⟩ := h
  have hw := holds_written (i := i) hq
  have he := empty_iff hq
  by_cases hout : (i.mUdpHdrReady || !r.mUdpHdrValid) = true
  · have hhand : handed r i = if r.mUdpHdrValid then [r.m] else [] := by
      unfold handed hdrHandedOver
      cases hv : r.mUdpHdrValid <;> simp [hv] at hout ⊢
      exact hout
    cases q with
    | nil =>
      have hempty : headerFifoEmpty r = true := he.mpr rfl
      refine ⟨written r, ⟨written r, ?_, ?_⟩, by simp [hhand]⟩
      · simpa [posedge, headerFifoRead, hout, hempty] using hw
      · simp [posedge, hout, hempty]
    | cons x q =>
      have hempty : headerFifoEmpty r = false := by
        rw [← Bool.not_eq_true, he]
        simp
      obtain ⟨_, hpop⟩ := Ring.pop hw
      obtain ⟨hx, _⟩ := Ring.pop hq
      refine ⟨x :: (q ++ written r), ⟨q ++ written r, ?_, ?_⟩, by simp [hhand]⟩
      · simpa [posedge, headerFifoRead, hout, hempty] using hpop
      · simp [posedge, headerFifoRead, hout, hempty, extract_eq_low, hx]
  · have hhand : handed r i = [] := by
      unfold handed hdrHandedOver
      cases hv : r.mUdpHdrValid <;> simp [hv] at hout ⊢
      exact hout
    have hkeep : (posedge false r i).mUdpHdrValid = r.mUdpHdrValid := by
      simp [posedge, hout]
    refine ⟨_, ⟨q ++ written r, ?_, rfl⟩, ?_⟩
    · simpa [posedge, headerFifoRead, hout] using hw
    · rw [hhand, hkeep]
      simp [posedge, headerFifoRead, hout]

end Queue

/-! ## Runs -/

def acceptedHdr (r : Reg) (i : Input) : List Header := if hdrAccepted r i then [i.sHdr] else []

def acceptedByte (r : Reg) (i : Input) : List (BitVec 8 × Bool) :=
  if byteAccepted r i then [(i.sUdpPayloadAxisTdata, i.sUdpPayloadAxisTlast)] else []

def headers (r : Reg) (is : List Input) : List Header := emits (posedge false) acceptedHdr r is

def payloads (r : Reg) (is : List Input) : Packets (BitVec 8 × Bool) :=
  Packets.cut (fun b => b.2) (emits (posedge false) acceptedByte r is)

/-- The headers accepted, each with the payload accepted after it. -/
def datagrams (r : Reg) (is : List Input) : List Datagram :=
  (headers r is).zip ((payloads r is).closed.map (List.map Prod.fst))

/-- No header is finished while the header FIFO is full. -/
def Room (r : Reg) (_ : Input) : Prop := r.hdrValid = true → headerFifoFull r = false

/-- The datagrams taken in so far and where their entries are. -/
def Traced (r : Reg) (hs : List Header) (ps : Packets (BitVec 8 × Bool)) (out : List Entry)
    (room : Prop) : Prop :=
  ∃ (done ds : List Datagram) (cur pend : Option Datagram) (es : List Entry),
    Phase r cur pend ∧ Queue r es ∧
    hs = (done ++ pend.toList).map Prod.fst ++ cur.toList.map Prod.fst ∧
    ps.closed.map (List.map Prod.fst) = (done ++ pend.toList).map Prod.snd ∧
    ps.rest.map Prod.fst = (cur.map Prod.snd).getD [] ∧
    ds.Sublist done ∧ List.Forall₂ Right ds (out ++ es) ∧ (room → ds = done)

section Run
variable {r : Reg} {i : Input}

theorem Reads.history {cur cur' fin : Option Datagram} (hinv : Inv r)
    (h : Reads cur (take r i) cur' fin) {hs : List Header} {ps : Packets (BitVec 8 × Bool)}
    {all : List Datagram} (hh : hs = all.map Prod.fst ++ cur.toList.map Prod.fst)
    (hc : ps.closed.map (List.map Prod.fst) = all.map Prod.snd)
    (hr : ps.rest.map Prod.fst = (cur.map Prod.snd).getD []) :
    hs ++ acceptedHdr r i = (all ++ fin.toList).map Prod.fst ++ cur'.toList.map Prod.fst ∧
      ((acceptedByte r i).foldl (Packets.push fun b => b.2) ps).closed.map (List.map Prod.fst) =
        (all ++ fin.toList).map Prod.snd ∧
      ((acceptedByte r i).foldl (Packets.push fun b => b.2) ps).rest.map Prod.fst =
        (cur'.map Prod.snd).getD [] := by
  have hexcl : hdrAccepted r i = true → byteAccepted r i = false := by
    intro ha
    apply byteAccepted_eq_false
    rw [hinv.ready (Bool.and_eq_true_iff.mp ha).1]
    simp
  generalize ht : take r i = t at h
  unfold take at ht
  cases h with
  | nothing cur =>
    have ha : hdrAccepted r i = false := by
      cases ha : hdrAccepted r i <;> simp [ha] at ht ⊢
    have hb : byteAccepted r i = false := by
      cases hb : byteAccepted r i <;> simp [ha, hb] at ht ⊢
    simp [acceptedHdr, acceptedByte, ha, hb, hh, hc, hr]
  | header h =>
    have ha : hdrAccepted r i = true := by
      cases ha : hdrAccepted r i <;> cases hb : byteAccepted r i <;> simp [ha, hb] at ht ⊢
    have hsame : i.sHdr = h := by simpa [ha] using ht
    simp [acceptedHdr, acceptedByte, ha, hexcl ha, hh, hc, hr, hsame]
  | byte h p b =>
    have ha : hdrAccepted r i = false := by
      cases ha : hdrAccepted r i <;> simp [ha] at ht ⊢
    have hb : byteAccepted r i = true := by
      cases hb : byteAccepted r i <;> simp [ha, hb] at ht ⊢
    have hsame : i.sUdpPayloadAxisTdata = b ∧ i.sUdpPayloadAxisTlast = false := by
      simpa [ha, hb] using ht
    simp only [Option.map_some, Option.getD_some] at hr
    simp [acceptedHdr, acceptedByte, ha, hb, hh, hc, hr, hsame, Packets.push]
  | last h p b =>
    have ha : hdrAccepted r i = false := by
      cases ha : hdrAccepted r i <;> simp [ha] at ht ⊢
    have hb : byteAccepted r i = true := by
      cases hb : byteAccepted r i <;> simp [ha, hb] at ht ⊢
    have hsame : i.sUdpPayloadAxisTdata = b ∧ i.sUdpPayloadAxisTlast = true := by
      simpa [ha, hb] using ht
    simp only [Option.map_some, Option.getD_some] at hr
    simp [acceptedHdr, acceptedByte, ha, hb, hh, hc, hr, hsame, Packets.push]

/-- The entry of the pending datagram is written, unless the header FIFO is full. -/
theorem pending_written {cur pend : Option Datagram} (hinv : Inv r) (hp : Phase r cur pend)
    (hs : r.state ≠ .finishSum) : (pend = none ∧ written r = []) ∨
      ∃ d, pend = some d ∧ r.hdrValid = true ∧ Right d (entryOf r) := by
  have hidle : r.hdrValid = true → r.state = .idle := hinv.pending
  have hnone : r.hdrValid = false → written r = [] := by
    intro hv
    simp [written, headerFifoWrite, hv]
  cases h : r.state with
  | idle =>
    simp only [Phase, h] at hp
    cases hv : r.hdrValid with
    | false => exact .inl ⟨by simpa [hv] using hp.2, hnone hv⟩
    | true =>
      obtain ⟨d, hd, hright⟩ : ∃ d, pend = some d ∧ Right d (entryOf r) := by
        simpa [hv] using hp.2
      exact .inr ⟨d, hd, rfl, hright⟩
  | finishSum => exact absurd h hs
  | sumHeader1 | sumHeader2 | sumHeader3 | sumPayload =>
    simp only [Phase, h] at hp
    have hv : r.hdrValid = false := by
      rw [← Bool.not_eq_true]
      intro hv
      simp [h] at hidle
      simp [hidle] at hv
    exact .inl ⟨hp.1, hnone hv⟩

/-- Where the entry of the pending datagram goes in this clock. -/
theorem settled {cur pend : Option Datagram} {done ds : List Datagram} {out : List Entry}
    {room : Prop} (hinv : Inv r) (hp : Phase r cur pend) (hs : r.state ≠ .finishSum)
    (hsub : ds.Sublist done) (hright : List.Forall₂ Right ds out) (hroom : room → ds = done) :
    ∃ ds' : List Datagram, ds'.Sublist (done ++ pend.toList) ∧
      List.Forall₂ Right ds' (out ++ written r) ∧
        (room ∧ Room r i → ds' = done ++ pend.toList) := by
  rcases pending_written hinv hp hs with ⟨rfl, hw⟩ | ⟨d, rfl, hv, hd⟩
  · refine ⟨ds, by simpa using hsub, by simpa [hw] using hright, ?_⟩
    intro h
    simpa using hroom h.1
  · cases hf : headerFifoFull r with
    | false =>
      have hw : written r = [entryOf r] := by simp [written, headerFifoWrite, hv, hf]
      refine ⟨ds ++ [d], hsub.append (List.Sublist.refl _), ?_, ?_⟩
      · rw [hw]
        exact List.rel_append hright (.cons hd .nil)
      · intro h
        simp [hroom h.1]
    | true =>
      have hw : written r = [] := by simp [written, headerFifoWrite, hf]
      refine ⟨ds, hsub.trans (List.sublist_append_left _ _), by simpa [hw] using hright, ?_⟩
      intro h
      have hno := h.2 hv
      simp [hf] at hno

theorem traced_posedge {hs : List Header} {ps : Packets (BitVec 8 × Bool)} {out : List Entry}
    {room : Prop} (hinv : Inv r) (h : Traced r hs ps out room) :
    Traced (posedge false r i) (hs ++ acceptedHdr r i)
      ((acceptedByte r i).foldl (Packets.push fun b => b.2) ps) (out ++ handed r i)
      (room ∧ Room r i) := by
  obtain ⟨done, ds, cur, pend, es, hph, hq, hh, hc, hr, hsub, hright, hroom⟩ := h
  obtain ⟨cur', fin, hph', hreads⟩ := phase_posedge (i := i) hinv hph
  obtain ⟨es', hq', hes⟩ := queue_posedge (i := i) hq
  obtain ⟨hh', hc', hr'⟩ := hreads.history hinv hh hc hr
  by_cases hs : r.state = .finishSum
  · rw [if_pos hs] at hph'
    have hfin : fin = none := by
      have htake : take r i = .nothing := by
        simp [take, hdrAccepted_eq_false hinv, byteAccepted_eq_false, hs]
      rw [htake] at hreads
      cases hreads
      rfl
    have hw : written r = [] := by
      have hv : r.hdrValid = false := by
        rw [← Bool.not_eq_true]
        intro hv
        have hidle := hinv.pending hv
        simp [hs] at hidle
      simp [written, headerFifoWrite, hv]
    subst hfin
    refine ⟨done, ds, cur', pend, es', hph', hq', ?_, ?_, hr', hsub, ?_, fun h => hroom h.1⟩
    · simpa using hh'
    · simpa using hc'
    · rw [List.append_assoc, hes, hw, List.append_nil]
      exact hright
  · rw [if_neg hs] at hph'
    obtain ⟨ds', hsub', hright', hroom'⟩ := settled (i := i) hinv hph hs hsub hright hroom
    refine ⟨done ++ pend.toList, ds', cur', fin, es', hph', hq', hh', hc', hr', hsub', ?_, hroom'⟩
    rw [List.append_assoc, hes, ← List.append_assoc]
    exact hright'

theorem traced_run {r : Reg} (hinv : Inv r) (h : Traced r [] ⟨[], []⟩ [] True) (is : List Input) :
    Inv (run (posedge false) r is) ∧
      Traced (run (posedge false) r is) (headers r is) (payloads r is)
        (emits (posedge false) handed r is) (Always (posedge false) Room r is) := by
  induction is using List.reverseRecOn with
  | nil => exact ⟨hinv, h⟩
  | append_singleton is i ih =>
    obtain ⟨hinv', htr⟩ := ih
    have hnext := traced_posedge (i := i) hinv' htr
    rw [run_snoc, headers, payloads, emits_snoc, emits_snoc, emits_snoc, Packets.cut,
      List.foldl_append]
    refine ⟨inv_posedge hinv', ?_⟩
    rw [always_snoc]
    exact hnext

theorem traced_start (r : Reg) (i : Input) : Inv (posedge true r i) ∧
    Traced (posedge true r i) [] ⟨[], []⟩ [] True := by
  refine ⟨⟨by simp [posedge], by simp [posedge], by simp [posedge, level]⟩, ?_⟩
  refine ⟨[], [], none, none, [], ?_, ⟨[], ?_, ?_⟩, rfl, rfl, rfl, .refl _, .nil, fun _ => rfl⟩
  · simp [Phase, posedge]
  · simpa [posedge] using Ring.holds_nil (a := 3) (posedge true r i).mem 0#4
  · simp [posedge]

end Run

/-- No header is held back anywhere. -/
structure Drained (r : Reg) : Prop where
  idle : r.state = .idle
  written : r.hdrValid = false
  empty : headerFifoEmpty r = true
  handed : r.mUdpHdrValid = false

/--
The entries handed over since reset belong to datagrams accepted since then, in
their order, and every one is right. None is left out as long as no header is
finished while the header FIFO is full.
-/
theorem checksums_right (r₀ : Reg) (i₀ : Input) (is : List Input) :
    ∃ ds : List Datagram, ds.Sublist (datagrams (posedge true r₀ i₀) is) ∧
      List.Forall₂ Right ds (emits (posedge false) handed (posedge true r₀ i₀) is) ∧
      (Always (posedge false) Room (posedge true r₀ i₀) is →
        ds <+: datagrams (posedge true r₀ i₀) is ∧
        (Drained (run (posedge false) (posedge true r₀ i₀) is) →
          ds = datagrams (posedge true r₀ i₀) is)) := by
  obtain ⟨hinv, hstart⟩ := traced_start r₀ i₀
  obtain ⟨_, done, ds, cur, pend, es, hph, hq, hh, hc, _, hsub, hright, hroom⟩ :=
    traced_run hinv hstart is
  generalize posedge true r₀ i₀ = r at *
  have hall : datagrams r is = done ++ pend.toList := by
    rw [datagrams, hh, hc]
    generalize done ++ pend.toList = all
    induction all with
    | nil => simp
    | cons d all ih => simpa using ih
  refine ⟨ds.take (emits (posedge false) handed r is).length, ?_,
    List.forall₂_take_append _ _ _ hright, ?_⟩
  · rw [hall]
    exact (List.take_sublist _ _).trans (hsub.trans (List.sublist_append_left _ _))
  · intro halw
    obtain rfl := hroom halw
    refine ⟨?_, ?_⟩
    · rw [hall]
      exact (List.take_prefix _ _).trans (List.prefix_append _ _)
    · intro hdr
      have hpend : pend = none := by
        simp only [Phase, hdr.idle, hdr.written] at hph
        simpa using hph.2
      have hes : es = [] := by
        obtain ⟨q, hq, rfl⟩ := hq
        rw [(empty_iff hq).mp hdr.empty]
        simp [hdr.handed]
      rw [hes, List.append_nil] at hright
      rw [hall, hpend, ← hright.length_eq, List.take_length]
      simp

end AdcCapture.UdpChecksum
