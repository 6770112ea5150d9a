import AdcCapture.AxisOutput
import AdcCapture.ByteFields
import AdcCapture.Framing
import Mathlib.Tactic.IntervalCases

/-!
# eth_axis_tx

Header and payload in, one stream out: the header is put in front of the payload,
byte by byte.
-/

namespace AdcCapture.EthAxisTx

open Clocked
open AxisOutput (Word)
open ByteFields (byte bigEndian)
set_option autoImplicit false

structure EthHdr where
  destMac : BitVec 48
  srcMac : BitVec 48
  ethType : BitVec 16
  deriving DecidableEq, Repr

namespace EthHdr

/-- The `case` over `frame_ptr_reg`; `byte x k` are the bits `8*k+7` to `8*k`. -/
def atPtr (h : EthHdr) (ptr : Nat) : BitVec 8 :=
  match ptr with
  | 0 => byte h.destMac 5
  | 1 => byte h.destMac 4
  | 2 => byte h.destMac 3
  | 3 => byte h.destMac 2
  | 4 => byte h.destMac 1
  | 5 => byte h.destMac 0
  | 6 => byte h.srcMac 5
  | 7 => byte h.srcMac 4
  | 8 => byte h.srcMac 3
  | 9 => byte h.srcMac 2
  | 10 => byte h.srcMac 1
  | 11 => byte h.srcMac 0
  | 12 => byte h.ethType 1
  | 13 => byte h.ethType 0
  | _ => 0#8

def bytes (h : EthHdr) : List (BitVec 8) :=
  bigEndian h.destMac 6 ++ bigEndian h.srcMac 6 ++ bigEndian h.ethType 2

theorem length_bytes (h : EthHdr) : h.bytes.length = 14 := rfl

theorem getElem?_bytes (h : EthHdr) {k : Nat} (hk : k < 14) : h.bytes[k]? = some (h.atPtr k) := by
  interval_cases k <;> rfl

theorem bytes_inj {g h : EthHdr} (heq : g.bytes = h.bytes) : g = h := by
  obtain ⟨hfirst, htype⟩ := List.append_inj' heq rfl
  obtain ⟨hdest, hsrc⟩ := List.append_inj' hfirst rfl
  cases g
  cases h
  rw [mk.injEq]
  exact ⟨ByteFields.bigEndian_inj 6 _ _ hdest, ByteFields.bigEndian_inj 6 _ _ hsrc,
    ByteFields.bigEndian_inj 2 _ _ htype⟩

/-- The header on the stream. -/
def words (h : EthHdr) : List Word := h.bytes.map fun b => ⟨b, false, false⟩

/-- A frame on the stream. -/
def frame (h : EthHdr) (q : List Word) : List Word := h.words ++ q

theorem take_words (h : EthHdr) {k : Nat} (hk : k < 14) :
    h.words.take (k + 1) = h.words.take k ++ [⟨h.atPtr k, false, false⟩] := by
  rw [List.take_add_one, words, List.getElem?_map, getElem?_bytes h hk]
  rfl

end EthHdr

inductive State where
  | idle | writeHeader | writePayload
  deriving DecidableEq, Repr

structure Reg where
  state : State
  framePtr : BitVec 8
  hdr : EthHdr
  sEthHdrReady : Bool
  sEthPayloadAxisTready : Bool
  busy : Bool
  output : AxisOutput.Reg
  deriving DecidableEq, Repr

structure Input where
  sEthHdrValid : Bool
  sEthHdr : EthHdr
  payload : Word
  payloadTvalid : Bool
  mAxisTready : Bool

/-- The `_next` values, and what goes to the output datapath. -/
structure Comb where
  stateNext : State
  sEthHdrReadyNext : Bool
  sEthPayloadAxisTreadyNext : Bool
  storeEthHdr : Bool
  framePtrNext : BitVec 8
  int : Word
  tvalidInt : Bool

def defaults (r : Reg) : Comb where
  stateNext := .idle
  sEthHdrReadyNext := false
  sEthPayloadAxisTreadyNext := false
  storeEthHdr := false
  framePtrNext := r.framePtr
  int := ⟨0#8, false, false⟩
  tvalidInt := false

section Comb
variable (r : Reg) (i : Input)

def hdrTransfer : Bool := r.sEthHdrReady && i.sEthHdrValid

def payloadTransfer : Bool := r.sEthPayloadAxisTready && i.payloadTvalid

def idle : Comb :=
  let d := { defaults r with framePtrNext := 0#8, sEthHdrReadyNext := true }
  if hdrTransfer r i then
    let d := { d with storeEthHdr := true, sEthHdrReadyNext := false, stateNext := .writeHeader }
    if r.output.treadyInt then
      { d with
        tvalidInt := true
        int := ⟨byte i.sEthHdr.destMac 5, false, false⟩
        framePtrNext := 1#8 }
    else d
  else { d with stateNext := .idle }

def writeHeader : Comb :=
  if r.output.treadyInt then
    let d :=
      { defaults r with
        framePtrNext := r.framePtr + 1#8
        tvalidInt := true
        stateNext := .writeHeader
        int := ⟨r.hdr.atPtr r.framePtr.toNat, false, false⟩ }
    if r.framePtr = 0x0D#8 then
      { d with
        sEthPayloadAxisTreadyNext := AxisOutput.treadyIntEarly r.output true i.mAxisTready
        stateNext := .writePayload }
    else d
  else { defaults r with stateNext := .writeHeader }

def writePayload : Comb :=
  let d :=
    { defaults r with
      sEthPayloadAxisTreadyNext :=
        AxisOutput.treadyIntEarly r.output i.payloadTvalid i.mAxisTready
      int := i.payload
      tvalidInt := i.payloadTvalid }
  if payloadTransfer r i && i.payload.tlast then
    { d with sEthPayloadAxisTreadyNext := false, sEthHdrReadyNext := true, stateNext := .idle }
  else { d with stateNext := .writePayload }

/-- The `case` statement. -/
def comb : Comb :=
  match r.state with
  | .idle => idle r i
  | .writeHeader => writeHeader r i
  | .writePayload => writePayload r i

def posedge (rst : Bool) : Reg :=
  let b := comb r i
  { state := if rst then .idle else b.stateNext
    framePtr := if rst then 0#8 else b.framePtrNext
    hdr := if b.storeEthHdr then i.sEthHdr else r.hdr
    sEthHdrReady := if rst then false else b.sEthHdrReadyNext
    sEthPayloadAxisTready := if rst then false else b.sEthPayloadAxisTreadyNext
    busy := if rst then false else b.stateNext != .idle
    output := AxisOutput.posedge r.output b.int b.tvalidInt i.mAxisTready rst }

def step : Reg := posedge r i false

/-! ## What a clock takes in and puts out -/

def hdrAccepted : List EthHdr := if hdrTransfer r i then [i.sEthHdr] else []

def payloadAccepted : List Word := if payloadTransfer r i then [i.payload] else []

def written : List Word := AxisOutput.taken r.output (comb r i).int (comb r i).tvalidInt

def sent : List Word := AxisOutput.handed r.output i.mAxisTready

end Comb

/-- Where the frame in progress is, after the headers `hs` and the payload `p`. -/
def Phase (r : Reg) (hs : List EthHdr) (p : Packets Word) (ws : List Word) : Prop :=
  match r.state with
  | .idle => r.sEthPayloadAxisTready = false ∧ hs.length = p.closed.length ∧ p.rest = [] ∧
      ws = Framing.encode EthHdr.frame hs p
  | .writeHeader => r.sEthHdrReady = false ∧ r.sEthPayloadAxisTready = false ∧
      r.framePtr.toNat < 14 ∧ ∃ gs, hs = gs ++ [r.hdr] ∧ gs.length = p.closed.length ∧
      p.rest = [] ∧ ws = Framing.encode EthHdr.frame gs p ++ r.hdr.words.take r.framePtr.toNat
  | .writePayload => r.sEthHdrReady = false ∧ r.sEthPayloadAxisTready = r.output.treadyInt ∧
      ∃ gs, hs = gs ++ [r.hdr] ∧ gs.length = p.closed.length ∧
      ws = Framing.encode EthHdr.frame hs p

section Step
variable {r : Reg} {i : Input} {hs : List EthHdr} {p : Packets Word} {ws : List Word}

def pushed (p : Packets Word) (r : Reg) (i : Input) : Packets Word :=
  (payloadAccepted r i).foldl (Packets.push Word.tlast) p

/-- The payload word goes to the end of the frame. -/
theorem encode_payload {gs : List EthHdr} {h : EthHdr} (hlen : gs.length = p.closed.length)
    (w : Word) : Framing.encode EthHdr.frame (gs ++ [h]) p ++ [w] =
      Framing.encode EthHdr.frame (gs ++ [h]) (Packets.push Word.tlast p w) := by
  rw [Framing.encode_push h hlen, Framing.encode_open h hlen, EthHdr.frame, EthHdr.frame,
    List.append_assoc, List.append_assoc]

theorem idle_phase (hst : r.state = .idle) (h : Phase r hs p ws) :
    Phase (step r i) (hs ++ hdrAccepted r i) (pushed p r i) (ws ++ written r i) := by
  simp only [Phase, hst] at h
  obtain ⟨hready, hlen, hrest, rfl⟩ := h
  have hpay : payloadAccepted r i = [] := by simp [payloadAccepted, payloadTransfer, hready]
  rw [pushed, hpay, List.foldl_nil]
  cases ht : hdrTransfer r i with
  | false =>
    have hnext : (step r i).state = .idle := by simp [step, posedge, comb, hst, idle, ht]
    have hw : written r i = [] := by
      simp [written, AxisOutput.taken, comb, hst, idle, ht, defaults]
    have hh : hdrAccepted r i = [] := by simp [hdrAccepted, ht]
    have hp : (step r i).sEthPayloadAxisTready = false := by
      simp [step, posedge, comb, hst, idle, ht, defaults]
    rw [hw, hh, List.append_nil, List.append_nil]
    simp only [Phase, hnext]
    exact ⟨hp, hlen, hrest, trivial⟩
  | true =>
    have hnext : (step r i).state = .writeHeader := by
      cases ho : r.output.treadyInt <;> simp [step, posedge, comb, hst, idle, ht, ho]
    have hh : hdrAccepted r i = [i.sEthHdr] := by simp [hdrAccepted, ht]
    have hhdr : (step r i).hdr = i.sEthHdr := by
      cases ho : r.output.treadyInt <;> simp [step, posedge, comb, hst, idle, ht, ho]
    have h1 : (step r i).sEthHdrReady = false := by
      cases ho : r.output.treadyInt <;> simp [step, posedge, comb, hst, idle, ht, ho]
    have h2 : (step r i).sEthPayloadAxisTready = false := by
      cases ho : r.output.treadyInt <;> simp [step, posedge, comb, hst, idle, ht, ho, defaults]
    have hsent : (step r i).framePtr.toNat < 14 ∧
        written r i = i.sEthHdr.words.take (step r i).framePtr.toNat := by
      cases ho : r.output.treadyInt with
      | true =>
        have hptr : (step r i).framePtr = 1#8 := by simp [step, posedge, comb, hst, idle, ht, ho]
        rw [hptr]
        refine ⟨by decide, ?_⟩
        simp [written, AxisOutput.taken, comb, hst, idle, ht, ho]
        rfl
      | false =>
        have hptr : (step r i).framePtr = 0#8 := by simp [step, posedge, comb, hst, idle, ht, ho]
        rw [hptr]
        refine ⟨by decide, ?_⟩
        simp [written, AxisOutput.taken, ho]
    simp only [Phase, hnext]
    refine ⟨h1, h2, hsent.1, hs, by rw [hh, hhdr], hlen, hrest, ?_⟩
    rw [hhdr, hsent.2]

theorem writeHeader_phase (hst : r.state = .writeHeader) (h : Phase r hs p ws) :
    Phase (step r i) (hs ++ hdrAccepted r i) (pushed p r i) (ws ++ written r i) := by
  simp only [Phase, hst] at h
  obtain ⟨hh0, hready, hlt, gs, rfl, hlen, hrest, rfl⟩ := h
  have hpay : payloadAccepted r i = [] := by simp [payloadAccepted, payloadTransfer, hready]
  have hh : hdrAccepted r i = [] := by simp [hdrAccepted, hdrTransfer, hh0]
  rw [pushed, hpay, List.foldl_nil, hh, List.append_nil]
  cases ho : r.output.treadyInt with
  | false =>
    have hsame : (step r i).state = .writeHeader ∧ (step r i).sEthHdrReady = false ∧
        (step r i).sEthPayloadAxisTready = false ∧ (step r i).framePtr = r.framePtr ∧
        (step r i).hdr = r.hdr := by
      simp [step, posedge, comb, hst, writeHeader, ho, defaults]
    obtain ⟨hnext, h1, h2, hptr, hhdr⟩ := hsame
    have hw : written r i = [] := by simp [written, AxisOutput.taken, ho]
    simp only [Phase, hnext]
    rw [hw, List.append_nil, hptr, hhdr]
    exact ⟨h1, h2, hlt, gs, rfl, hlen, hrest, rfl⟩
  | true =>
    have hw : written r i = [⟨r.hdr.atPtr r.framePtr.toNat, false, false⟩] := by
      by_cases hd : r.framePtr = 0x0D#8 <;>
        simp [written, AxisOutput.taken, comb, hst, writeHeader, ho, hd]
    have htake := EthHdr.take_words r.hdr hlt
    by_cases hd : r.framePtr = 0x0D#8
    · have hsame : (step r i).state = .writePayload ∧ (step r i).sEthHdrReady = false ∧
          (step r i).sEthPayloadAxisTready = (step r i).output.treadyInt ∧
          (step r i).hdr = r.hdr := by
        simp [step, posedge, comb, hst, writeHeader, ho, hd, defaults, AxisOutput.posedge]
      obtain ⟨hnext, h1, h2, hhdr⟩ := hsame
      have hall : r.hdr.words.take r.framePtr.toNat ++
          [⟨r.hdr.atPtr r.framePtr.toNat, false, false⟩] = r.hdr.words := by
        rw [← htake, hd]
        rfl
      simp only [Phase, hnext]
      rw [hw, hhdr, List.append_assoc, hall]
      refine ⟨h1, h2, gs, rfl, hlen, ?_⟩
      rw [Framing.encode_open _ hlen, hrest, EthHdr.frame, List.append_nil]
    · have hsame : (step r i).state = .writeHeader ∧ (step r i).sEthHdrReady = false ∧
          (step r i).sEthPayloadAxisTready = false ∧ (step r i).framePtr = r.framePtr + 1#8 ∧
          (step r i).hdr = r.hdr := by
        simp [step, posedge, comb, hst, writeHeader, ho, hd, defaults]
      obtain ⟨hnext, h1, h2, hptr, hhdr⟩ := hsame
      have hne : r.framePtr.toNat ≠ 13 := fun he => hd (BitVec.eq_of_toNat_eq he)
      have hptr' : (r.framePtr + 1#8).toNat = r.framePtr.toNat + 1 := by
        rw [BitVec.toNat_add]
        simp
        omega
      simp only [Phase, hnext]
      rw [hw, hptr, hptr', hhdr, List.append_assoc, ← htake]
      exact ⟨h1, h2, by omega, gs, rfl, hlen, hrest, rfl⟩

theorem writePayload_phase (hst : r.state = .writePayload) (h : Phase r hs p ws) :
    Phase (step r i) (hs ++ hdrAccepted r i) (pushed p r i) (ws ++ written r i) := by
  simp only [Phase, hst] at h
  obtain ⟨hh0, hready, gs, rfl, hlen, rfl⟩ := h
  have hh : hdrAccepted r i = [] := by simp [hdrAccepted, hdrTransfer, hh0]
  have hw : written r i = payloadAccepted r i := by
    cases ht : payloadTransfer r i <;> cases hl : i.payload.tlast <;>
      simp [written, AxisOutput.taken, comb, hst, writePayload, payloadAccepted, ht, hl] <;>
      simpa [payloadTransfer, hready] using ht
  have hhdr : (step r i).hdr = r.hdr := by
    cases ht : payloadTransfer r i && i.payload.tlast <;>
      simp [step, posedge, comb, hst, writePayload, ht, defaults]
  rw [hh, List.append_nil, hw]
  cases ht : payloadTransfer r i && i.payload.tlast with
  | true =>
    obtain ⟨htr, hlast⟩ := Bool.and_eq_true_iff.mp ht
    have hacc : payloadAccepted r i = [i.payload] := by simp [payloadAccepted, htr]
    have hsame : (step r i).state = .idle ∧ (step r i).sEthPayloadAxisTready = false := by
      simp [step, posedge, comb, hst, writePayload, ht]
    have hpush : pushed p r i = ⟨p.closed ++ [p.rest ++ [i.payload]], []⟩ := by
      simp [pushed, hacc, Packets.push, hlast]
    simp only [Phase, hsame.1]
    refine ⟨hsame.2, ?_, ?_, ?_⟩
    · simp [hpush, hlen]
    · rw [hpush]
    · rw [pushed, hacc]
      exact encode_payload hlen i.payload
  | false =>
    have hsame : (step r i).state = .writePayload ∧ (step r i).sEthHdrReady = false ∧
        (step r i).sEthPayloadAxisTready = (step r i).output.treadyInt := by
      simp [step, posedge, comb, hst, writePayload, ht, defaults, AxisOutput.posedge]
    simp only [Phase, hsame.1]
    refine ⟨hsame.2.1, hsame.2.2, gs, by rw [hhdr], ?_, ?_⟩
    · cases htr : payloadTransfer r i with
      | false => simpa [pushed, payloadAccepted, htr] using hlen
      | true =>
        have hlast : i.payload.tlast = false := by simpa [htr] using ht
        simpa [pushed, payloadAccepted, htr, Packets.push, hlast] using hlen
    · cases htr : payloadTransfer r i with
      | false => simp [pushed, payloadAccepted, htr]
      | true =>
        simp only [pushed, payloadAccepted, htr, if_true, List.foldl_cons, List.foldl_nil]
        exact encode_payload hlen i.payload

theorem step_phase (h : Phase r hs p ws) :
    Phase (step r i) (hs ++ hdrAccepted r i) (pushed p r i) (ws ++ written r i) := by
  cases hst : r.state with
  | idle => exact idle_phase hst h
  | writeHeader => exact writeHeader_phase hst h
  | writePayload => exact writePayload_phase hst h

/-- Every word written so far belongs to the frames. -/
theorem Phase.isPrefix (h : Phase r hs p ws) : ws <+: Framing.encode EthHdr.frame hs p := by
  cases hst : r.state with
  | idle =>
    simp only [Phase, hst] at h
    obtain ⟨_, _, _, rfl⟩ := h
    exact List.prefix_refl _
  | writeHeader =>
    simp only [Phase, hst] at h
    obtain ⟨_, _, _, gs, rfl, hlen, _, rfl⟩ := h
    rw [Framing.encode_open _ hlen, List.prefix_append_right_inj]
    exact (List.take_prefix _ _).trans (List.prefix_append _ _)
  | writePayload =>
    simp only [Phase, hst] at h
    obtain ⟨_, _, gs, _, _, rfl⟩ := h
    exact List.prefix_refl _

/-- Outside of a header nothing is left to write. -/
theorem Phase.complete (h : Phase r hs p ws) (hst : r.state ≠ .writeHeader) :
    ws = Framing.encode EthHdr.frame hs p := by
  cases hst' : r.state with
  | idle =>
    simp only [Phase, hst'] at h
    exact h.2.2.2
  | writeHeader => exact absurd hst' hst
  | writePayload =>
    simp only [Phase, hst'] at h
    obtain ⟨_, _, gs, _, _, hws⟩ := h
    exact hws

theorem Phase.paired (h : Phase r hs p ws) : Framing.Paired hs p := by
  cases hst : r.state with
  | idle =>
    simp only [Phase, hst] at h
    exact .inl ⟨h.2.1, h.2.2.1⟩
  | writeHeader =>
    simp only [Phase, hst] at h
    obtain ⟨_, _, _, gs, rfl, hlen, _⟩ := h
    exact .inr ⟨gs, _, rfl, hlen⟩
  | writePayload =>
    simp only [Phase, hst] at h
    obtain ⟨_, _, gs, rfl, hlen, _⟩ := h
    exact .inr ⟨gs, _, rfl, hlen⟩

end Step

/-- After the headers `hs` and the payload words `ps`, the words `out` have been sent. -/
structure Sending (r : Reg) (hs : List EthHdr) (ps out : List Word) : Prop where
  phase : Phase r hs (Packets.cut Word.tlast ps) (out ++ AxisOutput.contents r.output)
  output : AxisOutput.Inv r.output

theorem sending_reset (r : Reg) (i : Input) : Sending (posedge r i true) [] [] [] := by
  refine ⟨?_, AxisOutput.inv_reset _ _ _ _⟩
  have hnone : AxisOutput.contents (posedge r i true).output = [] :=
    AxisOutput.contents_reset _ _ _ _
  rw [hnone]
  exact ⟨rfl, rfl, rfl, rfl⟩

theorem sending_step {r : Reg} {hs : List EthHdr} {ps out : List Word} (h : Sending r hs ps out)
    (i : Input) : Sending (step r i) (hs ++ hdrAccepted r i) (ps ++ payloadAccepted r i)
      (out ++ sent r i) := by
  refine ⟨?_, AxisOutput.inv_posedge h.output _ _ _⟩
  have hcontents := AxisOutput.contents_posedge h.output (comb r i).int (comb r i).tvalidInt
    i.mAxisTready
  have hnext := step_phase (i := i) h.phase
  have hwords : out ++ AxisOutput.contents r.output ++ written r i =
      out ++ sent r i ++ AxisOutput.contents (step r i).output := by
    rw [List.append_assoc, List.append_assoc, written, ← hcontents]
    rfl
  rw [hwords, pushed] at hnext
  rwa [Packets.cut, List.foldl_append]

theorem Sending.isPrefix {r : Reg} {hs : List EthHdr} {ps out : List Word}
    (h : Sending r hs ps out) :
    out <+: Framing.encode EthHdr.frame hs (Packets.cut Word.tlast ps) :=
  (List.prefix_append _ _).trans h.phase.isPrefix

end AdcCapture.EthAxisTx
