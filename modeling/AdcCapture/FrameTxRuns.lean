import AdcCapture.FrameTx

/-!
# Runs of a transmitter

What has been sent after the headers and the payload taken so far: an invariant,
kept in each state of the machine, and from it what a frame looks like to a module
that comes next.
-/

namespace AdcCapture.FrameTx

open Clocked
open AxisOutput (Word)
set_option autoImplicit false

variable {ι κ η σ : Type} {w : Nat}

/-! ## The frame in progress -/

section Phase
variable {F : Format ι κ η σ w} (L : Layout F)

/-- Where the frame in progress is, after the headers `hs` and the payload `p`. -/
def Phase (r : Reg κ η σ w) (hs : List ι) (p : Packets Word) (ws : List Word) : Prop :=
  match r.state with
  | .idle => (r.sHdrReady = true → r.mHdrValid = false) ∧ r.sPayloadTready = false ∧
      hs.length = p.closed.length ∧ p.rest = [] ∧ ws = Framing.encode L.frame hs p
  | .writeHeader => r.sHdrReady = false ∧ r.sPayloadTready = false ∧
      r.hdrPtr.toNat ≤ F.lastPtr.toNat ∧ L.inv r.hdr r.hdrSum r.hdrPtr.toNat ∧
      ∃ gs x, hs = gs ++ [x] ∧ r.hdr = F.keep x ∧ gs.length = p.closed.length ∧ p.rest = [] ∧
        ws = Framing.encode L.frame gs p ++ (L.words r.hdr).take r.hdrPtr.toNat
  | .writePayload => r.sHdrReady = false ∧ r.sPayloadTready = r.output.treadyInt ∧
      ∃ gs x, hs = gs ++ [x] ∧ gs.length = p.closed.length ∧ ws = Framing.encode L.frame hs p ∧
        PayloadLength.Rest early (F.payloadCount (F.keep x)) p.rest
          (PayloadLength.fit early r.wordCount)
  | .writePayloadLast => r.sHdrReady = false ∧ r.sPayloadTready = r.output.treadyInt ∧
      ∃ gs x, hs = gs ++ [x] ∧ gs.length = p.closed.length ∧ ws = Framing.encode L.frame hs p ∧
        PayloadLength.Rest early (F.payloadCount (F.keep x)) p.rest
          (PayloadLength.cutOff r.lastWordData)
  | .waitLast => False

end Phase

section Step
variable {F : Format ι κ η σ w} {L : Layout F} {r : Reg κ η σ w} {i : Input ι} {hs : List ι}
  {p : Packets Word} {ws : List Word}

def pushed (p : Packets Word) (r : Reg κ η σ w) (i : Input ι) : Packets Word :=
  (payloadAccepted r i).foldl (Packets.push Word.tlast) p

theorem pushed_none (ht : payloadTransfer r i = false) : pushed p r i = p := by
  simp [pushed, payloadAccepted, ht]

theorem pushed_some (ht : payloadTransfer r i = true) :
    pushed p r i = Packets.push Word.tlast p i.payload := by
  simp [pushed, payloadAccepted, ht]

theorem payloadTransfer_eq_false (h : r.sPayloadTready = false) : payloadTransfer r i = false := by
  rw [payloadTransfer, h, Bool.false_and]

theorem hdrAccepted_eq_nil (h : r.sHdrReady = false) : hdrAccepted r i = [] := by
  simp [hdrAccepted, hdrTransfer, h]

/-- One payload word more of the frame in progress. -/
theorem encode_payload {gs : List ι} {x : ι} {more : List Word → List Word}
    (hlen : gs.length = p.closed.length)
    (hrest : PayloadLength.Rest early (F.payloadCount (F.keep x)) p.rest more)
    (v : Word) : Framing.encode L.frame (gs ++ [x]) (Packets.push Word.tlast p v) =
      Framing.encode L.frame (gs ++ [x]) p ++ more [v] := by
  rw [Framing.encode_push x hlen, Framing.encode_open x hlen, Layout.frame, Layout.frame,
    hrest [v], List.append_assoc, List.append_assoc]

theorem idle_phase (hst : r.state = .idle) (h : Phase L r hs p ws) :
    Phase L (step F r i) (hs ++ hdrAccepted r i) (pushed p r i) (ws ++ written F r i) := by
  simp only [Phase, hst] at h
  obtain ⟨hvalid, hready, hlen, hrest, rfl⟩ := h
  rw [pushed_none (payloadTransfer_eq_false hready)]
  cases ht : hdrTransfer r i with
  | false =>
    have hs' : (step F r i).state = .idle ∧ (step F r i).sPayloadTready = false ∧
        (step F r i).sHdrReady = !(step F r i).mHdrValid := by
      simp [step, posedge, comb, hst, idle, ht, defaults]
    have hw : written F r i = [] := by
      simp [written, AxisOutput.taken, comb, hst, idle, ht, defaults]
    have hh : hdrAccepted r i = [] := by simp [hdrAccepted, ht]
    rw [hw, hh, List.append_nil, List.append_nil]
    simp only [Phase, hs'.1]
    refine ⟨?_, hs'.2.1, hlen, hrest, trivial⟩
    rw [hs'.2.2]
    simp
  | true =>
    have hh : hdrAccepted r i = [i.sHdr] := by simp [hdrAccepted, ht]
    have hs' : (step F r i).state = .writeHeader ∧ (step F r i).sHdrReady = false ∧
        (step F r i).sPayloadTready = false ∧ (step F r i).hdr = F.keep i.sHdr := by
      cases ho : r.output.treadyInt <;> simp [step, posedge, comb, hst, idle, ht, ho, defaults]
    obtain ⟨hnext, h1, h2, hhdr⟩ := hs'
    have hone : (1#w).toNat = 1 := by
      have hlast := L.one_lt
      have hlt := F.lastPtr.isLt
      rw [BitVec.toNat_ofNat, Nat.mod_eq_of_lt (by omega)]
    have hsent : (step F r i).hdrPtr.toNat ≤ F.lastPtr.toNat ∧
        L.inv (step F r i).hdr (step F r i).hdrSum (step F r i).hdrPtr.toNat ∧
        written F r i = (L.words (step F r i).hdr).take (step F r i).hdrPtr.toNat := by
      cases ho : r.output.treadyInt with
      | true =>
        have hptr : (step F r i).hdrPtr = 1#w := by
          simp [step, posedge, comb, hst, idle, ht, ho]
        rw [hptr, hone, hhdr, L.take_words_first]
        refine ⟨Nat.le_of_lt L.one_lt, L.inv_one _ _, ?_⟩
        simp [written, AxisOutput.taken, comb, hst, idle, ht, ho]
      | false =>
        have hptr : (step F r i).hdrPtr = 0#w := by
          simp [step, posedge, comb, hst, idle, ht, ho]
        rw [hptr, BitVec.toNat_ofNat, Nat.zero_mod]
        refine ⟨Nat.zero_le _, L.inv_zero _ _, ?_⟩
        simp [written, AxisOutput.taken, ho]
    simp only [Phase, hnext]
    rw [hh, hsent.2.2]
    exact ⟨h1, h2, hsent.1, hsent.2.1, hs, i.sHdr, rfl, hhdr, hlen, hrest, rfl⟩

theorem writeHeader_phase (hst : r.state = .writeHeader) (h : Phase L r hs p ws) :
    Phase L (step F r i) (hs ++ hdrAccepted r i) (pushed p r i) (ws ++ written F r i) := by
  simp only [Phase, hst] at h
  obtain ⟨hh0, hready, hle, hinv, gs, x, rfl, hx, hlen, hrest, rfl⟩ := h
  rw [pushed_none (payloadTransfer_eq_false hready), hdrAccepted_eq_nil hh0, List.append_nil]
  cases ho : r.output.treadyInt with
  | false =>
    have hs' : (step F r i).state = .writeHeader ∧ (step F r i).sHdrReady = false ∧
        (step F r i).sPayloadTready = false ∧ (step F r i).hdrPtr = r.hdrPtr ∧
        (step F r i).hdrSum = r.hdrSum ∧ (step F r i).hdr = r.hdr := by
      simp [step, posedge, comb, hst, writeHeader, ho, defaults]
    obtain ⟨hnext, h1, h2, hptr, hsum, hhdr⟩ := hs'
    have hw : written F r i = [] := by simp [written, AxisOutput.taken, ho]
    simp only [Phase, hnext]
    rw [hw, List.append_nil, hptr, hhdr, hsum]
    exact ⟨h1, h2, hle, hinv, gs, x, rfl, hx, hlen, hrest, rfl⟩
  | true =>
    have hw : written F r i = [⟨F.byteAt r.hdr r.hdrSum r.hdrPtr.toNat, false, false⟩] := by
      by_cases hd : r.hdrPtr = F.lastPtr <;>
        simp [written, AxisOutput.taken, comb, hst, writeHeader, ho, hd]
    have htake := L.take_words hle hinv
    by_cases hd : r.hdrPtr = F.lastPtr
    · have hs' : (step F r i).state = .writePayload ∧ (step F r i).sHdrReady = false ∧
          (step F r i).sPayloadTready = (step F r i).output.treadyInt ∧
          (step F r i).wordCount = F.payloadCount r.hdr := by
        simp [step, posedge, comb, hst, writeHeader, ho, hd, defaults, AxisOutput.posedge]
      obtain ⟨hnext, h1, h2, hcount⟩ := hs'
      have hall : (L.words r.hdr).take r.hdrPtr.toNat ++
          [⟨F.byteAt r.hdr r.hdrSum r.hdrPtr.toNat, false, false⟩] = L.words r.hdr := by
        rw [← htake, hd]
        exact List.take_of_length_le (Nat.le_of_eq (L.length_words r.hdr))
      simp only [Phase, hnext]
      rw [hw, List.append_assoc, hall]
      refine ⟨h1, h2, gs, x, rfl, hlen, ?_, ?_⟩
      · rw [Framing.encode_open x hlen, hrest, L.frame_nil, hx]
      · rw [hrest, hcount, hx]
        exact PayloadLength.rest_nil _ _
    · have hs' : (step F r i).state = .writeHeader ∧ (step F r i).sHdrReady = false ∧
          (step F r i).sPayloadTready = false ∧ (step F r i).hdrPtr = r.hdrPtr + 1#w ∧
          (step F r i).hdrSum = F.sumNext r.hdr r.hdrSum r.hdrPtr.toNat ∧
          (step F r i).hdr = r.hdr := by
        simp [step, posedge, comb, hst, writeHeader, ho, hd, defaults]
      obtain ⟨hnext, h1, h2, hptr, hsum, hhdr⟩ := hs'
      have hne : r.hdrPtr.toNat ≠ F.lastPtr.toNat := fun he => hd (BitVec.eq_of_toNat_eq he)
      have hlast := F.lastPtr.isLt
      have hone := L.one_lt
      have hptr' : (r.hdrPtr + 1#w).toNat = r.hdrPtr.toNat + 1 := by
        have h1w : (1#w).toNat = 1 := by rw [BitVec.toNat_ofNat, Nat.mod_eq_of_lt (by omega)]
        rw [BitVec.toNat_add, h1w, Nat.mod_eq_of_lt (by omega)]
      simp only [Phase, hnext]
      rw [hw, hptr, hptr', hsum, hhdr, List.append_assoc, ← htake]
      exact ⟨h1, h2, by omega, L.inv_succ _ _ _ hle hinv, gs, x, rfl, hx, hlen, hrest, rfl⟩

/-- The end of a payload. -/
theorem finish_phase {gs : List ι} {x : ι} {more : List Word → List Word}
    (hlen : gs.length = p.closed.length)
    (hrest : PayloadLength.Rest early (F.payloadCount (F.keep x)) p.rest more)
    (hlast : i.payload.tlast = true) (hnext : (step F r i).state = .idle)
    (hvalid : (step F r i).sHdrReady = !(step F r i).mHdrValid)
    (hready : (step F r i).sPayloadTready = false) :
    Phase L (step F r i) (gs ++ [x]) (Packets.push Word.tlast p i.payload)
      (Framing.encode L.frame (gs ++ [x]) p ++ more [i.payload]) := by
  have hpush : Packets.push Word.tlast p i.payload =
      ⟨p.closed ++ [p.rest ++ [i.payload]], []⟩ := by rw [Packets.push, if_pos hlast]
  rw [← encode_payload hlen hrest]
  simp only [Phase, hnext]
  refine ⟨?_, hready, ?_, ?_, trivial⟩
  · rw [hvalid]
    simp
  · simp [hpush, hlen]
  · rw [hpush]

theorem writePayload_phase (hst : r.state = .writePayload) (h : Phase L r hs p ws) :
    Phase L (step F r i) (hs ++ hdrAccepted r i) (pushed p r i) (ws ++ written F r i) := by
  simp only [Phase, hst] at h
  obtain ⟨hh0, hready, gs, x, rfl, hlen, rfl, hrest⟩ := h
  rw [hdrAccepted_eq_nil hh0, List.append_nil]
  cases ht : payloadTransfer r i with
  | false =>
    have hs' : (step F r i).state = .writePayload ∧ (step F r i).sHdrReady = false ∧
        (step F r i).sPayloadTready = (step F r i).output.treadyInt ∧
        (step F r i).wordCount = r.wordCount := by
      simp [step, posedge, comb, hst, writePayload, ht, defaults, AxisOutput.posedge]
    obtain ⟨hnext, h1, h2, hcount⟩ := hs'
    have hw : written F r i = [] := by
      have hno : (r.output.treadyInt && i.payloadTvalid) = false := by
        rw [← hready]
        exact ht
      simp [written, AxisOutput.taken, comb, hst, writePayload, ht] at hno ⊢
      exact hno
    rw [pushed_none ht, hw, List.append_nil]
    simp only [Phase, hnext]
    exact ⟨h1, h2, gs, x, rfl, hlen, trivial, by rwa [hcount]⟩
  | true =>
    have hin := Bool.and_eq_true_iff.mp ht
    rw [hready] at hin
    rw [pushed_some ht]
    cases hl : i.payload.tlast with
    | true =>
      have hs' : (step F r i).state = .idle ∧ (step F r i).sPayloadTready = false ∧
          (step F r i).sHdrReady = !(step F r i).mHdrValid := by
        cases he : early r.wordCount <;>
          simp [step, posedge, comb, hst, writePayload, ht, hl, he, finish]
      have hw : written F r i = PayloadLength.fit early r.wordCount [i.payload] := by
        cases he : early r.wordCount <;>
          simp [written, AxisOutput.taken, comb, hst, writePayload, ht, hl, he, finish, hin,
            PayloadLength.fit]
      rw [hw]
      exact finish_phase hlen hrest hl hs'.1 hs'.2.2 hs'.2.1
    | false =>
      have hpush : Packets.push Word.tlast p i.payload = ⟨p.closed, p.rest ++ [i.payload]⟩ := by
        rw [Packets.push, hl, if_neg Bool.false_ne_true]
      by_cases hc : r.wordCount = 1#16
      · have hs' : (step F r i).state = .writePayloadLast ∧ (step F r i).sHdrReady = false ∧
            (step F r i).sPayloadTready = (step F r i).output.treadyInt ∧
            (step F r i).lastWordData = i.payload.tdata := by
          simp [step, posedge, comb, hst, writePayload, ht, hl, hc, defaults, AxisOutput.posedge]
        obtain ⟨hnext, h1, h2, hdata⟩ := hs'
        have hw : written F r i = PayloadLength.fit early r.wordCount [i.payload] := by
          simp [written, AxisOutput.taken, comb, hst, writePayload, ht, hl, hc, PayloadLength.fit,
            PayloadLength.cutOff]
        rw [hw, ← encode_payload hlen hrest]
        simp only [Phase, hnext]
        refine ⟨h1, h2, gs, x, rfl, by rw [hpush]; exact hlen, trivial, ?_⟩
        rw [hpush, hdata]
        exact hrest.hold hl hc
      · have hs' : (step F r i).state = .writePayload ∧ (step F r i).sHdrReady = false ∧
            (step F r i).sPayloadTready = (step F r i).output.treadyInt ∧
            (step F r i).wordCount = r.wordCount - 1#16 := by
          simp [step, posedge, comb, hst, writePayload, ht, hl, hc, defaults, AxisOutput.posedge]
        obtain ⟨hnext, h1, h2, hcount⟩ := hs'
        have hw : written F r i = PayloadLength.fit early r.wordCount [i.payload] := by
          simp [written, AxisOutput.taken, comb, hst, writePayload, ht, hl, hc, hin,
            PayloadLength.fit]
        rw [hw, ← encode_payload hlen hrest]
        simp only [Phase, hnext]
        refine ⟨h1, h2, gs, x, rfl, by rw [hpush]; exact hlen, trivial, ?_⟩
        rw [hpush, hcount]
        exact hrest.counted hl hc

theorem writePayloadLast_phase (hst : r.state = .writePayloadLast) (h : Phase L r hs p ws) :
    Phase L (step F r i) (hs ++ hdrAccepted r i) (pushed p r i) (ws ++ written F r i) := by
  simp only [Phase, hst] at h
  obtain ⟨hh0, hready, gs, x, rfl, hlen, rfl, hrest⟩ := h
  rw [hdrAccepted_eq_nil hh0, List.append_nil]
  have hin : payloadTransfer r i = (r.output.treadyInt && i.payloadTvalid) := by
    rw [payloadTransfer, hready]
  cases hf : payloadTransfer r i && i.payload.tlast with
  | true =>
    obtain ⟨ht, hl⟩ := Bool.and_eq_true_iff.mp hf
    have hs' : (step F r i).state = .idle ∧ (step F r i).sPayloadTready = false ∧
        (step F r i).sHdrReady = !(step F r i).mHdrValid := by
      simp [step, posedge, comb, hst, writePayloadLast, ht, hl, finish]
    have hw : written F r i = PayloadLength.cutOff r.lastWordData [i.payload] := by
      rw [ht] at hin
      obtain ⟨ho, hv⟩ := Bool.and_eq_true_iff.mp hin.symm
      simp [written, AxisOutput.taken, comb, hst, writePayloadLast, ht, hl, finish, ho, hv,
        PayloadLength.cutOff]
    rw [pushed_some ht, hw]
    exact finish_phase hlen hrest hl hs'.1 hs'.2.2 hs'.2.1
  | false =>
    have hs' : (step F r i).state = .writePayloadLast ∧ (step F r i).sHdrReady = false ∧
        (step F r i).sPayloadTready = (step F r i).output.treadyInt ∧
        (step F r i).lastWordData = r.lastWordData := by
      simp [step, posedge, comb, hst, writePayloadLast, hf, defaults, AxisOutput.posedge]
    obtain ⟨hnext, h1, h2, hdata⟩ := hs'
    have hw : written F r i = [] := by
      rw [hin] at hf
      simp [written, AxisOutput.taken, comb, hst, writePayloadLast, hin, hf]
      simpa using hf
    rw [hw, List.append_nil]
    simp only [Phase, hnext]
    cases ht : payloadTransfer r i with
    | false =>
      rw [pushed_none ht]
      exact ⟨h1, h2, gs, x, rfl, hlen, rfl, by rwa [hdata]⟩
    | true =>
      have hl : i.payload.tlast = false := by simpa [ht] using hf
      have hpush : Packets.push Word.tlast p i.payload = ⟨p.closed, p.rest ++ [i.payload]⟩ := by
        rw [Packets.push, hl, if_neg Bool.false_ne_true]
      have hnone : PayloadLength.cutOff r.lastWordData [i.payload] = [] := by
        simp [PayloadLength.cutOff, hl]
      rw [pushed_some ht]
      refine ⟨h1, h2, gs, x, rfl, by rw [hpush]; exact hlen, ?_, ?_⟩
      · rw [encode_payload hlen hrest, hnone, List.append_nil]
      · rw [hpush, hdata]
        exact hrest.discard hl

theorem step_phase (h : Phase L r hs p ws) :
    Phase L (step F r i) (hs ++ hdrAccepted r i) (pushed p r i) (ws ++ written F r i) := by
  cases hst : r.state with
  | idle => exact idle_phase hst h
  | writeHeader => exact writeHeader_phase hst h
  | writePayload => exact writePayload_phase hst h
  | writePayloadLast => exact writePayloadLast_phase hst h
  | waitLast =>
    simp only [Phase, hst] at h

/-- Every word written so far belongs to the frames. -/
theorem Phase.isPrefix (h : Phase L r hs p ws) : ws <+: Framing.encode L.frame hs p := by
  cases hst : r.state with
  | idle =>
    simp only [Phase, hst] at h
    exact ⟨[], by rw [List.append_nil, h.2.2.2.2]⟩
  | writeHeader =>
    simp only [Phase, hst] at h
    obtain ⟨_, _, _, _, gs, x, rfl, hx, hlen, _, rfl⟩ := h
    rw [Framing.encode_open x hlen, List.prefix_append_right_inj, hx]
    exact (List.take_prefix _ _).trans (List.prefix_append _ _)
  | writePayload =>
    simp only [Phase, hst] at h
    obtain ⟨_, _, _, _, _, _, hws, _⟩ := h
    exact ⟨[], by rw [List.append_nil, hws]⟩
  | writePayloadLast =>
    simp only [Phase, hst] at h
    obtain ⟨_, _, _, _, _, _, hws, _⟩ := h
    exact ⟨[], by rw [List.append_nil, hws]⟩
  | waitLast => simp only [Phase, hst] at h

/-- Outside of a header nothing is left to write. -/
theorem Phase.complete (h : Phase L r hs p ws) (hst : r.state ≠ .writeHeader) :
    ws = Framing.encode L.frame hs p := by
  cases hst' : r.state with
  | idle =>
    simp only [Phase, hst'] at h
    exact h.2.2.2.2
  | writeHeader => exact absurd hst' hst
  | writePayload =>
    simp only [Phase, hst'] at h
    obtain ⟨_, _, _, _, _, _, hws, _⟩ := h
    exact hws
  | writePayloadLast =>
    simp only [Phase, hst'] at h
    obtain ⟨_, _, _, _, _, _, hws, _⟩ := h
    exact hws
  | waitLast => simp only [Phase, hst'] at h

theorem Phase.paired (h : Phase L r hs p ws) : Framing.Paired hs p := by
  cases hst : r.state with
  | idle =>
    simp only [Phase, hst] at h
    exact .inl ⟨h.2.2.1, h.2.2.2.1⟩
  | writeHeader =>
    simp only [Phase, hst] at h
    obtain ⟨_, _, _, _, gs, x, hhs, _, hlen, _⟩ := h
    exact .inr ⟨gs, x, hhs, hlen⟩
  | writePayload =>
    simp only [Phase, hst] at h
    obtain ⟨_, _, gs, x, hhs, hlen, _⟩ := h
    exact .inr ⟨gs, x, hhs, hlen⟩
  | writePayloadLast =>
    simp only [Phase, hst] at h
    obtain ⟨_, _, gs, x, hhs, hlen, _⟩ := h
    exact .inr ⟨gs, x, hhs, hlen⟩
  | waitLast => simp only [Phase, hst] at h

/-- A header is only taken when the one before has been passed on. -/
theorem Phase.mHdrValid (h : Phase L r hs p ws) (ht : hdrTransfer r i = true) :
    r.state = .idle ∧ r.mHdrValid = false := by
  have hr : r.sHdrReady = true := (Bool.and_eq_true_iff.mp ht).1
  cases hst : r.state <;> simp only [Phase, hst, hr] at h
  · exact ⟨rfl, h.1 trivial⟩
  all_goals simp at h

end Step

/-- The header that has not been passed on. -/
def pending (r : Reg κ η σ w) : List κ := if r.mHdrValid then [r.m] else []

section Step
variable {F : Format ι κ η σ w} {r : Reg κ η σ w} {i : Input ι}

theorem m_held (ht : hdrTransfer r i = false) :
    (step F r i).m = r.m ∧ (step F r i).mHdrValid = (r.mHdrValid && !i.mHdrReady) := by
  cases hst : r.state with
  | idle => simp [step, posedge, comb, hst, idle, ht, defaults]
  | writeHeader =>
    cases ho : r.output.treadyInt <;> by_cases hd : r.hdrPtr = F.lastPtr <;>
      simp [step, posedge, comb, hst, writeHeader, ho, hd, defaults]
  | writePayload =>
    cases hp : payloadTransfer r i with
    | false => simp [step, posedge, comb, hst, writePayload, hp, defaults]
    | true =>
      cases hl : i.payload.tlast with
      | true =>
        cases he : early r.wordCount <;>
          simp [step, posedge, comb, hst, writePayload, hp, hl, he, finish, defaults]
      | false =>
        by_cases hc : r.wordCount = 1#16 <;>
          simp [step, posedge, comb, hst, writePayload, hp, hl, hc, defaults]
  | writePayloadLast =>
    cases hf : payloadTransfer r i && i.payload.tlast <;>
      simp [step, posedge, comb, hst, writePayloadLast, hf, finish, defaults]
  | waitLast =>
    cases hf : F.waitTransfer r.sPayloadTready i.payloadTvalid && i.payload.tlast <;>
      simp [step, posedge, comb, hst, waitLast, hf, finish, defaults]

theorem pending_step {L : Layout F} {hs : List ι} {p : Packets Word} {ws : List Word}
    (h : Phase L r hs p ws) : hdrSent r i ++ pending (step F r i) =
      pending r ++ (hdrAccepted r i).map F.pass := by
  cases ht : hdrTransfer r i with
  | true =>
    obtain ⟨hst, hv⟩ := h.mHdrValid ht
    have hs' : (step F r i).m = F.pass i.sHdr ∧ (step F r i).mHdrValid = true := by
      cases ho : r.output.treadyInt <;> simp [step, posedge, comb, hst, idle, ht, ho]
    simp [hdrSent, pending, hdrAccepted, hv, ht, hs'.1, hs'.2]
  | false =>
    obtain ⟨hm, hv⟩ := m_held (F := F) ht
    cases h1 : r.mHdrValid <;> cases h2 : i.mHdrReady <;>
      simp [hdrSent, pending, hdrAccepted, ht, hm, hv, h1, h2]

end Step

/--
After the headers `hs` and the payload words `ps`, the headers `gs` and the words `out`
have been sent.
-/
structure Sending {F : Format ι κ η σ w} (L : Layout F) (r : Reg κ η σ w) (hs : List ι)
    (ps : List Word) (gs : List κ) (out : List Word) : Prop where
  phase : Phase L r hs (Packets.cut Word.tlast ps) (out ++ AxisOutput.contents r.output)
  hdrs : gs ++ pending r = hs.map F.pass
  output : AxisOutput.Inv r.output

section Sending
variable {F : Format ι κ η σ w} {L : Layout F} {r : Reg κ η σ w} {hs : List ι}
  {ps out : List Word} {gs : List κ}

theorem sending_reset (L : Layout F) (r : Reg κ η σ w) (i : Input ι) :
    Sending L (posedge F r i true) [] [] [] [] := by
  have hnone : AxisOutput.contents (posedge F r i true).output = [] :=
    AxisOutput.contents_reset _ _ _ _
  refine ⟨?_, rfl, AxisOutput.inv_reset _ _ _ _⟩
  have hst : (posedge F r i true).state = .idle := rfl
  rw [hnone]
  simp only [Phase, hst]
  exact ⟨fun _ => rfl, rfl, rfl, rfl, rfl⟩

theorem sending_step (h : Sending L r hs ps gs out) (i : Input ι) :
    Sending L (step F r i) (hs ++ hdrAccepted r i) (ps ++ payloadAccepted r i)
      (gs ++ hdrSent r i) (out ++ payloadSent r i) := by
  have hcontents := AxisOutput.contents_posedge h.output (comb F r i).int (comb F r i).tvalidInt
    i.mPayloadTready
  have hnext := step_phase (i := i) h.phase
  have hwords : out ++ AxisOutput.contents r.output ++ written F r i =
      out ++ payloadSent r i ++ AxisOutput.contents (step F r i).output := by
    rw [List.append_assoc, List.append_assoc, written, ← hcontents]
    rfl
  constructor
  case phase =>
    rw [hwords, pushed] at hnext
    rwa [Packets.cut, List.foldl_append]
  case hdrs =>
    rw [List.append_assoc, pending_step h.phase, ← List.append_assoc, h.hdrs, List.map_append]
  case output => exact AxisOutput.inv_posedge h.output _ _ _

theorem Sending.isPrefix (h : Sending L r hs ps gs out) :
    gs <+: hs.map F.pass ∧ out <+: Framing.encode L.frame hs (Packets.cut Word.tlast ps) :=
  ⟨⟨_, h.hdrs⟩, (List.prefix_append _ _).trans h.phase.isPrefix⟩

/-- Headers and payload that come from an inner encoding `frame`. -/
theorem Sending.layer {θ : Type} {f : θ → ι} {frame : θ → List Word → List Word} {xs : List θ}
    {bs : List Word} (h : Sending L r hs ps gs out)
    (hpacket : ∀ x q, Packets.IsPacket Word.tlast q → Packets.IsPacket Word.tlast (frame x q))
    (hopen : ∀ x q, (∀ v ∈ q, v.tlast = false) → ∀ v ∈ frame x q, v.tlast = false)
    (hpair : Framing.Paired xs (Packets.cut Word.tlast bs)) (hhs : hs <+: xs.map f)
    (hps : ps <+: Framing.encode frame xs (Packets.cut Word.tlast bs)) :
    gs <+: xs.map (fun x => F.pass (f x)) ∧
      out <+: Framing.encode (fun x q => L.frame (f x) (frame x q)) xs
        (Packets.cut Word.tlast bs) := by
  have hmap : (xs.map f).map F.pass = xs.map fun x => F.pass (f x) := List.map_map
  have hpass := h.isPrefix.1.trans (hhs.map F.pass)
  have hmono : Framing.encode L.frame hs (Packets.cut Word.tlast ps) <+:
      Framing.encode L.frame (xs.map f) (Packets.cut Word.tlast
        (Framing.encode frame xs (Packets.cut Word.tlast bs))) :=
    Framing.encode_mono L.frame_grow hhs hps
  rw [hmap] at hpass
  rw [Framing.encode_encode hpacket L.frame f hopen bs hpair] at hmono
  exact ⟨hpass, h.isPrefix.2.trans hmono⟩

/-- Nothing is left to send. -/
def Drained (r : Reg κ η σ w) : Prop :=
  r.state ≠ .writeHeader ∧ r.mHdrValid = false ∧ AxisOutput.contents r.output = []

theorem Sending.complete (h : Sending L r hs ps gs out) (hd : Drained r) :
    gs = hs.map F.pass ∧ out = Framing.encode L.frame hs (Packets.cut Word.tlast ps) := by
  obtain ⟨hst, hvalid, hnone⟩ := hd
  have hhdrs := h.hdrs
  have hwords := h.phase.complete hst
  rw [pending, hvalid, if_neg Bool.false_ne_true, List.append_nil] at hhdrs
  rw [hnone, List.append_nil] at hwords
  exact ⟨hhdrs, hwords⟩

theorem Sending.layer_complete {θ : Type} {f : θ → ι} {frame : θ → List Word → List Word}
    {xs : List θ} {bs : List Word} (h : Sending L r hs ps gs out) (hd : Drained r)
    (hpacket : ∀ x q, Packets.IsPacket Word.tlast q → Packets.IsPacket Word.tlast (frame x q))
    (hopen : ∀ x q, (∀ v ∈ q, v.tlast = false) → ∀ v ∈ frame x q, v.tlast = false)
    (hpair : Framing.Paired xs (Packets.cut Word.tlast bs)) (hhs : hs = xs.map f)
    (hps : ps = Framing.encode frame xs (Packets.cut Word.tlast bs)) :
    gs = xs.map (fun x => F.pass (f x)) ∧
      out = Framing.encode (fun x q => L.frame (f x) (frame x q)) xs
        (Packets.cut Word.tlast bs) := by
  have hmap : (xs.map f).map F.pass = xs.map fun x => F.pass (f x) := List.map_map
  obtain ⟨hgs, hout⟩ := h.complete hd
  rw [hhs, hmap] at hgs
  rw [hhs, hps, Framing.encode_encode hpacket L.frame f hopen bs hpair] at hout
  exact ⟨hgs, hout⟩

end Sending

end AdcCapture.FrameTx
