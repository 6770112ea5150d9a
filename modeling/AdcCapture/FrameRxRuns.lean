import AdcCapture.FrameRx

/-!
# Runs of a receiver

What has been handed over after the headers and the words taken so far, for
whatever comes in: the headers and payloads of the frames whose header passes the
checks.
-/

namespace AdcCapture.FrameRx

open Clocked
open AxisOutput (Word)
set_option autoImplicit false

variable {κ φ σ ε : Type} {w : Nat}

/-! ## The frame in progress -/

section Phase
variable {F : Format φ σ ε w} (L : Layout F)

/-- The header taken last belongs to the frame in progress. -/
def Current (r : Reg κ φ σ ε w) (hs : List κ) (p : Packets Word) : Prop :=
  ∃ gs, hs = gs ++ [r.m] ∧ gs.length = p.closed.length

def PayloadRest (f : List Word) (more : List Word → List Word) : Prop :=
  PayloadLength.Rest F.early (L.count (L.hdrBytes f)) (f.drop L.hdrLen) more

/-- Where the frame in progress is, after the headers `hs`; its words so far are `p.rest`. -/
def Phase (r : Reg κ φ σ ε w) (hs : List κ) (p : Packets Word) : Prop :=
  match r.state with
  | .idle => (r.sHdrReady = true → r.mHdrValid = false) ∧ r.sPayloadTready = false ∧
      hs.length = p.closed.length ∧ p.rest = []
  | .readHeader => r.sHdrReady = false ∧ r.mHdrValid = false ∧ Current r hs p ∧
      p.rest.length = r.hdrPtr.toNat ∧ r.hdrPtr.toNat ≤ F.lastPtr.toNat ∧
      (L.bytes r.fields).take r.hdrPtr.toNat = p.rest.map Word.tdata ∧
      r.hdrSum = L.sum (p.rest.map Word.tdata)
  | .readPayload => r.sHdrReady = false ∧ r.sPayloadTready = r.output.treadyInt ∧
      Current r hs p ∧ L.hdrLen ≤ p.rest.length ∧ L.accepts p.rest = true ∧
      PayloadRest L p.rest (PayloadLength.fit F.early r.wordCount)
  | .readPayloadLast => r.sHdrReady = false ∧ r.sPayloadTready = r.output.treadyInt ∧
      Current r hs p ∧ L.hdrLen ≤ p.rest.length ∧ L.accepts p.rest = true ∧
      PayloadRest L p.rest (PayloadLength.cutOff r.lastWordData)
  | .waitLast => r.sHdrReady = false ∧ Current r hs p ∧ L.hdrLen ≤ p.rest.length ∧
      L.accepts p.rest = false

/-- The header that has not been handed over. -/
def pending (r : Reg κ φ σ ε w) : List (κ × List (BitVec 8)) :=
  if r.mHdrValid then [(r.m, L.bytes r.fields)] else []

def pushed (p : Packets Word) (r : Reg κ φ σ ε w) (i : Input κ) : Packets Word :=
  (accepted r i).foldl (Packets.push Word.tlast) p

def heads (hs : List κ) (p : Packets Word) : List (κ × List (BitVec 8)) :=
  Framing.encode L.head hs p

def payloads (hs : List κ) (p : Packets Word) : List Word :=
  Framing.encode (fun _ f => L.body f) hs p

def handed (L : Layout F) (r : Reg κ φ σ ε w) (i : Input κ) : List (κ × List (BitVec 8)) :=
  (hdrSent r i).map fun h => (h.1, L.bytes h.2)

/-- The headers and the payload after a clock. -/
structure Next (r : Reg κ φ σ ε w) (i : Input κ) (hs : List κ) (p : Packets Word) : Prop where
  phase : Phase L (step F r i) (hs ++ hdrAccepted r i) (pushed p r i)
  hdrs : ∃ new, heads L (hs ++ hdrAccepted r i) (pushed p r i) = heads L hs p ++ new ∧
    handed L r i ++ pending L (step F r i) = pending L r ++ new
  words : payloads L (hs ++ hdrAccepted r i) (pushed p r i) = payloads L hs p ++ written F r i

end Phase

section Step
variable {F : Format φ σ ε w} {L : Layout F} {r : Reg κ φ σ ε w} {i : Input κ} {hs : List κ}
  {p : Packets Word}

theorem pushed_none (ht : transfer r i = false) : pushed p r i = p := by
  simp [pushed, accepted, ht]

theorem pushed_some (ht : transfer r i = true) :
    pushed p r i = Packets.push Word.tlast p i.payload := by
  simp [pushed, accepted, ht]

theorem hdrAccepted_eq_nil (h : r.sHdrReady = false) : hdrAccepted r i = [] := by
  simp [hdrAccepted, hdrTransfer, h]

theorem hdr_held (hm : (step F r i).m = r.m) (hf : (step F r i).fields = r.fields)
    (hv : (step F r i).mHdrValid = (r.mHdrValid && !i.mHdrReady)) :
    handed L r i ++ pending L (step F r i) = pending L r := by
  cases h1 : r.mHdrValid <;> cases h2 : i.mHdrReady <;>
    simp [handed, hdrSent, pending, hv, hm, hf, h1, h2]

theorem heads_push {gs : List κ} {x : κ} (hlen : gs.length = p.closed.length)
    (hlong : L.hdrLen ≤ p.rest.length) (v : Word) :
    heads L (gs ++ [x]) (Packets.push Word.tlast p v) = heads L (gs ++ [x]) p := by
  rw [heads, heads, Framing.encode_push x hlen, Framing.encode_open x hlen, L.head_snoc x hlong]

theorem payloads_push {gs : List κ} {x : κ} {more : List Word → List Word}
    (hlen : gs.length = p.closed.length) (hlong : L.hdrLen ≤ p.rest.length)
    (hacc : L.accepts p.rest = true) (hrest : PayloadRest L p.rest more) (v : Word) :
    payloads L (gs ++ [x]) (Packets.push Word.tlast p v) =
      payloads L (gs ++ [x]) p ++ more [v] := by
  obtain ⟨hacc', hbytes⟩ := L.accepts_snoc hlong v
  rw [payloads, payloads, Framing.encode_push x hlen, Framing.encode_open x hlen, Layout.body,
    Layout.body, hacc', hacc, hbytes, if_pos rfl, if_pos rfl,
    List.drop_append_of_le_length hlong, hrest [v], List.append_assoc]

/-- A faulty frame gives nothing. -/
theorem payloads_push_faulty {gs : List κ} {x : κ} (hlen : gs.length = p.closed.length) (v : Word)
    (h : L.accepts p.rest = false) (h' : L.accepts (p.rest ++ [v]) = false) :
    heads L (gs ++ [x]) (Packets.push Word.tlast p v) = heads L (gs ++ [x]) p ∧
      payloads L (gs ++ [x]) (Packets.push Word.tlast p v) = payloads L (gs ++ [x]) p := by
  rw [heads, heads, payloads, payloads, Framing.encode_push x hlen, Framing.encode_push x hlen,
    Framing.encode_open x hlen, Framing.encode_open x hlen, Layout.head, Layout.head,
    Layout.body, Layout.body, h, h']
  exact ⟨rfl, rfl⟩

theorem idle_next (hst : r.state = .idle) (h : Phase L r hs p) : Next L r i hs p := by
  simp only [Phase, hst] at h
  obtain ⟨hvalid, hready, hlen, hrest⟩ := h
  have htr : transfer r i = false := by rw [transfer, hready, Bool.false_and]
  have hw : written F r i = [] := by
    cases ht : hdrTransfer r i <;>
      simp [written, AxisOutput.taken, comb, hst, idle, ht, defaults]
  have hv : (step F r i).mHdrValid = (r.mHdrValid && !i.mHdrReady) := by
    cases ht : hdrTransfer r i <;> simp [step, posedge, comb, hst, idle, ht, defaults]
  have hf : (step F r i).fields = r.fields := by
    cases ht : hdrTransfer r i <;> simp [step, posedge, comb, hst, idle, ht, defaults]
  cases ht : hdrTransfer r i with
  | false =>
    have hs' : (step F r i).state = .idle ∧ (step F r i).sPayloadTready = false ∧
        (step F r i).sHdrReady = !(step F r i).mHdrValid ∧ (step F r i).m = r.m := by
      simp [step, posedge, comb, hst, idle, ht, defaults]
    obtain ⟨hnext, h1, h2, hm⟩ := hs'
    have hh : hdrAccepted r i = [] := by simp [hdrAccepted, ht]
    have hheld := hdr_held (L := L) hm hf hv
    constructor
    case phase =>
      rw [hh, List.append_nil, pushed_none htr]
      simp only [Phase, hnext]
      refine ⟨?_, h1, hlen, hrest⟩
      rw [h2]
      simp
    case hdrs =>
      exact ⟨[], by rw [hh, pushed_none htr, List.append_nil, List.append_nil],
        by rw [hheld, List.append_nil]⟩
    case words => rw [hh, pushed_none htr, hw, List.append_nil, List.append_nil]
  | true =>
    have hs' : (step F r i).state = .readHeader ∧ (step F r i).sHdrReady = false ∧
        (step F r i).m = i.sHdr ∧ (step F r i).hdrPtr = 0#w ∧
        (step F r i).hdrSum = F.sumInit := by
      simp [step, posedge, comb, hst, idle, ht]
    obtain ⟨hnext, h1, hm, hptr, hsum⟩ := hs'
    have hh : hdrAccepted r i = [i.sHdr] := by simp [hdrAccepted, ht]
    have hv0 : r.mHdrValid = false := hvalid (Bool.and_eq_true_iff.mp ht).1
    have hv1 : (step F r i).mHdrValid = false := by rw [hv, hv0, Bool.false_and]
    have hshort : L.accepts [] = false := L.accepts_short (Nat.succ_pos _)
    constructor
    case phase =>
      rw [hh, pushed_none htr]
      simp only [Phase, hnext]
      rw [hptr, hsum, hrest, BitVec.toNat_ofNat, Nat.zero_mod]
      exact ⟨h1, hv1, ⟨hs, by rw [hm], hlen⟩, rfl, Nat.zero_le _, rfl, L.sum_nil.symm⟩
    case hdrs =>
      refine ⟨[], ?_, by simp [handed, hdrSent, pending, hv0, hv1]⟩
      rw [hh, pushed_none htr, heads, Framing.encode_open _ hlen, hrest, Layout.head, hshort]
      rfl
    case words =>
      rw [hh, pushed_none htr, hw, payloads, Framing.encode_open _ hlen, hrest, Layout.body,
        hshort]
      rfl

/-- The end of a frame. -/
theorem finish_phase {gs : List κ} {x : κ} (hlen : gs.length = p.closed.length)
    (hlast : i.payload.tlast = true) (hnext : (step F r i).state = .idle)
    (hvalid : (step F r i).sHdrReady = !(step F r i).mHdrValid)
    (hready : (step F r i).sPayloadTready = false) :
    Phase L (step F r i) (gs ++ [x]) (Packets.push Word.tlast p i.payload) := by
  have hpush : Packets.push Word.tlast p i.payload =
      ⟨p.closed ++ [p.rest ++ [i.payload]], []⟩ := by rw [Packets.push, if_pos hlast]
  simp only [Phase, hnext]
  refine ⟨?_, hready, ?_, by rw [hpush]⟩
  · rw [hvalid]
    simp
  · simp [hpush, hlen]

theorem push_open (hlast : i.payload.tlast = false) :
    Packets.push Word.tlast p i.payload = ⟨p.closed, p.rest ++ [i.payload]⟩ := by
  rw [Packets.push, hlast, if_neg Bool.false_ne_true]

/-- The header bytes up to the one that comes in. -/
theorem header_byte (hle : r.hdrPtr.toNat ≤ F.lastPtr.toNat)
    (hlen : p.rest.length = r.hdrPtr.toNat)
    (hbytes : (L.bytes r.fields).take r.hdrPtr.toNat = p.rest.map Word.tdata)
    (hsum : r.hdrSum = L.sum (p.rest.map Word.tdata)) (v : Word) :
    (L.bytes (F.store r.fields r.hdrPtr.toNat v.tdata)).take (r.hdrPtr.toNat + 1) =
        (p.rest ++ [v]).map Word.tdata ∧
      F.sumNext r.hdrSum r.hdrPtr.toNat v.tdata = L.sum ((p.rest ++ [v]).map Word.tdata) := by
  have hmap : (p.rest.map Word.tdata).length = r.hdrPtr.toNat := by rw [List.length_map, hlen]
  constructor
  · rw [L.take_store r.fields hle, hbytes, List.map_append, List.map_singleton]
  · rw [List.map_append, List.map_singleton, L.sum_snoc, hsum, hmap]

/-- The last byte of the header. -/
theorem accepts_header {v : Word} (hptr : r.hdrPtr = F.lastPtr)
    (hlen : p.rest.length = r.hdrPtr.toNat) (hopen : ∀ u ∈ p.rest, u.tlast = false)
    (hbytes : (L.bytes r.fields).take r.hdrPtr.toNat = p.rest.map Word.tdata)
    (hsum : r.hdrSum = L.sum (p.rest.map Word.tdata)) :
    L.hdrBytes (p.rest ++ [v]) = L.bytes (F.store r.fields r.hdrPtr.toNat v.tdata) ∧
      (L.accepts (p.rest ++ [v]) = true ↔ v.tlast = false ∧
        F.check r.fields (F.sumNext r.hdrSum r.hdrPtr.toNat v.tdata) = none) := by
  obtain ⟨htake, hnext⟩ := header_byte (Nat.le_of_eq (by rw [hptr])) hlen hbytes hsum v
  have hlong : (p.rest ++ [v]).length = L.hdrLen := by
    rw [List.length_append, hlen, hptr]
    rfl
  have hall : (p.rest ++ [v]).take L.hdrLen = p.rest ++ [v] :=
    List.take_of_length_le (Nat.le_of_eq hlong)
  have hfull : L.hdrBytes (p.rest ++ [v]) =
      L.bytes (F.store r.fields r.hdrPtr.toNat v.tdata) := by
    rw [Layout.hdrBytes, hall, ← htake]
    apply List.take_of_length_le
    rw [L.length_bytes, hptr]
  have hmarks : (p.rest ++ [v]).all (fun u => !u.tlast) = !v.tlast := by
    rw [List.all_append, List.all_eq_true.mpr fun u hu => by rw [hopen u hu]; rfl]
    simp
  have hmap : (p.rest ++ [v]).map Word.tdata = L.hdrBytes (p.rest ++ [v]) := by
    rw [Layout.hdrBytes, hall]
  have hcheck := L.check_iff r.fields v.tdata
  rw [← hptr] at hcheck
  refine ⟨hfull, ?_⟩
  rw [Layout.accepts, hall, hmarks, hnext, hmap, hfull, hcheck,
    decide_eq_true (Nat.le_of_eq hlong.symm), Bool.true_and, Bool.and_eq_true, Bool.not_eq_true']

/-- A word of a header, or one that makes the frame faulty. -/
theorem rejected_next {gs : List κ} {x : κ} (hh0 : r.sHdrReady = false)
    (ht : transfer r i = true) (hgs : gs.length = p.closed.length) (hv0 : r.mHdrValid = false)
    (hv1 : (step F r i).mHdrValid = false) (hw : written F r i = [])
    (hrej : L.accepts p.rest = false) (hrej' : L.accepts (p.rest ++ [i.payload]) = false)
    (hphase : Phase L (step F r i) (gs ++ [x]) (Packets.push Word.tlast p i.payload)) :
    Next L r i (gs ++ [x]) p := by
  obtain ⟨hheads, hpays⟩ := payloads_push_faulty (x := x) hgs i.payload hrej hrej'
  have hh : hdrAccepted r i = [] := hdrAccepted_eq_nil hh0
  constructor
  case phase =>
    rw [hh, List.append_nil, pushed_some ht]
    exact hphase
  case hdrs =>
    refine ⟨[], ?_, by simp [handed, hdrSent, pending, hv0, hv1]⟩
    rw [hh, List.append_nil, pushed_some ht, hheads, List.append_nil]
  case words => rw [hh, List.append_nil, pushed_some ht, hpays, hw, List.append_nil]

/-- The last byte of a header that passes the checks. -/
theorem accepted_next {gs : List κ} (hst : r.state = .readHeader) (hh0 : r.sHdrReady = false)
    (hv0 : r.mHdrValid = false) (hgs : gs.length = p.closed.length) (ht : transfer r i = true)
    (hd : r.hdrPtr = F.lastPtr) (hl : i.payload.tlast = false)
    (hc : F.check r.fields (F.sumNext r.hdrSum r.hdrPtr.toNat i.payload.tdata) = none)
    (hshort : L.accepts p.rest = false) (hlen : (p.rest ++ [i.payload]).length = L.hdrLen)
    (hacc : L.accepts (p.rest ++ [i.payload]) = true)
    (hfull : L.hdrBytes (p.rest ++ [i.payload]) =
      L.bytes (F.store r.fields r.hdrPtr.toNat i.payload.tdata)) :
    Next L r i (gs ++ [r.m]) p := by
  have hs' : (step F r i).state = .readPayload ∧ (step F r i).mHdrValid = true ∧
      (step F r i).sHdrReady = false ∧ (step F r i).m = r.m ∧
      (step F r i).sPayloadTready = (step F r i).output.treadyInt ∧
      (step F r i).wordCount = F.payloadCount r.fields ∧
      (step F r i).fields = F.store r.fields r.hdrPtr.toNat i.payload.tdata ∧
      written F r i = [] := by
    rw [hd] at hc ⊢
    simp [step, posedge, comb, hst, readHeader, ht, hd, hl, hc, defaults, written,
      AxisOutput.taken, AxisOutput.posedge]
  obtain ⟨hnext, h1, h2, hm, h3, hcount, hf, hw⟩ := hs'
  have hh : hdrAccepted r i = [] := hdrAccepted_eq_nil hh0
  have hnone : (p.rest ++ [i.payload]).drop L.hdrLen = [] :=
    List.drop_of_length_le (Nat.le_of_eq hlen)
  have hbytes : F.payloadCount r.fields = L.count (L.hdrBytes (p.rest ++ [i.payload])) := by
    rw [hfull, hd]
    exact L.payloadCount _ _
  constructor
  case phase =>
    rw [hh, List.append_nil, pushed_some ht, push_open hl]
    simp only [Phase, hnext]
    refine ⟨h2, h3, ⟨gs, by rw [hm], hgs⟩, Nat.le_of_eq hlen.symm, hacc, ?_⟩
    rw [PayloadRest, hnone, hcount, hbytes]
    exact PayloadLength.rest_nil _ _
  case hdrs =>
    refine ⟨[(r.m, L.hdrBytes (p.rest ++ [i.payload]))], ?_, ?_⟩
    · rw [hh, List.append_nil, pushed_some ht, heads, heads, Framing.encode_push _ hgs,
        Framing.encode_open _ hgs, Layout.head, Layout.head, hacc, hshort]
      simp
    · simp [handed, hdrSent, pending, hv0, h1, hm, hf, hfull]
  case words =>
    rw [hh, List.append_nil, pushed_some ht, payloads, payloads, Framing.encode_push _ hgs,
      Framing.encode_open _ hgs, Layout.body, Layout.body, hacc, hshort, hnone, hw]
    simp [PayloadLength.fit]

theorem readHeader_next (hst : r.state = .readHeader) (h : Phase L r hs p)
    (hopen : ∀ v ∈ p.rest, v.tlast = false) : Next L r i hs p := by
  simp only [Phase, hst] at h
  obtain ⟨hh0, hv0, ⟨gs, rfl, hgs⟩, hlen, hle, hbytes, hsum⟩ := h
  have hshort : L.accepts p.rest = false := L.accepts_short (by rw [Layout.hdrLen]; omega)
  cases ht : transfer r i with
  | false =>
    have hh : hdrAccepted r i = [] := hdrAccepted_eq_nil hh0
    have hs' : (step F r i).state = .readHeader ∧ (step F r i).sHdrReady = false ∧
        (step F r i).mHdrValid = false ∧ (step F r i).m = r.m ∧
        (step F r i).hdrPtr = r.hdrPtr ∧ (step F r i).fields = r.fields ∧
        (step F r i).hdrSum = r.hdrSum ∧ written F r i = [] := by
      simp [step, posedge, comb, hst, readHeader, ht, defaults, hv0, written, AxisOutput.taken]
    obtain ⟨hnext, h1, h2, hm, hptr, hf, hs, hw⟩ := hs'
    constructor
    case phase =>
      rw [hh, List.append_nil, pushed_none ht]
      simp only [Phase, hnext]
      rw [hptr, hf, hs]
      exact ⟨h1, h2, ⟨gs, by rw [hm], hgs⟩, hlen, hle, hbytes, hsum⟩
    case hdrs =>
      exact ⟨[], by rw [hh, pushed_none ht, List.append_nil, List.append_nil],
        by simp [handed, hdrSent, pending, h2, hv0]⟩
    case words => rw [hh, pushed_none ht, hw, List.append_nil, List.append_nil]
  | true =>
    by_cases hd : r.hdrPtr = F.lastPtr
    · obtain ⟨hfull, hiff⟩ := accepts_header (v := i.payload) hd hlen hopen hbytes hsum
      have hlong : (p.rest ++ [i.payload]).length = L.hdrLen := by
        rw [List.length_append, hlen, hd]
        rfl
      cases hl : i.payload.tlast with
      | true =>
        -- the frame ends with its header
        have hrej : L.accepts (p.rest ++ [i.payload]) = false := by
          rw [hl] at hiff
          simpa using hiff
        have hs' : (step F r i).state = .idle ∧ (step F r i).mHdrValid = false ∧
            (step F r i).sHdrReady = true ∧ (step F r i).sPayloadTready = false ∧
            written F r i = [] := by
          cases hc : F.check r.fields (F.sumNext r.hdrSum F.lastPtr.toNat i.payload.tdata) <;>
            simp [step, posedge, comb, hst, readHeader, ht, hd, hl, hc, written, defaults,
              AxisOutput.taken, finish]
        obtain ⟨hnext, h1, h2, h3, hw⟩ := hs'
        exact rejected_next hh0 ht hgs hv0 h1 hw hshort hrej
          (finish_phase hgs hl hnext (by rw [h1, h2]; rfl) h3)
      | false =>
        cases hc : F.check r.fields (F.sumNext r.hdrSum r.hdrPtr.toNat i.payload.tdata) with
        | some e =>
          have hrej : L.accepts (p.rest ++ [i.payload]) = false := by
            rw [hc] at hiff
            simpa using hiff
          have hs' : (step F r i).state = .waitLast ∧ (step F r i).mHdrValid = false ∧
              (step F r i).sHdrReady = false ∧ (step F r i).m = r.m ∧ written F r i = [] := by
            rw [hd] at hc
            simp [step, posedge, comb, hst, readHeader, ht, hd, hl, hc, defaults, hv0, written,
              AxisOutput.taken]
          obtain ⟨hnext, h1, h2, hm, hw⟩ := hs'
          apply rejected_next hh0 ht hgs hv0 h1 hw hshort hrej
          rw [push_open hl]
          simp only [Phase, hnext]
          exact ⟨h2, ⟨gs, by rw [hm], hgs⟩, Nat.le_of_eq hlong.symm, hrej⟩
        | none =>
          exact accepted_next hst hh0 hv0 hgs ht hd hl hc hshort hlong (hiff.mpr ⟨hl, hc⟩) hfull
    · have hne : r.hdrPtr.toNat ≠ F.lastPtr.toNat := fun he => hd (BitVec.eq_of_toNat_eq he)
      have hrej : L.accepts (p.rest ++ [i.payload]) = false := by
        apply L.accepts_short
        rw [List.length_append, List.length_singleton, Layout.hdrLen]
        omega
      cases hl : i.payload.tlast with
      | true =>
        have hs' : (step F r i).state = .idle ∧ (step F r i).mHdrValid = false ∧
            (step F r i).sHdrReady = true ∧ (step F r i).sPayloadTready = false ∧
            written F r i = [] := by
          simp [step, posedge, comb, hst, readHeader, ht, hd, hl, written, defaults,
            AxisOutput.taken, finish]
        obtain ⟨hnext, h1, h2, h3, hw⟩ := hs'
        exact rejected_next hh0 ht hgs hv0 h1 hw hshort hrej
          (finish_phase hgs hl hnext (by rw [h1, h2]; rfl) h3)
      | false =>
        have hs' : (step F r i).state = .readHeader ∧ (step F r i).mHdrValid = false ∧
            (step F r i).sHdrReady = false ∧ (step F r i).m = r.m ∧
            (step F r i).hdrPtr = r.hdrPtr + 1#w ∧
            (step F r i).fields = F.store r.fields r.hdrPtr.toNat i.payload.tdata ∧
            (step F r i).hdrSum = F.sumNext r.hdrSum r.hdrPtr.toNat i.payload.tdata ∧
            written F r i = [] := by
          simp [step, posedge, comb, hst, readHeader, ht, hd, hl, defaults, hv0, written,
            AxisOutput.taken]
        obtain ⟨hnext, h1, h2, hm, hptr, hf, hs, hw⟩ := hs'
        obtain ⟨htake, hadd⟩ := header_byte hle hlen hbytes hsum i.payload
        have hptr' : (r.hdrPtr + 1#w).toNat = r.hdrPtr.toNat + 1 := by
          have hlt := F.lastPtr.isLt
          have hone : (1#w).toNat = 1 := by rw [BitVec.toNat_ofNat, Nat.mod_eq_of_lt (by omega)]
          rw [BitVec.toNat_add, hone, Nat.mod_eq_of_lt (by omega)]
        apply rejected_next hh0 ht hgs hv0 h1 hw hshort hrej
        rw [push_open hl]
        simp only [Phase, hnext]
        rw [hptr, hptr', hf, hs]
        refine ⟨h2, h1, ⟨gs, by rw [hm], hgs⟩, ?_, by omega, htake, hadd⟩
        rw [List.length_append, hlen, List.length_singleton]

/-- A word after the header of an accepted frame. -/
theorem payload_next {gs : List κ} {x : κ} {more : List Word → List Word}
    (hh0 : r.sHdrReady = false) (ht : transfer r i = true) (hgs : gs.length = p.closed.length)
    (hlong : L.hdrLen ≤ p.rest.length) (hacc : L.accepts p.rest = true)
    (hrest : PayloadRest L p.rest more) (hw : written F r i = more [i.payload])
    (hheld : handed L r i ++ pending L (step F r i) = pending L r)
    (hphase : Phase L (step F r i) (gs ++ [x]) (Packets.push Word.tlast p i.payload)) :
    Next L r i (gs ++ [x]) p := by
  have hh : hdrAccepted r i = [] := hdrAccepted_eq_nil hh0
  constructor
  case phase =>
    rw [hh, List.append_nil, pushed_some ht]
    exact hphase
  case hdrs =>
    refine ⟨[], ?_, by rw [hheld, List.append_nil]⟩
    rw [hh, List.append_nil, pushed_some ht, heads_push hgs hlong, List.append_nil]
  case words =>
    rw [hh, List.append_nil, pushed_some ht, payloads_push hgs hlong hacc hrest, hw]

/-- A clock without a word, after the header. -/
theorem stalled_next (hh0 : r.sHdrReady = false) (ht : transfer r i = false)
    (hw : written F r i = [])
    (hheld : handed L r i ++ pending L (step F r i) = pending L r)
    (hphase : Phase L (step F r i) hs p) : Next L r i hs p := by
  have hh : hdrAccepted r i = [] := hdrAccepted_eq_nil hh0
  constructor
  case phase => rwa [hh, List.append_nil, pushed_none ht]
  case hdrs =>
    exact ⟨[], by rw [hh, pushed_none ht, List.append_nil, List.append_nil],
      by rw [hheld, List.append_nil]⟩
  case words => rw [hh, pushed_none ht, hw, List.append_nil, List.append_nil]

theorem long_push (hlong : L.hdrLen ≤ p.rest.length) (v : Word) :
    L.hdrLen ≤ (p.rest ++ [v]).length ∧ L.accepts (p.rest ++ [v]) = L.accepts p.rest ∧
      L.hdrBytes (p.rest ++ [v]) = L.hdrBytes p.rest ∧
      (p.rest ++ [v]).drop L.hdrLen = p.rest.drop L.hdrLen ++ [v] := by
  obtain ⟨hacc, hbytes⟩ := L.accepts_snoc hlong v
  refine ⟨?_, hacc, hbytes, List.drop_append_of_le_length hlong⟩
  rw [List.length_append]
  exact Nat.le_add_right_of_le hlong

theorem readPayload_next (hst : r.state = .readPayload) (h : Phase L r hs p) :
    Next L r i hs p := by
  simp only [Phase, hst] at h
  obtain ⟨hh0, hready, ⟨gs, rfl, hgs⟩, hlong, hacc, hrest⟩ := h
  cases ht : transfer r i with
  | false =>
    have hs' : (step F r i).state = .readPayload ∧ (step F r i).sHdrReady = false ∧
        (step F r i).sPayloadTready = (step F r i).output.treadyInt ∧
        (step F r i).wordCount = r.wordCount ∧ (step F r i).m = r.m ∧
        (step F r i).fields = r.fields ∧
        (step F r i).mHdrValid = (r.mHdrValid && !i.mHdrReady) := by
      simp [step, posedge, comb, hst, readPayload, ht, defaults, AxisOutput.posedge]
    obtain ⟨hnext, h1, h2, hcount, hm, hf, hv⟩ := hs'
    have hw : written F r i = [] := by
      have hno : (r.output.treadyInt && i.payloadTvalid) = false := by
        rw [← hready]
        exact ht
      simp [written, AxisOutput.taken, comb, hst, readPayload, ht] at hno ⊢
      exact hno
    apply stalled_next hh0 ht hw (hdr_held hm hf hv)
    simp only [Phase, hnext]
    exact ⟨h1, h2, ⟨gs, by rw [hm], hgs⟩, hlong, hacc, by rwa [hcount]⟩
  | true =>
    have hin := Bool.and_eq_true_iff.mp ht
    rw [hready] at hin
    cases hl : i.payload.tlast with
    | true =>
      have hs' : (step F r i).state = .idle ∧ (step F r i).sPayloadTready = false ∧
          (step F r i).sHdrReady = (!(step F r i).mHdrValid) ∧ (step F r i).m = r.m ∧
          (step F r i).fields = r.fields ∧
          (step F r i).mHdrValid = (r.mHdrValid && !i.mHdrReady) := by
        cases he : F.early r.wordCount <;>
          simp [step, posedge, comb, hst, readPayload, ht, hl, he, finish, defaults]
      obtain ⟨hnext, h1, h2, hm, hf, hv⟩ := hs'
      have hw : written F r i = PayloadLength.fit F.early r.wordCount [i.payload] := by
        cases he : F.early r.wordCount <;>
          simp [written, AxisOutput.taken, comb, hst, readPayload, ht, hl, he, finish, hin,
            PayloadLength.fit]
      exact payload_next hh0 ht hgs hlong hacc hrest hw (hdr_held hm hf hv)
        (finish_phase hgs hl hnext h2 h1)
    | false =>
      obtain ⟨hlong', hacc', hbytes, hdrop⟩ := long_push hlong i.payload
      rw [hacc] at hacc'
      by_cases hc : r.wordCount = 1#16
      · have hs' : (step F r i).state = .readPayloadLast ∧ (step F r i).sHdrReady = false ∧
            (step F r i).sPayloadTready = (step F r i).output.treadyInt ∧
            (step F r i).lastWordData = i.payload.tdata ∧ (step F r i).m = r.m ∧
            (step F r i).fields = r.fields ∧
            (step F r i).mHdrValid = (r.mHdrValid && !i.mHdrReady) := by
          simp [step, posedge, comb, hst, readPayload, ht, hl, hc, defaults, AxisOutput.posedge]
        obtain ⟨hnext, h1, h2, hdata, hm, hf, hv⟩ := hs'
        have hw : written F r i = PayloadLength.fit F.early r.wordCount [i.payload] := by
          simp [written, AxisOutput.taken, comb, hst, readPayload, ht, hl, hc, PayloadLength.fit,
            PayloadLength.cutOff]
        apply payload_next hh0 ht hgs hlong hacc hrest hw (hdr_held hm hf hv)
        rw [push_open hl]
        simp only [Phase, hnext]
        refine ⟨h1, h2, ⟨gs, by rw [hm], hgs⟩, hlong', hacc', ?_⟩
        rw [PayloadRest, hbytes, hdrop, hdata]
        exact hrest.hold hl hc
      · have hs' : (step F r i).state = .readPayload ∧ (step F r i).sHdrReady = false ∧
            (step F r i).sPayloadTready = (step F r i).output.treadyInt ∧
            (step F r i).wordCount = r.wordCount - 1#16 ∧ (step F r i).m = r.m ∧
            (step F r i).fields = r.fields ∧
            (step F r i).mHdrValid = (r.mHdrValid && !i.mHdrReady) := by
          simp [step, posedge, comb, hst, readPayload, ht, hl, hc, defaults, AxisOutput.posedge]
        obtain ⟨hnext, h1, h2, hcount, hm, hf, hv⟩ := hs'
        have hw : written F r i = PayloadLength.fit F.early r.wordCount [i.payload] := by
          simp [written, AxisOutput.taken, comb, hst, readPayload, ht, hl, hc, hin,
            PayloadLength.fit]
        apply payload_next hh0 ht hgs hlong hacc hrest hw (hdr_held hm hf hv)
        rw [push_open hl]
        simp only [Phase, hnext]
        refine ⟨h1, h2, ⟨gs, by rw [hm], hgs⟩, hlong', hacc', ?_⟩
        rw [PayloadRest, hbytes, hdrop, hcount]
        exact hrest.counted hl hc

theorem readPayloadLast_next (hst : r.state = .readPayloadLast) (h : Phase L r hs p) :
    Next L r i hs p := by
  simp only [Phase, hst] at h
  obtain ⟨hh0, hready, ⟨gs, rfl, hgs⟩, hlong, hacc, hrest⟩ := h
  have hin : transfer r i = (r.output.treadyInt && i.payloadTvalid) := by
    rw [transfer, hready]
  have hheld : handed L r i ++ pending L (step F r i) = pending L r := by
    apply hdr_held <;> cases hf : transfer r i && i.payload.tlast <;>
      simp [step, posedge, comb, hst, readPayloadLast, hf, finish, defaults]
  cases hf : transfer r i && i.payload.tlast with
  | true =>
    obtain ⟨ht, hl⟩ := Bool.and_eq_true_iff.mp hf
    have hs' : (step F r i).state = .idle ∧ (step F r i).sPayloadTready = false ∧
        (step F r i).sHdrReady = !(step F r i).mHdrValid := by
      simp [step, posedge, comb, hst, readPayloadLast, ht, hl, finish]
    have hw : written F r i = PayloadLength.cutOff r.lastWordData [i.payload] := by
      rw [ht] at hin
      obtain ⟨ho, hv⟩ := Bool.and_eq_true_iff.mp hin.symm
      simp [written, AxisOutput.taken, comb, hst, readPayloadLast, ht, hl, finish, ho, hv,
        PayloadLength.cutOff]
    exact payload_next hh0 ht hgs hlong hacc hrest hw hheld
      (finish_phase hgs hl hs'.1 hs'.2.2 hs'.2.1)
  | false =>
    have hs' : (step F r i).state = .readPayloadLast ∧ (step F r i).sHdrReady = false ∧
        (step F r i).sPayloadTready = (step F r i).output.treadyInt ∧
        (step F r i).lastWordData = r.lastWordData ∧ (step F r i).m = r.m := by
      simp [step, posedge, comb, hst, readPayloadLast, hf, defaults, AxisOutput.posedge]
    obtain ⟨hnext, h1, h2, hdata, hm⟩ := hs'
    have hw : written F r i = [] := by
      rw [hin] at hf
      simp [written, AxisOutput.taken, comb, hst, readPayloadLast, hin, hf]
      simpa using hf
    cases ht : transfer r i with
    | false =>
      apply stalled_next hh0 ht hw hheld
      simp only [Phase, hnext]
      exact ⟨h1, h2, ⟨gs, by rw [hm], hgs⟩, hlong, hacc, by rwa [hdata]⟩
    | true =>
      have hl : i.payload.tlast = false := by simpa [ht] using hf
      obtain ⟨hlong', hacc', hbytes, hdrop⟩ := long_push hlong i.payload
      rw [hacc] at hacc'
      have hnone : PayloadLength.cutOff r.lastWordData [i.payload] = [] := by
        simp [PayloadLength.cutOff, hl]
      apply payload_next hh0 ht hgs hlong hacc hrest (by rw [hw, hnone]) hheld
      rw [push_open hl]
      simp only [Phase, hnext]
      refine ⟨h1, h2, ⟨gs, by rw [hm], hgs⟩, hlong', hacc', ?_⟩
      rw [PayloadRest, hbytes, hdrop, hdata]
      exact hrest.discard hl

theorem waitLast_next (hst : r.state = .waitLast) (h : Phase L r hs p) : Next L r i hs p := by
  simp only [Phase, hst] at h
  obtain ⟨hh0, ⟨gs, rfl, hgs⟩, hlong, hrej⟩ := h
  have hh : hdrAccepted r i = [] := hdrAccepted_eq_nil hh0
  have hheld : handed L r i ++ pending L (step F r i) = pending L r := by
    apply hdr_held <;> cases hf : transfer r i && i.payload.tlast <;>
      simp [step, posedge, comb, hst, waitLast, hf, finish, defaults]
  have hw : written F r i = [] := by
    cases hf : transfer r i && i.payload.tlast <;>
      simp [written, AxisOutput.taken, comb, hst, waitLast, hf, finish, defaults]
  obtain ⟨hlong', hacc', _, _⟩ := long_push hlong i.payload
  rw [hrej] at hacc'
  obtain ⟨hheads, hpays⟩ := payloads_push_faulty (x := r.m) hgs i.payload hrej hacc'
  have hopen : (transfer r i && i.payload.tlast) = false →
      (step F r i).state = .waitLast ∧ (step F r i).sHdrReady = false ∧
        (step F r i).m = r.m := by
    intro hf
    simp [step, posedge, comb, hst, waitLast, hf, defaults]
  cases ht : transfer r i with
  | false =>
    obtain ⟨hnext, h1, hm⟩ := hopen (by rw [ht, Bool.false_and])
    apply stalled_next hh0 ht hw hheld
    simp only [Phase, hnext]
    exact ⟨h1, ⟨gs, by rw [hm], hgs⟩, hlong, hrej⟩
  | true =>
    constructor
    case phase =>
      rw [hh, List.append_nil, pushed_some ht]
      cases hl : i.payload.tlast with
      | true =>
        have hs' : (step F r i).state = .idle ∧ (step F r i).sPayloadTready = false ∧
            (step F r i).sHdrReady = !(step F r i).mHdrValid := by
          simp [step, posedge, comb, hst, waitLast, ht, hl, finish]
        exact finish_phase hgs hl hs'.1 hs'.2.2 hs'.2.1
      | false =>
        obtain ⟨hnext, h1, hm⟩ := hopen (by rw [hl, Bool.and_false])
        rw [push_open hl]
        simp only [Phase, hnext]
        exact ⟨h1, ⟨gs, by rw [hm], hgs⟩, hlong', hacc'⟩
    case hdrs =>
      refine ⟨[], ?_, by rw [hheld, List.append_nil]⟩
      rw [hh, List.append_nil, pushed_some ht, hheads, List.append_nil]
    case words => rw [hh, List.append_nil, pushed_some ht, hpays, hw, List.append_nil]

theorem next (h : Phase L r hs p) (hopen : ∀ v ∈ p.rest, v.tlast = false) : Next L r i hs p := by
  cases hst : r.state with
  | idle => exact idle_next hst h
  | readHeader => exact readHeader_next hst h hopen
  | readPayload => exact readPayload_next hst h
  | readPayloadLast => exact readPayloadLast_next hst h
  | waitLast => exact waitLast_next hst h

end Step

/--
After the headers `hs` and the words `ins`, the headers `gs` and the payload words `out`
have been handed over.
-/
structure Receiving {F : Format φ σ ε w} (L : Layout F) (r : Reg κ φ σ ε w) (hs : List κ)
    (ins : List Word) (gs : List (κ × φ)) (out : List Word) : Prop where
  phase : Phase L r hs (Packets.cut Word.tlast ins)
  hdrs : (gs.map fun h => (h.1, L.bytes h.2)) ++ pending L r =
    heads L hs (Packets.cut Word.tlast ins)
  words : out ++ AxisOutput.contents r.output = payloads L hs (Packets.cut Word.tlast ins)
  output : AxisOutput.Inv r.output

section Receiving
variable {F : Format φ σ ε w} {L : Layout F} {r : Reg κ φ σ ε w} {hs : List κ}
  {ins out : List Word} {gs : List (κ × φ)}

theorem receiving_reset (L : Layout F) (r : Reg κ φ σ ε w) (i : Input κ) :
    Receiving L (posedge F r i true) [] [] [] [] := by
  have hnone : AxisOutput.contents (posedge F r i true).output = [] :=
    AxisOutput.contents_reset _ _ _ _
  have hst : (posedge F r i true).state = .idle := rfl
  refine ⟨?_, rfl, ?_, AxisOutput.inv_reset _ _ _ _⟩
  · simp only [Phase, hst]
    exact ⟨fun _ => rfl, rfl, rfl, rfl⟩
  · rw [hnone]
    rfl

theorem receiving_step (h : Receiving L r hs ins gs out) (i : Input κ) :
    Receiving L (step F r i) (hs ++ hdrAccepted r i) (ins ++ accepted r i)
      (gs ++ hdrSent r i) (out ++ payloadSent r i) := by
  have hcut : Packets.cut Word.tlast (ins ++ accepted r i) =
      pushed (Packets.cut Word.tlast ins) r i := by
    rw [Packets.cut, List.foldl_append]
    rfl
  obtain ⟨hphase, ⟨new, hheads, hhdrs⟩, hwords⟩ := next (i := i) h.phase
    (Packets.cut_packets ins).2
  have hcontents := AxisOutput.contents_posedge h.output (comb F r i).int (comb F r i).tvalidInt
    i.mPayloadTready
  constructor
  case phase =>
    rw [hcut]
    exact hphase
  case hdrs =>
    rw [handed] at hhdrs
    rw [hcut, hheads, List.map_append, List.append_assoc, hhdrs, ← h.hdrs, List.append_assoc]
  case words =>
    rw [hcut, hwords, ← h.words, List.append_assoc, List.append_assoc, written, ← hcontents]
    rfl
  case output => exact AxisOutput.inv_posedge h.output _ _ _

theorem receiving_run (L : Layout F) (r : Reg κ φ σ ε w) (i : Input κ) (is : List (Input κ)) :
    Receiving L (run (step F) (posedge F r i true) is)
      (emits (step F) hdrAccepted (posedge F r i true) is)
      (emits (step F) accepted (posedge F r i true) is)
      (emits (step F) hdrSent (posedge F r i true) is)
      (emits (step F) payloadSent (posedge F r i true) is) := by
  induction is using List.reverseRecOn with
  | nil => exact receiving_reset L r i
  | append_singleton is j ih =>
    simp only [run_snoc, emits_snoc]
    exact receiving_step ih j

theorem Receiving.isPrefix (h : Receiving L r hs ins gs out) :
    (gs.map fun h => (h.1, L.bytes h.2)) <+: heads L hs (Packets.cut Word.tlast ins) ∧
      out <+: payloads L hs (Packets.cut Word.tlast ins) :=
  ⟨⟨_, h.hdrs⟩, ⟨_, h.words⟩⟩

/-- Nothing is left to hand over. -/
def Drained (r : Reg κ φ σ ε w) : Prop :=
  r.mHdrValid = false ∧ AxisOutput.contents r.output = []

theorem Receiving.complete (h : Receiving L r hs ins gs out) (hd : Drained r) :
    (gs.map fun h => (h.1, L.bytes h.2)) = heads L hs (Packets.cut Word.tlast ins) ∧
      out = payloads L hs (Packets.cut Word.tlast ins) := by
  obtain ⟨hvalid, hnone⟩ := hd
  have hhdrs := h.hdrs
  have hwords := h.words
  rw [pending, hvalid, if_neg Bool.false_ne_true, List.append_nil] at hhdrs
  rw [hnone, List.append_nil] at hwords
  exact ⟨hhdrs, hwords⟩

section Layer
variable {θ : Type} {f : θ → κ} {frame : θ → List Word → List Word} {xs : List θ}
  {bs : List Word}
  (hpacket : ∀ x q, Packets.IsPacket Word.tlast q → Packets.IsPacket Word.tlast (frame x q))
  (hopen : ∀ x q, (∀ v ∈ q, v.tlast = false) → ∀ v ∈ frame x q, v.tlast = false)
  (hpair : Framing.Paired xs (Packets.cut Word.tlast bs))
include hpacket hopen hpair

/-- Frames that come from the encoding `frame`. -/
theorem Receiving.layer (h : Receiving L r hs ins gs out) (hhs : hs <+: xs.map f)
    (hins : ins <+: Framing.encode frame xs (Packets.cut Word.tlast bs)) :
    (gs.map fun h => (h.1, L.bytes h.2)) <+:
        Framing.encode (fun x q => L.head (f x) (frame x q)) xs (Packets.cut Word.tlast bs) ∧
      out <+: Framing.encode (fun x q => L.body (frame x q)) xs (Packets.cut Word.tlast bs) := by
  have hheads : heads L hs (Packets.cut Word.tlast ins) <+: heads L (xs.map f)
      (Packets.cut Word.tlast (Framing.encode frame xs (Packets.cut Word.tlast bs))) :=
    Framing.encode_mono L.head_grow hhs hins
  have hbodies : payloads L hs (Packets.cut Word.tlast ins) <+: payloads L (xs.map f)
      (Packets.cut Word.tlast (Framing.encode frame xs (Packets.cut Word.tlast bs))) :=
    Framing.encode_mono (fun _ => L.body_grow) hhs hins
  rw [heads, heads, Framing.encode_encode hpacket L.head f hopen bs hpair] at hheads
  rw [payloads, payloads,
    Framing.encode_encode hpacket (fun _ => L.body) f hopen bs hpair] at hbodies
  exact ⟨h.isPrefix.1.trans hheads, h.isPrefix.2.trans hbodies⟩

theorem Receiving.layer_complete (h : Receiving L r hs ins gs out) (hd : Drained r)
    (hhs : hs = xs.map f)
    (hins : ins = Framing.encode frame xs (Packets.cut Word.tlast bs)) :
    (gs.map fun h => (h.1, L.bytes h.2)) =
        Framing.encode (fun x q => L.head (f x) (frame x q)) xs (Packets.cut Word.tlast bs) ∧
      out = Framing.encode (fun x q => L.body (frame x q)) xs (Packets.cut Word.tlast bs) := by
  obtain ⟨hgs, hout⟩ := h.complete hd
  rw [hhs, hins, heads, Framing.encode_encode hpacket L.head f hopen bs hpair] at hgs
  rw [hhs, hins, payloads,
    Framing.encode_encode hpacket (fun _ => L.body) f hopen bs hpair] at hout
  exact ⟨hgs, hout⟩

end Layer

end Receiving

end AdcCapture.FrameRx
