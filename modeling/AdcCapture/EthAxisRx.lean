import AdcCapture.EthAxisTx

/-!
# eth_axis_rx

One stream in, header and payload out: the first fourteen bytes of a frame go
into the header registers. A frame that ends with its header is an error.
-/

namespace AdcCapture.EthAxisRx

open Clocked
open AxisOutput (Word)
open EthAxisTx (EthHdr)
open ByteFields (setByte)
set_option autoImplicit false

/-- The fourteen `store_eth_` signals: `setByte x k b` writes the bits `8*k+7` to `8*k`. -/
def store (h : EthHdr) (ptr : Nat) (b : BitVec 8) : EthHdr :=
  match ptr with
  | 0 => { h with destMac := setByte h.destMac 5 b }
  | 1 => { h with destMac := setByte h.destMac 4 b }
  | 2 => { h with destMac := setByte h.destMac 3 b }
  | 3 => { h with destMac := setByte h.destMac 2 b }
  | 4 => { h with destMac := setByte h.destMac 1 b }
  | 5 => { h with destMac := setByte h.destMac 0 b }
  | 6 => { h with srcMac := setByte h.srcMac 5 b }
  | 7 => { h with srcMac := setByte h.srcMac 4 b }
  | 8 => { h with srcMac := setByte h.srcMac 3 b }
  | 9 => { h with srcMac := setByte h.srcMac 2 b }
  | 10 => { h with srcMac := setByte h.srcMac 1 b }
  | 11 => { h with srcMac := setByte h.srcMac 0 b }
  | 12 => { h with ethType := setByte h.ethType 1 b }
  | 13 => { h with ethType := setByte h.ethType 0 b }
  | _ => h

inductive State where
  | idle | readHeader | readPayload
  deriving DecidableEq, Repr

structure Reg where
  state : State
  framePtr : BitVec 8
  sAxisTready : Bool
  mEthHdrValid : Bool
  hdr : EthHdr
  busy : Bool
  errorHeaderEarlyTermination : Bool
  output : AxisOutput.Reg
  deriving DecidableEq, Repr

structure Input where
  sAxis : Word
  sAxisTvalid : Bool
  mEthHdrReady : Bool
  payloadTready : Bool

structure Comb where
  stateNext : State
  sAxisTreadyNext : Bool
  /-- Which of the `store_eth_` signals is set. -/
  storeAt : Option Nat
  framePtrNext : BitVec 8
  mEthHdrValidNext : Bool
  errorHeaderEarlyTerminationNext : Bool
  int : Word
  tvalidInt : Bool

section Comb
variable (r : Reg) (i : Input)

def defaults : Comb where
  stateNext := .idle
  sAxisTreadyNext := false
  storeAt := none
  framePtrNext := r.framePtr
  mEthHdrValidNext := r.mEthHdrValid && !i.mEthHdrReady
  errorHeaderEarlyTerminationNext := false
  int := ⟨0#8, false, false⟩
  tvalidInt := false

def transfer : Bool := r.sAxisTready && i.sAxisTvalid

def idle : Comb :=
  let d := { defaults r i with framePtrNext := 0#8, sAxisTreadyNext := !r.mEthHdrValid }
  if transfer r i then
    if i.sAxis.tlast then { d with errorHeaderEarlyTerminationNext := true, stateNext := .idle }
    else { d with framePtrNext := 1#8, storeAt := some 0, stateNext := .readHeader }
  else { d with stateNext := .idle }

def readHeader : Comb :=
  let d := { defaults r i with sAxisTreadyNext := true }
  if transfer r i then
    let d :=
      { d with
        framePtrNext := r.framePtr + 1#8
        stateNext := .readHeader
        storeAt := some r.framePtr.toNat }
    let d :=
      if r.framePtr = 0x0D#8 then
        { d with
          mEthHdrValidNext := true
          sAxisTreadyNext := AxisOutput.treadyIntEarly r.output false i.payloadTready
          stateNext := .readPayload }
      else d
    if i.sAxis.tlast then
      { d with
        errorHeaderEarlyTerminationNext := true
        sAxisTreadyNext := !r.mEthHdrValid
        stateNext := .idle }
    else d
  else { d with stateNext := .readHeader }

def readPayload : Comb :=
  let d :=
    { defaults r i with
      sAxisTreadyNext := AxisOutput.treadyIntEarly r.output i.sAxisTvalid i.payloadTready
      int := i.sAxis
      tvalidInt := i.sAxisTvalid }
  if transfer r i && i.sAxis.tlast then
    { d with sAxisTreadyNext := !r.mEthHdrValid, stateNext := .idle }
  else { d with stateNext := .readPayload }

/-- The `case` statement. -/
def comb : Comb :=
  match r.state with
  | .idle => idle r i
  | .readHeader => readHeader r i
  | .readPayload => readPayload r i

def posedge (rst : Bool) : Reg :=
  let b := comb r i
  { state := if rst then .idle else b.stateNext
    framePtr := if rst then 0#8 else b.framePtrNext
    sAxisTready := if rst then false else b.sAxisTreadyNext
    mEthHdrValid := if rst then false else b.mEthHdrValidNext
    hdr := match b.storeAt with
      | some ptr => store r.hdr ptr i.sAxis.tdata
      | none => r.hdr
    busy := if rst then false else b.stateNext != .idle
    errorHeaderEarlyTermination := if rst then false else b.errorHeaderEarlyTerminationNext
    output := AxisOutput.posedge r.output b.int b.tvalidInt i.payloadTready rst }

def step : Reg := posedge r i false

/-! ## What a clock takes in and puts out -/

def accepted : List Word := if transfer r i then [i.sAxis] else []

def hdrSent : List EthHdr := if r.mEthHdrValid && i.mEthHdrReady then [r.hdr] else []

def written : List Word := AxisOutput.taken r.output (comb r i).int (comb r i).tvalidInt

def payloadSent : List Word := AxisOutput.handed r.output i.payloadTready

end Comb

/-! ## The header registers -/

theorem bytes_store (h : EthHdr) {k : Nat} (hk : k < 14) (b : BitVec 8) :
    (store h k b).bytes = h.bytes.set k b := by
  interval_cases k <;>
    simp [store, EthHdr.bytes, ByteFields.bigEndian, ByteFields.byte_setByte_self,
      ByteFields.byte_setByte_of_ne]

theorem take_store (h : EthHdr) {k : Nat} (hk : k < 14) (b : BitVec 8) :
    (store h k b).bytes.take (k + 1) = h.bytes.take k ++ [b] := by
  have hlen : k < h.bytes.length := by rwa [EthHdr.length_bytes]
  have hsame : (h.bytes.take k).set k b = h.bytes.take k := by
    apply List.set_eq_of_length_le
    rw [List.length_take]
    exact Nat.min_le_left _ _
  rw [bytes_store h hk, List.take_add_one, List.take_set, hsame, List.getElem?_set_self hlen]
  rfl

/-! ## Frames cut into header and payload -/

/-- The header of a frame, once it is complete. -/
def head (f : List Word) : List (List (BitVec 8)) :=
  if 14 ≤ f.length then [(f.take 14).map Word.tdata] else []

theorem head_snoc (f : List Word) (w : Word) :
    head (f ++ [w]) = head f ++ if f.length = 13 then [(f ++ [w]).map Word.tdata] else [] := by
  rcases Nat.lt_trichotomy f.length 13 with hlt | heq | hgt
  · have h1 : ¬ 14 ≤ f.length := by omega
    have h2 : ¬ 14 ≤ (f ++ [w]).length := by
      rw [List.length_append, List.length_singleton]
      omega
    rw [head, head, if_neg h1, if_neg h2, if_neg (by omega)]
    rfl
  · have h1 : ¬ 14 ≤ f.length := by omega
    have h2 : (f ++ [w]).length = 14 := by rw [List.length_append, heq, List.length_singleton]
    rw [head, head, if_neg h1, if_pos (Nat.le_of_eq h2.symm), if_pos heq,
      List.take_of_length_le (Nat.le_of_eq h2)]
    rfl
  · have h1 : 14 ≤ f.length := hgt
    have h2 : 14 ≤ (f ++ [w]).length := by
      rw [List.length_append]
      omega
    rw [head, head, if_pos h1, if_pos h2, if_neg (by omega), List.take_append_of_le_length h1,
      List.append_nil]

theorem drop_snoc (f : List Word) (w : Word) :
    (f ++ [w]).drop 14 = f.drop 14 ++ if 14 ≤ f.length then [w] else [] := by
  by_cases hle : 14 ≤ f.length
  · rw [List.drop_append_of_le_length hle, if_pos hle]
  · have hlen : (f ++ [w]).length ≤ 14 := by
      rw [List.length_append, List.length_singleton]
      omega
    rw [if_neg hle, List.drop_of_length_le hlen, List.drop_of_length_le (by omega)]
    rfl

def heads (p : Packets Word) : List (List (BitVec 8)) := Packets.collect head p

def payloads (p : Packets Word) : List Word := Packets.collect (List.drop 14) p

theorem heads_push (p : Packets Word) (w : Word) : heads (Packets.push Word.tlast p w) =
    heads p ++ if p.rest.length = 13 then [(p.rest ++ [w]).map Word.tdata] else [] := by
  rw [heads, Packets.collect_push rfl, head_snoc, ← List.append_assoc]
  rfl

theorem payloads_push (p : Packets Word) (w : Word) : payloads (Packets.push Word.tlast p w) =
    payloads p ++ if 14 ≤ p.rest.length then [w] else [] := by
  rw [payloads, Packets.collect_push rfl, drop_snoc, ← List.append_assoc]
  rfl

/-! ## The frame in progress -/

/-- Where the frame in progress is; its words so far are `p.rest`. -/
def Phase (r : Reg) (p : Packets Word) : Prop :=
  match r.state with
  | .idle => p.rest = [] ∧ (r.sAxisTready = true → r.mEthHdrValid = false)
  | .readHeader => r.mEthHdrValid = false ∧ p.rest.length = r.framePtr.toNat ∧
      r.framePtr.toNat < 14 ∧ r.hdr.bytes.take r.framePtr.toNat = p.rest.map Word.tdata
  | .readPayload => 14 ≤ p.rest.length ∧ r.sAxisTready = r.output.treadyInt

/-- The header that has not been handed over. -/
def pending (r : Reg) : List (List (BitVec 8)) := if r.mEthHdrValid then [r.hdr.bytes] else []

def pushed (p : Packets Word) (r : Reg) (i : Input) : Packets Word :=
  (accepted r i).foldl (Packets.push Word.tlast) p

/-- The headers and the payload after a clock. -/
structure Next (r : Reg) (i : Input) (p : Packets Word) : Prop where
  phase : Phase (step r i) (pushed p r i)
  hdrs : ∃ new, heads (pushed p r i) = heads p ++ new ∧
    (hdrSent r i).map EthHdr.bytes ++ pending (step r i) = pending r ++ new
  words : payloads (pushed p r i) = payloads p ++ written r i

section Step
variable {r : Reg} {i : Input} {p : Packets Word}

theorem hdr_held (hh : (step r i).hdr = r.hdr)
    (hv : (step r i).mEthHdrValid = (r.mEthHdrValid && !i.mEthHdrReady)) :
    (hdrSent r i).map EthHdr.bytes ++ pending (step r i) = pending r := by
  cases h1 : r.mEthHdrValid <;> cases h2 : i.mEthHdrReady <;>
    simp [hdrSent, pending, hv, hh, h1, h2]

theorem pushed_none (ht : transfer r i = false) : pushed p r i = p := by
  simp [pushed, accepted, ht]

theorem pushed_some (ht : transfer r i = true) :
    pushed p r i = Packets.push Word.tlast p i.sAxis := by
  simp [pushed, accepted, ht]

theorem idle_next (hst : r.state = .idle) (h : Phase r p) : Next r i p := by
  simp only [Phase, hst] at h
  obtain ⟨hrest, hready⟩ := h
  have hw : written r i = [] := by
    cases ht : transfer r i <;> cases hl : i.sAxis.tlast <;>
      simp [written, AxisOutput.taken, comb, hst, idle, ht, hl, defaults]
  have hv : (step r i).mEthHdrValid = (r.mEthHdrValid && !i.mEthHdrReady) := by
    cases ht : transfer r i <;> cases hl : i.sAxis.tlast <;>
      simp [step, posedge, comb, hst, idle, ht, hl, defaults]
  have hnext : (step r i).sAxisTready = true → (step r i).mEthHdrValid = false := by
    rw [hv]
    cases ht : transfer r i <;> cases hl : i.sAxis.tlast <;>
      simp [step, posedge, comb, hst, idle, ht, hl] <;> simp_all
  cases ht : transfer r i with
  | false =>
    have hs : (step r i).state = .idle ∧ (step r i).hdr = r.hdr := by
      simp [step, posedge, comb, hst, idle, ht, defaults]
    have hheld := hdr_held hs.2 hv
    constructor
    case phase =>
      simp only [Phase, hs.1, pushed_none ht]
      exact ⟨hrest, hnext⟩
    case hdrs => exact ⟨[], by rw [pushed_none ht, List.append_nil], by rw [hheld, List.append_nil]⟩
    case words => rw [pushed_none ht, hw, List.append_nil]
  | true =>
    have hr : r.sAxisTready = true := (Bool.and_eq_true_iff.mp ht).1
    have hv0 := hready hr
    have hv1 : (step r i).mEthHdrValid = false := by rw [hv, hv0, Bool.false_and]
    have hheads : heads (pushed p r i) = heads p := by
      rw [pushed_some ht, heads_push, hrest]
      simp
    constructor
    case phase =>
      cases hl : i.sAxis.tlast with
      | true =>
        have hs : (step r i).state = .idle := by simp [step, posedge, comb, hst, idle, ht, hl]
        simp only [Phase, hs, pushed_some ht, Packets.push, hl, if_true]
        exact ⟨trivial, hnext⟩
      | false =>
        have hs : (step r i).state = .readHeader ∧ (step r i).framePtr = 1#8 ∧
            (step r i).hdr = store r.hdr 0 i.sAxis.tdata := by
          simp [step, posedge, comb, hst, idle, ht, hl]
        have htake := take_store r.hdr (k := 0) (by decide) i.sAxis.tdata
        simp only [Phase, hs.1, pushed_some ht, Packets.push, hl, hs.2.1, hs.2.2, hrest]
        refine ⟨hv1, rfl, by decide, ?_⟩
        simpa using htake
    case hdrs => exact ⟨[], by rw [hheads, List.append_nil], by simp [hdrSent, pending, hv0, hv1]⟩
    case words =>
      rw [pushed_some ht, payloads_push, hrest, hw]
      simp

theorem readHeader_next (hst : r.state = .readHeader) (h : Phase r p)
    (hlong : ∀ f ∈ (pushed p r i).closed, f.length ≠ 14) : Next r i p := by
  simp only [Phase, hst] at h
  obtain ⟨hv0, hlen, hlt, hbytes⟩ := h
  have hpend : pending r = [] := by simp [pending, hv0]
  have hnone : hdrSent r i = [] := by simp [hdrSent, hv0]
  cases ht : transfer r i with
  | false =>
    have hs : (step r i).state = .readHeader ∧ (step r i).hdr = r.hdr ∧
        (step r i).framePtr = r.framePtr ∧ (step r i).mEthHdrValid = false := by
      simp [step, posedge, comb, hst, readHeader, ht, defaults, hv0]
    obtain ⟨h1, h2, h3, h4⟩ := hs
    have hw : written r i = [] := by
      simp [written, AxisOutput.taken, comb, hst, readHeader, ht, defaults]
    constructor
    case phase =>
      simp only [Phase, h1, pushed_none ht, h2, h3]
      exact ⟨h4, hlen, hlt, hbytes⟩
    case hdrs => exact ⟨[], by simp [pushed_none ht], by simp [hnone, pending, h4, hv0]⟩
    case words => rw [pushed_none ht, hw, List.append_nil]
  | true =>
    have hw : written r i = [] := by
      by_cases hd : r.framePtr = 0x0D#8 <;> cases hl : i.sAxis.tlast <;>
        simp [written, AxisOutput.taken, comb, hst, readHeader, ht, hd, hl, defaults]
    have hhdr : (step r i).hdr = store r.hdr r.framePtr.toNat i.sAxis.tdata := by
      by_cases hd : r.framePtr = 0x0D#8 <;> cases hl : i.sAxis.tlast <;>
        simp [step, posedge, comb, hst, readHeader, ht, hd, hl]
    have htake := take_store r.hdr hlt i.sAxis.tdata
    have hwords : payloads (pushed p r i) = payloads p ++ written r i := by
      rw [pushed_some ht, payloads_push, hw, if_neg (by omega)]
    by_cases hd : r.framePtr = 0x0D#8
    · have h13 : r.framePtr.toNat = 13 := by rw [hd]; rfl
      cases hl : i.sAxis.tlast with
      | true =>
        -- a frame that ends with its header
        have hbad := hlong (p.rest ++ [i.sAxis]) (by simp [pushed_some ht, Packets.push, hl])
        rw [List.length_append, hlen, h13] at hbad
        exact absurd rfl hbad
      | false =>
        have hs : (step r i).state = .readPayload ∧ (step r i).mEthHdrValid = true ∧
            (step r i).sAxisTready = (step r i).output.treadyInt := by
          simp [step, posedge, comb, hst, readHeader, ht, hd, hl, defaults, AxisOutput.posedge]
        have hall : (step r i).hdr.bytes = (p.rest ++ [i.sAxis]).map Word.tdata := by
          rw [h13] at htake hbytes
          rw [hhdr, h13, List.map_append, ← hbytes]
          have hfull := List.take_of_length_le
            (Nat.le_of_eq (EthHdr.length_bytes (store r.hdr 13 i.sAxis.tdata)))
          rw [← hfull]
          exact htake
        constructor
        case phase =>
          simp only [Phase, hs.1, pushed_some ht, Packets.push, hl]
          refine ⟨?_, hs.2.2⟩
          simp [hlen, h13]
        case hdrs =>
          refine ⟨[(step r i).hdr.bytes], ?_, ?_⟩
          · rw [pushed_some ht, heads_push, hlen, h13, if_pos rfl, hall]
          · rw [hnone, hpend, pending, hs.2.1, if_pos rfl]
            rfl
        case words => exact hwords
    · have hne : r.framePtr.toNat ≠ 13 := fun he => hd (BitVec.eq_of_toNat_eq he)
      have hv1 : (step r i).mEthHdrValid = false := by
        cases hl : i.sAxis.tlast <;>
          simp [step, posedge, comb, hst, readHeader, ht, hd, hl, defaults, hv0]
      constructor
      case phase =>
        cases hl : i.sAxis.tlast with
        | true =>
          have hs : (step r i).state = .idle := by
            simp [step, posedge, comb, hst, readHeader, ht, hd, hl]
          simp only [Phase, hs, pushed_some ht, Packets.push, hl, if_true]
          exact ⟨trivial, fun _ => hv1⟩
        | false =>
          have hs : (step r i).state = .readHeader ∧ (step r i).framePtr = r.framePtr + 1#8 := by
            simp [step, posedge, comb, hst, readHeader, ht, hd, hl]
          have hptr : (r.framePtr + 1#8).toNat = r.framePtr.toNat + 1 := by
            rw [BitVec.toNat_add]
            simp
            omega
          simp only [Phase, hs.1, pushed_some ht, Packets.push, hl, hs.2, hptr, hhdr]
          refine ⟨hv1, by simp [hlen], by omega, ?_⟩
          rw [htake, hbytes]
          simp
      case hdrs =>
        refine ⟨[], ?_, by simp [hnone, pending, hv0, hv1]⟩
        rw [pushed_some ht, heads_push, hlen, if_neg hne]
      case words => exact hwords

theorem readPayload_next (hst : r.state = .readPayload) (h : Phase r p) : Next r i p := by
  simp only [Phase, hst] at h
  obtain ⟨hlen, hready⟩ := h
  have hw : written r i = accepted r i := by
    cases ht : transfer r i <;> cases hl : i.sAxis.tlast <;>
      simp [written, AxisOutput.taken, comb, hst, readPayload, accepted, ht, hl] <;>
      simpa [transfer, hready] using ht
  have hv : (step r i).mEthHdrValid = (r.mEthHdrValid && !i.mEthHdrReady) := by
    cases ht : transfer r i && i.sAxis.tlast <;>
      simp [step, posedge, comb, hst, readPayload, ht, defaults]
  have hhdr : (step r i).hdr = r.hdr := by
    cases ht : transfer r i && i.sAxis.tlast <;>
      simp [step, posedge, comb, hst, readPayload, ht, defaults]
  have hheld := hdr_held hhdr hv
  constructor
  case phase =>
    cases ht : transfer r i && i.sAxis.tlast with
    | true =>
      obtain ⟨htr, hl⟩ := Bool.and_eq_true_iff.mp ht
      have hs : (step r i).state = .idle ∧ (step r i).sAxisTready = !r.mEthHdrValid := by
        simp [step, posedge, comb, hst, readPayload, ht]
      simp only [Phase, hs.1, pushed_some htr, Packets.push, hl, if_true, hs.2, hv]
      refine ⟨trivial, ?_⟩
      intro hno
      rw [Bool.not_eq_true'] at hno
      rw [hno, Bool.false_and]
    | false =>
      have hs : (step r i).state = .readPayload ∧
          (step r i).sAxisTready = (step r i).output.treadyInt := by
        simp [step, posedge, comb, hst, readPayload, ht, AxisOutput.posedge]
      simp only [Phase, hs.1]
      refine ⟨?_, hs.2⟩
      cases htr : transfer r i with
      | false =>
        rw [pushed_none htr]
        exact hlen
      | true =>
        have hl : i.sAxis.tlast = false := by simpa [htr] using ht
        rw [pushed_some htr, Packets.push, hl]
        simp
        omega
  case hdrs =>
    have hheads : heads (pushed p r i) = heads p := by
      cases ht : transfer r i with
      | false => rw [pushed_none ht]
      | true =>
        rw [pushed_some ht, heads_push, if_neg (by omega), List.append_nil]
    exact ⟨[], by rw [hheads, List.append_nil], by rw [hheld, List.append_nil]⟩
  case words =>
    rw [hw]
    cases ht : transfer r i with
    | false => simp [pushed_none ht, accepted, ht]
    | true => rw [pushed_some ht, payloads_push, if_pos hlen, accepted, ht, if_pos rfl]

theorem next (h : Phase r p) (hlong : ∀ f ∈ (pushed p r i).closed, f.length ≠ 14) :
    Next r i p := by
  cases hst : r.state with
  | idle => exact idle_next hst h
  | readHeader => exact readHeader_next hst h hlong
  | readPayload => exact readPayload_next hst h

end Step

/-- After the words `ins`, the headers `hs` and the payload words `out` have been handed over. -/
structure Receiving (r : Reg) (ins : List Word) (hs : List EthHdr) (out : List Word) : Prop where
  phase : Phase r (Packets.cut Word.tlast ins)
  hdrs : hs.map EthHdr.bytes ++ pending r = heads (Packets.cut Word.tlast ins)
  words : out ++ AxisOutput.contents r.output = payloads (Packets.cut Word.tlast ins)
  output : AxisOutput.Inv r.output

theorem receiving_reset (r : Reg) (i : Input) : Receiving (posedge r i true) [] [] [] := by
  have hnone : AxisOutput.contents (posedge r i true).output = [] :=
    AxisOutput.contents_reset _ _ _ _
  refine ⟨⟨rfl, fun _ => rfl⟩, rfl, ?_, AxisOutput.inv_reset _ _ _ _⟩
  rw [hnone]
  rfl

theorem receiving_step {r : Reg} {ins out : List Word} {hs : List EthHdr}
    (h : Receiving r ins hs out) (i : Input)
    (hlong : ∀ f ∈ (Packets.cut Word.tlast (ins ++ accepted r i)).closed, f.length ≠ 14) :
    Receiving (step r i) (ins ++ accepted r i) (hs ++ hdrSent r i) (out ++ payloadSent r i) := by
  have hcut : Packets.cut Word.tlast (ins ++ accepted r i) =
      pushed (Packets.cut Word.tlast ins) r i := by
    rw [Packets.cut, List.foldl_append]
    rfl
  rw [hcut] at hlong
  obtain ⟨hphase, ⟨new, hheads, hhdrs⟩, hwords⟩ := next h.phase hlong
  have hcontents := AxisOutput.contents_posedge h.output (comb r i).int (comb r i).tvalidInt
    i.payloadTready
  constructor
  case phase =>
    rw [hcut]
    exact hphase
  case hdrs =>
    rw [hcut, hheads, List.map_append, List.append_assoc, hhdrs, ← h.hdrs, List.append_assoc]
  case words =>
    rw [hcut, hwords, ← h.words, List.append_assoc, List.append_assoc, written, ← hcontents]
    rfl
  case output => exact AxisOutput.inv_posedge h.output _ _ _

end AdcCapture.EthAxisRx
