import AdcCapture.Framing
import AdcCapture.PayloadLength

/-!
# A frame received as a header and its payload

`ip_eth_rx` and `udp_ip_rx` are one machine with two headers, written here over a
`Format`, which has what the two do not share. A frame with a faulty header is
read to its end and gives nothing.
-/

namespace AdcCapture.FrameRx

open Clocked
open AxisOutput (Word)
set_option autoImplicit false

inductive State where
  | idle | readHeader | readPayload | readPayloadLast | waitLast
  deriving DecidableEq, Repr

/-- The header registers `φ`, the register `σ` next to them, the faults `ε` of a header. -/
structure Format (φ σ ε : Type) (w : Nat) where
  /-- The value of `hdr_ptr_reg` for the last byte. -/
  lastPtr : BitVec w
  /-- The `store_` signals, on `hdr_ptr_reg` and the byte. -/
  store : φ → Nat → BitVec 8 → φ
  sumInit : σ
  sumNext : σ → Nat → BitVec 8 → σ
  check : φ → σ → Option ε
  payloadCount : φ → BitVec 16
  /-- The comparison that tells an early end of the payload. -/
  early : BitVec 16 → Bool

variable {κ φ σ ε : Type} {w : Nat}

structure Reg (κ φ σ ε : Type) (w : Nat) where
  state : State
  hdrPtr : BitVec w
  wordCount : BitVec 16
  hdrSum : σ
  lastWordData : BitVec 8
  sHdrReady : Bool
  sPayloadTready : Bool
  mHdrValid : Bool
  m : κ
  fields : φ
  busy : Bool
  errorHeaderEarlyTermination : Bool
  errorPayloadEarlyTermination : Bool
  /-- Which of the `error_invalid_` registers is set. -/
  errorInvalid : Option ε
  output : AxisOutput.Reg

structure Input (κ : Type) where
  sHdrValid : Bool
  sHdr : κ
  payload : Word
  payloadTvalid : Bool
  mHdrReady : Bool
  mPayloadTready : Bool

structure Comb (σ ε : Type) (w : Nat) where
  stateNext : State
  sHdrReadyNext : Bool
  sPayloadTreadyNext : Bool
  storeHdr : Bool
  storeAt : Option Nat
  storeLastWord : Bool
  hdrPtrNext : BitVec w
  wordCountNext : BitVec 16
  hdrSumNext : σ
  mHdrValidNext : Bool
  errorHeaderEarlyTerminationNext : Bool
  errorPayloadEarlyTerminationNext : Bool
  errorInvalidNext : Option ε
  int : Word
  tvalidInt : Bool

section Comb
variable (F : Format φ σ ε w) (r : Reg κ φ σ ε w) (i : Input κ)

def hdrTransfer : Bool := r.sHdrReady && i.sHdrValid

def transfer : Bool := r.sPayloadTready && i.payloadTvalid

def defaults : Comb σ ε w where
  stateNext := .idle
  sHdrReadyNext := false
  sPayloadTreadyNext := false
  storeHdr := false
  storeAt := none
  storeLastWord := false
  hdrPtrNext := r.hdrPtr
  wordCountNext := r.wordCount
  hdrSumNext := r.hdrSum
  mHdrValidNext := r.mHdrValid && !i.mHdrReady
  errorHeaderEarlyTerminationNext := false
  errorPayloadEarlyTerminationNext := false
  errorInvalidNext := none
  int := ⟨0#8, false, false⟩
  tvalidInt := false

def idle : Comb σ ε w :=
  let d := defaults r i
  let d :=
    { d with
      hdrPtrNext := 0#w
      hdrSumNext := F.sumInit
      sHdrReadyNext := !d.mHdrValidNext }
  if hdrTransfer r i then
    { d with
      sHdrReadyNext := false
      sPayloadTreadyNext := true
      storeHdr := true
      stateNext := .readHeader }
  else { d with stateNext := .idle }

/-- The places where a frame ends. -/
def finish (d : Comb σ ε w) : Comb σ ε w :=
  { d with sHdrReadyNext := !d.mHdrValidNext, sPayloadTreadyNext := false, stateNext := .idle }

def readHeader : Comb σ ε w :=
  let d :=
    { defaults r i with
      sPayloadTreadyNext := true
      wordCountNext := F.payloadCount r.fields
      stateNext := .readHeader }
  if transfer r i then
    let d :=
      { d with
        hdrPtrNext := r.hdrPtr + 1#w
        hdrSumNext := F.sumNext r.hdrSum r.hdrPtr.toNat i.payload.tdata
        storeAt := some r.hdrPtr.toNat }
    let d :=
      if r.hdrPtr = F.lastPtr then
        match F.check r.fields d.hdrSumNext with
        | some e => { d with errorInvalidNext := some e, stateNext := .waitLast }
        | none =>
          { d with
            mHdrValidNext := true
            sPayloadTreadyNext := AxisOutput.treadyIntEarly r.output false i.mPayloadTready
            stateNext := .readPayload }
      else d
    if i.payload.tlast then
      finish { d with errorHeaderEarlyTerminationNext := true, mHdrValidNext := false }
    else d
  else d

def readPayload : Comb σ ε w :=
  -- the last word counted, if more words follow
  let held := transfer r i && !i.payload.tlast && r.wordCount == 1#16
  let d :=
    { defaults r i with
      sPayloadTreadyNext :=
        AxisOutput.treadyIntEarly r.output (i.payloadTvalid && !held) i.mPayloadTready
      int := i.payload
      tvalidInt := i.payloadTvalid && !held
      stateNext := .readPayload }
  if transfer r i then
    let d := { d with wordCountNext := r.wordCount - 1#16 }
    if i.payload.tlast then
      let d :=
        if F.early r.wordCount then
          { d with
            int := { i.payload with tuser := true }
            errorPayloadEarlyTerminationNext := true }
        else d
      finish d
    else if r.wordCount = 1#16 then
      { d with storeLastWord := true, stateNext := .readPayloadLast }
    else d
  else d

def readPayloadLast : Comb σ ε w :=
  let d :=
    { defaults r i with
      int := { i.payload with tdata := r.lastWordData }
      tvalidInt := i.payloadTvalid && i.payload.tlast }
  let d :=
    { d with
      sPayloadTreadyNext := AxisOutput.treadyIntEarly r.output d.tvalidInt i.mPayloadTready
      stateNext := .readPayloadLast }
  if transfer r i && i.payload.tlast then finish d else d

def waitLast : Comb σ ε w :=
  let d := { defaults r i with sPayloadTreadyNext := true, stateNext := .waitLast }
  if transfer r i && i.payload.tlast then finish d else d

/-- The `case` statement. -/
def comb : Comb σ ε w :=
  match r.state with
  | .idle => idle F r i
  | .readHeader => readHeader F r i
  | .readPayload => readPayload F r i
  | .readPayloadLast => readPayloadLast r i
  | .waitLast => waitLast r i

def posedge (rst : Bool) : Reg κ φ σ ε w :=
  let b := comb F r i
  { state := if rst then .idle else b.stateNext
    hdrPtr := b.hdrPtrNext
    wordCount := b.wordCountNext
    hdrSum := b.hdrSumNext
    lastWordData := if b.storeLastWord then b.int.tdata else r.lastWordData
    sHdrReady := if rst then false else b.sHdrReadyNext
    sPayloadTready := if rst then false else b.sPayloadTreadyNext
    mHdrValid := if rst then false else b.mHdrValidNext
    m := if b.storeHdr then i.sHdr else r.m
    fields := match b.storeAt with
      | some ptr => F.store r.fields ptr i.payload.tdata
      | none => r.fields
    busy := if rst then false else b.stateNext != .idle
    errorHeaderEarlyTermination := if rst then false else b.errorHeaderEarlyTerminationNext
    errorPayloadEarlyTermination := if rst then false else b.errorPayloadEarlyTerminationNext
    errorInvalid := if rst then none else b.errorInvalidNext
    output := AxisOutput.posedge r.output b.int b.tvalidInt i.mPayloadTready rst }

def step : Reg κ φ σ ε w := posedge F r i false

/-! ## What a clock takes in and puts out -/

def hdrAccepted : List κ := if hdrTransfer r i then [i.sHdr] else []

def accepted : List Word := if transfer r i then [i.payload] else []

def hdrSent : List (κ × φ) := if r.mHdrValid && i.mHdrReady then [(r.m, r.fields)] else []

def written : List Word :=
  AxisOutput.taken r.output (comb F r i).int (comb F r i).tvalidInt

def payloadSent : List Word := AxisOutput.handed r.output i.mPayloadTready

end Comb

/-! ## The header -/

/-- The header as bytes, and what `hdrSum` and the checks are on these. -/
structure Layout (F : Format φ σ ε w) where
  bytes : φ → List (BitVec 8)
  bytes_inj : ∀ x y, bytes x = bytes y → x = y
  length_bytes : ∀ x, (bytes x).length = F.lastPtr.toNat + 1
  lastPtr_pos : 0 < F.lastPtr.toNat
  bytes_store : ∀ x k b, k ≤ F.lastPtr.toNat → bytes (F.store x k b) = (bytes x).set k b
  sum : List (BitVec 8) → σ
  sum_nil : sum [] = F.sumInit
  sum_snoc : ∀ bs b, sum (bs ++ [b]) = F.sumNext (sum bs) bs.length b
  valid : List (BitVec 8) → Bool
  check_iff : ∀ x b, F.check x (sum (bytes (F.store x F.lastPtr.toNat b))) = none ↔
    valid (bytes (F.store x F.lastPtr.toNat b)) = true
  count : List (BitVec 8) → BitVec 16
  payloadCount : ∀ x b, F.payloadCount x = count (bytes (F.store x F.lastPtr.toNat b))

namespace Layout
variable {F : Format φ σ ε w} (L : Layout F)

def hdrLen (_ : Layout F) : Nat := F.lastPtr.toNat + 1

theorem take_store (x : φ) {k : Nat} (hk : k ≤ F.lastPtr.toNat) (b : BitVec 8) :
    (L.bytes (F.store x k b)).take (k + 1) = (L.bytes x).take k ++ [b] := by
  have hlen : k < (L.bytes x).length := by
    rw [L.length_bytes]
    omega
  have hsame : ((L.bytes x).take k).set k b = (L.bytes x).take k := by
    apply List.set_eq_of_length_le
    rw [List.length_take]
    exact Nat.min_le_left _ _
  rw [L.bytes_store x k b hk, List.take_add_one, List.take_set, hsame,
    List.getElem?_set_self hlen]
  rfl

theorem bytes_injective : Function.Injective fun h : κ × φ => (h.1, L.bytes h.2) := by
  intro g h heq
  obtain ⟨h1, h2⟩ := Prod.mk.inj heq
  exact Prod.ext h1 (L.bytes_inj _ _ h2)

def hdrBytes (f : List Word) : List (BitVec 8) := (f.take L.hdrLen).map Word.tdata

/-- The header is complete, does not end the frame, and passes the checks. -/
def accepts (f : List Word) : Bool :=
  decide (L.hdrLen ≤ f.length) && (f.take L.hdrLen).all (fun v => !v.tlast) &&
    L.valid (L.hdrBytes f)

/-- The header that a frame gives. -/
def head (x : κ) (f : List Word) : List (κ × List (BitVec 8)) :=
  if L.accepts f then [(x, L.hdrBytes f)] else []

/-- The payload that a frame gives. -/
def body (f : List Word) : List Word :=
  if L.accepts f then PayloadLength.fit F.early (L.count (L.hdrBytes f)) (f.drop L.hdrLen) else []

theorem accepts_short {f : List Word} (h : f.length < L.hdrLen) : L.accepts f = false := by
  have hno : decide (L.hdrLen ≤ f.length) = false := decide_eq_false (Nat.not_le.mpr h)
  rw [accepts, hno, Bool.false_and, Bool.false_and]

theorem accepts_snoc {f : List Word} (h : L.hdrLen ≤ f.length) (v : Word) :
    L.accepts (f ++ [v]) = L.accepts f ∧ L.hdrBytes (f ++ [v]) = L.hdrBytes f := by
  have htake : (f ++ [v]).take L.hdrLen = f.take L.hdrLen := List.take_append_of_le_length h
  have hlong : L.hdrLen ≤ (f ++ [v]).length := by
    rw [List.length_append]
    omega
  have hbytes : L.hdrBytes (f ++ [v]) = L.hdrBytes f := by rw [hdrBytes, htake, hdrBytes]
  refine ⟨?_, hbytes⟩
  rw [accepts, accepts, hbytes, htake, decide_eq_true h, decide_eq_true hlong]

/-- A whole header, followed by `q`. -/
theorem accepts_words {bs : List (BitVec 8)} (hlen : bs.length = L.hdrLen)
    (hvalid : L.valid bs = true) (q : List Word) :
    let f := bs.map (fun b => (⟨b, false, false⟩ : Word)) ++ q
    L.accepts f = true ∧ L.hdrBytes f = bs ∧ f.drop L.hdrLen = q := by
  intro f
  have hmap : (bs.map fun b => (⟨b, false, false⟩ : Word)).length = L.hdrLen := by
    rw [List.length_map, hlen]
  have htake : f.take L.hdrLen = bs.map fun b => (⟨b, false, false⟩ : Word) := by
    rw [← hmap]
    exact List.take_left
  have hdrop : f.drop L.hdrLen = q := by
    rw [← hmap]
    exact List.drop_left
  have hbytes : L.hdrBytes f = bs := by
    have hid : Word.tdata ∘ (fun b : BitVec 8 => (⟨b, false, false⟩ : Word)) = id := rfl
    rw [hdrBytes, htake, List.map_map, hid, List.map_id]
  have hmarks : (bs.map fun b => (⟨b, false, false⟩ : Word)).all (fun v => !v.tlast) = true := by
    rw [List.all_map]
    exact List.all_eq_true.mpr fun _ _ => rfl
  have hlong : L.hdrLen ≤ f.length := by
    rw [List.length_append, hmap]
    exact Nat.le_add_right _ _
  refine ⟨?_, hbytes, hdrop⟩
  rw [accepts, htake, hmarks, hbytes, hvalid, decide_eq_true hlong]
  rfl

theorem head_snoc (x : κ) {f : List Word} (h : L.hdrLen ≤ f.length) (v : Word) :
    L.head x (f ++ [v]) = L.head x f := by
  obtain ⟨hacc, hbytes⟩ := L.accepts_snoc h v
  rw [head, head, hacc, hbytes]

theorem head_grow (x : κ) (f : List Word) (v : Word) : L.head x f <+: L.head x (f ++ [v]) := by
  rcases Nat.lt_or_ge f.length L.hdrLen with hlt | hge
  · rw [head, L.accepts_short hlt, if_neg Bool.false_ne_true]
    exact List.nil_prefix
  · exact ⟨[], by rw [List.append_nil, L.head_snoc x hge]⟩

theorem body_grow (f : List Word) (v : Word) : L.body f <+: L.body (f ++ [v]) := by
  rcases Nat.lt_or_ge f.length L.hdrLen with hlt | hge
  · rw [body, L.accepts_short hlt, if_neg Bool.false_ne_true]
    exact List.nil_prefix
  · obtain ⟨hacc, hbytes⟩ := L.accepts_snoc hge v
    rw [body, body, hacc, hbytes, List.drop_append_of_le_length hge]
    split
    · exact PayloadLength.fit_grow _ v
    · exact List.nil_prefix

end Layout

end AdcCapture.FrameRx
