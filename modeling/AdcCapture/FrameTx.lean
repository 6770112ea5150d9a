import AdcCapture.Framing
import AdcCapture.PayloadLength

/-!
# A header and its payload sent as one frame

`udp_ip_tx` and `ip_eth_tx` are one machine with two headers. It is written here
over a `Format`, which has what the two do not share.
-/

namespace AdcCapture.FrameTx

open Clocked
open AxisOutput (Word)
set_option autoImplicit false

inductive State where
  | idle | writeHeader | writePayload | writePayloadLast | waitLast
  deriving DecidableEq, Repr

/--
The header `ι` at the input, the part `κ` of it that is passed on beside the frame,
the part `η` that is written, and the register `σ` next to it.
-/
structure Format (ι κ η σ : Type) (w : Nat) where
  pass : ι → κ
  keep : ι → η
  /-- The value of `hdr_ptr_reg` for the last byte. -/
  lastPtr : BitVec w
  firstByte : ι → BitVec 8
  byteAt : η → σ → Nat → BitVec 8
  sumNext : η → σ → Nat → σ
  payloadCount : η → BitVec 16
  /-- The condition in `STATE_WAIT_LAST`, on `tready` and `tvalid`. -/
  waitTransfer : Bool → Bool → Bool

variable {ι κ η σ : Type} {w : Nat}

structure Reg (κ η σ : Type) (w : Nat) where
  state : State
  hdrPtr : BitVec w
  wordCount : BitVec 16
  hdrSum : σ
  lastWordData : BitVec 8
  hdr : η
  sHdrReady : Bool
  sPayloadTready : Bool
  mHdrValid : Bool
  m : κ
  busy : Bool
  errorPayloadEarlyTermination : Bool
  output : AxisOutput.Reg

structure Input (ι : Type) where
  sHdrValid : Bool
  sHdr : ι
  payload : Word
  payloadTvalid : Bool
  mHdrReady : Bool
  mPayloadTready : Bool

structure Comb (σ : Type) (w : Nat) where
  stateNext : State
  sHdrReadyNext : Bool
  sPayloadTreadyNext : Bool
  storeHdr : Bool
  storeLastWord : Bool
  hdrPtrNext : BitVec w
  wordCountNext : BitVec 16
  hdrSumNext : σ
  mHdrValidNext : Bool
  errorPayloadEarlyTerminationNext : Bool
  int : Word
  tvalidInt : Bool

section Comb
variable (F : Format ι κ η σ w) (r : Reg κ η σ w) (i : Input ι)

def hdrTransfer : Bool := r.sHdrReady && i.sHdrValid

def payloadTransfer : Bool := r.sPayloadTready && i.payloadTvalid

def defaults : Comb σ w where
  stateNext := .idle
  sHdrReadyNext := false
  sPayloadTreadyNext := false
  storeHdr := false
  storeLastWord := false
  hdrPtrNext := r.hdrPtr
  wordCountNext := r.wordCount
  hdrSumNext := r.hdrSum
  mHdrValidNext := r.mHdrValid && !i.mHdrReady
  errorPayloadEarlyTerminationNext := false
  int := ⟨0#8, false, false⟩
  tvalidInt := false

def idle : Comb σ w :=
  let d := defaults r i
  let d := { d with hdrPtrNext := 0#w, sHdrReadyNext := !d.mHdrValidNext }
  if hdrTransfer r i then
    let d :=
      { d with
        storeHdr := true
        sHdrReadyNext := false
        mHdrValidNext := true
        stateNext := .writeHeader }
    if r.output.treadyInt then
      { d with tvalidInt := true, int := ⟨F.firstByte i.sHdr, false, false⟩, hdrPtrNext := 1#w }
    else d
  else { d with stateNext := .idle }

def writeHeader : Comb σ w :=
  let d := { defaults r i with wordCountNext := F.payloadCount r.hdr }
  if r.output.treadyInt then
    let d :=
      { d with
        hdrPtrNext := r.hdrPtr + 1#w
        hdrSumNext := F.sumNext r.hdr r.hdrSum r.hdrPtr.toNat
        tvalidInt := true
        int := ⟨F.byteAt r.hdr r.hdrSum r.hdrPtr.toNat, false, false⟩
        stateNext := .writeHeader }
    if r.hdrPtr = F.lastPtr then
      { d with
        sPayloadTreadyNext := AxisOutput.treadyIntEarly r.output true i.mPayloadTready
        stateNext := .writePayload }
    else d
  else { d with stateNext := .writeHeader }

/-- The three places where a payload ends. -/
def finish (d : Comb σ w) : Comb σ w :=
  { d with sHdrReadyNext := !d.mHdrValidNext, sPayloadTreadyNext := false, stateNext := .idle }

def early (count : BitVec 16) : Bool := count != 1#16

def writePayload : Comb σ w :=
  -- the last word counted, if more words follow
  let held := payloadTransfer r i && !i.payload.tlast && r.wordCount == 1#16
  let d :=
    { defaults r i with
      sPayloadTreadyNext :=
        AxisOutput.treadyIntEarly r.output (i.payloadTvalid && !held) i.mPayloadTready
      int := i.payload
      tvalidInt := i.payloadTvalid && !held
      stateNext := .writePayload }
  if payloadTransfer r i then
    let d := { d with wordCountNext := r.wordCount - 1#16 }
    if i.payload.tlast then
      let d :=
        if early r.wordCount then
          { d with
            int := { i.payload with tuser := true }
            errorPayloadEarlyTerminationNext := true }
        else d
      finish d
    else if r.wordCount = 1#16 then
      { d with storeLastWord := true, stateNext := .writePayloadLast }
    else d
  else d

def writePayloadLast : Comb σ w :=
  let d :=
    { defaults r i with
      int := { i.payload with tdata := r.lastWordData }
      tvalidInt := i.payloadTvalid && i.payload.tlast }
  let d :=
    { d with
      sPayloadTreadyNext := AxisOutput.treadyIntEarly r.output d.tvalidInt i.mPayloadTready
      stateNext := .writePayloadLast }
  if payloadTransfer r i && i.payload.tlast then finish d else d

def waitLast : Comb σ w :=
  let d := { defaults r i with sPayloadTreadyNext := true, stateNext := .waitLast }
  if F.waitTransfer r.sPayloadTready i.payloadTvalid && i.payload.tlast then finish d else d

/-- The `case` statement. -/
def comb : Comb σ w :=
  match r.state with
  | .idle => idle F r i
  | .writeHeader => writeHeader F r i
  | .writePayload => writePayload r i
  | .writePayloadLast => writePayloadLast r i
  | .waitLast => waitLast F r i

def posedge (rst : Bool) : Reg κ η σ w :=
  let b := comb F r i
  { state := if rst then .idle else b.stateNext
    hdrPtr := b.hdrPtrNext
    wordCount := b.wordCountNext
    hdrSum := b.hdrSumNext
    lastWordData := if b.storeLastWord then b.int.tdata else r.lastWordData
    hdr := if b.storeHdr then F.keep i.sHdr else r.hdr
    sHdrReady := if rst then false else b.sHdrReadyNext
    sPayloadTready := if rst then false else b.sPayloadTreadyNext
    mHdrValid := if rst then false else b.mHdrValidNext
    m := if b.storeHdr then F.pass i.sHdr else r.m
    busy := if rst then false else b.stateNext != .idle
    errorPayloadEarlyTermination := if rst then false else b.errorPayloadEarlyTerminationNext
    output := AxisOutput.posedge r.output b.int b.tvalidInt i.mPayloadTready rst }

def step : Reg κ η σ w := posedge F r i false

/-! ## What a clock takes in and puts out -/

def hdrAccepted : List ι := if hdrTransfer r i then [i.sHdr] else []

def payloadAccepted : List Word := if payloadTransfer r i then [i.payload] else []

def hdrSent : List κ := if r.mHdrValid && i.mHdrReady then [r.m] else []

def written : List Word :=
  AxisOutput.taken r.output (comb F r i).int (comb F r i).tvalidInt

def payloadSent : List Word := AxisOutput.handed r.output i.mPayloadTready

end Comb

/-! ## The frame -/

/-- The bytes that `hdr_ptr_reg` goes through; `inv h s k` is what `hdrSum` is to have at `k`. -/
structure Layout (F : Format ι κ η σ w) where
  bytes : η → List (BitVec 8)
  length_bytes : ∀ h, (bytes h).length = F.lastPtr.toNat + 1
  one_lt : 1 < F.lastPtr.toNat
  firstByte : ∀ x, (bytes (F.keep x))[0]? = some (F.firstByte x)
  inv : η → σ → Nat → Prop
  inv_zero : ∀ h s, inv h s 0
  inv_one : ∀ h s, inv h s 1
  inv_succ : ∀ h s k, k ≤ F.lastPtr.toNat → inv h s k → inv h (F.sumNext h s k) (k + 1)
  byteAt : ∀ h s k, k ≤ F.lastPtr.toNat → inv h s k → (bytes h)[k]? = some (F.byteAt h s k)

namespace Layout
variable {F : Format ι κ η σ w} (L : Layout F)

def words (h : η) : List Word := (L.bytes h).map fun b => ⟨b, false, false⟩

def frame (x : ι) (q : List Word) : List Word :=
  L.words (F.keep x) ++ PayloadLength.fit early (F.payloadCount (F.keep x)) q

theorem length_words (h : η) : (L.words h).length = F.lastPtr.toNat + 1 := by
  rw [words, List.length_map, L.length_bytes]

theorem not_last_words (h : η) : ∀ v ∈ L.words h, v.tlast = false := by
  intro v hv
  obtain ⟨b, _, rfl⟩ := List.mem_map.mp hv
  rfl

theorem take_words {h : η} {s : σ} {k : Nat} (hk : k ≤ F.lastPtr.toNat) (hs : L.inv h s k) :
    (L.words h).take (k + 1) = (L.words h).take k ++ [⟨F.byteAt h s k, false, false⟩] := by
  rw [List.take_add_one, words, List.getElem?_map, L.byteAt h s k hk hs]
  rfl

theorem take_words_first (x : ι) :
    (L.words (F.keep x)).take 1 = [⟨F.firstByte x, false, false⟩] := by
  rw [List.take_add_one, words, List.getElem?_map, L.firstByte]
  rfl

theorem frame_nil (x : ι) : L.frame x [] = L.words (F.keep x) := by
  rw [frame, PayloadLength.fit, List.append_nil]

theorem isPacket_frame (x : ι) (q : List Word) (hq : Packets.IsPacket Word.tlast q) :
    Packets.IsPacket Word.tlast (L.frame x q) := by
  have hfit : Packets.IsPacket Word.tlast
      (PayloadLength.fit early (F.payloadCount (F.keep x)) q) := PayloadLength.isPacket_fit hq
  obtain ⟨r, b, heq, hr, hb⟩ := hfit
  rw [frame, heq]
  refine ⟨L.words (F.keep x) ++ r, b, (List.append_assoc _ _ _).symm, ?_, hb⟩
  intro v hv
  rcases List.mem_append.mp hv with hv | hv
  · exact L.not_last_words _ v hv
  · exact hr v hv

theorem open_frame (x : ι) (q : List Word) (hq : ∀ v ∈ q, v.tlast = false) :
    ∀ v ∈ L.frame x q, v.tlast = false := by
  intro v hv
  rcases List.mem_append.mp hv with hv | hv
  · exact L.not_last_words _ v hv
  · exact PayloadLength.fit_open hq v hv

theorem frame_grow (x : ι) (q : List Word) (v : Word) : L.frame x q <+: L.frame x (q ++ [v]) := by
  rw [frame, frame, List.prefix_append_right_inj]
  exact PayloadLength.fit_grow q v

end Layout

end AdcCapture.FrameTx
