import AdcCapture.GmiiFrames
import AdcCapture.Packets
import AdcCapture.TxDone

/-!
# From axis_gmii_tx to axis_gmii_rx

The transmitter behind its source of frames, its GMII pins wired to a receiver.
A flight is the frame in progress: the bytes of it that are on the wire, the
frame if its last byte has been accepted, the bytes accepted if not.
-/

namespace AdcCapture.MacLink

open Clocked TxDone
open AxisGmiiTx hiding State lastAccepted
open GmiiFrames (data Item Beat beats fcsBytes crcOf received Quiet)
set_option autoImplicit false

/-- The GMII pins. -/
def symbol (r : Reg) : AxisGmiiRx.Stage := ⟨r.gmiiTxd, r.gmiiTxEn, r.gmiiTxEr⟩

def wire (cfg : Config) (s : State) (os : List Offer) : List AxisGmiiRx.Stage :=
  emits (step cfg) (fun s o => [symbol (step cfg s o).mac]) s os

/-- A byte accepted from the source, with its `tlast`. -/
def acceptedByte (s : State) (o : Offer) : List (BitVec 8 × Bool) :=
  let i := macInput s o
  if s.mac.sAxisTready && i.sAxisTvalid then [(i.sAxisTdata, i.sAxisTlast)] else []

/-- The frames accepted from the source, cut at their last bytes. -/
def accepted (cfg : Config) (s : State) (os : List Offer) : Packets (BitVec 8 × Bool) :=
  Packets.cut (fun b => b.2) (emits (step cfg) acceptedByte s os)

def frames (p : Packets (BitVec 8 × Bool)) : List (List (BitVec 8)) :=
  p.closed.map (List.map Prod.fst)

/-- Inside a frame the source has the next byte ready, and it raises no error. -/
def Clean (s : State) (o : Offer) : Prop :=
  s.source.inFrame = true → o.tvalid = true ∧ (o.tlast = true → o.tuser = false)

/-- Zeros after a payload of `n` bytes; `frame_ptr_reg` counts them in its 16 bits. -/
def padding (cfg : Config) (n : Nat) : Nat :=
  if cfg.enablePadding then cfg.minFrameLength - 4 - ((n - 1) % 65536 + 1) else 0

def padded (cfg : Config) (bs : List (BitVec 8)) : List (BitVec 8) :=
  bs ++ List.replicate (padding cfg bs.length) 0#8

def gapSymbol : AxisGmiiRx.Stage := ⟨0#8, false, false⟩

def start : List (BitVec 8) := List.replicate 7 ethPre

def fcsOf (bs : List (BitVec 8)) : List (BitVec 8) := fcsBytes (crcOf 0xFFFFFFFF#32 bs)

/-- What stands on the wire for nothing, or for a frame. -/
def item (cfg : Config) : Option (List (BitVec 8)) → Item
  | none => .gap gapSymbol
  | some bs => .frame start (padded cfg bs) (fcsOf (padded cfg bs)) gapSymbol

structure Flight where
  part : List (BitVec 8)
  sent : Option (List (BitVec 8))
  rest : List (BitVec 8)

def noFlight : Flight := ⟨[], none, []⟩

/-- Bytes `q` are on the wire and in the check, the byte in `s_tdata_reg` comes next. -/
def Carrying (r : Reg) (part q : List (BitVec 8)) : Prop :=
  part = start ++ AxisGmiiRx.ethSfd :: q ∧ r.framePtr.toNat = q.length % 65536 ∧
    r.crcState = crcOf 0xFFFFFFFF#32 q

/-- In each state of the transmitter: where the frame in progress is. -/
def InFlight (cfg : Config) (r : Reg) (f : Flight) : Prop :=
  match r.state with
  | .idle => f = noFlight
  | .preamble => 1 ≤ r.framePtr.toNat ∧ r.framePtr.toNat ≤ 7 ∧
      f = ⟨List.replicate r.framePtr.toNat ethPre, none, []⟩
  | .payload => ∃ q, Carrying r f.part q ∧ f.sent = none ∧ f.rest = q ++ [r.sTdata]
  | .last => ∃ q, Carrying r f.part q ∧ f.sent = some (q ++ [r.sTdata]) ∧ f.rest = []
  | .pad => ∃ bs j, f.sent = some bs ∧ f.rest = [] ∧ r.sTdata = 0#8 ∧ cfg.enablePadding = true ∧
      f.part = start ++ AxisGmiiRx.ethSfd :: (bs ++ List.replicate j 0#8) ∧
      r.framePtr.toNat = (bs.length - 1) % 65536 + 1 + j ∧
      r.framePtr.toNat + 4 < cfg.minFrameLength ∧
      r.crcState = crcOf 0xFFFFFFFF#32 (bs ++ List.replicate j 0#8)
  | .fcs => ∃ bs, f.sent = some bs ∧ f.rest = [] ∧ r.framePtr.toNat ≤ 3 ∧
      r.crcState = crcOf 0xFFFFFFFF#32 (padded cfg bs) ∧
      f.part = start ++ AxisGmiiRx.ethSfd ::
        (padded cfg bs ++ (fcsOf (padded cfg bs)).take r.framePtr.toNat)
  | .ifg => (r.framePtr = 0#16 ∧ ∃ bs, f =
        ⟨start ++ AxisGmiiRx.ethSfd :: (padded cfg bs ++ fcsOf (padded cfg bs)), some bs, []⟩) ∨
      (0 < r.framePtr.toNat ∧ f = noFlight)
  | .waitEnd => False

/-- What a clock puts on the wire and takes from the source, and what it completes. -/
inductive Move (cfg : Config) (x : AxisGmiiRx.Stage) (acc : List (BitVec 8 × Bool)) :
    Flight → Flight → List (Option (List (BitVec 8))) → Prop where
  | gap (hx : x = gapSymbol) (ha : acc = []) : Move cfg x acc noFlight noFlight [none]
  | put (f : Flight) (b : BitVec 8) (hx : x = data b) (ha : acc = []) :
      Move cfg x acc f { f with part := f.part ++ [b] } []
  | take (part rest : List (BitVec 8)) (b c : BitVec 8) (hx : x = data b)
      (ha : acc = [(c, false)]) :
      Move cfg x acc ⟨part, none, rest⟩ ⟨part ++ [b], none, rest ++ [c]⟩ []
  | close (part rest : List (BitVec 8)) (b c : BitVec 8) (hx : x = data b)
      (ha : acc = [(c, true)]) :
      Move cfg x acc ⟨part, none, rest⟩ ⟨part ++ [b], some (rest ++ [c]), []⟩ []
  | finish (bs : List (BitVec 8)) (hx : x = gapSymbol) (ha : acc = []) :
      Move cfg x acc
        ⟨start ++ AxisGmiiRx.ethSfd :: (padded cfg bs ++ fcsOf (padded cfg bs)), some bs, []⟩
        noFlight [some bs]

section Step
variable {cfg : Config} {s : State} {o : Offer}

theorem step_sTdata :
    (step cfg s o).mac.sTdata = (byState cfg s.mac (macInput s o)).sTdataNext := by
  simp only [step, posedge, comb_macInput]

theorem step_crcState : (step cfg s o).mac.crcState =
    if (byState cfg s.mac (macInput s o)).resetCrc then 0xFFFFFFFF#32
    else if (byState cfg s.mac (macInput s o)).updateCrc then
      cfg.crcNext s.mac.sTdata s.mac.crcState
    else s.mac.crcState := by
  simp [step, posedge, comb_macInput]

theorem step_symbol : symbol (step cfg s o).mac =
    ⟨(byState cfg s.mac (macInput s o)).gmiiTxdNext,
      (byState cfg s.mac (macInput s o)).gmiiTxEnNext,
      (byState cfg s.mac (macInput s o)).gmiiTxErNext⟩ := by
  simp [symbol, step, posedge, comb_macInput]

theorem acceptedByte_unready (h : s.mac.sAxisTready = false) : acceptedByte s o = [] := by
  simp [acceptedByte, h]

theorem acceptedByte_ready (h : s.mac.sAxisTready = true) (hv : (macInput s o).sAxisTvalid = true) :
    acceptedByte s o = [((macInput s o).sAxisTdata, (macInput s o).sAxisTlast)] := by
  simp [acceptedByte, h, hv]

/-- A clock of the transmitter moves the frame in progress. -/
def Moves (cfg : Config) (s : State) (o : Offer) (f : Flight) : Prop :=
  ∃ f' done, InFlight cfg (step cfg s o).mac f' ∧
    Move cfg (symbol (step cfg s o).mac) (acceptedByte s o) f f' done

theorem idle_moves (h : s.mac.state = .idle) (hs : Synced s) {f : Flight}
    (hf : InFlight cfg s.mac f) : Moves cfg s o f := by
  simp only [Synced, h] at hs
  simp only [InFlight, h] at hf
  subst hf
  have ha : acceptedByte s o = [] := acceptedByte_unready hs.1
  cases hv : (macInput s o).sAxisTvalid with
  | false =>
    have hst : (step cfg s o).mac.state = .idle := by
      simp [step_state, byState, h, AxisGmiiTx.idle, hv]
    refine ⟨noFlight, [none], by simp [InFlight, hst], .gap ?_ ha⟩
    simp [step_symbol, byState, h, AxisGmiiTx.idle, hv, gapSymbol, defaults]
  | true =>
    have hst : (step cfg s o).mac.state = .preamble := by
      simp [step_state, byState, h, AxisGmiiTx.idle, hv]
    have hptr : (step cfg s o).mac.framePtr = 1#16 := by
      simp [step_framePtr, byState, h, AxisGmiiTx.idle, hv]
    refine ⟨{ noFlight with part := noFlight.part ++ [ethPre] }, [], ?_, .put _ _ ?_ ha⟩
    · simp [InFlight, hst, hptr, noFlight]
    · simp [step_symbol, byState, h, AxisGmiiTx.idle, hv, data, defaults]

theorem preamble_moves (h : s.mac.state = .preamble) (hs : Synced s) {f : Flight}
    (hf : InFlight cfg s.mac f) : Moves cfg s o f := by
  simp only [Synced, h] at hs
  simp only [InFlight, h] at hf
  obtain ⟨hsrc, hfirst, hle, hr⟩ := hs
  obtain ⟨hge, _, rfl⟩ := hf
  have hv : (macInput s o).sAxisTvalid = true := by simp [macInput, Source.input, hfirst]
  have hlast : (macInput s o).sAxisTlast = false := sAxisTlast_of_first hsrc
  by_cases h7 : s.mac.framePtr = 7#16
  · have hready : s.mac.sAxisTready = true := by simp [hr, h7]
    have hst : (step cfg s o).mac.state = .payload := by
      simp [step_state, byState, h, AxisGmiiTx.preamble, h7]
    refine ⟨⟨List.replicate s.mac.framePtr.toNat ethPre ++ [AxisGmiiRx.ethSfd], none,
      [] ++ [(macInput s o).sAxisTdata]⟩, [], ?_, .take _ _ _ _ ?_ ?_⟩
    · simp only [InFlight, hst]
      refine ⟨[], ⟨?_, ?_, ?_⟩, trivial, ?_⟩
      · simp [h7, start]
      · simp [step_framePtr, byState, h, AxisGmiiTx.preamble, h7]
      · simp [step_crcState, byState, h, AxisGmiiTx.preamble, h7, crcOf]
      · simp [step_sTdata, byState, h, AxisGmiiTx.preamble, h7, hready]
    · simp [step_symbol, byState, h, AxisGmiiTx.preamble, h7, data, defaults, ethSfd,
        AxisGmiiRx.ethSfd]
    · rw [acceptedByte_ready hready hv, hlast]
  · have h7' : s.mac.framePtr.toNat ≠ 7 := fun hn => h7 (BitVec.eq_of_toNat_eq hn)
    have hready : s.mac.sAxisTready = false := by simp [hr, h7']
    have hst : (step cfg s o).mac.state = .preamble := by
      by_cases h6 : s.mac.framePtr = 6#16
      · simp [step_state, byState, h, AxisGmiiTx.preamble, h6]
      · simp [step_state, byState, h, AxisGmiiTx.preamble, h6, h7]
    have hptr : (step cfg s o).mac.framePtr.toNat = s.mac.framePtr.toNat + 1 := by
      have hnext : (step cfg s o).mac.framePtr = s.mac.framePtr + 1#16 := by
        by_cases h6 : s.mac.framePtr = 6#16
        · simp [step_framePtr, byState, h, AxisGmiiTx.preamble, h6]
        · simp [step_framePtr, byState, h, AxisGmiiTx.preamble, h6, h7]
      rw [hnext, BitVec.toNat_add]
      simp
      omega
    have hsym : symbol (step cfg s o).mac = data ethPre := by
      by_cases h6 : s.mac.framePtr = 6#16
      · simp [step_symbol, byState, h, AxisGmiiTx.preamble, h6, data, defaults]
      · simp [step_symbol, byState, h, AxisGmiiTx.preamble, h6, h7, data, defaults]
    refine ⟨_, [], ?_, .put _ ethPre hsym (acceptedByte_unready hready)⟩
    simp only [InFlight, hst, hptr]
    refine ⟨by omega, by omega, ?_⟩
    rw [List.replicate_succ']

theorem payload_moves (h : s.mac.state = .payload) (hs : Synced s) (hK : Clean s o)
    (hcrc : cfg.crcNext = EthCrc.crcNext) {f : Flight} (hf : InFlight cfg s.mac f) :
    Moves cfg s o f := by
  simp only [Synced, h] at hs
  simp only [InFlight, h] at hf
  obtain ⟨hready, hin, hfirst⟩ := hs
  obtain ⟨part, sent, rest⟩ := f
  obtain ⟨q, ⟨rfl, hptr, hq⟩, rfl, rfl⟩ := hf
  obtain ⟨hov, hou⟩ := hK hin
  have hv : (macInput s o).sAxisTvalid = true := by simp [macInput, Source.input, hov]
  have hacc := acceptedByte_ready hready hv
  have hcarry (hst : (byState cfg s.mac (macInput s o)).framePtrNext = s.mac.framePtr + 1#16)
      (hup : (byState cfg s.mac (macInput s o)).updateCrc = true)
      (hre : (byState cfg s.mac (macInput s o)).resetCrc = false) :
      Carrying (step cfg s o).mac
        (start ++ AxisGmiiRx.ethSfd :: q ++ [s.mac.sTdata]) (q ++ [s.mac.sTdata]) := by
    refine ⟨by simp, ?_, ?_⟩
    · rw [step_framePtr, hst, BitVec.toNat_add, hptr]
      simp
    · rw [step_crcState, hup, hre, hq, hcrc]
      simp [crcOf]
  cases hl : (macInput s o).sAxisTlast with
  | false =>
    have hst : (step cfg s o).mac.state = .payload := by
      simp [step_state, byState, h, AxisGmiiTx.payload, hv, hl]
    rw [hl] at hacc
    refine ⟨_, [], ?_, .take _ _ s.mac.sTdata _ ?_ hacc⟩
    · simp only [InFlight, hst]
      refine ⟨q ++ [s.mac.sTdata], hcarry ?_ ?_ ?_, trivial, ?_⟩
      · simp [byState, h, AxisGmiiTx.payload, hv, hl]
      · simp [byState, h, AxisGmiiTx.payload, hv, hl]
      · simp [byState, h, AxisGmiiTx.payload, hv, hl, defaults]
      · simp [step_sTdata, byState, h, AxisGmiiTx.payload, hv, hl]
    · simp [step_symbol, byState, h, AxisGmiiTx.payload, hv, hl, data, defaults]
  | true =>
    have hu : (macInput s o).sAxisTuser = false := by
      have hol : o.tlast = true := by simpa [macInput, Source.input, hin] using hl
      simpa [macInput, Source.input] using hou hol
    have hst : (step cfg s o).mac.state = .last := by
      simp [step_state, byState, h, AxisGmiiTx.payload, hv, hl, hu]
    rw [hl] at hacc
    refine ⟨_, [], ?_, .close _ _ s.mac.sTdata _ ?_ hacc⟩
    · simp only [InFlight, hst]
      refine ⟨q ++ [s.mac.sTdata], hcarry ?_ ?_ ?_, ?_, trivial⟩
      · simp [byState, h, AxisGmiiTx.payload, hv, hl, hu]
      · simp [byState, h, AxisGmiiTx.payload, hv, hl, hu]
      · simp [byState, h, AxisGmiiTx.payload, hv, hl, hu, defaults]
      · simp [step_sTdata, byState, h, AxisGmiiTx.payload, hv, hl, hu]
    · simp [step_symbol, byState, h, AxisGmiiTx.payload, hv, hl, hu, data, defaults]

theorem last_moves (h : s.mac.state = .last) (hs : Synced s)
    (hcrc : cfg.crcNext = EthCrc.crcNext) {f : Flight} (hf : InFlight cfg s.mac f) :
    Moves cfg s o f := by
  simp only [Synced, h] at hs
  simp only [InFlight, h] at hf
  obtain ⟨part, sent, rest⟩ := f
  obtain ⟨q, ⟨rfl, hptr, hq⟩, rfl, rfl⟩ := hf
  have hacc := acceptedByte_unready (o := o) hs.1
  have hsym : symbol (step cfg s o).mac = data s.mac.sTdata := by
    cases hp : cfg.enablePadding && isShort cfg s.mac <;>
      simp [step_symbol, byState, h, AxisGmiiTx.last, hp, data, defaults]
  have hnext : (step cfg s o).mac.crcState = crcOf 0xFFFFFFFF#32 (q ++ [s.mac.sTdata]) := by
    cases hp : cfg.enablePadding && isShort cfg s.mac <;>
      simp [step_crcState, byState, h, AxisGmiiTx.last, hp, defaults, hq, hcrc, crcOf]
  refine ⟨_, [], ?_, .put _ s.mac.sTdata hsym hacc⟩
  cases hp : cfg.enablePadding && isShort cfg s.mac with
  | true =>
    obtain ⟨hpad, hshort⟩ := Bool.and_eq_true_iff.mp hp
    have hlt := isShort_iff.mp hshort
    have hmax := cfg.le_max
    have hst : (step cfg s o).mac.state = .pad := by
      simp [step_state, byState, h, AxisGmiiTx.last, hp]
    have hptr' : (step cfg s o).mac.framePtr.toNat = s.mac.framePtr.toNat + 1 := by
      simp [step_framePtr, byState, h, AxisGmiiTx.last, hp]
      omega
    simp only [InFlight, hst, hptr']
    refine ⟨q ++ [s.mac.sTdata], 0, rfl, trivial, ?_, hpad, ?_, ?_, ?_, ?_⟩
    · simp [step_sTdata, byState, h, AxisGmiiTx.last, hp]
    · simp
    · simp [hptr]
    · omega
    · simpa using hnext
  | false =>
    have hst : (step cfg s o).mac.state = .fcs := by
      simp [step_state, byState, h, AxisGmiiTx.last, hp]
    have hptr' : (step cfg s o).mac.framePtr = 0#16 := by
      simp [step_framePtr, byState, h, AxisGmiiTx.last, hp]
    have hpadded : padded cfg (q ++ [s.mac.sTdata]) = q ++ [s.mac.sTdata] := by
      have hzero : padding cfg (q ++ [s.mac.sTdata]).length = 0 := by
        cases hpad : cfg.enablePadding with
        | false => simp [padding, hpad]
        | true =>
          have hshort : ¬ isShort cfg s.mac = true := by simpa [hpad] using hp
          rw [isShort_iff, hptr] at hshort
          simp [padding, hpad]
          omega
      rw [padded, hzero, List.replicate_zero, List.append_nil]
    simp only [InFlight, hst, hptr']
    refine ⟨q ++ [s.mac.sTdata], rfl, trivial, by simp, ?_, ?_⟩
    · rw [hpadded, hnext]
    · simp [hpadded]

theorem pad_moves (h : s.mac.state = .pad) (hs : Synced s)
    (hcrc : cfg.crcNext = EthCrc.crcNext) {f : Flight} (hf : InFlight cfg s.mac f) :
    Moves cfg s o f := by
  simp only [Synced, h] at hs
  simp only [InFlight, h] at hf
  obtain ⟨part, sent, rest⟩ := f
  obtain ⟨bs, j, rfl, rfl, hdata, hpad, rfl, hptr, hlt, hq⟩ := hf
  have hacc := acceptedByte_unready (o := o) hs.1
  have hsym : symbol (step cfg s o).mac = data 0#8 := by
    cases hp : isShort cfg s.mac <;>
      simp [step_symbol, byState, h, AxisGmiiTx.pad, hp, data, defaults]
  have hnext : (step cfg s o).mac.crcState =
      crcOf 0xFFFFFFFF#32 (bs ++ List.replicate (j + 1) 0#8) := by
    cases hp : isShort cfg s.mac <;>
      simp [step_crcState, byState, h, AxisGmiiTx.pad, hp, defaults, hq, hcrc, crcOf, hdata,
        List.replicate_succ']
  have hpart : start ++ AxisGmiiRx.ethSfd :: (bs ++ List.replicate j 0#8) ++ [0#8] =
      start ++ AxisGmiiRx.ethSfd :: (bs ++ List.replicate (j + 1) 0#8) := by
    simp [List.replicate_succ']
  refine ⟨_, [], ?_, .put _ 0#8 hsym hacc⟩
  cases hp : isShort cfg s.mac with
  | true =>
    have hshort := isShort_iff.mp hp
    have hmax := cfg.le_max
    have hst : (step cfg s o).mac.state = .pad := by
      simp [step_state, byState, h, AxisGmiiTx.pad, hp]
    have hptr' : (step cfg s o).mac.framePtr.toNat = s.mac.framePtr.toNat + 1 := by
      simp [step_framePtr, byState, h, AxisGmiiTx.pad, hp]
      omega
    simp only [InFlight, hst, hptr']
    refine ⟨bs, j + 1, rfl, trivial, ?_, hpad, hpart, by omega, by omega, hnext⟩
    simp [step_sTdata, byState, h, AxisGmiiTx.pad, hp]
  | false =>
    have hshort : ¬ isShort cfg s.mac = true := by simp [hp]
    rw [isShort_iff] at hshort
    have hst : (step cfg s o).mac.state = .fcs := by
      simp [step_state, byState, h, AxisGmiiTx.pad, hp]
    have hptr' : (step cfg s o).mac.framePtr = 0#16 := by
      simp [step_framePtr, byState, h, AxisGmiiTx.pad, hp]
    -- the zero of this clock is the last one
    have hpadded : padded cfg bs = bs ++ List.replicate (j + 1) 0#8 := by
      have hj : padding cfg bs.length = j + 1 := by
        simp only [padding, hpad, if_true]
        omega
      rw [padded, hj]
    simp only [InFlight, hst, hptr']
    refine ⟨bs, rfl, trivial, by simp, ?_, ?_⟩
    · rw [hpadded, hnext]
    · rw [hpart, hpadded]
      simp

theorem fcs_moves (h : s.mac.state = .fcs) (hs : Synced s) {f : Flight}
    (hf : InFlight cfg s.mac f) : Moves cfg s o f := by
  simp only [Synced, h] at hs
  simp only [InFlight, h] at hf
  obtain ⟨part, sent, rest⟩ := f
  obtain ⟨bs, rfl, rfl, hle, hq, rfl⟩ := hf
  have hacc := acceptedByte_unready (o := o) hs.1
  have hsym : symbol (step cfg s o).mac = data (fcsByte s.mac) := by
    by_cases hp : s.mac.framePtr < 3#16 <;>
      simp [step_symbol, byState, h, AxisGmiiTx.fcs, hp, data, defaults]
  have hcrc : (step cfg s o).mac.crcState = s.mac.crcState := by
    by_cases hp : s.mac.framePtr < 3#16 <;>
      simp [step_crcState, byState, h, AxisGmiiTx.fcs, hp, defaults]
  have htake : (fcsOf (padded cfg bs)).take s.mac.framePtr.toNat ++ [fcsByte s.mac] =
      (fcsOf (padded cfg bs)).take (s.mac.framePtr.toNat + 1) := by
    have hcases : s.mac.framePtr = 0#16 ∨ s.mac.framePtr = 1#16 ∨ s.mac.framePtr = 2#16 ∨
        s.mac.framePtr = 3#16 := by
      have hnat : s.mac.framePtr.toNat = 0 ∨ s.mac.framePtr.toNat = 1 ∨
          s.mac.framePtr.toNat = 2 ∨ s.mac.framePtr.toNat = 3 := by omega
      rcases hnat with h0 | h0 | h0 | h0
      · exact .inl (BitVec.eq_of_toNat_eq h0)
      · exact .inr (.inl (BitVec.eq_of_toNat_eq h0))
      · exact .inr (.inr (.inl (BitVec.eq_of_toNat_eq h0)))
      · exact .inr (.inr (.inr (BitVec.eq_of_toNat_eq h0)))
    rcases hcases with h0 | h0 | h0 | h0 <;> simp [h0, fcsByte, fcsOf, fcsBytes, hq]
  have hpart : start ++ AxisGmiiRx.ethSfd ::
        (padded cfg bs ++ (fcsOf (padded cfg bs)).take s.mac.framePtr.toNat) ++ [fcsByte s.mac] =
      start ++ AxisGmiiRx.ethSfd ::
        (padded cfg bs ++ (fcsOf (padded cfg bs)).take (s.mac.framePtr.toNat + 1)) := by
    rw [← htake]
    simp
  refine ⟨_, [], ?_, .put _ (fcsByte s.mac) hsym hacc⟩
  by_cases hp : s.mac.framePtr < 3#16
  · have hlt : s.mac.framePtr.toNat < 3 := hp
    have hst : (step cfg s o).mac.state = .fcs := by
      simp [step_state, byState, h, AxisGmiiTx.fcs, hp]
    have hptr' : (step cfg s o).mac.framePtr.toNat = s.mac.framePtr.toNat + 1 := by
      simp [step_framePtr, byState, h, AxisGmiiTx.fcs, hp]
      omega
    simp only [InFlight, hst, hptr', hcrc]
    exact ⟨bs, rfl, trivial, by omega, hq, hpart⟩
  · have hge : ¬ s.mac.framePtr.toNat < 3 := hp
    have hst : (step cfg s o).mac.state = .ifg := by
      simp [step_state, byState, h, AxisGmiiTx.fcs, hp]
    have hptr' : (step cfg s o).mac.framePtr = 0#16 := by
      simp [step_framePtr, byState, h, AxisGmiiTx.fcs, hp]
    have hall : (fcsOf (padded cfg bs)).take (s.mac.framePtr.toNat + 1) =
        fcsOf (padded cfg bs) := by
      apply List.take_of_length_le
      simp [fcsOf, fcsBytes]
      omega
    rw [hall] at hpart
    simp only [InFlight, hst]
    exact .inl ⟨hptr', bs, by rw [hpart]⟩

theorem ifg_moves (h : s.mac.state = .ifg) (hs : Synced s) {f : Flight}
    (hf : InFlight cfg s.mac f) : Moves cfg s o f := by
  simp only [Synced, h] at hs
  simp only [InFlight, h] at hf
  have hacc := acceptedByte_unready (o := o) hs.1
  have hsym : symbol (step cfg s o).mac = gapSymbol := by
    cases hp : inGap cfg s.mac <;>
      simp [step_symbol, byState, h, AxisGmiiTx.ifg, hp, gapSymbol, defaults]
  have hnext : InFlight cfg (step cfg s o).mac noFlight := by
    cases hp : inGap cfg s.mac with
    | true =>
      have hlt := inGap_iff.mp hp
      have hmax := cfg.ifgDelay.isLt
      have hst : (step cfg s o).mac.state = .ifg := by
        simp [step_state, byState, h, AxisGmiiTx.ifg, hp]
      simp only [InFlight, hst]
      refine .inr ⟨?_, trivial⟩
      simp [step_framePtr, byState, h, AxisGmiiTx.ifg, hp]
      omega
    | false =>
      have hst : (step cfg s o).mac.state = .idle := by
        simp [step_state, byState, h, AxisGmiiTx.ifg, hp]
      simp [InFlight, hst]
  rcases hf with ⟨_, bs, rfl⟩ | ⟨_, rfl⟩
  · exact ⟨noFlight, [some bs], hnext, .finish bs hsym hacc⟩
  · exact ⟨noFlight, [none], hnext, .gap hsym hacc⟩

theorem inFlight_moves (hcrc : cfg.crcNext = EthCrc.crcNext) (hs : Synced s) (hK : Clean s o)
    {f : Flight} (hf : InFlight cfg s.mac f) : Moves cfg s o f := by
  cases h : s.mac.state with
  | idle => exact idle_moves h hs hf
  | preamble => exact preamble_moves h hs hf
  | payload => exact payload_moves h hs hK hcrc hf
  | last => exact last_moves h hs hcrc hf
  | pad => exact pad_moves h hs hcrc hf
  | fcs => exact fcs_moves h hs hf
  | ifg => exact ifg_moves h hs hf
  | waitEnd => simp [InFlight, h] at hf

end Step

/-! ## Runs of the transmitter -/

/-- The symbols on the wire are whole frames and gaps, then the frame in progress. -/
def Sent (cfg : Config) (s : State) (ws : List AxisGmiiRx.Stage) (p : Packets (BitVec 8 × Bool)) :
    Prop :=
  ∃ (fs : List (Option (List (BitVec 8)))) (f : Flight),
    ws = (fs.map (item cfg)).flatMap Item.symbols ++ f.part.map data ∧
    InFlight cfg s.mac f ∧ frames p = fs.filterMap id ++ f.sent.toList ∧
    p.rest.map Prod.fst = f.rest

theorem Move.sent {cfg : Config} {x : AxisGmiiRx.Stage} {acc : List (BitVec 8 × Bool)}
    {f f' : Flight} {done : List (Option (List (BitVec 8)))} (hm : Move cfg x acc f f' done)
    {fs : List (Option (List (BitVec 8)))} {p : Packets (BitVec 8 × Bool)}
    (hp : frames p = fs.filterMap id ++ f.sent.toList) (hr : p.rest.map Prod.fst = f.rest) :
    (fs.map (item cfg)).flatMap Item.symbols ++ f.part.map data ++ [x] =
        ((fs ++ done).map (item cfg)).flatMap Item.symbols ++ f'.part.map data ∧
      frames (acc.foldl (Packets.push fun b => b.2) p) =
        (fs ++ done).filterMap id ++ f'.sent.toList ∧
      (acc.foldl (Packets.push fun b => b.2) p).rest.map Prod.fst = f'.rest := by
  cases hm with
  | gap hx ha =>
    subst hx ha
    refine ⟨?_, ?_, hr⟩
    · simp [noFlight, item, Item.symbols]
    · simpa [noFlight, List.filterMap_append] using hp
  | put f b hx ha =>
    subst hx ha
    exact ⟨by simp, by simpa using hp, hr⟩
  | take part rest b c hx ha =>
    subst hx ha
    refine ⟨by simp, by simpa [Packets.push, frames] using hp, ?_⟩
    simpa [Packets.push] using hr
  | close part rest b c hx ha =>
    subst hx ha
    refine ⟨by simp, ?_, by simp [Packets.push]⟩
    simp only [frames, Option.toList_none, List.append_nil] at hp
    simp [Packets.push, frames, hp, hr]
  | finish bs hx ha =>
    subst hx ha
    refine ⟨?_, ?_, hr⟩
    · simp [noFlight, item, Item.symbols, GmiiFrames.symbols]
    · simpa [noFlight, List.filterMap_append] using hp

section Run
variable {cfg : Config}

theorem accepted_snoc (s : State) (os : List Offer) (o : Offer) : accepted cfg s (os ++ [o]) =
    (acceptedByte (run (step cfg) s os) o).foldl (Packets.push fun b => b.2)
      (accepted cfg s os) := by
  simp [accepted, emits_snoc, Packets.cut, List.foldl_append]

theorem sent_run (hcrc : cfg.crcNext = EthCrc.crcNext) (r : Reg) (i : AxisGmiiTx.Input)
    {os : List Offer} (hK : Always (step cfg) Clean (reset cfg r i) os) :
    Sent cfg (run (step cfg) (reset cfg r i) os) (wire cfg (reset cfg r i) os)
      (accepted cfg (reset cfg r i) os) := by
  induction os using List.reverseRecOn with
  | nil => exact ⟨[], noFlight, rfl, rfl, rfl, rfl⟩
  | append_singleton os o ih =>
    obtain ⟨hos, ho⟩ := (always_snoc _ _ _).mp hK
    obtain ⟨fs, f, hws, hf, hp, hr⟩ := ih hos
    have hs : Synced (run (step cfg) (reset cfg r i) os) := synced_run (synced_reset cfg r i) os
    obtain ⟨f', done, hf', hm⟩ := inFlight_moves hcrc hs ho hf
    obtain ⟨hws', hp', hr'⟩ := hm.sent hp hr
    refine ⟨fs ++ done, f', ?_, ?_, ?_, ?_⟩
    · rw [wire, emits_snoc, ← wire, hws]
      exact hws'
    · rw [run_snoc]
      exact hf'
    · rw [accepted_snoc]
      exact hp'
    · rw [accepted_snoc]
      exact hr'

/-- The frame that stands for `bs` on the wire, as the receiver passes it on. -/
def delivered (cfg : Config) (bs : List (BitVec 8)) : List Beat := beats false (padded cfg bs)

theorem item_wellFormed (cfg : Config) {x : Option (List (BitVec 8))} (h : ∀ bs ∈ x, bs ≠ []) :
    (item cfg x).WellFormed := by
  cases x with
  | none => rfl
  | some bs =>
    refine ⟨by decide, ?_, by simp [fcsOf, fcsBytes], rfl⟩
    have hne := h bs rfl
    simp [padded, hne]

theorem foldl_push_items (cfg : Config) {fs : List (Option (List (BitVec 8)))}
    (h : ∀ x ∈ fs, ∀ bs ∈ x, bs ≠ []) (p : Packets Beat) (hp : p.rest = []) :
    ((fs.map (item cfg)).flatMap Item.beats).foldl (Packets.push Beat.tlast) p =
      ⟨p.closed ++ (fs.filterMap id).map (delivered cfg), []⟩ := by
  induction fs generalizing p with
  | nil =>
    obtain ⟨closed, rest⟩ := p
    simp at hp
    simp [hp]
  | cons x fs ih =>
    have hfs : ∀ y ∈ fs, ∀ bs ∈ y, bs ≠ [] := fun y hy => h y (List.mem_cons_of_mem x hy)
    rw [List.map_cons, List.flatMap_cons, List.foldl_append]
    cases x with
    | none => exact ih hfs p hp
    | some bs =>
      have hne : padded cfg bs ≠ [] := by
        have hbs := h (some bs) List.mem_cons_self bs rfl
        simp [padded, hbs]
      have hgood : (item cfg (some bs)).beats = delivered cfg bs := by
        simp [item, Item.beats, fcsOf, delivered]
      rw [hgood, delivered, GmiiFrames.foldl_push_beats false hne, hp, List.nil_append,
        ih hfs _ rfl]
      simp [delivered]

/-- What the receiver makes of the symbols that the transmitter has sent. -/
theorem received_sent {s : State} {ws : List AxisGmiiRx.Stage} {p : Packets (BitVec 8 × Bool)}
    (h : Sent cfg s ws p) (hne : ∀ bs ∈ frames p, bs ≠ []) {rx : AxisGmiiRx.Reg}
    (hquiet : Quiet rx) :
    let got := Packets.cut Beat.tlast (received rx ws)
    (∃ flying, (frames p).map (delivered cfg) = got.closed ++ flying ∧ flying.length ≤ 1) ∧
      (resting s → (frames p).map (delivered cfg) = got.closed ∧ got.rest = []) := by
  intro got
  obtain ⟨fs, f, hws, hf, hp, _⟩ := h
  have hfs : ∀ x ∈ fs, ∀ bs ∈ x, bs ≠ [] := by
    intro x hx bs hbs
    apply hne
    rw [hp, List.mem_append, List.mem_filterMap]
    exact .inl ⟨x, hx, hbs⟩
  have hwf : ∀ it ∈ fs.map (item cfg), it.WellFormed := by
    intro it hit
    obtain ⟨x, hx, rfl⟩ := List.mem_map.mp hit
    exact item_wellFormed cfg (hfs x hx)
  obtain ⟨hrec, hq⟩ := GmiiFrames.items_run hquiet hwf
  have hopen := GmiiFrames.received_open hq.sound f.part
  have hgot : got = ⟨(fs.filterMap id).map (delivered cfg), received (run GmiiFrames.step rx
      ((fs.map (item cfg)).flatMap Item.symbols)) (f.part.map data)⟩ := by
    simp only [got, hws, GmiiFrames.received_append, hrec, Packets.cut, List.foldl_append]
    rw [foldl_push_items cfg hfs _ rfl, Packets.foldl_push_open hopen]
    simp
  have hsent : (frames p).map (delivered cfg) =
      got.closed ++ f.sent.toList.map (delivered cfg) := by
    rw [hgot]
    simp [hp]
  constructor
  · refine ⟨_, hsent, ?_⟩
    cases f.sent <;> simp
  · intro hrest
    unfold resting at hrest
    simp only [InFlight, hrest] at hf
    subst hf
    refine ⟨by simpa [noFlight] using hsent, ?_⟩
    rw [hgot]
    rfl

theorem frames_ne_nil (bs : List (BitVec 8 × Bool)) :
    ∀ f ∈ frames (Packets.cut (fun b => b.2) bs), f ≠ [] := by
  intro f hf
  obtain ⟨q, hq, rfl⟩ := List.mem_map.mp hf
  have hne := Packets.closed_ne_nil _ q hq
  simpa using hne

/-- The receiver passes on every frame that was accepted, once and in order; at most the one that
was accepted last is still on its way, and none when the transmitter rests. -/
theorem link_delivers (hcrc : cfg.crcNext = EthCrc.crcNext) (r : Reg) (i : AxisGmiiTx.Input)
    (rx : AxisGmiiRx.Reg) (rxi : AxisGmiiRx.Input) {os : List Offer}
    (hK : Always (step cfg) Clean (reset cfg r i) os) :
    let got := Packets.cut Beat.tlast
      (received (AxisGmiiRx.posedge true rx rxi) (wire cfg (reset cfg r i) os))
    let sent := (frames (accepted cfg (reset cfg r i) os)).map (delivered cfg)
    (∃ flying, sent = got.closed ++ flying ∧ flying.length ≤ 1) ∧
      (resting (run (step cfg) (reset cfg r i) os) → sent = got.closed ∧ got.rest = []) :=
  received_sent (sent_run hcrc r i hK) (frames_ne_nil _) (GmiiFrames.quiet_reset rx rxi)

end Run

/-- The transmitter of `eth.sv`. -/
def ethConfig : Config where
  enablePadding := true
  minFrameLength := 8
  ifgDelay := 1#8
  crcNext := EthCrc.crcNext
  min_le := by decide
  le_max := by decide
  ifg_pos := by decide

def someReg : Reg :=
  ⟨.payload, 0#8, false, 0#4, 0#16, 0#8, false, false, false, false, false, 0#32⟩

def someRxReg : AxisGmiiRx.Reg :=
  ⟨.payload, false, false, ⟨data 1#8, data 2#8, data 3#8, data 4#8, data 5#8⟩, 0#8, false, false,
    false, false, false, false, 0#32⟩

/-- The shortest frame, two bytes and two of padding, in its seventeen clocks. -/
theorem link_delivers_shortest :
    let os := List.replicate 17 (⟨true, 1#8, true, false⟩ : Offer)
    let s := reset ethConfig someReg ⟨0#8, false, false, false, true, false⟩
    (Packets.cut Beat.tlast (received
      (AxisGmiiRx.posedge true someRxReg ⟨data 0#8, true, false⟩) (wire ethConfig s os))).closed =
      [delivered ethConfig [1#8, 1#8]] := by
  intro os s
  have hclean : Always (step ethConfig) Clean s os := by
    apply always_of_forall_mem
    intro o ho s _
    rw [List.eq_of_mem_replicate ho]
    exact ⟨rfl, fun _ => rfl⟩
  have hrest : resting (run (step ethConfig) s os) := by
    unfold resting
    decide +kernel
  obtain ⟨hgot, _⟩ := (link_delivers rfl someReg _ someRxReg ⟨data 0#8, true, false⟩ hclean).2 hrest
  rw [← hgot]
  decide +kernel

end AdcCapture.MacLink
