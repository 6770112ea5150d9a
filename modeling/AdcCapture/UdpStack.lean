import AdcCapture.EthLink
import AdcCapture.FrameRxRuns
import AdcCapture.FrameTxRuns
import AdcCapture.IpEthRx
import AdcCapture.IpEthTx
import AdcCapture.UdpIpRx

/-!
# From udp_tx to udp_rx

`udp_tx` is three transmitters in a row, `udp_rx` three receivers. Datagrams that
go into the one come out of the other.
-/

namespace AdcCapture.UdpStack

open Clocked
open AxisOutput (Word)
open EthAxisTx (EthHdr)
open IpHeader (IpFields sent)
open UdpIpTx (EthIp UdpHdr)
set_option autoImplicit false

/-! ## udp_tx -/

structure UdpTx where
  udpIpTx : UdpIpTx.Reg
  ipEthTx : IpEthTx.Reg
  ethAxisTx : EthAxisTx.Reg

/-- Version, header length and checksum of the first module are not connected. -/
def ipHdr (m : EthIp) : IpEthTx.Hdr := ⟨m.eth, m.ip.toIpHdr⟩

structure UdpTxInput where
  sUdpHdrValid : Bool
  sHdr : UdpIpTx.Hdr
  payload : Word
  payloadTvalid : Bool

namespace UdpTx

def udpInput (s : UdpTx) (i : UdpTxInput) : UdpIpTx.Input :=
  ⟨i.sUdpHdrValid, i.sHdr, i.payload, i.payloadTvalid, s.ipEthTx.sHdrReady,
    s.ipEthTx.sPayloadTready⟩

def ipInput (s : UdpTx) : IpEthTx.Input :=
  ⟨s.udpIpTx.mHdrValid, ipHdr s.udpIpTx.m, s.udpIpTx.output.out, s.udpIpTx.output.tvalid,
    s.ethAxisTx.sEthHdrReady, s.ethAxisTx.sEthPayloadAxisTready⟩

def ethInput (s : UdpTx) (mAxisTready : Bool) : EthAxisTx.Input :=
  ⟨s.ipEthTx.mHdrValid, s.ipEthTx.m, s.ipEthTx.output.out, s.ipEthTx.output.tvalid, mAxisTready⟩

def posedge (s : UdpTx) (i : UdpTxInput) (mAxisTready rst : Bool) : UdpTx where
  udpIpTx := UdpIpTx.posedge s.udpIpTx (s.udpInput i) rst
  ipEthTx := IpEthTx.posedge s.ipEthTx s.ipInput rst
  ethAxisTx := EthAxisTx.posedge s.ethAxisTx (s.ethInput mAxisTready) rst

end UdpTx

/-! ## udp_rx -/

structure UdpRx where
  ethAxisRx : EthAxisRx.Reg
  ipEthRx : IpEthRx.Reg
  udpIpRx : UdpIpRx.Reg

structure Axis where
  tdata : Word
  tvalid : Bool

namespace UdpRx

def ethInput (s : UdpRx) (axis : Axis) : EthAxisRx.Input :=
  ⟨axis.tdata, axis.tvalid, s.ipEthRx.sHdrReady, s.ipEthRx.sPayloadTready⟩

def ipInput (s : UdpRx) : IpEthRx.Input :=
  ⟨s.ethAxisRx.mEthHdrValid, s.ethAxisRx.hdr, s.ethAxisRx.output.out, s.ethAxisRx.output.tvalid,
    s.udpIpRx.sHdrReady, s.udpIpRx.sPayloadTready⟩

/-- `udp_rx_ready` is the `ready` of header and payload. -/
def udpInput (s : UdpRx) (udpRxReady : Bool) : UdpIpRx.Input :=
  ⟨s.ipEthRx.mHdrValid, ⟨s.ipEthRx.m, s.ipEthRx.fields⟩, s.ipEthRx.output.out,
    s.ipEthRx.output.tvalid, udpRxReady, udpRxReady⟩

def posedge (s : UdpRx) (axis : Axis) (udpRxReady rst : Bool) : UdpRx where
  ethAxisRx := EthAxisRx.posedge s.ethAxisRx (s.ethInput axis) rst
  ipEthRx := IpEthRx.posedge s.ipEthRx s.ipInput rst
  udpIpRx := UdpIpRx.posedge s.udpIpRx (s.udpInput udpRxReady) rst

end UdpRx

/-! ## The two connected -/

structure State where
  tx : UdpTx
  rx : UdpRx

structure Input where
  tx : UdpTxInput
  udpRxReady : Bool

section Step
variable (s : State) (i : Input)

def axis : Axis := ⟨s.tx.ethAxisTx.output.out, s.tx.ethAxisTx.output.tvalid⟩

def posedge (rst : Bool) : State where
  tx := s.tx.posedge i.tx s.rx.ethAxisRx.sAxisTready rst
  rx := s.rx.posedge (axis s) i.udpRxReady rst

def step : State := posedge s i false

def hdrIn : List UdpIpTx.Hdr := FrameTx.hdrAccepted s.tx.udpIpTx (s.tx.udpInput i.tx)

def payloadIn : List Word := FrameTx.payloadAccepted s.tx.udpIpTx (s.tx.udpInput i.tx)

def hdrOut : List (EthIp × UdpHdr) :=
  FrameRx.hdrSent s.rx.udpIpRx (s.rx.udpInput i.udpRxReady)

def payloadOut : List Word := FrameRx.payloadSent s.rx.udpIpRx (s.rx.udpInput i.udpRxReady)

/-- The Ethernet modules in the middle. -/
def ethLink : EthLink.State := ⟨s.tx.ethAxisTx, s.rx.ethAxisRx⟩

def ethLinkInput : EthLink.Input :=
  ⟨s.tx.ipEthTx.mHdrValid, s.tx.ipEthTx.m, s.tx.ipEthTx.output.out, s.tx.ipEthTx.output.tvalid,
    s.rx.ipEthRx.sHdrReady, s.rx.ipEthRx.sPayloadTready⟩

theorem ethLink_step : ethLink (step s i) = EthLink.step (ethLink s) (ethLinkInput s) := rfl

theorem ethLink_reset : ethLink (posedge s i true) =
    EthLink.reset (ethLink s) (ethLinkInput s) := rfl

end Step

/--
What stands between the modules: `gu`, `wu` after `udp_ip_tx`, `gi`, `wi` after `ip_eth_tx`,
`w` on the wire, `ge`, `we` after `eth_axis_rx`, `gr`, `wr` after `ip_eth_rx`.
-/
structure Stacked (s : State) (hs : List UdpIpTx.Hdr) (ps : List Word) (gu : List EthIp)
    (wu : List Word) (gi : List EthHdr) (wi w : List Word) (ge : List EthHdr) (we : List Word)
    (gr : List (EthHdr × IpFields)) (wr : List Word) (ho : List (EthIp × UdpHdr))
    (po : List Word) : Prop where
  udpTx : FrameTx.Sending UdpIpTx.layout s.tx.udpIpTx hs ps gu wu
  ipTx : FrameTx.Sending IpEthTx.layout s.tx.ipEthTx (gu.map ipHdr) wu gi wi
  eth : EthLink.Linked (ethLink s) gi wi w ge we
  ipRx : FrameRx.Receiving IpEthRx.layout s.rx.ipEthRx ge we gr wr
  udpRx : FrameRx.Receiving UdpIpRx.layout s.rx.udpIpRx (gr.map fun h => ⟨h.1, h.2⟩) wr ho po

theorem stacked_reset (s : State) (i : Input) :
    Stacked (posedge s i true) [] [] [] [] [] [] [] [] [] [] [] [] [] where
  udpTx := FrameTx.sending_reset _ _ _
  ipTx := FrameTx.sending_reset _ _ _
  eth := EthLink.linked_reset (ethLink s) (ethLinkInput s)
  ipRx := FrameRx.receiving_reset _ _ _
  udpRx := FrameRx.receiving_reset _ _ _

/-! ## What one module hands over the next one takes -/

section Handshake
variable (s : State) (i : Input)

theorem ipTx_hdrs : FrameTx.hdrAccepted s.tx.ipEthTx s.tx.ipInput =
    (FrameTx.hdrSent s.tx.udpIpTx (s.tx.udpInput i.tx)).map ipHdr := by
  have hcomm : FrameTx.hdrTransfer s.tx.ipEthTx s.tx.ipInput =
      (s.tx.udpIpTx.mHdrValid && s.tx.ipEthTx.sHdrReady) := Bool.and_comm _ _
  rw [FrameTx.hdrAccepted, hcomm, FrameTx.hdrSent, apply_ite (List.map ipHdr)]
  rfl

theorem ipTx_words : FrameTx.payloadAccepted s.tx.ipEthTx s.tx.ipInput =
    FrameTx.payloadSent s.tx.udpIpTx (s.tx.udpInput i.tx) := by
  have hcomm : FrameTx.payloadTransfer s.tx.ipEthTx s.tx.ipInput =
      (s.tx.udpIpTx.output.tvalid && s.tx.ipEthTx.sPayloadTready) := Bool.and_comm _ _
  rw [FrameTx.payloadAccepted, hcomm]
  rfl

theorem eth_hdrs : EthLink.hdrIn (ethLink s) (ethLinkInput s) =
    FrameTx.hdrSent s.tx.ipEthTx s.tx.ipInput := by
  have hcomm : EthAxisTx.hdrTransfer (ethLink s).tx (EthLink.txInput (ethLink s) (ethLinkInput s)) =
      (s.tx.ipEthTx.mHdrValid && s.tx.ethAxisTx.sEthHdrReady) := Bool.and_comm _ _
  rw [EthLink.hdrIn, EthAxisTx.hdrAccepted, hcomm]
  rfl

theorem eth_words : EthLink.payloadIn (ethLink s) (ethLinkInput s) =
    FrameTx.payloadSent s.tx.ipEthTx s.tx.ipInput := by
  have hcomm : EthAxisTx.payloadTransfer (ethLink s).tx
      (EthLink.txInput (ethLink s) (ethLinkInput s)) =
      (s.tx.ipEthTx.output.tvalid && s.tx.ethAxisTx.sEthPayloadAxisTready) := Bool.and_comm _ _
  rw [EthLink.payloadIn, EthAxisTx.payloadAccepted, hcomm]
  rfl

theorem ipRx_hdrs : FrameRx.hdrAccepted s.rx.ipEthRx s.rx.ipInput =
    EthLink.hdrOut (ethLink s) (ethLinkInput s) := by
  have hcomm : FrameRx.hdrTransfer s.rx.ipEthRx s.rx.ipInput =
      (s.rx.ethAxisRx.mEthHdrValid && s.rx.ipEthRx.sHdrReady) := Bool.and_comm _ _
  rw [FrameRx.hdrAccepted, hcomm]
  rfl

theorem ipRx_words : FrameRx.accepted s.rx.ipEthRx s.rx.ipInput =
    EthLink.payloadOut (ethLink s) (ethLinkInput s) := by
  have hcomm : FrameRx.transfer s.rx.ipEthRx s.rx.ipInput =
      (s.rx.ethAxisRx.output.tvalid && s.rx.ipEthRx.sPayloadTready) := Bool.and_comm _ _
  rw [FrameRx.accepted, hcomm]
  rfl

theorem udpRx_hdrs : FrameRx.hdrAccepted s.rx.udpIpRx (s.rx.udpInput i.udpRxReady) =
    (FrameRx.hdrSent s.rx.ipEthRx s.rx.ipInput).map fun h => ⟨h.1, h.2⟩ := by
  have hcomm : FrameRx.hdrTransfer s.rx.udpIpRx (s.rx.udpInput i.udpRxReady) =
      (s.rx.ipEthRx.mHdrValid && s.rx.udpIpRx.sHdrReady) := Bool.and_comm _ _
  rw [FrameRx.hdrAccepted, hcomm, FrameRx.hdrSent, apply_ite (List.map _)]
  rfl

theorem udpRx_words : FrameRx.accepted s.rx.udpIpRx (s.rx.udpInput i.udpRxReady) =
    FrameRx.payloadSent s.rx.ipEthRx s.rx.ipInput := by
  have hcomm : FrameRx.transfer s.rx.udpIpRx (s.rx.udpInput i.udpRxReady) =
      (s.rx.ipEthRx.output.tvalid && s.rx.udpIpRx.sPayloadTready) := Bool.and_comm _ _
  rw [FrameRx.accepted, hcomm]
  rfl

end Handshake

/-- The words that have passed between the modules. -/
def Between (s : State) (hs : List UdpIpTx.Hdr) (ps : List Word) (ho : List (EthIp × UdpHdr))
    (po : List Word) : Prop :=
  ∃ gu wu gi wi w ge we gr wr, Stacked s hs ps gu wu gi wi w ge we gr wr ho po

theorem between_step {s : State} {hs : List UdpIpTx.Hdr} {ps : List Word}
    {ho : List (EthIp × UdpHdr)} {po : List Word} (h : Between s hs ps ho po) (i : Input) :
    Between (step s i) (hs ++ hdrIn s i) (ps ++ payloadIn s i) (ho ++ hdrOut s i)
      (po ++ payloadOut s i) := by
  obtain ⟨gu, wu, gi, wi, w, ge, we, gr, wr, hudp, hip, heth, hipRx, hudpRx⟩ := h
  have hudp' := FrameTx.sending_step hudp (s.tx.udpInput i.tx)
  have hip' := FrameTx.sending_step hip s.tx.ipInput
  have heth' := EthLink.linked_step heth (ethLinkInput s)
  have hipRx' := FrameRx.receiving_step hipRx s.rx.ipInput
  have hudpRx' := FrameRx.receiving_step hudpRx (s.rx.udpInput i.udpRxReady)
  rw [ipTx_hdrs s i, ipTx_words s i, ← List.map_append] at hip'
  rw [eth_hdrs, eth_words] at heth'
  rw [ipRx_hdrs, ipRx_words] at hipRx'
  rw [udpRx_hdrs s i, udpRx_words s i, ← List.map_append] at hudpRx'
  exact ⟨_, _, _, _, _, _, _, _, _, hudp', hip', heth', hipRx', hudpRx'⟩

theorem between_run (s : State) (i : Input) (is : List Input) :
    Between (run step (posedge s i true) is) (emits step hdrIn (posedge s i true) is)
      (emits step payloadIn (posedge s i true) is) (emits step hdrOut (posedge s i true) is)
      (emits step payloadOut (posedge s i true) is) := by
  induction is using List.reverseRecOn with
  | nil => exact ⟨_, _, _, _, _, _, _, _, _, stacked_reset s i⟩
  | append_singleton is j ih =>
    simp only [run_snoc, emits_snoc]
    exact between_step ih j

end AdcCapture.UdpStack
