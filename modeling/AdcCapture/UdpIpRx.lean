import AdcCapture.FrameRx
import AdcCapture.UdpIpTx

/-!
# udp_ip_rx

The UDP header is taken off the payload. It is not checked.
-/

namespace AdcCapture.UdpIpRx

open UdpIpTx (UdpHdr EthIp)
set_option autoImplicit false

def format : FrameRx.Format UdpHdr Unit Empty 3 where
  lastPtr := 7#3
  store := UdpHdr.store
  sumInit := ()
  sumNext := fun _ _ _ => ()
  check := fun _ _ => none
  payloadCount := fun h => h.length - 8#16
  early := fun count => count != 1#16

abbrev Reg := FrameRx.Reg EthIp UdpHdr Unit Empty 3

abbrev Input := FrameRx.Input EthIp

def posedge (r : Reg) (i : Input) (rst : Bool) : Reg := FrameRx.posedge format r i rst

/-- The payload length, from the length field. -/
def count (bs : List (BitVec 8)) : BitVec 16 := (bs.getD 4 0#8 ++ bs.getD 5 0#8) - 8#16

theorem count_bytes (h : UdpHdr) : count h.bytes = h.length - 8#16 := by
  have hword : ByteFields.byte h.length 1 ++ ByteFields.byte h.length 0 = h.length :=
    @BitVec.extractLsb'_append_extractLsb' 8 8 h.length
  rw [← hword]
  rfl

def layout : FrameRx.Layout format where
  bytes := UdpHdr.bytes
  bytes_inj := fun _ _ => UdpHdr.bytes_inj
  length_bytes := UdpHdr.length_bytes
  lastPtr_pos := by decide
  bytes_store := fun h _ b hk => h.bytes_store (Nat.lt_succ_of_le hk) b
  sum := fun _ => ()
  sum_nil := rfl
  sum_snoc := fun _ _ => rfl
  valid := fun _ => true
  check_iff := fun _ _ => by simp [format]
  count := count
  payloadCount := fun h b => (count_bytes (h.store 7 b)).symm

end AdcCapture.UdpIpRx
