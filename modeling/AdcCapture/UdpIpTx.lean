import AdcCapture.EthAxisTx
import AdcCapture.FrameTx
import AdcCapture.IpHeader

/-!
# udp_ip_tx

The UDP header is put in front of the payload; the IP length is computed from the
UDP length.
-/

namespace AdcCapture.UdpIpTx

open EthAxisTx (EthHdr)
open IpHeader (IpBase IpFields)
open ByteFields (byte setByte bigEndian)
set_option autoImplicit false

structure UdpHdr where
  sourcePort : BitVec 16
  destPort : BitVec 16
  length : BitVec 16
  checksum : BitVec 16
  deriving DecidableEq, Repr

namespace UdpHdr

/-- The `case` over `hdr_ptr_reg`. -/
def byteAt (h : UdpHdr) (ptr : Nat) : BitVec 8 :=
  match ptr with
  | 0 => byte h.sourcePort 1
  | 1 => byte h.sourcePort 0
  | 2 => byte h.destPort 1
  | 3 => byte h.destPort 0
  | 4 => byte h.length 1
  | 5 => byte h.length 0
  | 6 => byte h.checksum 1
  | 7 => byte h.checksum 0
  | _ => 0#8

/-- Where a byte that comes in goes. -/
def store (h : UdpHdr) (ptr : Nat) (b : BitVec 8) : UdpHdr :=
  match ptr with
  | 0 => { h with sourcePort := setByte h.sourcePort 1 b }
  | 1 => { h with sourcePort := setByte h.sourcePort 0 b }
  | 2 => { h with destPort := setByte h.destPort 1 b }
  | 3 => { h with destPort := setByte h.destPort 0 b }
  | 4 => { h with length := setByte h.length 1 b }
  | 5 => { h with length := setByte h.length 0 b }
  | 6 => { h with checksum := setByte h.checksum 1 b }
  | 7 => { h with checksum := setByte h.checksum 0 b }
  | _ => h

def bytes (h : UdpHdr) : List (BitVec 8) :=
  bigEndian h.sourcePort 2 ++ bigEndian h.destPort 2 ++ bigEndian h.length 2 ++
    bigEndian h.checksum 2

theorem length_bytes (h : UdpHdr) : h.bytes.length = 8 := rfl

theorem getElem?_bytes (h : UdpHdr) {k : Nat} (hk : k < 8) : h.bytes[k]? = some (h.byteAt k) := by
  interval_cases k <;> rfl

theorem bytes_store (h : UdpHdr) {k : Nat} (hk : k < 8) (b : BitVec 8) :
    (store h k b).bytes = h.bytes.set k b := by
  interval_cases k <;>
    simp [store, bytes, bigEndian, ByteFields.byte_setByte_self, ByteFields.byte_setByte_of_ne]

theorem bytes_inj {g h : UdpHdr} (heq : g.bytes = h.bytes) : g = h := by
  obtain ⟨hfirst, hsum⟩ := List.append_inj' heq rfl
  obtain ⟨hports, hlen⟩ := List.append_inj' hfirst rfl
  obtain ⟨hsource, hdest⟩ := List.append_inj' hports rfl
  cases g
  cases h
  rw [mk.injEq]
  exact ⟨ByteFields.bigEndian_inj 2 _ _ hsource, ByteFields.bigEndian_inj 2 _ _ hdest,
    ByteFields.bigEndian_inj 2 _ _ hlen, ByteFields.bigEndian_inj 2 _ _ hsum⟩

end UdpHdr

/-- The header at the input. -/
structure Hdr where
  eth : EthHdr
  version : BitVec 4
  ihl : BitVec 4
  ip : IpBase
  headerChecksum : BitVec 16
  udp : UdpHdr
  deriving DecidableEq, Repr

/-- An IP header with its Ethernet header. -/
structure EthIp where
  eth : EthHdr
  ip : IpFields
  deriving DecidableEq, Repr

/-- The `m_` registers. -/
def pass (x : Hdr) : EthIp where
  eth := x.eth
  ip :=
    { toIpBase := x.ip
      length := x.udp.length + 20#16
      version := x.version
      ihl := x.ihl
      headerChecksum := x.headerChecksum }

def format : FrameTx.Format Hdr EthIp UdpHdr Unit 3 where
  pass := pass
  keep := Hdr.udp
  lastPtr := 7#3
  firstByte := fun x => byte x.udp.sourcePort 1
  byteAt := fun h _ ptr => h.byteAt ptr
  sumNext := fun _ _ _ => ()
  payloadCount := fun h => h.length - 8#16
  waitTransfer := fun _ tvalid => tvalid

abbrev Reg := FrameTx.Reg EthIp UdpHdr Unit 3

abbrev Input := FrameTx.Input Hdr

def posedge (r : Reg) (i : Input) (rst : Bool) : Reg := FrameTx.posedge format r i rst

def layout : FrameTx.Layout format where
  bytes := UdpHdr.bytes
  length_bytes := UdpHdr.length_bytes
  one_lt := by decide
  firstByte := fun _ => rfl
  inv := fun _ _ _ => True
  inv_zero := fun _ _ => trivial
  inv_one := fun _ _ => trivial
  inv_succ := fun _ _ _ _ _ => trivial
  byteAt := fun h _ _ hk _ => h.getElem?_bytes (Nat.lt_succ_of_le hk)

end AdcCapture.UdpIpTx
