import AdcCapture.EthAxisTx
import AdcCapture.FrameTx
import AdcCapture.IpHeader

/-!
# ip_eth_tx

The IP header is put in front of the payload. Its checksum is summed up while the
first ten bytes are sent.
-/

namespace AdcCapture.IpEthTx

open EthAxisTx (EthHdr)
open IpHeader (IpHdr add1c16b hdrWords sent)
open ByteFields (byte)
set_option autoImplicit false

/-- The header at the input. -/
structure Hdr where
  eth : EthHdr
  ip : IpHdr
  deriving DecidableEq, Repr

/-- The `case` over `hdr_ptr_reg`. -/
def byteAt (h : IpHdr) (hdrSum : BitVec 16) (ptr : Nat) : BitVec 8 :=
  match ptr with
  | 0x00 => 4#4 ++ 5#4
  | 0x01 => h.dscp ++ h.ecn
  | 0x02 => byte h.length 1
  | 0x03 => byte h.length 0
  | 0x04 => byte h.identification 1
  | 0x05 => byte h.identification 0
  | 0x06 => h.flags ++ h.fragmentOffset.extractLsb' 8 5
  | 0x07 => h.fragmentOffset.extractLsb' 0 8
  | 0x08 => h.ttl
  | 0x09 => h.protocol
  | 0x0A => ~~~byte hdrSum 1
  | 0x0B => ~~~byte hdrSum 0
  | 0x0C => byte h.sourceIp 3
  | 0x0D => byte h.sourceIp 2
  | 0x0E => byte h.sourceIp 1
  | 0x0F => byte h.sourceIp 0
  | 0x10 => byte h.destIp 3
  | 0x11 => byte h.destIp 2
  | 0x12 => byte h.destIp 1
  | 0x13 => byte h.destIp 0
  | _ => 0#8

/-- `hdr_sum_next`. -/
def sumNext (h : IpHdr) (hdrSum : BitVec 16) (ptr : Nat) : BitVec 16 :=
  match ptr with
  | 0x01 => (4#4 ++ 5#4) ++ (h.dscp ++ h.ecn)
  | 0x02 => add1c16b hdrSum h.length
  | 0x03 => add1c16b hdrSum h.identification
  | 0x04 => add1c16b hdrSum (h.flags ++ h.fragmentOffset)
  | 0x05 => add1c16b hdrSum (h.ttl ++ h.protocol)
  | 0x06 => add1c16b hdrSum (h.sourceIp.extractLsb' 16 16)
  | 0x07 => add1c16b hdrSum (h.sourceIp.extractLsb' 0 16)
  | 0x08 => add1c16b hdrSum (h.destIp.extractLsb' 16 16)
  | 0x09 => add1c16b hdrSum (h.destIp.extractLsb' 0 16)
  | _ => hdrSum

def format : FrameTx.Format Hdr EthHdr IpHdr (BitVec 16) 6 where
  pass := Hdr.eth
  keep := Hdr.ip
  lastPtr := 0x13#6
  firstByte := fun _ => 4#4 ++ 5#4
  byteAt := byteAt
  sumNext := sumNext
  payloadCount := fun h => h.length - 20#16
  waitTransfer := fun tready tvalid => tready && tvalid

abbrev Reg := FrameTx.Reg EthHdr IpHdr (BitVec 16) 6

abbrev Input := FrameTx.Input Hdr

def posedge (r : Reg) (i : Input) (rst : Bool) : Reg := FrameTx.posedge format r i rst

/-- From the third byte on, `hdr_sum_reg` has the words whose bytes are before the pointer. -/
def SumAt (h : IpHdr) (hdrSum : BitVec 16) (k : Nat) : Prop :=
  2 ≤ k → hdrSum = OnesComplement.sum ((hdrWords h).take (k - 1))

theorem sumNext_word {h : IpHdr} {hdrSum v : BitVec 16} {k : Nat} (hk : 2 ≤ k)
    (hv : (hdrWords h)[k - 1]? = some v) (hs : SumAt h hdrSum k)
    (hnext : sumNext h hdrSum k = add1c16b hdrSum v) : SumAt h (sumNext h hdrSum k) (k + 1) := by
  intro _
  have hsucc : k + 1 - 1 = k - 1 + 1 := by omega
  rw [hnext, hs hk, IpHeader.add1c16b_eq, hsucc, List.take_add_one, hv, OnesComplement.sum,
    OnesComplement.sum, Option.toList_some, List.foldl_append]
  rfl

theorem sumAt_succ {h : IpHdr} {hdrSum : BitVec 16} {k : Nat} (hs : SumAt h hdrSum k) :
    SumAt h (sumNext h hdrSum k) (k + 1) := by
  rcases Nat.lt_or_ge k 10 with hlt | hge
  · interval_cases k
    · intro hno
      simp at hno
    · intro _
      exact (OnesComplement.sum_singleton (by decide) _).symm
    all_goals exact sumNext_word (by decide) rfl hs rfl
  · intro _
    have hkeep : sumNext h hdrSum k = hdrSum := by
      unfold sumNext
      split <;> first | omega | rfl
    have hall (j : Nat) (hj : 9 ≤ j) : (hdrWords h).take j = hdrWords h :=
      List.take_of_length_le hj
    rw [hkeep, hs (by omega), hall _ (by omega), hall _ (by omega)]

theorem byteAt_sent {h : IpHdr} {hdrSum : BitVec 16} {k : Nat} (hk : k < 20)
    (hs : SumAt h hdrSum k) : (sent h).bytes[k]? = some (byteAt h hdrSum k) := by
  have hsum (hk : 10 ≤ k) : hdrSum = OnesComplement.sum (hdrWords h) := by
    have hlen : (hdrWords h).length = 9 := rfl
    rw [hs (by omega), List.take_of_length_le (by rw [hlen]; omega)]
  by_cases hhigh : k = 10
  · subst hhigh
    rw [byteAt, hsum (by decide), ← ByteFields.byte_not _ (by decide)]
    rfl
  by_cases hlow : k = 11
  · subst hlow
    rw [byteAt, hsum (by decide), ← ByteFields.byte_not _ (by decide)]
    rfl
  interval_cases k <;> first | rfl | exact absurd rfl hhigh | exact absurd rfl hlow

def layout : FrameTx.Layout format where
  bytes := fun h => (sent h).bytes
  length_bytes := fun h => IpHeader.length_bytes (sent h)
  one_lt := by decide
  firstByte := fun _ => rfl
  inv := SumAt
  inv_zero := fun _ _ h => absurd h (by decide)
  inv_one := fun _ _ h => absurd h (by decide)
  inv_succ := fun _ _ _ _ hs => sumAt_succ hs
  byteAt := fun _ _ _ hk hs => byteAt_sent (Nat.lt_succ_of_le hk) hs

end AdcCapture.IpEthTx
