import AdcCapture.EthAxisTx
import AdcCapture.FrameRxRuns
import AdcCapture.IpHeader

/-!
# ip_eth_rx

The IP header is taken off the payload. Version, header length and checksum are
checked with the last header byte.
-/

namespace AdcCapture.IpEthRx

open Clocked
open AxisOutput (Word)
open EthAxisTx (EthHdr)
open IpHeader (IpFields add1c16b)
set_option autoImplicit false

/-- `error_invalid_header` and `error_invalid_checksum`. -/
inductive Fault where
  | invalidHeader | invalidChecksum
  deriving DecidableEq, Repr

/-- `hdr_sum_next`; `hdr_ptr_reg[0]` tells the low byte of a word. -/
def sumNext (hdrSum : BitVec 16) (ptr : Nat) (b : BitVec 8) : BitVec 16 :=
  if ptr % 2 = 1 then add1c16b hdrSum (0#8 ++ b) else add1c16b hdrSum (b ++ 0#8)

def check (f : IpFields) (hdrSumNext : BitVec 16) : Option Fault :=
  if f.version ≠ 4#4 ∨ f.ihl ≠ 5#4 then some .invalidHeader
  else if hdrSumNext ≠ 0xFFFF#16 then some .invalidChecksum
  else none

def format : FrameRx.Format IpFields (BitVec 16) Fault 6 where
  lastPtr := 0x13#6
  store := IpHeader.store
  sumInit := 0#16
  sumNext := sumNext
  check := check
  payloadCount := fun f => f.length - 20#16
  early := fun count => decide (1#16 < count)

abbrev Reg := FrameRx.Reg EthHdr IpFields (BitVec 16) Fault 6

abbrev Input := FrameRx.Input EthHdr

def posedge (r : Reg) (i : Input) (rst : Bool) : Reg := FrameRx.posedge format r i rst

/-! ## The checks on the bytes -/

/-- Version 4, five words, and a sum of all ones. -/
def valid (bs : List (BitVec 8)) : Bool :=
  bs.head? == some 0x45#8 && OnesComplement.sum (OnesComplement.words bs) == 0xFFFF#16

/-- The payload length, from the length field. -/
def count (bs : List (BitVec 8)) : BitVec 16 :=
  (bs.getD 2 0#8 ++ bs.getD 3 0#8) - 20#16

theorem sum_snoc (bs : List (BitVec 8)) (b : BitVec 8) :
    OnesComplement.sum (OnesComplement.words (bs ++ [b])) =
      sumNext (OnesComplement.sum (OnesComplement.words bs)) bs.length b := by
  have hhigh : (b ++ 0#8).toNat = 256 * b.toNat := by
    rw [OnesComplement.toNat_append_byte]
    rfl
  have hlow : (0#8 ++ b).toNat = b.toNat := by
    rw [OnesComplement.toNat_append_byte]
    simp
  apply BitVec.eq_of_toNat_eq
  rw [OnesComplement.toNat_sum (by decide), OnesComplement.total_words_snoc, sumNext]
  split <;> split
  · omega
  · rw [IpHeader.add1c16b_eq, OnesComplement.toNat_add (by decide),
      OnesComplement.toNat_sum (by decide), OnesComplement.rep_add_rep (by decide), hhigh]
  · rw [IpHeader.add1c16b_eq, OnesComplement.toNat_add (by decide),
      OnesComplement.toNat_sum (by decide), OnesComplement.rep_add_rep (by decide), hlow]
  · omega

/-- The last byte is no part of what is compared. -/
theorem check_iff (f : IpFields) (b : BitVec 8) :
    check f (OnesComplement.sum (OnesComplement.words (IpHeader.store f 19 b).bytes)) = none ↔
      valid (IpHeader.store f 19 b).bytes = true := by
  have hhead : (IpHeader.store f 19 b).bytes.head? = some (f.version ++ f.ihl) := rfl
  have hfirst : f.version ++ f.ihl = 0x45#8 ↔ f.version = 4#4 ∧ f.ihl = 5#4 := by
    constructor
    · intro h
      exact ByteFields.append_inj (m := 4) (n := 4) h
    · rintro ⟨h1, h2⟩
      rw [h1, h2]
      rfl
  rw [valid, hhead, check, Bool.and_eq_true, beq_iff_eq, beq_iff_eq, Option.some.injEq, hfirst]
  by_cases hver : f.version = 4#4 ∧ f.ihl = 5#4
  · have hno : ¬ (f.version ≠ 4#4 ∨ f.ihl ≠ 5#4) := fun h => h.elim (· hver.1) (· hver.2)
    rw [if_neg hno]
    split <;> simp_all
  · have hyes : f.version ≠ 4#4 ∨ f.ihl ≠ 5#4 := by
      rwa [← not_and_or]
    rw [if_pos hyes]
    simp [hver]

theorem count_bytes (f : IpFields) : count f.bytes = f.length - 20#16 := by
  have hword : ByteFields.byte f.length 1 ++ ByteFields.byte f.length 0 = f.length :=
    @BitVec.extractLsb'_append_extractLsb' 8 8 f.length
  rw [← hword]
  rfl

def layout : FrameRx.Layout format where
  bytes := IpFields.bytes
  bytes_inj := fun _ _ => IpHeader.bytes_inj
  length_bytes := IpHeader.length_bytes
  lastPtr_pos := by decide
  bytes_store := fun f _ b hk => IpHeader.bytes_store f (Nat.lt_succ_of_le hk) b
  sum := fun bs => OnesComplement.sum (OnesComplement.words bs)
  sum_nil := rfl
  sum_snoc := sum_snoc
  valid := valid
  check_iff := check_iff
  count := count
  payloadCount := fun f b => (count_bytes (IpHeader.store f 19 b)).symm

/--
Whatever comes in: the headers handed over are those of the frames with a whole header,
version 4, five words and a right checksum, in order, each with its Ethernet header, and
the payload is theirs, cut to the length. Once nothing is left to hand over, all of
them have been.
-/
theorem passes_valid (r : Reg) (i : Input) (is : List Input) :
    let r₀ := posedge r i true
    let frames := Packets.cut Word.tlast (emits (FrameRx.step format) FrameRx.accepted r₀ is)
    let hdrs := emits (FrameRx.step format) FrameRx.hdrAccepted r₀ is
    let hdrsOut := emits (FrameRx.step format) FrameRx.hdrSent r₀ is
    let payloadOut := emits (FrameRx.step format) FrameRx.payloadSent r₀ is
    hdrsOut.map (fun h => (h.1, h.2.bytes)) <+: FrameRx.heads layout hdrs frames ∧
    payloadOut <+: FrameRx.payloads layout hdrs frames ∧
    (FrameRx.Drained (run (FrameRx.step format) r₀ is) →
      hdrsOut.map (fun h => (h.1, h.2.bytes)) = FrameRx.heads layout hdrs frames ∧
      payloadOut = FrameRx.payloads layout hdrs frames) := by
  intro r₀ frames hdrs hdrsOut payloadOut
  have h := FrameRx.receiving_run layout r i is
  exact ⟨h.isPrefix.1, h.isPrefix.2, h.complete⟩

end AdcCapture.IpEthRx
