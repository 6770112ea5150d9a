import AdcCapture.ByteFields
import AdcCapture.OnesComplement
import Mathlib.Tactic.IntervalCases

/-!
# The IP header

The fields as the modules pass them on in parallel, the twenty bytes on the wire,
and the checksum. The transmitter sums words, the receiver bytes; both are the sum
of the same words.
-/

namespace AdcCapture.IpHeader

open ByteFields (byte setByte bigEndian)
set_option autoImplicit false

/-- The fields that every module has. -/
structure IpBase where
  dscp : BitVec 6
  ecn : BitVec 2
  identification : BitVec 16
  flags : BitVec 3
  fragmentOffset : BitVec 13
  ttl : BitVec 8
  protocol : BitVec 8
  sourceIp : BitVec 32
  destIp : BitVec 32
  deriving DecidableEq, Repr

structure IpHdr extends IpBase where
  length : BitVec 16
  deriving DecidableEq, Repr

structure IpFields extends IpHdr where
  version : BitVec 4
  ihl : BitVec 4
  headerChecksum : BitVec 16
  deriving DecidableEq, Repr

def IpFields.bytes (f : IpFields) : List (BitVec 8) :=
  [f.version ++ f.ihl, f.dscp ++ f.ecn, byte f.length 1, byte f.length 0,
    byte f.identification 1, byte f.identification 0,
    f.flags ++ f.fragmentOffset.extractLsb' 8 5, f.fragmentOffset.extractLsb' 0 8,
    f.ttl, f.protocol, byte f.headerChecksum 1, byte f.headerChecksum 0,
    byte f.sourceIp 3, byte f.sourceIp 2, byte f.sourceIp 1, byte f.sourceIp 0,
    byte f.destIp 3, byte f.destIp 2, byte f.destIp 1, byte f.destIp 0]

theorem length_bytes (f : IpFields) : f.bytes.length = 20 := rfl

theorem bytes_inj {f g : IpFields} (h : f.bytes = g.bytes) : f = g := by
  have hword (x y : BitVec 16) (h1 : byte x 1 = byte y 1) (h0 : byte x 0 = byte y 0) : x = y :=
    ByteFields.bigEndian_inj 2 x y (by rw [bigEndian, bigEndian, bigEndian, bigEndian, h1, h0]; rfl)
  have haddr (x y : BitVec 32) (h3 : byte x 3 = byte y 3) (h2 : byte x 2 = byte y 2)
      (h1 : byte x 1 = byte y 1) (h0 : byte x 0 = byte y 0) : x = y :=
    ByteFields.bigEndian_inj 4 x y (by simp [bigEndian, h3, h2, h1, h0])
  simp only [IpFields.bytes, List.cons.injEq] at h
  obtain ⟨h0, h1, h2, h3, h4, h5, h6, h7, h8, h9, h10, h11, h12, h13, h14, h15, h16, h17, h18, h19,
    _⟩ := h
  obtain ⟨hversion, hihl⟩ := ByteFields.append_inj (m := 4) (n := 4) h0
  obtain ⟨hdscp, hecn⟩ := ByteFields.append_inj (m := 6) (n := 2) h1
  obtain ⟨hflags, hhigh⟩ := ByteFields.append_inj (m := 3) (n := 5) h6
  have hoffset : f.fragmentOffset = g.fragmentOffset := by
    rw [← @BitVec.extractLsb'_append_extractLsb' 5 8 f.fragmentOffset, hhigh, h7]
    exact @BitVec.extractLsb'_append_extractLsb' 5 8 g.fragmentOffset
  have hlength := hword _ _ h2 h3
  have hident := hword _ _ h4 h5
  have hsum := hword _ _ h10 h11
  have hsource := haddr _ _ h12 h13 h14 h15
  have hdest := haddr _ _ h16 h17 h18 h19
  obtain ⟨⟨⟨_, _, _, _, _, _, _, _, _⟩, _⟩, _, _, _⟩ := f
  obtain ⟨⟨⟨_, _, _, _, _, _, _, _, _⟩, _⟩, _, _, _⟩ := g
  simp only [IpFields.mk.injEq, IpHdr.mk.injEq, IpBase.mk.injEq]
  exact ⟨⟨⟨hdscp, hecn, hident, hflags, hoffset, h8, h9, hsource, hdest⟩, hlength⟩, hversion, hihl,
    hsum⟩

/-- Where a byte that comes in goes. -/
def store (f : IpFields) (ptr : Nat) (b : BitVec 8) : IpFields :=
  match ptr with
  | 0 => { f with version := b.extractLsb' 4 4, ihl := b.extractLsb' 0 4 }
  | 1 => { f with dscp := b.extractLsb' 2 6, ecn := b.extractLsb' 0 2 }
  | 2 => { f with length := setByte f.length 1 b }
  | 3 => { f with length := setByte f.length 0 b }
  | 4 => { f with identification := setByte f.identification 1 b }
  | 5 => { f with identification := setByte f.identification 0 b }
  | 6 =>
    { f with
      flags := b.extractLsb' 5 3
      fragmentOffset := b.extractLsb' 0 5 ++ f.fragmentOffset.extractLsb' 0 8 }
  | 7 => { f with fragmentOffset := f.fragmentOffset.extractLsb' 8 5 ++ b }
  | 8 => { f with ttl := b }
  | 9 => { f with protocol := b }
  | 10 => { f with headerChecksum := setByte f.headerChecksum 1 b }
  | 11 => { f with headerChecksum := setByte f.headerChecksum 0 b }
  | 12 => { f with sourceIp := setByte f.sourceIp 3 b }
  | 13 => { f with sourceIp := setByte f.sourceIp 2 b }
  | 14 => { f with sourceIp := setByte f.sourceIp 1 b }
  | 15 => { f with sourceIp := setByte f.sourceIp 0 b }
  | 16 => { f with destIp := setByte f.destIp 3 b }
  | 17 => { f with destIp := setByte f.destIp 2 b }
  | 18 => { f with destIp := setByte f.destIp 1 b }
  | 19 => { f with destIp := setByte f.destIp 0 b }
  | _ => f

theorem bytes_store (f : IpFields) {k : Nat} (hk : k < 20) (b : BitVec 8) :
    (store f k b).bytes = f.bytes.set k b := by
  have h44 : b.extractLsb' 4 4 ++ b.extractLsb' 0 4 = b :=
    @BitVec.extractLsb'_append_extractLsb' 4 4 b
  have h62 : b.extractLsb' 2 6 ++ b.extractLsb' 0 2 = b :=
    @BitVec.extractLsb'_append_extractLsb' 6 2 b
  have h35 : b.extractLsb' 5 3 ++ b.extractLsb' 0 5 = b :=
    @BitVec.extractLsb'_append_extractLsb' 3 5 b
  have hhigh (x : BitVec 5) (y : BitVec 8) : (x ++ y : BitVec 13).extractLsb' 8 5 = x :=
    @BitVec.extractLsb'_append_eq_left 5 8 x y
  have hlow (x : BitVec 5) (y : BitVec 8) : (x ++ y : BitVec 13).extractLsb' 0 8 = y :=
    @BitVec.extractLsb'_append_eq_right 5 8 x y
  interval_cases k <;>
    simp [store, IpFields.bytes, ByteFields.byte_setByte_self, ByteFields.byte_setByte_of_ne, h44,
      h62, h35, hhigh, hlow]

/-! ## The checksum -/

/-- `add1c16b`: the carry out of the word is added back. -/
def add1c16b (a b : BitVec 16) : BitVec 16 :=
  let t := a.setWidth 17 + b.setWidth 17
  t.extractLsb' 0 16 + (t.extractLsb' 16 1).setWidth 16

theorem add1c16b_eq (a b : BitVec 16) : add1c16b a b = OnesComplement.add a b := by
  have ha := a.isLt
  have hb := b.isLt
  apply BitVec.eq_of_toNat_eq
  unfold OnesComplement.add
  split <;> simp [add1c16b, Nat.shiftRight_eq_div_pow] <;> omega

/-- The words that the transmitter adds up, in its order. -/
def hdrWords (h : IpHdr) : List (BitVec 16) :=
  [(4#4 ++ 5#4) ++ (h.dscp ++ h.ecn), h.length, h.identification, h.flags ++ h.fragmentOffset,
    h.ttl ++ h.protocol, h.sourceIp.extractLsb' 16 16, h.sourceIp.extractLsb' 0 16,
    h.destIp.extractLsb' 16 16, h.destIp.extractLsb' 0 16]

/-- The header as it is sent. -/
def sent (h : IpHdr) : IpFields :=
  { h with
    version := 4#4
    ihl := 5#4
    headerChecksum := ~~~OnesComplement.sum (hdrWords h) }

theorem words_sent (h : IpHdr) : OnesComplement.words (sent h).bytes =
    (hdrWords h).take 5 ++ (sent h).headerChecksum :: (hdrWords h).drop 5 := by
  have hword (x : BitVec 16) : byte x 1 ++ byte x 0 = x :=
    @BitVec.extractLsb'_append_extractLsb' 8 8 x
  have hoffset : h.flags ++ h.fragmentOffset.extractLsb' 8 5 ++ h.fragmentOffset.extractLsb' 0 8 =
      h.flags ++ h.fragmentOffset := by
    rw [BitVec.append_assoc, @BitVec.extractLsb'_append_extractLsb' 5 8 h.fragmentOffset]
    rfl
  have hhigh (x : BitVec 32) : byte x 3 ++ byte x 2 = x.extractLsb' 16 16 :=
    BitVec.extractLsb'_append_extractLsb'_eq_extractLsb' rfl
  have hlow (x : BitVec 32) : byte x 1 ++ byte x 0 = x.extractLsb' 0 16 :=
    BitVec.extractLsb'_append_extractLsb'_eq_extractLsb' rfl
  simp [OnesComplement.words, IpFields.bytes, sent, hdrWords, hword, hoffset, hhigh, hlow]

/-- The receiver's sum is right for what the transmitter sends. -/
theorem sum_sent (h : IpHdr) : OnesComplement.sum (OnesComplement.words (sent h).bytes) =
    BitVec.allOnes 16 := by
  have hsplit : OnesComplement.total ((hdrWords h).take 5) +
      OnesComplement.total ((hdrWords h).drop 5) = OnesComplement.total (hdrWords h) := by
    rw [← OnesComplement.total_append, List.take_append_drop]
  have hpos : 0 < OnesComplement.total (hdrWords h) := by
    have hfirst : 0 < ((4#4 ++ 5#4) ++ (h.dscp ++ h.ecn)).toNat := by
      rw [BitVec.toNat_append]
      exact Nat.lt_of_lt_of_le (by decide) Nat.left_le_or
    simp only [OnesComplement.total, hdrWords, List.map_cons, List.sum_cons]
    omega
  rw [words_sent]
  apply OnesComplement.sum_complement (by decide) hsplit hpos
  rw [sent, BitVec.toNat_not, OnesComplement.toNat_sum (by decide)]

end AdcCapture.IpHeader
