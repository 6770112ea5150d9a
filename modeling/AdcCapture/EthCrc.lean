import AdcCapture.Crc
import AdcCapture.Lfsr

/-!
# eth_crc_8

The instance of `lfsr` in `axis_gmii_tx` and `axis_gmii_rx`. Its state output is
the reflected check register shifted eight times, least significant bit first.
-/

namespace AdcCapture.EthCrc

open XorForms Lfsr Crc
set_option autoImplicit false

/-- A clock of the Galois register, seen from its other end. -/
theorem reverse_galoisClock {w : Nat} (poly : BitVec w) (s : BitVec w) (b : Bool) :
    (galoisClock poly false s b).2.reverse = bitStep (poly ||| 1#w).reverse s.reverse b := by
  apply BitVec.eq_of_getLsbD_eq
  intro i hi
  have hw : 0 < w := by omega
  have hfirst : s.reverse.getLsbD 0 = s.getLsbD (w - 1) := by
    rw [getLsbD_reverse s hw, Nat.sub_zero]
  have hnext : s.reverse.getLsbD (1 + i) = (s <<< 1).getLsbD (w - 1 - i) := by
    rw [getLsbD_shift s (by omega)]
    by_cases hlast : w - 1 - i = 0
    · rw [if_pos hlast]
      exact BitVec.getLsbD_of_ge _ _ (by omega)
    · have hidx : w - 1 - (1 + i) = w - 1 - i - 1 := by omega
      rw [if_neg hlast, getLsbD_reverse s (by omega), hidx]
  rw [getLsbD_reverse _ hi, galoisClock, bitStep, BitVec.getLsbD_xor, BitVec.getLsbD_xor,
    BitVec.getLsbD_ushiftRight, hnext, hfirst, getLsbD_ite, getLsbD_ite, getLsbD_reverse _ hi]
  rfl

section Register
variable {p : Params} (hg : p.lfsrConfig = .galois) (hf : p.lfsrFeedForward = false)

include hg hf in
theorem reverse_shiftRegister (s : BitVec p.lfsrWidth) (bs : List Bool) :
    (shiftRegister p s bs).2.reverse = crc (p.lfsrPoly ||| 1#p.lfsrWidth).reverse s.reverse bs := by
  induction bs generalizing s with
  | nil => rfl
  | cons b bs ih =>
    have hclock : clock p s b = galoisClock p.lfsrPoly false s b := by
      rw [clock, hg, hf]
    rw [shiftRegister, crc_cons, ← reverse_galoisClock, ← hclock]
    exact ih _

theorem msbFirst_reverse {d : Nat} (x : BitVec d) : msbFirst x.reverse = lsbFirst x := by
  apply List.ext_getElem
  · simp [msbFirst]
  · intro i hi _
    have hd : i < d := by simpa [msbFirst] using hi
    have hidx : d - 1 - (d - 1 - i) = i := by omega
    simp only [msbFirst, lsbFirst, List.getElem_map, List.getElem_reverse, List.getElem_range,
      List.length_range]
    rw [getLsbD_reverse _ (by omega), hidx]

include hg hf in
/-- With `REVERSE` the Galois register is the reflected check register. -/
theorem state_eq_crc (hr : p.reverse = true) (dataIn : BitVec p.dataWidth)
    (stateIn : BitVec p.lfsrWidth) : (reductionStyle p dataIn stateIn).2 =
      crc (p.lfsrPoly ||| 1#p.lfsrWidth).reverse stateIn (lsbFirst dataIn) := by
  rw [reductionStyle_eq_serial, serial, hr]
  simp only [if_true]
  rw [reverse_shiftRegister hg hf, msbFirst_reverse, BitVec.reverse_reverse_eq]

end Register

/-- The parameters of the instance. -/
def ethCrc8 : Params where
  lfsrWidth := 32
  lfsrPoly := 0x4c11db7#32
  lfsrConfig := .galois
  lfsrFeedForward := false
  reverse := true
  dataWidth := 8
  width_pos := by decide

@[irreducible] def crcNext (dataIn : BitVec 8) (stateIn : BitVec 32) : BitVec 32 :=
  (reductionStyle ethCrc8 dataIn stateIn).2

def polynomial : BitVec 32 := 0xEDB88320#32

theorem polynomial_eq : (0x4c11db7#32 ||| 1#32).reverse = polynomial := by decide +kernel

theorem polynomial_top : polynomial.getLsbD (32 - 1) = true := by decide

theorem crcNext_eq (dataIn : BitVec 8) (stateIn : BitVec 32) :
    crcNext dataIn stateIn = crc polynomial stateIn (lsbFirst dataIn) := by
  have h := state_eq_crc (p := ethCrc8) rfl rfl rfl dataIn stateIn
  rw [crcNext, h, ← polynomial_eq]
  rfl

/-- The bits of a frame in the order of the wire. -/
def bitsOf (bytes : List (BitVec 8)) : List Bool := bytes.flatMap lsbFirst

theorem bitsOf_append (p q : List (BitVec 8)) :
    bitsOf (p ++ q) = bitsOf p ++ bitsOf q := List.flatMap_append

theorem length_bitsOf (p : List (BitVec 8)) : (bitsOf p).length = 8 * p.length := by
  induction p with
  | nil => rfl
  | cons b p ih =>
    rw [bitsOf] at ih ⊢
    simp [ih]
    omega

theorem bitsOf_inj {p q : List (BitVec 8)} (h : bitsOf p = bitsOf q) : p = q := by
  induction p generalizing q with
  | nil =>
    have hlen := length_bitsOf q
    rw [← h] at hlen
    have hzero : q.length = 0 := by
      simp only [bitsOf, List.flatMap_nil, List.length_nil] at hlen
      omega
    exact (List.length_eq_zero_iff.mp hzero).symm
  | cons b p ih =>
    cases q with
    | nil =>
      have hlen := length_bitsOf (b :: p)
      rw [h] at hlen
      simp [bitsOf] at hlen
    | cons c q =>
      obtain ⟨hb, hrest⟩ := List.append_inj (show lsbFirst b ++ bitsOf p =
        lsbFirst c ++ bitsOf q from h) (by simp)
      rw [lsbFirst_inj.mp hb, ih hrest]

theorem foldl_crcNext (s : BitVec 32) (bytes : List (BitVec 8)) :
    bytes.foldl (fun s b => crcNext b s) s = crc polynomial s (bitsOf bytes) := by
  induction bytes generalizing s with
  | nil => rfl
  | cons b bytes ih =>
    rw [List.foldl_cons, ih, crcNext_eq, bitsOf, bitsOf, List.flatMap_cons, crc_append]

end AdcCapture.EthCrc
