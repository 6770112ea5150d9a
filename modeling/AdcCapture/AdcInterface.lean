import AdcCapture.Bitslip
import AdcCapture.ReadController2
import Mathlib.Tactic.IntervalCases

/-!
# adc_interface

The serial lanes, the deserializers and the `bitslip` machine on `CLKDIV`. The
ISERDESE2 primitives are outside the sources: the cut they apply is a parameter,
and until they have settled their outputs are taken from the input.
-/

namespace AdcCapture.AdcInterface

set_option autoImplicit false

/-! ## Lanes -/

/-- Bits 15, 13, .., 1 of the samples, one in each bit time. -/
def lane1 (samples : Int → BitVec 16) (t : Int) : Bool :=
  (samples (t / 8)).getLsbD (15 - 2 * (t % 8).toNat)

/-- Bits 14, 12, .., 0 of the samples. -/
def lane0 (samples : Int → BitVec 16) (t : Int) : Bool :=
  (samples (t / 8)).getLsbD (14 - 2 * (t % 8).toNat)

/-- The frame clock: four ones and four zeros in each sample time. -/
def frameLane (t : Int) : Bool := decide (t % 8 < 4)

/-- Q8 to Q1 of a primitive whose oldest bit is bit `t` of the lane. -/
def iserdes (lane : Int → Bool) (t : Int) : BitVec 8 :=
  BitVec.ofBool (lane t) ++ BitVec.ofBool (lane (t + 1)) ++ BitVec.ofBool (lane (t + 2)) ++
    BitVec.ofBool (lane (t + 3)) ++ BitVec.ofBool (lane (t + 4)) ++ BitVec.ofBool (lane (t + 5)) ++
    BitVec.ofBool (lane (t + 6)) ++ BitVec.ofBool (lane (t + 7))

/-! ## Words -/

/-- `data_o[k]` is Q(k+1). -/
def frameDetector (q : BitVec 8) : BitVec 8 := q

/-- `data_o[k]` is Q(8-k). -/
def dataDeserializer (q : BitVec 8) : BitVec 8 := q.reverse

def dOut (ln0Des ln1Des : BitVec 8) : BitVec 16 :=
  BitVec.ofBool (ln1Des.getLsbD 0) ++ BitVec.ofBool (ln0Des.getLsbD 0) ++
    BitVec.ofBool (ln1Des.getLsbD 1) ++ BitVec.ofBool (ln0Des.getLsbD 1) ++
    BitVec.ofBool (ln1Des.getLsbD 2) ++ BitVec.ofBool (ln0Des.getLsbD 2) ++
    BitVec.ofBool (ln1Des.getLsbD 3) ++ BitVec.ofBool (ln0Des.getLsbD 3) ++
    BitVec.ofBool (ln1Des.getLsbD 4) ++ BitVec.ofBool (ln0Des.getLsbD 4) ++
    BitVec.ofBool (ln1Des.getLsbD 5) ++ BitVec.ofBool (ln0Des.getLsbD 5) ++
    BitVec.ofBool (ln1Des.getLsbD 6) ++ BitVec.ofBool (ln0Des.getLsbD 6) ++
    BitVec.ofBool (ln1Des.getLsbD 7) ++ BitVec.ofBool (ln0Des.getLsbD 7)

theorem getLsbD_iserdes (lane : Int → Bool) (t : Int) {k : Nat} (hk : k < 8) :
    (iserdes lane t).getLsbD k = lane (t + (7 - k : Nat)) := by
  unfold iserdes
  interval_cases k <;> simp only [BitVec.getLsbD_append, BitVec.getLsbD_ofBool] <;> simp

theorem getLsbD_dataDeserializer (q : BitVec 8) {k : Nat} (hk : k < 8) :
    (dataDeserializer q).getLsbD k = q.getLsbD (7 - k) := by
  rw [dataDeserializer, BitVec.getLsbD_reverse, BitVec.getMsbD_eq_getLsbD, decide_eq_true hk,
    Bool.true_and]

theorem getLsbD_dOut (ln0Des ln1Des : BitVec 8) {k : Nat} (hk : k < 8) :
    (dOut ln0Des ln1Des).getLsbD (2 * k) = ln0Des.getLsbD (7 - k) ∧
      (dOut ln0Des ln1Des).getLsbD (2 * k + 1) = ln1Des.getLsbD (7 - k) := by
  unfold dOut
  interval_cases k <;> simp only [BitVec.getLsbD_append, BitVec.getLsbD_ofBool] <;> simp

theorem sample_time {t : Int} (h : t % 8 = 0) {k : Nat} (hk : k < 8) :
    (t + k) / 8 = t / 8 ∧ ((t + k) % 8).toNat = k := by omega

/-- Cut at a sample boundary, the two lanes give back the sample. -/
theorem dOut_iserdes (samples : Int → BitVec 16) {t : Int} (h : t % 8 = 0) :
    dOut (dataDeserializer (iserdes (lane0 samples) t))
      (dataDeserializer (iserdes (lane1 samples) t)) = samples (t / 8) := by
  apply BitVec.eq_of_getLsbD_eq
  intro n hn
  obtain ⟨k, hk, rfl | rfl⟩ : ∃ k, k < 8 ∧ (n = 2 * k ∨ n = 2 * k + 1) :=
    ⟨n / 2, by omega, by omega⟩
  · rw [(getLsbD_dOut _ _ hk).1, getLsbD_dataDeserializer _ (by omega),
      getLsbD_iserdes _ _ (by omega), lane0, (sample_time h (by omega)).1,
      (sample_time h (by omega)).2]
    congr 1
    omega
  · rw [(getLsbD_dOut _ _ hk).2, getLsbD_dataDeserializer _ (by omega),
      getLsbD_iserdes _ _ (by omega), lane1, (sample_time h (by omega)).1,
      (sample_time h (by omega)).2]
    congr 1
    omega

/-- Only a cut at a sample boundary shows four ones and then four zeros. -/
theorem frameDetector_iserdes_iff (t : Int) :
    frameDetector (iserdes frameLane t) = 0xF0#8 ↔ t % 8 = 0 := by
  rw [frameDetector]
  constructor
  · intro hf
    have h7 := getLsbD_iserdes frameLane t (k := 7) (by omega)
    have h4 := getLsbD_iserdes frameLane t (k := 4) (by omega)
    rw [hf, frameLane] at h7 h4
    have h7 := of_decide_eq_true h7.symm
    have h4 := of_decide_eq_true h4.symm
    omega
  · intro h
    apply BitVec.eq_of_getLsbD_eq
    intro k hk
    rw [getLsbD_iserdes _ _ hk, frameLane]
    have hm : (t + (7 - k : Nat)) % 8 = (7 - k : Nat) := by omega
    rw [hm]
    interval_cases k <;> decide

/-! ## The machine and its lanes -/

/-- What the ADC sends and where the primitives cut it: after `k` slips the oldest bit of
cycle `n` is bit `8 * n + cut k`. Eight successive slips visit all eight offsets. -/
structure Serial where
  samples : Channel → Int → BitVec 16
  cut : Nat → Int
  visits : ∀ k (o : Int), 0 ≤ o → o < 8 → ∃ j < 8, cut (k + j) % 8 = o

/-- `now` counts the cycles since the reset, `enabled` those with `adc_en` high, `slips` the
BITSLIP pulses and `sinceSlip` the cycles since the latest of them. -/
structure Reg where
  bitslip : Bitslip.Reg
  now : Nat
  enabled : Nat
  slips : Nat
  sinceSlip : Nat

/-- `adc_en`, and the outputs of primitives that have not settled. -/
structure Input where
  adcEn : Bool
  frame : BitVec 8
  ln0 : Channel → BitVec 8
  ln1 : Channel → BitVec 8

def reset : Reg := ⟨Bitslip.reset, 0, 0, 0, 0⟩

/-- Seven cycles after `adc_en` rises and eight after a slip the outputs are valid. -/
def settled (s : Reg) : Bool := decide (7 ≤ s.enabled ∧ (s.slips = 0 ∨ 8 ≤ s.sinceSlip))

section Machine
variable (P : Serial)

def start (s : Reg) : Int := 8 * s.now + P.cut s.slips

def frmData (s : Reg) (i : Input) : BitVec 8 :=
  frameDetector (if settled s then iserdes frameLane (start P s) else i.frame)

def adcWord (c : Channel) (s : Reg) (i : Input) : BitVec 16 :=
  dOut (dataDeserializer (if settled s then iserdes (lane0 (P.samples c)) (start P s) else i.ln0 c))
    (dataDeserializer (if settled s then iserdes (lane1 (P.samples c)) (start P s) else i.ln1 c))

def out (s : Reg) (i : Input) : Bitslip.Comb := Bitslip.comb s.bitslip i.adcEn (frmData P s i)

def step (s : Reg) (i : Input) : Reg where
  bitslip := Bitslip.posedge false s.bitslip i.adcEn (frmData P s i)
  now := s.now + 1
  enabled := s.enabled + i.adcEn.toNat
  slips := s.slips + (out P s i).iserdesBslip.toNat
  sinceSlip := if (out P s i).iserdesBslip then 1 else s.sinceSlip + 1

end Machine

end AdcCapture.AdcInterface
