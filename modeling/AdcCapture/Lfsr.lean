import Mathlib.Data.List.Induction
import AdcCapture.XorForms

/-!
# lfsr

The parallel shift register of `lfsr.v`. The `initial` block shifts bit masks
through the register once, the outputs are exclusive ors of the masked inputs.
The masks of state and data are kept as one `Form` for each row.
-/

namespace AdcCapture.Lfsr

open XorForms
set_option autoImplicit false

inductive LfsrConfig where
  | fibonacci | galois
  deriving DecidableEq, Repr

/-- The parameters of the module. -/
structure Params where
  lfsrWidth : Nat
  lfsrPoly : BitVec lfsrWidth
  lfsrConfig : LfsrConfig
  lfsrFeedForward : Bool
  reverse : Bool
  dataWidth : Nat
  width_pos : 0 < lfsrWidth

/-- `lfsr_mask_state`, `lfsr_mask_data`, `output_mask_state` and `output_mask_data`. -/
structure Masks (w d : Nat) where
  lfsr : Vector (Form w d) w
  output : Vector (Form w d) d
  deriving DecidableEq, Repr

abbrev Params.Masks (p : Params) : Type := Lfsr.Masks p.lfsrWidth p.dataWidth

section Rows
variable {w d n : Nat}

/-- An output row past the register starts empty, as `twoPow` does. -/
def initMasks (w d : Nat) : Masks w d where
  lfsr := Vector.ofFn fun i => Form.stateBit i.val
  output := Vector.ofFn fun i => Form.stateBit i.val

def shiftIn (v : Form w d) (a : Vector (Form w d) n) : Vector (Form w d) n :=
  Vector.ofFn fun j => if j.val = 0 then v else a[j.val - 1]

/-- The value shifted out of the last row, with data bit `i` added. -/
def lastRow (hw : 0 < w) (a : Vector (Form w d) w) (i : Nat) : Form w d :=
  a[w - 1] ^^^ Form.dataBit i

end Rows

section Initial
variable (p : Params)

def fibonacciStep (m : p.Masks) (i : Nat) : p.Masks :=
  let val := (List.finRange p.lfsrWidth).foldl
    (fun v j =>
      if 0 < j.val && p.lfsrPoly.getLsbD j.val then
        m.lfsr[j.val - 1] ^^^ v
      else v)
    (lastRow p.width_pos m.lfsr i)
  { output := shiftIn val m.output
    lfsr := shiftIn (if p.lfsrFeedForward then Form.dataBit i else val) m.lfsr }

def galoisStep (m : p.Masks) (i : Nat) : p.Masks :=
  let val := lastRow p.width_pos m.lfsr i
  let inVal := if p.lfsrFeedForward then Form.dataBit i else val
  let shifted := shiftIn inVal m.lfsr
  { output := shiftIn val m.output
    lfsr := Vector.ofFn fun j =>
      if 0 < j.val && p.lfsrPoly.getLsbD j.val then shifted[j] ^^^ inVal else shifted[j] }

def maskStep (m : p.Masks) (i : Nat) : p.Masks :=
  match p.lfsrConfig with
  | .fibonacci => fibonacciStep p m i
  | .galois => galoisStep p m i

def reverseMasks {w d : Nat} (m : Masks w d) : Masks w d where
  lfsr := m.lfsr.reverse.map Form.reverse
  output := m.output.reverse.map Form.reverse

/-- The `initial` block. -/
def masks : p.Masks :=
  let m := (List.range p.dataWidth).reverse.foldl (maskStep p) (initMasks _ _)
  if p.reverse then reverseMasks m else m

/-- `STYLE` "REDUCTION": the outputs `data_out` and `state_out`. -/
def reductionStyle (dataIn : BitVec p.dataWidth) (stateIn : BitVec p.lfsrWidth) :
    BitVec p.dataWidth × BitVec p.lfsrWidth :=
  let bit (f : Form p.lfsrWidth p.dataWidth) :=
    parity ((stateIn &&& f.state) ++ (dataIn &&& f.data))
  (ofBits fun n => bit (masks p).output[n], ofBits fun n => bit (masks p).lfsr[n])

/-- `STYLE` "LOOP". -/
def loopStyle (dataIn : BitVec p.dataWidth) (stateIn : BitVec p.lfsrWidth) :
    BitVec p.dataWidth × BitVec p.lfsrWidth :=
  let bit (f : Form p.lfsrWidth p.dataWidth) :=
    let v := (List.range p.lfsrWidth).foldl
      (fun v j => if f.state.getLsbD j then v ^^ stateIn.getLsbD j else v) false
    (List.range p.dataWidth).foldl
      (fun v j => if f.data.getLsbD j then v ^^ dataIn.getLsbD j else v) v
  (ofBits fun n => bit (masks p).output[n], ofBits fun n => bit (masks p).lfsr[n])

end Initial

/-! ## The register, bit by bit -/

section Serial

/-- One clock of the Fibonacci register: the bit out and the register after. -/
def fibonacciClock {w : Nat} (poly : BitVec w) (feedForward : Bool) (s : BitVec w) (b : Bool) :
    Bool × BitVec w :=
  let out := parity ((s <<< 1) &&& poly) ^^ (s.getLsbD (w - 1) ^^ b)
  let inBit := if feedForward then b else out
  (out, (s <<< 1) ||| (if inBit then 1#w else 0#w))

def galoisClock {w : Nat} (poly : BitVec w) (feedForward : Bool) (s : BitVec w) (b : Bool) :
    Bool × BitVec w :=
  let out := s.getLsbD (w - 1) ^^ b
  let inBit := if feedForward then b else out
  (out, (s <<< 1) ^^^ (if inBit then poly ||| 1#w else 0#w))

def clock (p : Params) (s : BitVec p.lfsrWidth) (b : Bool) : Bool × BitVec p.lfsrWidth :=
  match p.lfsrConfig with
  | .fibonacci => fibonacciClock p.lfsrPoly p.lfsrFeedForward s b
  | .galois => galoisClock p.lfsrPoly p.lfsrFeedForward s b

/-- The register clocked once for each bit, with the bits that come out. -/
def shiftRegister (p : Params) (s : BitVec p.lfsrWidth) :
    List Bool → List Bool × BitVec p.lfsrWidth
  | [] => ([], s)
  | b :: bs =>
    let r := shiftRegister p (clock p s b).2 bs
    ((clock p s b).1 :: r.1, r.2)

def msbFirst {d : Nat} (x : BitVec d) : List Bool := (List.range d).reverse.map x.getLsbD

/-- Most significant bit first; with `REVERSE`, least significant first in a mirrored register. -/
def serial (p : Params) (dataIn : BitVec p.dataWidth) (stateIn : BitVec p.lfsrWidth) :
    BitVec p.dataWidth × BitVec p.lfsrWidth :=
  let r :=
    if p.reverse then shiftRegister p stateIn.reverse (msbFirst dataIn.reverse)
    else shiftRegister p stateIn (msbFirst dataIn)
  let out : BitVec p.dataWidth := ofBits fun i => r.1.getD (p.dataWidth - 1 - i.val) false
  if p.reverse then (out.reverse, r.2.reverse) else (out, r.2)

end Serial

/-! ## The masks select what the register computes -/

section Agree
variable {p : Params} {dataIn : BitVec p.dataWidth} {stateIn : BitVec p.lfsrWidth}

/-- The masks of the rows select the bits of `s` out of the inputs. -/
def Agree (dataIn : BitVec p.dataWidth) (stateIn : BitVec p.lfsrWidth) (m : p.Masks)
    (s : BitVec p.lfsrWidth) : Prop :=
  ∀ j, ∀ hj : j < p.lfsrWidth, (m.lfsr[j]).eval stateIn dataIn = s.getLsbD j

theorem agree_init (dataIn : BitVec p.dataWidth) (stateIn : BitVec p.lfsrWidth) :
    Agree dataIn stateIn (initMasks _ _) stateIn := by
  intro j hj
  rw [initMasks, Vector.getElem_ofFn, Form.eval_stateBit]

variable {m : p.Masks} {s : BitVec p.lfsrWidth}

theorem eval_lastRow (h : Agree dataIn stateIn m s) (i : Nat) :
    (lastRow p.width_pos m.lfsr i).eval stateIn dataIn =
      (s.getLsbD (p.lfsrWidth - 1) ^^ dataIn.getLsbD i) := by
  rw [lastRow, Form.eval_xor, Form.eval_dataBit, h]

theorem eval_shiftIn (h : Agree dataIn stateIn m s) (v : Form p.lfsrWidth p.dataWidth) {j : Nat}
    (hj : j < p.lfsrWidth) : ((shiftIn v m.lfsr)[j]).eval stateIn dataIn =
      if j = 0 then v.eval stateIn dataIn else s.getLsbD (j - 1) := by
  rw [shiftIn, Vector.getElem_ofFn]
  split
  · rfl
  · exact h (j - 1) (by omega)

theorem getLsbD_shift {w : Nat} (s : BitVec w) {j : Nat} (hj : j < w) :
    (s <<< 1).getLsbD j = if j = 0 then false else s.getLsbD (j - 1) := by
  rw [BitVec.getLsbD_shiftLeft]
  by_cases h0 : j = 0
  · simp [h0]
  · have h1 : ¬ j < 1 := by omega
    simp [h0, h1, hj]

theorem getLsbD_ite {w : Nat} (b : Bool) (v : BitVec w) (j : Nat) :
    (if b then v else 0#w).getLsbD j = (b && v.getLsbD j) := by
  cases b <;> simp

theorem getLsbD_one (p : Params) (j : Nat) : (1#p.lfsrWidth).getLsbD j = decide (j = 0) := by
  simp [BitVec.getLsbD_one, p.width_pos]

/-- A step of the loop shifts out the form of the register's bit, and keeps the agreement. -/
def Matches (dataIn : BitVec p.dataWidth) (stateIn : BitVec p.lfsrWidth) (m m' : p.Masks)
    (r : Bool × BitVec p.lfsrWidth) : Prop :=
  Agree dataIn stateIn m' r.2 ∧
    ∃ v, v.eval stateIn dataIn = r.1 ∧ m'.output = shiftIn v m.output

theorem eval_inVal (v : Form p.lfsrWidth p.dataWidth) {b : Bool} (i : Nat)
    (hv : v.eval stateIn dataIn = b) :
    (if p.lfsrFeedForward then Form.dataBit i else v).eval stateIn dataIn =
      if p.lfsrFeedForward then dataIn.getLsbD i else b := by
  split
  · rw [Form.eval_dataBit]
  · exact hv

theorem galoisStep_matches (h : Agree dataIn stateIn m s) (i : Nat) :
    Matches dataIn stateIn m (galoisStep p m i)
      (galoisClock p.lfsrPoly p.lfsrFeedForward s (dataIn.getLsbD i)) := by
  have hval := eval_lastRow h i
  refine ⟨?_, _, hval, rfl⟩
  intro j hj
  have hin := eval_inVal (lastRow p.width_pos m.lfsr i) i hval
  have hrow := eval_shiftIn h
    (if p.lfsrFeedForward then Form.dataBit i else lastRow p.width_pos m.lfsr i) hj
  rw [galoisStep, Vector.getElem_ofFn, galoisClock, BitVec.getLsbD_xor, getLsbD_shift s hj,
    getLsbD_ite, BitVec.getLsbD_or, getLsbD_one p]
  by_cases h0 : j = 0
  · subst h0
    simp [hrow, hin]
  · by_cases ht : p.lfsrPoly.getLsbD j = true
    · have hpos : 0 < j := Nat.pos_of_ne_zero h0
      simp [h0, ht, hpos, hrow, hin]
    · simp [h0, ht, hrow]

theorem fibonacciStep_matches (h : Agree dataIn stateIn m s) (i : Nat) :
    Matches dataIn stateIn m (fibonacciStep p m i)
      (fibonacciClock p.lfsrPoly p.lfsrFeedForward s (dataIn.getLsbD i)) := by
  -- the loop over the taps adds the bits of the shifted register under the polynomial
  have hval : ((List.finRange p.lfsrWidth).foldl
      (fun v j =>
        if 0 < j.val && p.lfsrPoly.getLsbD j.val then m.lfsr[j.val - 1] ^^^ v else v)
      (lastRow p.width_pos m.lfsr i)).eval stateIn dataIn =
      (parity ((s <<< 1) &&& p.lfsrPoly) ^^
        (s.getLsbD (p.lfsrWidth - 1) ^^ dataIn.getLsbD i)) := by
    rw [Form.eval_foldl_xor (fun j => 0 < j.val && p.lfsrPoly.getLsbD j.val)
      (fun j => m.lfsr[j.val - 1]), eval_lastRow h, parity]
    congr 1
    apply xorUpTo_congr
    intro j hj
    rw [BitVec.getLsbD_and, getLsbD_shift s hj]
    by_cases h0 : j = 0
    · simp [h0]
    · have hpos : 0 < j := Nat.pos_of_ne_zero h0
      simp [hj, hpos, h0, h (j - 1) (by omega), Bool.and_comm]
  refine ⟨?_, _, hval, rfl⟩
  intro j hj
  have hin := eval_inVal _ i hval
  rw [fibonacciStep, fibonacciClock, BitVec.getLsbD_or, getLsbD_shift s hj, getLsbD_ite,
    getLsbD_one p, eval_shiftIn h _ hj, hin]
  by_cases h0 : j = 0
  · simp [h0]
  · simp [h0]

theorem maskStep_matches (h : Agree dataIn stateIn m s) (i : Nat) :
    Matches dataIn stateIn m (maskStep p m i) (clock p s (dataIn.getLsbD i)) := by
  unfold maskStep clock
  split
  · exact fibonacciStep_matches h i
  · exact galoisStep_matches h i

theorem shiftRegister_length (s : BitVec p.lfsrWidth) (bs : List Bool) :
    (shiftRegister p s bs).1.length = bs.length := by
  induction bs generalizing s with
  | nil => rfl
  | cons b bs ih => simp [shiftRegister, ih]

theorem shiftRegister_snoc (s : BitVec p.lfsrWidth) (bs : List Bool) (b : Bool) :
    shiftRegister p s (bs ++ [b]) =
      ((shiftRegister p s bs).1 ++ [(clock p (shiftRegister p s bs).2 b).1],
        (clock p (shiftRegister p s bs).2 b).2) := by
  induction bs generalizing s with
  | nil => rfl
  | cons a bs ih => simp [shiftRegister, ih]

/-- The output rows hold the bits that came out, the last one in row 0. -/
theorem foldl_maskStep (h : Agree dataIn stateIn m s) (is : List Nat) :
    Agree dataIn stateIn (is.foldl (maskStep p) m)
        (shiftRegister p s (is.map dataIn.getLsbD)).2 ∧
      ∀ j, ∀ hj : j < p.dataWidth, j < is.length →
        ((is.foldl (maskStep p) m).output[j]).eval stateIn dataIn =
          (shiftRegister p s (is.map dataIn.getLsbD)).1.getD (is.length - 1 - j) false := by
  induction is using List.reverseRecOn with
  | nil => exact ⟨h, fun j _ hlt => absurd hlt (Nat.not_lt_zero j)⟩
  | append_singleton is i ih =>
    obtain ⟨hagree, hout⟩ := ih
    obtain ⟨hagree', v, hv, hshift⟩ := maskStep_matches hagree i
    have hlen := shiftRegister_length s (is.map dataIn.getLsbD)
    rw [List.length_map] at hlen
    rw [List.foldl_append, List.map_append, List.map_singleton, shiftRegister_snoc]
    refine ⟨hagree', ?_⟩
    intro j hj hlt
    simp only [List.foldl_cons, List.foldl_nil, hshift, shiftIn, Vector.getElem_ofFn,
      List.length_append, List.length_singleton]
    by_cases h0 : j = 0
    · have hlast : is.length + 1 - 1 - j = is.length := by omega
      rw [if_pos h0, hv, hlast, List.getD_eq_getElem?_getD, ← hlen, List.getElem?_concat_length]
      rfl
    · have hlt' : j - 1 < is.length := by simp at hlt; omega
      have hidx : is.length + 1 - 1 - j = is.length - 1 - (j - 1) := by omega
      rw [if_neg h0, hout (j - 1) (by omega) hlt', hidx, List.getD_eq_getElem?_getD,
        List.getD_eq_getElem?_getD, List.getElem?_append_left (by omega)]

/-- The masks of the forward register: what they select is the register's result. -/
theorem forward_masks (dataIn : BitVec p.dataWidth) (stateIn : BitVec p.lfsrWidth) :
    let m := (List.range p.dataWidth).reverse.foldl (maskStep p) (initMasks _ _)
    let r := shiftRegister p stateIn (msbFirst dataIn)
    Agree dataIn stateIn m r.2 ∧ ∀ j, ∀ hj : j < p.dataWidth,
      (m.output[j]).eval stateIn dataIn = r.1.getD (p.dataWidth - 1 - j) false := by
  have hm := foldl_maskStep (agree_init dataIn stateIn) (List.range p.dataWidth).reverse
  rw [List.length_reverse, List.length_range] at hm
  exact ⟨hm.1, fun j hj => hm.2 j hj hj⟩

end Agree

section Styles
variable (p : Params) (dataIn : BitVec p.dataWidth) (stateIn : BitVec p.lfsrWidth)

theorem reductionStyle_eq : reductionStyle p dataIn stateIn =
    (ofBits fun n => ((masks p).output[n]).eval stateIn dataIn,
      ofBits fun n => ((masks p).lfsr[n]).eval stateIn dataIn) := by
  simp only [reductionStyle, parity_append, Form.eval]

theorem foldl_select (x mask : Nat → Bool) (n : Nat) (v : Bool) :
    (List.range n).foldl (fun v j => if mask j then v ^^ x j else v) v =
      (v ^^ xorUpTo (fun j => x j && mask j) n) := by
  induction n with
  | zero => simp [xorUpTo]
  | succ n ih =>
    rw [List.range_succ, List.foldl_append, ih, xorUpTo]
    cases hm : mask n <;> simp [hm]

theorem loopStyle_eq : loopStyle p dataIn stateIn = reductionStyle p dataIn stateIn := by
  have hfold {n : Nat} (x mask : BitVec n) (v : Bool) :
      (List.range n).foldl (fun v j => if mask.getLsbD j then v ^^ x.getLsbD j else v) v =
        (v ^^ parity (x &&& mask)) := by
    rw [foldl_select, parity]
    congr 1
    apply xorUpTo_congr
    intro j _
    rw [BitVec.getLsbD_and]
  simp only [loopStyle, reductionStyle, hfold, parity_append, Bool.false_xor]

/-- The exclusive ors of the masked inputs are what the register computes bit by bit. -/
theorem reductionStyle_eq_serial : reductionStyle p dataIn stateIn = serial p dataIn stateIn := by
  rw [reductionStyle_eq, serial, masks]
  cases p.reverse with
  | false =>
    obtain ⟨hstate, hout⟩ := forward_masks dataIn stateIn
    simp only [Bool.false_eq_true, if_false]
    congr 1
    · exact congrArg ofBits (funext fun n => hout n.val n.isLt)
    · exact ofBits_eq fun n => hstate n.val n.isLt
  | true =>
    obtain ⟨hstate, hout⟩ := forward_masks dataIn.reverse stateIn.reverse
    simp only [if_true, reverseMasks]
    congr 1
    · apply ofBits_eq
      intro n
      have hn : p.dataWidth - 1 - n.val < p.dataWidth := by omega
      rw [getLsbD_reverse _ n.isLt, getLsbD_ofBits _ ⟨p.dataWidth - 1 - n.val, hn⟩,
        ← hout (p.dataWidth - 1 - n.val) hn, ← Form.eval_reverse]
      simp
    · apply ofBits_eq
      intro n
      have hn : p.lfsrWidth - 1 - n.val < p.lfsrWidth := by omega
      rw [getLsbD_reverse _ n.isLt, ← hstate (p.lfsrWidth - 1 - n.val) hn, ← Form.eval_reverse]
      simp

/-- Both styles compute what the register computes bit by bit. -/
theorem styles_eq_serial : reductionStyle p dataIn stateIn = serial p dataIn stateIn ∧
    loopStyle p dataIn stateIn = serial p dataIn stateIn := by
  rw [loopStyle_eq, reductionStyle_eq_serial]
  exact ⟨rfl, rfl⟩

end Styles

end AdcCapture.Lfsr
