import AdcCapture.Fifo

/-!
# widthConverter

One `fifo_generator_0`: 16-bit words in, bytes out, the high byte first.
-/

namespace AdcCapture.WidthConverter

open Clocked
set_option autoImplicit false

/-- `C_WR_DEPTH` of `fifo_generator_0`, in 16-bit words. -/
@[irreducible] def wrDepth : Nat := 32768

theorem wrDepth_eq : wrDepth = 32768 := by unfold wrDepth; rfl

theorem wrDepth_pos : 0 < wrDepth := by simp [wrDepth_eq]

abbrev FifoGenerator0 : Type := Fifo (BitVec 8) (2 * wrDepth)

def bigEndian (din : BitVec 16) : List (BitVec 8) := [din.extractLsb' 8 8, din.extractLsb' 0 8]

def full (f : FifoGenerator0) : Bool := f.full 2

def empty (f : FifoGenerator0) : Bool := f.empty 1

/-- First-word-fall-through: the oldest byte is on `dout` before it is read. -/
def dout (f : FifoGenerator0) : BitVec 8 := f.units.headD 0#8

def posedge (rst wrEn : Bool) (din : BitVec 16) (rdEn : Bool) (f : FifoGenerator0) :
    FifoGenerator0 :=
  if rst then Fifo.nil else f.step 1 rdEn (if wrEn then some (bigEndian din) else none)

@[simp] theorem bigEndian_length (din : BitVec 16) : (bigEndian din).length = 2 := rfl

theorem empty_iff (f : FifoGenerator0) : empty f = true ↔ f.units = [] := Fifo.empty_one_iff f

theorem empty_eq_false_iff (f : FifoGenerator0) : empty f = false ↔ f.units ≠ [] :=
  Fifo.empty_one_eq_false_iff f

theorem full_eq_false_of_units_nil {f : FifoGenerator0} (h : f.units = []) : full f = false :=
  Fifo.full_eq_false_of_units_nil (by have := wrDepth_pos; omega) h

theorem full_iff (f : FifoGenerator0) : full f = true ↔ 2 * wrDepth < f.units.length + 2 := by
  simp [full, Fifo.full]

end AdcCapture.WidthConverter
