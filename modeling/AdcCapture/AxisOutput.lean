import AdcCapture.Clocked

/-!
# The output datapath of the frame modules

An output register and a temporary one behind it, as they stand at the end of
every module that passes a frame on. The words go through in order; one word is
taken in each clock in which `tready_int_reg` is set.
-/

namespace AdcCapture.AxisOutput

set_option autoImplicit false

structure Word where
  tdata : BitVec 8
  tlast : Bool
  tuser : Bool
  deriving DecidableEq, Repr

structure Reg where
  out : Word
  tvalid : Bool
  temp : Word
  tempTvalid : Bool
  treadyInt : Bool
  deriving DecidableEq, Repr

/-- `tready_int_early`. -/
def treadyIntEarly (r : Reg) (tvalidInt tready : Bool) : Bool :=
  tready || (!r.tempTvalid && (!r.tvalid || !tvalidInt))

section Posedge
variable (r : Reg) (int : Word) (tvalidInt tready : Bool)

def storeIntToOutput : Bool := r.treadyInt && (tready || !r.tvalid)

def storeIntToTemp : Bool := r.treadyInt && !(tready || !r.tvalid)

def storeTempToOutput : Bool := !r.treadyInt && tready

def posedge (rst : Bool) : Reg where
  out := if storeIntToOutput r tready then int
    else if storeTempToOutput r tready then r.temp else r.out
  tvalid := if rst then false
    else if storeIntToOutput r tready then tvalidInt
    else if storeTempToOutput r tready then r.tempTvalid else r.tvalid
  temp := if storeIntToTemp r tready then int else r.temp
  tempTvalid := if rst then false
    else if storeIntToTemp r tready then tvalidInt
    else if storeTempToOutput r tready then false else r.tempTvalid
  treadyInt := if rst then false else treadyIntEarly r tvalidInt tready

/-- The word taken from the module in this clock. -/
def taken : List Word := if r.treadyInt && tvalidInt then [int] else []

/-- The word handed over in this clock. -/
def handed : List Word := if r.tvalid && tready then [r.out] else []

end Posedge

def contents (r : Reg) : List Word :=
  (if r.tvalid then [r.out] else []) ++ if r.tempTvalid then [r.temp] else []

/-- The temporary register fills last, and closes the input. -/
structure Inv (r : Reg) : Prop where
  behind : r.tempTvalid = true → r.tvalid = true
  closed : r.treadyInt = true → r.tempTvalid = false

theorem inv_reset (r : Reg) (int : Word) (tvalidInt tready : Bool) :
    Inv (posedge r int tvalidInt tready true) := by
  constructor <;> simp [posedge]

theorem contents_reset (r : Reg) (int : Word) (tvalidInt tready : Bool) :
    contents (posedge r int tvalidInt tready true) = [] := by
  simp [contents, posedge]

section Step
variable {r : Reg} (h : Inv r) (int : Word) (tvalidInt tready : Bool)
include h

theorem inv_posedge : Inv (posedge r int tvalidInt tready false) := by
  obtain ⟨hbehind, hclosed⟩ := h
  constructor <;> cases hv : r.tvalid <;> cases ht : r.tempTvalid <;> cases hr : r.treadyInt <;>
    cases tready <;> cases tvalidInt <;>
    simp [posedge, storeIntToOutput, storeIntToTemp, storeTempToOutput, treadyIntEarly, hv, ht, hr]
      at hbehind hclosed ⊢

theorem contents_posedge : handed r tready ++ contents (posedge r int tvalidInt tready false) =
    contents r ++ taken r int tvalidInt := by
  obtain ⟨hbehind, hclosed⟩ := h
  cases hv : r.tvalid <;> cases ht : r.tempTvalid <;> cases hr : r.treadyInt <;>
    cases tready <;> cases tvalidInt <;>
    simp [handed, contents, taken, posedge, storeIntToOutput, storeIntToTemp, storeTempToOutput,
      hv, ht, hr] at hbehind hclosed ⊢

end Step

end AdcCapture.AxisOutput
