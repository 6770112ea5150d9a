import Mathlib.Data.List.Basic

/-!
# Ideal in-order FIFOs with ports of different widths

A `Fifo α cap` holds at most `cap` units. The write port offers a whole word of
units, which is stored only if all of it fits; the read port removes `r` units
at a time and only if `r` of them are there. Both flags are exact: they are
computed from the contents before the clock edge. A word offered to a FIFO
without room is dropped, also when a word is read in the same clock.
-/

namespace Clocked

set_option autoImplicit false

universe u

@[ext] structure Fifo (α : Type u) (cap : Nat) where
  units : List α
  bounded : units.length ≤ cap

namespace Fifo

variable {α : Type u} {cap : Nat}

def nil : Fifo α cap := ⟨[], Nat.zero_le _⟩

def empty (r : Nat) (f : Fifo α cap) : Bool := decide (f.units.length < r)

def full (w : Nat) (f : Fifo α cap) : Bool := decide (cap < f.units.length + w)

/-- The units that leave through the read port at this edge. -/
def taken (r : Nat) (rdEn : Bool) (f : Fifo α cap) : List α :=
  if rdEn && !f.empty r then f.units.take r else []

/-- The units that enter through the write port at this edge. -/
def stored (din : Option (List α)) (f : Fifo α cap) : List α :=
  match din with
  | none => []
  | some ws => if f.full ws.length then [] else ws

theorem stored_length_le (din : Option (List α)) (f : Fifo α cap) :
    f.units.length + (f.stored din).length ≤ cap := by
  have hb := f.bounded
  unfold stored full
  cases din with
  | none => simpa using hb
  | some ws =>
    by_cases h : cap < f.units.length + ws.length
    · simpa [h] using hb
    · simp [h]; omega

def step (r : Nat) (rdEn : Bool) (din : Option (List α)) (f : Fifo α cap) : Fifo α cap where
  units := f.units.drop (f.taken r rdEn).length ++ f.stored din
  bounded := by
    have := f.stored_length_le din
    simp only [List.length_append, List.length_drop]
    omega

@[simp] theorem nil_units : (nil : Fifo α cap).units = [] := rfl

theorem step_units (r : Nat) (rdEn : Bool) (din : Option (List α)) (f : Fifo α cap) :
    (f.step r rdEn din).units = f.units.drop (f.taken r rdEn).length ++ f.stored din := rfl

theorem taken_append_drop (r : Nat) (rdEn : Bool) (f : Fifo α cap) :
    f.taken r rdEn ++ f.units.drop (f.taken r rdEn).length = f.units := by
  unfold taken empty
  split
  · rename_i h
    simp only [Bool.and_eq_true, Bool.not_eq_true', decide_eq_false_iff_not, Nat.not_lt] at h
    rw [List.length_take, Nat.min_eq_left h.2, List.take_append_drop]
  · simp

/-- Nothing is lost, duplicated or reordered in one clock. -/
theorem taken_append_step (r : Nat) (rdEn : Bool) (din : Option (List α)) (f : Fifo α cap) :
    f.taken r rdEn ++ (f.step r rdEn din).units = f.units ++ f.stored din := by
  rw [step_units, ← List.append_assoc, taken_append_drop]

@[simp] theorem stored_none (f : Fifo α cap) : f.stored none = [] := rfl

@[simp] theorem taken_false (r : Nat) (f : Fifo α cap) : f.taken r false = [] := by simp [taken]

theorem empty_one_iff (f : Fifo α cap) : f.empty 1 = true ↔ f.units = [] := by
  simp [empty, List.length_eq_zero_iff]

theorem empty_one_eq_false_iff (f : Fifo α cap) : f.empty 1 = false ↔ f.units ≠ [] := by
  rw [← Bool.not_eq_true, empty_one_iff]

theorem full_eq_false_of_units_nil {w : Nat} (hw : w ≤ cap) {f : Fifo α cap} (h : f.units = []) :
    f.full w = false := by
  simp [full, h, hw]

theorem taken_one {f : Fifo α cap} {x : α} {xs : List α} (h : f.units = x :: xs) :
    f.taken 1 true = [x] := by
  simp [taken, empty, h]

end Fifo

end Clocked
