import AdcCapture.AxisOutput
import AdcCapture.Packets

/-!
# Payload of a given length

The payload states of the frame modules count the words down from a length. A
payload that ends early is marked bad. Of a longer one the last word counted is
held back until the payload ends, and what lies between is discarded.
-/

namespace AdcCapture.PayloadLength

open Clocked
open AxisOutput (Word)
set_option autoImplicit false

/-- The word held back has the data `b`; it is sent with the marks of the last word. -/
def cutOff (b : BitVec 8) : List Word → List Word
  | [] => []
  | w :: ws => if w.tlast then [{ w with tdata := b }] else cutOff b ws

/-- `early count` tells that a last word comes too early. -/
def fit (early : BitVec 16 → Bool) (count : BitVec 16) : List Word → List Word
  | [] => []
  | w :: ws =>
    if w.tlast then [if early count then { w with tuser := true } else w]
    else if count = 1#16 then cutOff w.tdata ws
    else w :: fit early (count - 1#16) ws

section Fit
variable {early : BitVec 16 → Bool} {count : BitVec 16} {q : List Word}

theorem cutOff_open (b : BitVec 8) (hq : ∀ w ∈ q, w.tlast = false) : cutOff b q = [] := by
  induction q with
  | nil => rfl
  | cons w ws ih =>
    rw [cutOff, hq w List.mem_cons_self]
    exact ih fun x hx => hq x (List.mem_cons_of_mem w hx)

theorem cutOff_snoc (b : BitVec 8) (hq : ∀ w ∈ q, w.tlast = false) (w : Word) :
    cutOff b (q ++ [w]) = if w.tlast then [{ w with tdata := b }] else [] := by
  induction q with
  | nil => rfl
  | cons x xs ih =>
    rw [List.cons_append, cutOff, hq x List.mem_cons_self]
    exact ih fun y hy => hq y (List.mem_cons_of_mem x hy)

/-- An open payload gives no last word. -/
theorem fit_open (hq : ∀ w ∈ q, w.tlast = false) : ∀ w ∈ fit early count q, w.tlast = false := by
  induction q generalizing count with
  | nil => simp [fit]
  | cons x xs ih =>
    have hx := hq x List.mem_cons_self
    have hxs : ∀ w ∈ xs, w.tlast = false := fun w hw => hq w (List.mem_cons_of_mem x hw)
    rw [fit, hx, if_neg Bool.false_ne_true]
    split
    · rw [cutOff_open _ hxs]
      simp
    · intro w hw
      rcases List.mem_cons.mp hw with rfl | hw
      · exact hx
      · exact ih hxs w hw

theorem isPacket_fit (h : Packets.IsPacket Word.tlast q) :
    Packets.IsPacket Word.tlast (fit early count q) := by
  obtain ⟨xs, w, rfl, hopen, hw⟩ := h
  induction xs generalizing count with
  | nil =>
    rw [List.nil_append, fit, if_pos hw]
    refine ⟨[], _, rfl, by simp, ?_⟩
    split <;> exact hw
  | cons x xs ih =>
    have hx := hopen x List.mem_cons_self
    have hxs : ∀ y ∈ xs, y.tlast = false := fun y hy => hopen y (List.mem_cons_of_mem x hy)
    rw [List.cons_append, fit, hx, if_neg Bool.false_ne_true]
    split
    · rw [cutOff_snoc _ hxs, if_pos hw]
      exact ⟨[], _, rfl, by simp, hw⟩
    · obtain ⟨ys, y, heq, hys, hy⟩ := @ih (count - 1#16) hxs
      rw [heq]
      refine ⟨x :: ys, y, rfl, ?_, hy⟩
      intro z hz
      rcases List.mem_cons.mp hz with rfl | hz
      · exact hx
      · exact hys z hz

theorem cutOff_grow (b : BitVec 8) (q : List Word) (w : Word) :
    cutOff b q <+: cutOff b (q ++ [w]) := by
  induction q with
  | nil => simp [cutOff]
  | cons x xs ih =>
    rw [List.cons_append, cutOff, cutOff]
    split
    · exact ⟨[], by rw [List.append_nil]⟩
    · exact ih

theorem fit_grow (q : List Word) (w : Word) : fit early count q <+: fit early count (q ++ [w]) := by
  induction q generalizing count with
  | nil => simp [fit]
  | cons x xs ih =>
    rw [List.cons_append, fit, fit]
    split
    · exact ⟨[], by rw [List.append_nil]⟩
    · split
      · exact cutOff_grow x.tdata xs w
      · exact (List.prefix_cons_inj x).mpr ih

/-! ## Word by word -/

/-- `more` is what the rest of the payload will give, after the part `q` of it. -/
def Rest (early : BitVec 16 → Bool) (count : BitVec 16) (q : List Word)
    (more : List Word → List Word) : Prop :=
  ∀ qs, fit early count (q ++ qs) = fit early count q ++ more qs

section Rest
variable {left : BitVec 16} {v : Word}

theorem rest_nil (early : BitVec 16 → Bool) (count : BitVec 16) :
    Rest early count [] (fit early count) := by
  intro qs
  rfl

theorem Rest.counted (h : Rest early count q (fit early left)) (hv : v.tlast = false)
    (hne : left ≠ 1#16) : Rest early count (q ++ [v]) (fit early (left - 1#16)) := by
  intro qs
  rw [h [v], List.append_assoc, h, List.append_assoc]
  simp [fit, hv, hne]

/-- The last word counted is held back. -/
theorem Rest.hold (h : Rest early count q (fit early left)) (hv : v.tlast = false)
    (hone : left = 1#16) : Rest early count (q ++ [v]) (cutOff v.tdata) := by
  intro qs
  rw [h [v], List.append_assoc, h, List.append_assoc]
  simp [fit, cutOff, hv, hone]

theorem Rest.discard {b : BitVec 8} (h : Rest early count q (cutOff b)) (hv : v.tlast = false) :
    Rest early count (q ++ [v]) (cutOff b) := by
  intro qs
  rw [h [v], List.append_assoc, h, List.append_assoc]
  simp [cutOff, hv]

end Rest

/-! ## Short, exact and long payloads -/

theorem toNat_pred {c : BitVec 16} (h : 1 < c.toNat) : (c - 1#16).toNat = c.toNat - 1 := by
  have hlt := c.isLt
  rw [BitVec.toNat_sub]
  simp
  omega

theorem ne_one {c : BitVec 16} (h : 1 < c.toNat) : c ≠ 1#16 := by
  rintro rfl
  exact absurd h (by decide)

/-- Words of an open payload before the count ends. -/
theorem fit_append {hdr : List Word} (hopen : ∀ w ∈ hdr, w.tlast = false)
    (hlen : hdr.length < count.toNat) (q : List Word) :
    fit early count (hdr ++ q) = hdr ++ fit early (count - BitVec.ofNat 16 hdr.length) q := by
  induction hdr generalizing count with
  | nil => simp
  | cons x xs ih =>
    rw [List.length_cons] at hlen
    have hlt := count.isLt
    have hpred : (count - 1#16).toNat = count.toNat - 1 := toNat_pred (by omega)
    have hcount : count - 1#16 - BitVec.ofNat 16 xs.length =
        count - BitVec.ofNat 16 (x :: xs).length := by
      rw [List.length_cons, BitVec.ofNat_add]
      apply BitVec.eq_of_toNat_eq
      simp only [BitVec.toNat_sub, BitVec.toNat_add, BitVec.toNat_ofNat]
      omega
    rw [List.cons_append, fit, hopen x List.mem_cons_self, if_neg Bool.false_ne_true,
      if_neg (ne_one (by omega)), ih (fun w hw => hopen w (List.mem_cons_of_mem x hw)) (by omega),
      hcount, List.cons_append]

section Closed
variable {xs : List Word} {w : Word} (hopen : ∀ x ∈ xs, x.tlast = false) (hw : w.tlast = true)
include hopen hw

/-- A payload that ends before its length is marked bad. -/
theorem fit_short (hlen : xs.length + 1 < count.toNat)
    (hearly : ∀ c, 1 < c.toNat → early c = true) :
    fit early count (xs ++ [w]) = xs ++ [{ w with tuser := true }] := by
  have hleft : 1 < (count - BitVec.ofNat 16 xs.length).toNat := by
    have hlt := count.isLt
    simp only [BitVec.toNat_sub, BitVec.toNat_ofNat]
    omega
  rw [fit_append hopen (by omega), fit, if_pos hw, if_pos (hearly _ hleft)]

theorem fit_exact (hlen : xs.length + 1 = count.toNat) (hone : early 1#16 = false) :
    fit early count (xs ++ [w]) = xs ++ [w] := by
  have hleft : count - BitVec.ofNat 16 xs.length = 1#16 := by
    have hlt := count.isLt
    apply BitVec.eq_of_toNat_eq
    simp only [BitVec.toNat_sub, BitVec.toNat_ofNat]
    omega
  rw [fit_append hopen (by omega), fit, if_pos hw, hleft, hone, if_neg Bool.false_ne_true]

/-- Of a longer payload, the last word counted is sent with the marks of the last word. -/
theorem fit_long {v : Word} {ys : List Word} (hv : v.tlast = false)
    (hys : ∀ y ∈ ys, y.tlast = false) (hlen : xs.length + 1 = count.toNat) :
    fit early count (xs ++ v :: (ys ++ [w])) = xs ++ [{ w with tdata := v.tdata }] := by
  have hleft : count - BitVec.ofNat 16 xs.length = 1#16 := by
    have hlt := count.isLt
    apply BitVec.eq_of_toNat_eq
    simp only [BitVec.toNat_sub, BitVec.toNat_ofNat]
    omega
  rw [fit_append hopen (by omega), fit, hv, if_neg Bool.false_ne_true, if_pos hleft,
    cutOff_snoc v.tdata hys, if_pos hw]

end Closed

/-! ## Two modules in a row -/

theorem fit_cutOff {again : BitVec 16 → Bool} (hone : again 1#16 = false) (b : BitVec 8)
    (q : List Word) : fit again 1#16 (cutOff b q) = cutOff b q := by
  induction q with
  | nil => rfl
  | cons x xs ih =>
    rw [cutOff]
    split
    · rename_i hx
      rw [fit, if_pos hx, hone, if_neg Bool.false_ne_true]
    · exact ih

/-- What has been cut to its length passes a second module with the same length. -/
theorem fit_fit {again : BitVec 16 → Bool} (hone : again 1#16 = false)
    (hmark : ∀ n, again n = true → early n = true) (count : BitVec 16) (q : List Word) :
    fit again count (fit early count q) = fit early count q := by
  induction q generalizing count with
  | nil => rfl
  | cons x xs ih =>
    rw [fit]
    split
    · rename_i hlast
      cases ha : again count with
      | true =>
        rw [if_pos (hmark count ha), fit, if_pos hlast, if_pos ha]
      | false =>
        cases early count <;> simp [fit, hlast, ha]
    · rename_i hlast
      split
      · rename_i hc
        rw [hc, fit_cutOff hone]
      · rename_i hc
        rw [fit, if_neg hlast, if_neg hc, ih]

end Fit

end AdcCapture.PayloadLength
