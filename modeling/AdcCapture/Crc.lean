import Mathlib.Data.List.Basic

/-!
# Cyclic redundancy checks, one bit at a time

A reflected check register of any width: each bit of the message shifts the
register right and adds the polynomial when the bits disagree. The polynomial
has its top bit set. Messages are lists of bits in the order they are sent.
-/

namespace Crc

set_option autoImplicit false

variable {w : Nat}

def lsbFirst {n : Nat} (v : BitVec n) : List Bool := (List.range n).map v.getLsbD

@[simp] theorem length_lsbFirst {n : Nat} (v : BitVec n) : (lsbFirst v).length = n := by
  simp [lsbFirst]

theorem lsbFirst_inj {n : Nat} {u v : BitVec n} : lsbFirst u = lsbFirst v ↔ u = v := by
  constructor
  · intro h
    apply BitVec.eq_of_getLsbD_eq
    intro i hi
    have hget := congrArg (fun l => l[i]?) h
    simpa [lsbFirst, hi] using hget
  · intro h
    rw [h]

def bitStep (q : BitVec w) (s : BitVec w) (b : Bool) : BitVec w :=
  (s >>> 1) ^^^ (if s.getLsbD 0 ^^ b then q else 0#w)

def crc (q : BitVec w) (s : BitVec w) (bs : List Bool) : BitVec w := bs.foldl (bitStep q) s

section Laws
variable {q : BitVec w}

@[simp] theorem crc_nil (s : BitVec w) : crc q s [] = s := rfl

@[simp] theorem crc_cons (s : BitVec w) (b : Bool) (bs : List Bool) :
    crc q s (b :: bs) = crc q (bitStep q s b) bs := rfl

theorem crc_append (s : BitVec w) (as bs : List Bool) :
    crc q s (as ++ bs) = crc q (crc q s as) bs := List.foldl_append

theorem bitStep_xor (s t : BitVec w) (a b : Bool) :
    bitStep q (s ^^^ t) (a ^^ b) = bitStep q s a ^^^ bitStep q t b := by
  apply BitVec.eq_of_getLsbD_eq
  intro i _
  have hite (c : Bool) : (if c then q else 0#w).getLsbD i = (c && q.getLsbD i) := by
    cases c <;> simp
  simp only [bitStep, BitVec.getLsbD_xor, BitVec.getLsbD_ushiftRight, hite]
  generalize s.getLsbD (1 + i) = x
  generalize t.getLsbD (1 + i) = y
  generalize s.getLsbD 0 = u
  generalize t.getLsbD 0 = v
  generalize q.getLsbD i = z
  revert x y u v z a b
  decide

/-- The register is linear in its contents and the message. -/
theorem crc_xor {as bs : List Bool} (h : as.length = bs.length) (s t : BitVec w) :
    crc q (s ^^^ t) (List.zipWith xor as bs) = crc q s as ^^^ crc q t bs := by
  induction as generalizing s t bs with
  | nil =>
    cases bs with
    | nil => rfl
    | cons b bs => simp at h
  | cons a as ih =>
    cases bs with
    | nil => simp at h
    | cons b bs =>
      simp only [List.zipWith_cons_cons, crc_cons, bitStep_xor]
      exact ih (by simpa using h) _ _

/-- The top bit of the register after a step is the sum of the two bits before it. -/
theorem bitStep_top (hq : q.getLsbD (w - 1) = true) (s : BitVec w) (b : Bool) :
    (bitStep q s b).getLsbD (w - 1) = (s.getLsbD 0 ^^ b) := by
  have hs : s.getLsbD (1 + (w - 1)) = false := BitVec.getLsbD_of_ge _ _ (by omega)
  rw [bitStep, BitVec.getLsbD_xor, BitVec.getLsbD_ushiftRight, hs]
  cases s.getLsbD 0 ^^ b <;> simp [hq]

/-- A message no longer than the register that clears it is what the register held. -/
theorem crc_eq_zero (hq : q.getLsbD (w - 1) = true) {s : BitVec w} {bs : List Bool}
    (hlen : bs.length ≤ w) (h : crc q s bs = 0#w) :
    s >>> bs.length = 0#w ∧ bs = (List.range bs.length).map s.getLsbD := by
  induction bs generalizing s with
  | nil => exact ⟨by simpa using h, rfl⟩
  | cons b bs ih =>
    rw [List.length_cons] at hlen
    obtain ⟨hshift, hbits⟩ := ih (by omega) h
    -- nothing is left of the register above the rest of the message: no feedback
    have htop : (bitStep q s b).getLsbD (w - 1) = false := by
      have hbit := congrArg (fun v => v.getLsbD (w - 1 - bs.length)) hshift
      have hidx : bs.length + (w - 1 - bs.length) = w - 1 := by omega
      simpa [BitVec.getLsbD_ushiftRight, hidx] using hbit
    rw [bitStep_top hq] at htop
    have hb : b = s.getLsbD 0 := by
      cases b <;> simpa using htop
    have hstep : bitStep q s b = s >>> 1 := by
      simp [bitStep, htop]
    rw [hstep] at hshift hbits
    constructor
    · rw [← BitVec.shiftRight_add, Nat.add_comm] at hshift
      exact hshift
    · rw [List.length_cons, List.range_succ_eq_map, List.map_cons, ← hb, List.map_map]
      congr 1
      conv => lhs; rw [hbits]
      apply List.map_congr_left
      intro i _
      simp [BitVec.getLsbD_ushiftRight, Nat.add_comm]

theorem zipWith_xor_self_false {as bs : List Bool} (hlen : as.length = bs.length)
    (h : ∀ c ∈ List.zipWith xor as bs, c = false) : as = bs := by
  induction as generalizing bs with
  | nil =>
    cases bs with
    | nil => rfl
    | cons b bs => simp at hlen
  | cons a as ih =>
    cases bs with
    | nil => simp at hlen
    | cons b bs =>
      simp only [List.zipWith_cons_cons, List.mem_cons, forall_eq_or_imp] at h
      have hab : a = b := by
        have h1 := h.1
        cases a <;> cases b <;> simp_all
      rw [hab, ih (by simpa using hlen) h.2]

/-- From one register, two messages of one length up to the width give two results. -/
theorem crc_short_inj (hq : q.getLsbD (w - 1) = true) (s : BitVec w) {as bs : List Bool}
    (hlen : as.length = bs.length) (hw : as.length ≤ w) (h : crc q s as = crc q s bs) :
    as = bs := by
  have hx := crc_xor (q := q) hlen s s
  rw [h, BitVec.xor_self, BitVec.xor_self] at hx
  obtain ⟨_, hbits⟩ := crc_eq_zero hq (by simp; omega) hx
  apply zipWith_xor_self_false hlen
  intro c hc
  rw [hbits] at hc
  obtain ⟨i, _, rfl⟩ := List.mem_map.mp hc
  exact BitVec.getLsbD_zero

theorem bitStep_inj (hq : q.getLsbD (w - 1) = true) {s t : BitVec w} {b : Bool}
    (h : bitStep q s b = bitStep q t b) : s = t := by
  have hfeed : (s.getLsbD 0 ^^ b) = (t.getLsbD 0 ^^ b) := by
    rw [← bitStep_top hq, ← bitStep_top hq, h]
  have h0 : s.getLsbD 0 = t.getLsbD 0 := by
    revert hfeed
    cases b <;> simp
  have hshift : s >>> 1 = t >>> 1 := by
    rw [bitStep, bitStep, hfeed] at h
    have h' := congrArg (· ^^^ (if t.getLsbD 0 ^^ b then q else 0#w)) h
    simpa [BitVec.xor_assoc] using h'
  apply BitVec.eq_of_getLsbD_eq
  intro i _
  cases i with
  | zero => exact h0
  | succ i =>
    have hi := congrArg (fun v => v.getLsbD i) hshift
    simpa [BitVec.getLsbD_ushiftRight, Nat.add_comm] using hi

theorem crc_inj (hq : q.getLsbD (w - 1) = true) {s t : BitVec w} (bs : List Bool)
    (h : crc q s bs = crc q t bs) : s = t := by
  induction bs generalizing s t with
  | nil => exact h
  | cons b bs ih => exact bitStep_inj hq (ih h)

/-- A burst of errors no longer than the register changes the result. -/
theorem crc_burst (hq : q.getLsbD (w - 1) = true) (s : BitVec w) {as xs ys bs : List Bool}
    (hlen : xs.length = ys.length) (hw : xs.length ≤ w)
    (h : crc q s (as ++ xs ++ bs) = crc q s (as ++ ys ++ bs)) : xs = ys := by
  rw [crc_append, crc_append, crc_append, crc_append] at h
  exact crc_short_inj hq _ hlen hw (crc_inj hq bs h)

/-! ## The residue -/

/-- The register's own bits shift it out without feedback. -/
theorem crc_own_bits (s : BitVec w) (n : Nat) :
    crc q s ((List.range n).map s.getLsbD) = s >>> n := by
  induction n generalizing s with
  | zero => simp
  | succ n ih =>
    have hstep : bitStep q s (s.getLsbD 0) = s >>> 1 := by simp [bitStep]
    have hbits : (List.range n).map (s.getLsbD ∘ Nat.succ) =
        (List.range n).map (s >>> 1).getLsbD := by
      apply List.map_congr_left
      intro i _
      simp [BitVec.getLsbD_ushiftRight, Nat.add_comm]
    rw [List.range_succ_eq_map, List.map_cons, List.map_map, crc_cons, hstep, hbits, ih,
      ← BitVec.shiftRight_add, Nat.add_comm]

/-- What the register holds after any message and the complement of its check. -/
def residue (q : BitVec w) : BitVec w := crc q 0#w (List.replicate w true)

theorem crc_complement (s : BitVec w) : crc q s (lsbFirst (~~~s)) = residue q := by
  have hbits : lsbFirst (~~~s) = List.zipWith xor (lsbFirst s) (List.replicate w true) := by
    apply List.ext_getElem
    · simp
    · intro i hi _
      have hw : i < w := by simpa using hi
      simp [lsbFirst, hw]
  have hzero : s >>> w = 0#w := by
    apply BitVec.eq_of_getLsbD_eq
    intro i _
    simp [BitVec.getLsbD_ushiftRight]
  calc crc q s (lsbFirst (~~~s))
      = crc q (s ^^^ 0#w) (List.zipWith xor (lsbFirst s) (List.replicate w true)) := by
        rw [hbits, BitVec.xor_zero]
    _ = crc q s (lsbFirst s) ^^^ residue q := crc_xor (by simp) s 0#w
    _ = residue q := by rw [lsbFirst, crc_own_bits, hzero, BitVec.zero_xor]

end Laws

end Crc
