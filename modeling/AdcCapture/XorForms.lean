import Mathlib.Data.List.Basic

/-!
# Exclusive ors of selected bits

A `Form` selects bits of a state word and of a data word; its value is the
exclusive or of the selected bits. Adding forms adds their values, so a circuit
of exclusive ors can be run on forms first and on bits afterwards.
-/

namespace XorForms

set_option autoImplicit false

variable {w d : Nat}

/-- The exclusive or of `f 0`, ..., `f (n - 1)`. -/
def xorUpTo (f : Nat → Bool) : Nat → Bool
  | 0 => false
  | n + 1 => xorUpTo f n ^^ f n

section XorUpTo
variable {f g : Nat → Bool} {n : Nat}

theorem xorUpTo_congr (h : ∀ j, j < n → f j = g j) : xorUpTo f n = xorUpTo g n := by
  induction n with
  | zero => rfl
  | succ n ih =>
    have hn : f n = g n := h n (Nat.lt_succ_self n)
    have hlt : xorUpTo f n = xorUpTo g n := by
      apply ih
      intro j hj
      exact h j (Nat.lt_succ_of_lt hj)
    rw [xorUpTo, xorUpTo, hn, hlt]

theorem xorUpTo_xor (f g : Nat → Bool) (n : Nat) :
    xorUpTo (fun j => f j ^^ g j) n = (xorUpTo f n ^^ xorUpTo g n) := by
  induction n with
  | zero => rfl
  | succ n ih =>
    rw [xorUpTo, xorUpTo, xorUpTo, ih]
    cases f n <;> simp

theorem xorUpTo_false (h : ∀ j, j < n → f j = false) : xorUpTo f n = false := by
  induction n with
  | zero => rfl
  | succ n ih =>
    rw [xorUpTo, h n (Nat.lt_succ_self n), ih fun j hj => h j (Nat.lt_succ_of_lt hj)]
    rfl

theorem xorUpTo_single {i : Nat} (hi : i < n) (h : ∀ j, j ≠ i → f j = false) :
    xorUpTo f n = f i := by
  induction n with
  | zero => omega
  | succ n ih =>
    rw [xorUpTo]
    by_cases hn : i = n
    · subst hn
      rw [xorUpTo_false fun j hj => h j (by omega)]
      exact Bool.false_xor (f i)
    · rw [ih (by omega), h n (by omega), Bool.xor_false]

theorem xorUpTo_add (f : Nat → Bool) (m n : Nat) :
    xorUpTo f (m + n) = (xorUpTo f m ^^ xorUpTo (fun j => f (m + j)) n) := by
  induction n with
  | zero => simp [xorUpTo]
  | succ n ih => rw [← Nat.add_assoc, xorUpTo, ih, xorUpTo, Bool.xor_assoc]

theorem xorUpTo_reflect (f : Nat → Bool) (n : Nat) :
    xorUpTo (fun j => f (n - 1 - j)) n = xorUpTo f n := by
  induction n generalizing f with
  | zero => rfl
  | succ n ih =>
    have hshift : xorUpTo f (1 + n) = (xorUpTo f 1 ^^ xorUpTo (fun j => f (1 + j)) n) :=
      xorUpTo_add f 1 n
    have hfirst : xorUpTo f 1 = f 0 := Bool.false_xor (f 0)
    have hrest : xorUpTo (fun j => f (n + 1 - 1 - j)) n = xorUpTo (fun j => f (1 + j)) n := by
      rw [← ih fun j => f (1 + j)]
      apply xorUpTo_congr
      intro j hj
      congr 1
      omega
    have hlast : n + 1 - 1 - n = 0 := by omega
    rw [xorUpTo, hrest, hlast, Nat.add_comm n 1, hshift, hfirst, Bool.xor_comm]

end XorUpTo

/-- The exclusive or of all bits of a word. -/
def parity (v : BitVec w) : Bool := xorUpTo v.getLsbD w

theorem parity_xor (u v : BitVec w) : parity (u ^^^ v) = (parity u ^^ parity v) := by
  rw [parity, parity, parity, ← xorUpTo_xor]
  exact xorUpTo_congr fun j _ => BitVec.getLsbD_xor

theorem parity_append (u : BitVec w) (v : BitVec d) :
    parity (u ++ v) = (parity u ^^ parity v) := by
  have hlow : xorUpTo (u ++ v).getLsbD d = xorUpTo v.getLsbD d := by
    apply xorUpTo_congr
    intro j hj
    simp [BitVec.getLsbD_append, hj]
  have hhigh : xorUpTo (fun j => (u ++ v).getLsbD (d + j)) w = xorUpTo u.getLsbD w := by
    apply xorUpTo_congr
    intro j _
    simp [BitVec.getLsbD_append]
  calc parity (u ++ v)
      = xorUpTo (u ++ v).getLsbD (d + w) := congrArg (xorUpTo _) (Nat.add_comm w d)
    _ = (parity v ^^ parity u) := by rw [xorUpTo_add, hlow, hhigh, parity, parity]
    _ = (parity u ^^ parity v) := Bool.xor_comm _ _

theorem getLsbD_reverse {j : Nat} (v : BitVec w) (hj : j < w) :
    v.reverse.getLsbD j = v.getLsbD (w - 1 - j) := by
  rw [BitVec.getLsbD_reverse, BitVec.getMsbD]
  simp [hj]

theorem parity_reverse (v : BitVec w) : parity v.reverse = parity v := by
  rw [parity, parity, ← xorUpTo_reflect v.getLsbD w]
  apply xorUpTo_congr
  intro j hj
  exact getLsbD_reverse v hj

theorem parity_and_twoPow (v : BitVec w) (i : Nat) :
    parity (v &&& BitVec.twoPow w i) = v.getLsbD i := by
  by_cases hi : i < w
  · rw [parity, xorUpTo_single hi]
    · simp [hi]
    · intro j hj
      simp [BitVec.getLsbD_twoPow, Ne.symm hj]
  · have hout : v.getLsbD i = false := BitVec.getLsbD_of_ge v i (by omega)
    rw [hout, parity]
    apply xorUpTo_false
    intro j _
    simp [BitVec.getLsbD_twoPow, hi]

theorem parity_zero : parity (0#w) = false :=
  xorUpTo_false fun _ _ => BitVec.getLsbD_zero

/-- The word whose bit `i` is `f i`. -/
def ofBits (f : Fin w → Bool) : BitVec w :=
  (BitVec.ofBoolListLE ((List.finRange w).map f)).cast (by simp)

theorem getLsbD_ofBits (f : Fin w → Bool) (i : Fin w) : (ofBits f).getLsbD i = f i := by
  rw [ofBits, BitVec.getLsbD_cast, BitVec.getLsbD_ofBoolListLE]
  simp

theorem ofBits_eq {f : Fin w → Bool} {v : BitVec w} (h : ∀ i : Fin w, f i = v.getLsbD i) :
    ofBits f = v := by
  apply BitVec.eq_of_getLsbD_eq
  intro i hi
  rw [← h ⟨i, hi⟩, ← getLsbD_ofBits f ⟨i, hi⟩]

@[ext] structure Form (w d : Nat) where
  state : BitVec w
  data : BitVec d
  deriving DecidableEq, Repr

namespace Form

instance : XorOp (Form w d) := ⟨fun a b => ⟨a.state ^^^ b.state, a.data ^^^ b.data⟩⟩

def stateBit (i : Nat) : Form w d := ⟨BitVec.twoPow w i, 0#d⟩

def dataBit (i : Nat) : Form w d := ⟨0#w, BitVec.twoPow d i⟩

def reverse (f : Form w d) : Form w d := ⟨f.state.reverse, f.data.reverse⟩

def eval (s : BitVec w) (x : BitVec d) (f : Form w d) : Bool :=
  parity (s &&& f.state) ^^ parity (x &&& f.data)

variable {s : BitVec w} {x : BitVec d}

@[simp] theorem eval_xor (f g : Form w d) : (f ^^^ g).eval s x = (f.eval s x ^^ g.eval s x) := by
  have hs : s &&& (f.state ^^^ g.state) = (s &&& f.state) ^^^ (s &&& g.state) := by
    apply BitVec.eq_of_getLsbD_eq
    intro i _
    simp [Bool.and_xor_distrib_left]
  have hx : x &&& (f.data ^^^ g.data) = (x &&& f.data) ^^^ (x &&& g.data) := by
    apply BitVec.eq_of_getLsbD_eq
    intro i _
    simp [Bool.and_xor_distrib_left]
  change (parity (s &&& (f.state ^^^ g.state)) ^^ parity (x &&& (f.data ^^^ g.data))) = _
  rw [hs, hx, parity_xor, parity_xor, eval, eval]
  cases parity (s &&& f.state) <;> cases parity (s &&& g.state) <;> simp

@[simp] theorem eval_stateBit (i : Nat) : (stateBit i : Form w d).eval s x = s.getLsbD i := by
  simp [eval, stateBit, parity_and_twoPow, parity_zero]

@[simp] theorem eval_dataBit (i : Nat) : (dataBit i : Form w d).eval s x = x.getLsbD i := by
  simp [eval, dataBit, parity_and_twoPow, parity_zero]

theorem reverse_and (u v : BitVec w) : (u &&& v).reverse = u.reverse &&& v.reverse := by
  apply BitVec.eq_of_getLsbD_eq
  intro i _
  simp [BitVec.getLsbD_reverse]

theorem eval_reverse (f : Form w d) : f.reverse.eval s x = f.eval s.reverse x.reverse := by
  have hs : s &&& f.state.reverse = (s.reverse &&& f.state).reverse := by
    rw [reverse_and, BitVec.reverse_reverse_eq]
  have hx : x &&& f.data.reverse = (x.reverse &&& f.data).reverse := by
    rw [reverse_and, BitVec.reverse_reverse_eq]
  simp only [eval, reverse, hs, hx, parity_reverse]

/-- A loop that adds the forms that `c` selects. -/
theorem eval_foldl_xor {n : Nat} (c : Fin n → Bool) (g : Fin n → Form w d) (v : Form w d) :
    ((List.finRange n).foldl (fun v j => if c j then g j ^^^ v else v) v).eval s x =
      (xorUpTo (fun j => if h : j < n then c ⟨j, h⟩ && (g ⟨j, h⟩).eval s x else false) n ^^
        v.eval s x) := by
  induction n with
  | zero => simp [xorUpTo]
  | succ n ih =>
    have hlast : (Fin.last n : Fin (n + 1)) = ⟨n, Nat.lt_succ_self n⟩ := rfl
    have hrest : xorUpTo (fun j => if h : j < n + 1 then
          c ⟨j, h⟩ && (g ⟨j, h⟩).eval s x else false) n =
        xorUpTo (fun j => if h : j < n then
          c (Fin.castSucc ⟨j, h⟩) && (g (Fin.castSucc ⟨j, h⟩)).eval s x else false) n := by
      apply xorUpTo_congr
      intro j hj
      simp [hj, Nat.lt_succ_of_lt hj]
    rw [List.finRange_succ_last, List.foldl_append, List.foldl_map, List.foldl_cons,
      List.foldl_nil, xorUpTo, hrest]
    have ih' := ih (fun j => c j.castSucc) (fun j => g j.castSucc)
    cases hc : c (Fin.last n) with
    | false => simp [hlast ▸ hc, ih']
    | true =>
      simp only [if_true, eval_xor, ih', Nat.lt_succ_self, dite_true, ← hlast, hc, Bool.true_and]
      cases (g (Fin.last n)).eval s x <;> simp

end Form

end XorForms
