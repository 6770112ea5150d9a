import Mathlib.Algebra.Order.Ring.Nat
import Mathlib.Data.Nat.ModEq

/-!
# One's complement sums

Addition with end-around carry on words of any width, the sum of a list of
words, and the complement that completes a sum to all ones. Sums are compared
through `rep`, the value a natural number folds to.
-/

namespace OnesComplement

set_option autoImplicit false

variable {w : Nat}

/-- What `n` folds to when every carry out of the word is added back. -/
def rep (w n : Nat) : Nat := if n = 0 then 0 else (n - 1) % (2 ^ w - 1) + 1

theorem rep_of_le {n : Nat} (h : n ≤ 2 ^ w - 1) : rep w n = n := by
  unfold rep
  split
  · omega
  · rw [Nat.mod_eq_of_lt (by omega)]
    omega

theorem rep_pos {n : Nat} (h : 0 < n) : 0 < rep w n := by
  have hn : n ≠ 0 := by omega
  rw [rep, if_neg hn]
  omega

theorem rep_le (hw : 0 < w) (n : Nat) : rep w n ≤ 2 ^ w - 1 := by
  have hpow : 2 ^ 1 ≤ 2 ^ w := Nat.pow_le_pow_right (by decide) hw
  have hlt : (n - 1) % (2 ^ w - 1) < 2 ^ w - 1 := Nat.mod_lt _ (by omega)
  unfold rep
  split <;> omega

/-- Folding keeps the value modulo all ones. -/
theorem rep_modEq (n : Nat) : rep w n ≡ n [MOD 2 ^ w - 1] := by
  unfold rep
  split
  · rename_i h
    rw [h]
  · have hmod : (n - 1) % (2 ^ w - 1) + 1 ≡ n - 1 + 1 [MOD 2 ^ w - 1] :=
      (Nat.mod_modEq _ _).add_right 1
    have hn : n - 1 + 1 = n := by omega
    rwa [hn] at hmod

/-- A positive value up to all ones is known from its residue. -/
theorem rep_unique {m n : Nat} (hm : 0 < m) (hle : m ≤ 2 ^ w - 1) (hn : 0 < n)
    (h : m ≡ n [MOD 2 ^ w - 1]) : rep w n = m := by
  have hpred : m - 1 ≡ n - 1 [MOD 2 ^ w - 1] := by
    apply Nat.ModEq.add_right_cancel' 1
    have h1 : m - 1 + 1 = m := by omega
    have h2 : n - 1 + 1 = n := by omega
    rwa [h1, h2]
  have hmod : (n - 1) % (2 ^ w - 1) = m - 1 := by
    rw [← Nat.mod_eq_of_lt (show m - 1 < 2 ^ w - 1 by omega)]
    exact hpred.symm
  have hn0 : n ≠ 0 := by omega
  rw [rep, if_neg hn0, hmod]
  omega

theorem rep_add_rep (hw : 0 < w) (m n : Nat) : rep w (rep w m + n) = rep w (m + n) := by
  by_cases hz : m + n = 0
  · have hm : m = 0 := by omega
    have hn : n = 0 := by omega
    rw [hm, hn]
    rfl
  · have hpos : 0 < m + n := by omega
    have hpos' : 0 < rep w m + n := by
      rcases Nat.eq_zero_or_pos m with hm | hm
      · omega
      · have h := rep_pos (w := w) hm
        omega
    symm
    apply rep_unique (rep_pos hpos') (rep_le hw _) hpos
    exact (rep_modEq _).trans ((rep_modEq m).add_right n)

def add (a b : BitVec w) : BitVec w :=
  if 2 ^ w ≤ a.toNat + b.toNat then a + b + 1#w else a + b

theorem toNat_add (hw : 0 < w) (a b : BitVec w) : (add a b).toNat = rep w (a.toNat + b.toNat) := by
  have hpow : 2 ^ 1 ≤ 2 ^ w := Nat.pow_le_pow_right (by decide) hw
  have ha := a.isLt
  have hb := b.isLt
  unfold add
  split
  · rename_i hc
    have hsum : (a + b).toNat = a.toNat + b.toNat - 2 ^ w := by
      rw [BitVec.toNat_add, Nat.mod_eq_sub_mod hc, Nat.mod_eq_of_lt (by omega)]
    have hone : (1#w).toNat = 1 := by
      rw [BitVec.toNat_ofNat, Nat.mod_eq_of_lt (by omega)]
    have hval : (a + b + 1#w).toNat = a.toNat + b.toNat - (2 ^ w - 1) := by
      rw [BitVec.toNat_add, hsum, hone, Nat.mod_eq_of_lt (by omega)]
      omega
    rw [hval]
    symm
    apply rep_unique (by omega) (by omega) (by omega)
    have hle : 2 ^ w - 1 ≤ a.toNat + b.toNat := by omega
    exact (Nat.modEq_iff_dvd' (Nat.sub_le _ _)).mpr ⟨1, by omega⟩
  · rename_i hc
    rw [BitVec.toNat_add, Nat.mod_eq_of_lt (by omega), rep_of_le (by omega)]

def sum (ws : List (BitVec w)) : BitVec w := ws.foldl add 0#w

def total (ws : List (BitVec w)) : Nat := (ws.map BitVec.toNat).sum

theorem total_append (us vs : List (BitVec w)) : total (us ++ vs) = total us + total vs := by
  simp [total]

theorem toNat_foldl_add (hw : 0 < w) (ws : List (BitVec w)) (s : BitVec w) :
    (ws.foldl add s).toNat = rep w (s.toNat + total ws) := by
  induction ws generalizing s with
  | nil =>
    have hs := s.isLt
    rw [List.foldl_nil, total, List.map_nil, List.sum_nil, Nat.add_zero, rep_of_le (by omega)]
  | cons v ws ih =>
    rw [List.foldl_cons, ih, toNat_add hw, rep_add_rep hw]
    congr 1
    simp [total]
    omega

/-- The order of the words does not matter, only their total. -/
theorem toNat_sum (hw : 0 < w) (ws : List (BitVec w)) : (sum ws).toNat = rep w (total ws) := by
  rw [sum, toNat_foldl_add hw]
  simp

theorem sum_singleton (hw : 0 < w) (v : BitVec w) : sum [v] = v := by
  have hv := v.isLt
  apply BitVec.eq_of_toNat_eq
  rw [toNat_sum hw, total, List.map_singleton, List.sum_singleton, rep_of_le (by omega)]

/-- The complement of what the total folds to completes a sum to all ones. -/
theorem sum_complement (hw : 0 < w) {us vs : List (BitVec w)} {n : Nat} {c : BitVec w}
    (htotal : total us + total vs = n) (hn : 0 < n) (hc : c.toNat = 2 ^ w - 1 - rep w n) :
    sum (us ++ c :: vs) = BitVec.allOnes w := by
  apply BitVec.eq_of_toNat_eq
  have hall : total (us ++ c :: vs) = n + (2 ^ w - 1 - rep w n) := by
    rw [total_append, ← hc, ← htotal]
    simp [total]
    omega
  have hpow : 2 ^ 1 ≤ 2 ^ w := Nat.pow_le_pow_right (by decide) hw
  have hle := rep_le hw n
  rw [toNat_sum hw, hall, BitVec.toNat_allOnes]
  apply rep_unique (by omega) (Nat.le_refl _) (by omega)
  have hmod : rep w n + (2 ^ w - 1 - rep w n) ≡ n + (2 ^ w - 1 - rep w n) [MOD 2 ^ w - 1] :=
    (rep_modEq n).add_right _
  have hones : rep w n + (2 ^ w - 1 - rep w n) = 2 ^ w - 1 := by omega
  rwa [hones] at hmod

/-! ## Bytes as big-endian words -/

/-- Pairs of bytes, the first one on top; a last single byte is padded with zeros. -/
def words : List (BitVec 8) → List (BitVec 16)
  | [] => []
  | [a] => [a ++ 0#8]
  | a :: b :: bs => (a ++ b) :: words bs

theorem toNat_append_byte (a b : BitVec 8) : (a ++ b).toNat = 256 * a.toNat + b.toNat := by
  rw [BitVec.toNat_append, Nat.shiftLeft_eq, Nat.mul_comm]
  exact (Nat.two_pow_add_eq_or_of_lt b.isLt a.toNat).symm

theorem total_words_snoc (bs : List (BitVec 8)) (c : BitVec 8) : total (words (bs ++ [c])) =
    total (words bs) + if bs.length % 2 = 0 then 256 * c.toNat else c.toNat := by
  induction bs using words.induct with
  | case1 => simp [words, total, toNat_append_byte]
  | case2 a => simp [words, total, toNat_append_byte]
  | case3 a b bs ih =>
    have hlen : (a :: b :: bs).length % 2 = bs.length % 2 := by
      simp only [List.length_cons]
      omega
    simp only [total] at ih
    simp only [hlen, List.cons_append, words, total, List.map_cons, List.sum_cons, ih]
    omega

end OnesComplement
