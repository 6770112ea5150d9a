import Mathlib.Data.List.Basic

/-!
# Registers written and read byte by byte

Bytes are counted from the low end of a register, and listed from the high end,
as they stand on a wire.
-/

namespace ByteFields

set_option autoImplicit false

variable {w : Nat}

def byte (x : BitVec w) (k : Nat) : BitVec 8 := x.extractLsb' (8 * k) 8

def setByte (x : BitVec w) (k : Nat) (b : BitVec 8) : BitVec w :=
  (x &&& ~~~(255#w <<< (8 * k))) ||| (b.setWidth w <<< (8 * k))

/-- The low `n` bytes, the highest one first. -/
def bigEndian (x : BitVec w) : Nat → List (BitVec 8)
  | 0 => []
  | n + 1 => byte x n :: bigEndian x n

theorem getLsbD_setByte (x : BitVec w) (k : Nat) (b : BitVec 8) {i : Nat} (hi : i < w) :
    (setByte x k b).getLsbD i =
      if 8 * k ≤ i ∧ i < 8 * k + 8 then b.getLsbD (i - 8 * k) else x.getLsbD i := by
  have h255 (j : Nat) (hj : j < w) : (255#w).getLsbD j = decide (j < 8) := by
    rw [BitVec.getLsbD_ofNat, decide_eq_true hj, Bool.true_and]
    exact Nat.testBit_two_pow_sub_one 8 j
  simp only [setByte, BitVec.getLsbD_or, BitVec.getLsbD_and, BitVec.getLsbD_not,
    BitVec.getLsbD_shiftLeft, BitVec.getLsbD_setWidth, hi, decide_true, Bool.true_and]
  by_cases hlo : i < 8 * k
  · have hout : ¬ (8 * k ≤ i ∧ i < 8 * k + 8) := by omega
    rw [if_neg hout, decide_eq_true hlo]
    simp
  · rw [h255 (i - 8 * k) (by omega)]
    by_cases hhi : i < 8 * k + 8
    · have h1 : i - 8 * k < 8 := by omega
      have h2 : i - 8 * k < w := by omega
      simp [hlo, hhi, h1, h2]
    · have h1 : ¬ i - 8 * k < 8 := by omega
      have h2 : b.getLsbD (i - 8 * k) = false := BitVec.getLsbD_of_ge b _ (by omega)
      simp [hlo, hhi, h1, h2]

theorem byte_setByte_self (x : BitVec w) (b : BitVec 8) {k : Nat} (hk : 8 * k + 8 ≤ w) :
    byte (setByte x k b) k = b := by
  apply BitVec.eq_of_getLsbD_eq
  intro i hi
  rw [byte, BitVec.getLsbD_extractLsb', getLsbD_setByte x k b (by omega)]
  have hin : 8 * k ≤ 8 * k + i ∧ 8 * k + i < 8 * k + 8 := by omega
  have hsub : 8 * k + i - 8 * k = i := by omega
  simp [hi, hin, hsub]

theorem byte_setByte_of_ne (x : BitVec w) (b : BitVec 8) {j k : Nat} (hne : j ≠ k) :
    byte (setByte x k b) j = byte x j := by
  apply BitVec.eq_of_getLsbD_eq
  intro i hi
  rw [byte, byte, BitVec.getLsbD_extractLsb', BitVec.getLsbD_extractLsb']
  by_cases hw : 8 * j + i < w
  · rw [getLsbD_setByte x k b hw, if_neg (by omega)]
  · rw [BitVec.getLsbD_of_ge _ _ (by omega), BitVec.getLsbD_of_ge _ _ (by omega)]

theorem bigEndian_inj (n : Nat) (x y : BitVec (8 * n)) (h : bigEndian x n = bigEndian y n) :
    x = y := by
  have hbytes (m : Nat) (hm : bigEndian x m = bigEndian y m) : ∀ k < m, byte x k = byte y k := by
    induction m with
    | zero => simp
    | succ m ih =>
      rw [bigEndian, bigEndian, List.cons.injEq] at hm
      intro k hk
      rcases Nat.lt_succ_iff_lt_or_eq.mp hk with hk | rfl
      · exact ih hm.2 k hk
      · exact hm.1
  apply BitVec.eq_of_getLsbD_eq
  intro i hi
  have hsame := congrArg (fun b => b.getLsbD (i % 8)) (hbytes n h (i / 8) (by omega))
  simp only [byte, BitVec.getLsbD_extractLsb'] at hsame
  have hmod : i % 8 < 8 := Nat.mod_lt i (by decide)
  rwa [Nat.div_add_mod, decide_eq_true hmod, Bool.true_and, Bool.true_and] at hsame

theorem byte_not (x : BitVec w) {k : Nat} (hk : 8 * k + 8 ≤ w) : byte (~~~x) k = ~~~byte x k := by
  apply BitVec.eq_of_getLsbD_eq
  intro i hi
  have hin : 8 * k + i < w := by omega
  rw [byte, byte, BitVec.getLsbD_extractLsb', BitVec.getLsbD_not, BitVec.getLsbD_not,
    BitVec.getLsbD_extractLsb', decide_eq_true hi, decide_eq_true hin]
  simp only [Bool.true_and]

/-! ## Fields that share a byte -/

variable {m n : Nat}

theorem append_inj {a c : BitVec m} {b d : BitVec n} (h : a ++ b = c ++ d) : a = c ∧ b = d := by
  have hhigh := congrArg (BitVec.extractLsb' n m) h
  have hlow := congrArg (BitVec.extractLsb' 0 n) h
  rw [BitVec.extractLsb'_append_eq_left, BitVec.extractLsb'_append_eq_left] at hhigh
  rw [BitVec.extractLsb'_append_eq_right, BitVec.extractLsb'_append_eq_right] at hlow
  exact ⟨hhigh, hlow⟩

end ByteFields
