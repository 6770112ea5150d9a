import Mathlib.Algebra.Order.Ring.Nat

/-!
# Gray codes

A counter that is read from another clock domain is sent as a Gray code: two
successive counts differ in one bit, so that any mixture of the bits of two
successive codes is one of the two.
-/

namespace Gray

set_option autoImplicit false

variable {w : Nat}

def encode (x : BitVec w) : BitVec w := x ^^^ (x >>> 1)

/-- What is sampled while `old` turns into `new`: every bit is either one. -/
def mix (sel old new : BitVec w) : BitVec w := (old &&& ~~~sel) ||| (new &&& sel)

theorem getLsbD_encode (x : BitVec w) (i : Nat) :
    (encode x).getLsbD i = (x.getLsbD i ^^ x.getLsbD (i + 1)) := by
  simp [encode, Nat.add_comm 1 i]

theorem encode_xor (x y : BitVec w) : encode x ^^^ encode y = encode (x ^^^ y) := by
  apply BitVec.eq_of_getLsbD_eq
  intro i _
  simp only [BitVec.getLsbD_xor, getLsbD_encode]
  cases x.getLsbD i <;> cases y.getLsbD i <;> simp

theorem getLsbD_eq_false_of_encode {x : BitVec w} {n : Nat}
    (h : ∀ i, n ≤ i → (encode x).getLsbD i = false) {i : Nat} (hi : n ≤ i) :
    x.getLsbD i = false := by
  by_cases hw : w ≤ i
  · exact BitVec.getLsbD_of_ge x i hw
  · have hnext := getLsbD_eq_false_of_encode h (Nat.le_succ_of_le hi)
    have hcode := h i hi
    rwa [getLsbD_encode, hnext, Bool.xor_false] at hcode
  termination_by w - i

theorem encode_injective {x y : BitVec w} (h : encode x = encode y) : x = y := by
  have hzero : encode (x ^^^ y) = 0#w := by rw [← encode_xor, h, BitVec.xor_self]
  apply BitVec.eq_of_getLsbD_eq
  intro i _
  have hbit := getLsbD_eq_false_of_encode (x := x ^^^ y) (n := 0)
    (fun j _ => by rw [hzero, BitVec.getLsbD_zero]) (Nat.zero_le i)
  rw [BitVec.getLsbD_xor] at hbit
  simpa using hbit

/-! ## Successive counts -/

/-- Counting one up flips the lowest bits, up to some bit `k`. -/
theorem testBit_xor_succ (n : Nat) : ∃ k, ∀ i, (n ^^^ (n + 1)).testBit i = decide (i ≤ k) := by
  induction n using Nat.strongRecOn with
  | ind n ih =>
    rcases Nat.mod_two_eq_zero_or_one n with h | h
    · refine ⟨0, ?_⟩
      intro i
      have hdiv : (n + 1) / 2 = n / 2 := by omega
      cases i with
      | zero =>
        simp [Nat.testBit_zero]
        omega
      | succ i =>
        rw [Nat.testBit_xor, Nat.testBit_succ, Nat.testBit_succ, hdiv]
        simp
    · obtain ⟨k, hk⟩ := ih (n / 2) (by omega)
      refine ⟨k + 1, ?_⟩
      intro i
      have hdiv : (n + 1) / 2 = n / 2 + 1 := by omega
      cases i with
      | zero =>
        simp [Nat.testBit_zero]
        omega
      | succ i =>
        have hi := hk i
        rw [Nat.testBit_xor] at hi
        rw [Nat.testBit_xor, Nat.testBit_succ, Nat.testBit_succ, hdiv, hi]
        simp

theorem exists_bit_of_ne (n : Nat) : ∃ k, ∀ i,
    (encode (BitVec.ofNat w n)).getLsbD i ≠ (encode (BitVec.ofNat w (n + 1))).getLsbD i →
      i = k := by
  obtain ⟨k, hk⟩ := testBit_xor_succ n
  refine ⟨min k (w - 1), ?_⟩
  intro i hi
  have hflip : ∀ j, (BitVec.ofNat w n ^^^ BitVec.ofNat w (n + 1)).getLsbD j =
      decide (j < w ∧ j ≤ k) := by
    intro j
    have hj := hk j
    rw [Nat.testBit_xor] at hj
    rw [BitVec.getLsbD_xor, BitVec.getLsbD_ofNat, BitVec.getLsbD_ofNat, ← Bool.and_xor_distrib_left,
      hj, Bool.decide_and]
  have hne : (encode (BitVec.ofNat w n ^^^ BitVec.ofNat w (n + 1))).getLsbD i = true := by
    rw [← encode_xor, BitVec.getLsbD_xor]
    simpa using hi
  rw [getLsbD_encode, hflip, hflip] at hne
  by_cases h1 : i < w ∧ i ≤ k
  · by_cases h2 : i + 1 < w ∧ i + 1 ≤ k
    · rw [decide_eq_true h1, decide_eq_true h2] at hne
      simp at hne
    · omega
  · have h2 : ¬ (i + 1 < w ∧ i + 1 ≤ k) := by omega
    rw [decide_eq_false h1, decide_eq_false h2] at hne
    simp at hne

theorem getLsbD_mix (sel old new : BitVec w) (i : Nat) : (mix sel old new).getLsbD i =
    if sel.getLsbD i then new.getLsbD i else old.getLsbD i := by
  by_cases hi : i < w
  · simp only [mix, BitVec.getLsbD_or, BitVec.getLsbD_and, BitVec.getLsbD_not, hi]
    cases sel.getLsbD i <;> simp
  · simp [BitVec.getLsbD_of_ge, Nat.le_of_not_lt hi]

theorem mix_self (sel x : BitVec w) : mix sel x x = x := by
  apply BitVec.eq_of_getLsbD_eq
  intro i _
  rw [getLsbD_mix, ite_self]

/-- A mixture of two successive codes is one of them. -/
theorem mix_encode (sel : BitVec w) {m n : Nat} (hle : m ≤ n) (hsucc : n ≤ m + 1) :
    ∃ k, m ≤ k ∧ k ≤ n ∧ mix sel (encode (BitVec.ofNat w m)) (encode (BitVec.ofNat w n)) =
      encode (BitVec.ofNat w k) := by
  rcases Nat.eq_or_lt_of_le hle with rfl | hlt
  · exact ⟨m, Nat.le_refl m, Nat.le_refl m, mix_self sel _⟩
  · obtain rfl : n = m + 1 := by omega
    obtain ⟨k, hk⟩ := exists_bit_of_ne (w := w) m
    have hsame : ∀ i, i ≠ k → (encode (BitVec.ofNat w m)).getLsbD i =
        (encode (BitVec.ofNat w (m + 1))).getLsbD i := fun i hi => not_imp_comm.mp (hk i) hi
    cases hsel : sel.getLsbD k with
    | false =>
      refine ⟨m, Nat.le_refl m, hle, ?_⟩
      apply BitVec.eq_of_getLsbD_eq
      intro i _
      rw [getLsbD_mix]
      by_cases hik : i = k
      · rw [hik, hsel, if_neg Bool.false_ne_true]
      · rw [hsame i hik, ite_self]
    | true =>
      refine ⟨m + 1, hle, Nat.le_refl _, ?_⟩
      apply BitVec.eq_of_getLsbD_eq
      intro i _
      rw [getLsbD_mix]
      by_cases hik : i = k
      · rw [hik, hsel, if_pos rfl]
      · rw [hsame i hik, ite_self]

/-! ## Half a turn apart -/

section Half
variable {a : Nat} {p q : BitVec (a + 1)}

theorem add_half (q : BitVec (a + 1)) :
    q + BitVec.ofNat (a + 1) (2 ^ a) = q ^^^ BitVec.twoPow (a + 1) a := by
  apply BitVec.eq_of_getLsbD_eq
  intro i hi
  have hnat : (q + BitVec.ofNat (a + 1) (2 ^ a)).getLsbD i =
      (2 ^ a + q.toNat).testBit i := by
    rw [BitVec.getLsbD, BitVec.toNat_add, BitVec.toNat_ofNat, Nat.add_mod_mod,
      Nat.testBit_mod_two_pow, decide_eq_true hi, Bool.true_and, Nat.add_comm]
  rw [hnat, BitVec.getLsbD_xor, BitVec.getLsbD_twoPow]
  rcases Nat.lt_or_ge i a with hlt | hge
  · rw [Nat.testBit_two_pow_add_gt hlt]
    simp [BitVec.getLsbD, Nat.ne_of_gt hlt]
  · obtain rfl : i = a := by omega
    rw [Nat.testBit_two_pow_add_eq]
    simp [BitVec.getLsbD]

theorem getLsbD_encode_half (i : Nat) : (encode (BitVec.twoPow (a + 1) a)).getLsbD i =
    (decide (i = a) || decide (i + 1 = a)) := by
  rw [getLsbD_encode, BitVec.getLsbD_twoPow, BitVec.getLsbD_twoPow]
  by_cases h1 : i = a
  · simp [h1]
  · by_cases h2 : i + 1 = a
    · simp [← h2]
    · simp [h1, h2, Ne.symm h1, Ne.symm h2]

/-- The two highest bits differ and the others agree. -/
def opposite (x y : BitVec (a + 1)) : Bool :=
  x.getLsbD a != y.getLsbD a && x.getLsbD (a - 1) != y.getLsbD (a - 1) &&
    x.extractLsb' 0 (a - 1) == y.extractLsb' 0 (a - 1)

theorem opposite_iff (ha : 0 < a) (x y : BitVec (a + 1)) :
    opposite x y = true ↔ x ^^^ y = encode (BitVec.twoPow (a + 1) a) := by
  simp only [opposite, Bool.and_eq_true, bne_iff_ne, beq_iff_eq]
  constructor
  · rintro ⟨⟨htop, hnext⟩, hlow⟩
    apply BitVec.eq_of_getLsbD_eq
    intro i hi
    rw [BitVec.getLsbD_xor, getLsbD_encode_half]
    rcases Nat.lt_or_ge i (a - 1) with hlt | hge
    · have hbit := congrArg (fun v => v.getLsbD i) hlow
      simp only [BitVec.getLsbD_extractLsb', hlt, decide_true, Bool.true_and, Nat.zero_add] at hbit
      have h1 : i ≠ a := by omega
      have h2 : i + 1 ≠ a := by omega
      simp [hbit, h1, h2]
    · rcases Nat.eq_or_lt_of_le hge with rfl | hgt
      · have h2 : a - 1 + 1 = a := by omega
        simpa [h2] using hnext
      · obtain rfl : i = a := by omega
        simpa using htop
  · intro h
    have hbit : ∀ i, (x.getLsbD i ^^ y.getLsbD i) = (decide (i = a) || decide (i + 1 = a)) := by
      intro i
      rw [← BitVec.getLsbD_xor, h, getLsbD_encode_half]
    refine ⟨⟨?_, ?_⟩, ?_⟩
    · simpa using hbit a
    · have h2 : a - 1 + 1 = a := by omega
      simpa [h2] using hbit (a - 1)
    · apply BitVec.eq_of_getLsbD_eq
      intro i hi
      have h1 : i ≠ a := by omega
      have h2 : i + 1 ≠ a := by omega
      simpa [hi, h1, h2] using hbit i

theorem opposite_encode_iff (ha : 0 < a) :
    opposite (encode p) (encode q) = true ↔ p = q + BitVec.ofNat (a + 1) (2 ^ a) := by
  rw [opposite_iff ha, encode_xor, add_half]
  constructor
  · intro h
    rw [← encode_injective h, BitVec.xor_comm p, ← BitVec.xor_assoc, BitVec.xor_self,
      BitVec.zero_xor]
  · rintro rfl
    rw [BitVec.xor_comm q, BitVec.xor_assoc, BitVec.xor_self, BitVec.xor_zero]

/-- The same for the counts themselves. -/
theorem wrapped_iff : (p.getLsbD a != q.getLsbD a &&
    p.extractLsb' 0 a == q.extractLsb' 0 a) = true ↔ p = q + BitVec.ofNat (a + 1) (2 ^ a) := by
  rw [add_half, Bool.and_eq_true, bne_iff_ne, beq_iff_eq]
  constructor
  · rintro ⟨htop, hlow⟩
    apply BitVec.eq_of_getLsbD_eq
    intro i hi
    rw [BitVec.getLsbD_xor, BitVec.getLsbD_twoPow]
    rcases Nat.lt_or_ge i a with hlt | hge
    · have hbit := congrArg (fun v => v.getLsbD i) hlow
      simp only [BitVec.getLsbD_extractLsb', hlt, decide_true, Bool.true_and, Nat.zero_add] at hbit
      simp [hbit, Nat.ne_of_gt hlt]
    · obtain rfl : i = a := by omega
      simpa using Bool.eq_not.mpr htop
  · rintro rfl
    refine ⟨by simp, ?_⟩
    apply BitVec.eq_of_getLsbD_eq
    intro i hi
    simp [hi, Nat.ne_of_gt hi]

end Half

end Gray
