import Mathlib.Algebra.Order.Ring.Nat

/-!
# Ring buffers

A memory of `2 ^ a` words between two pointers that have one bit more than an
address. `Holds` says which words lie between the read and the write pointer.
-/

namespace Ring

set_option autoImplicit false

universe u

variable {α : Type u} {a : Nat}

/-- The address a pointer stands for. -/
def low (p : BitVec (a + 1)) : BitVec a := p.setWidth a

structure Holds (mem : BitVec a → α) (wr rd : BitVec (a + 1)) (ws : List α) : Prop where
  bounded : ws.length ≤ 2 ^ a
  pointer : wr = rd + BitVec.ofNat (a + 1) ws.length
  words : ∀ k, ∀ hk : k < ws.length, mem (low (rd + BitVec.ofNat (a + 1) k)) = ws[k]

theorem toNat_low (p : BitVec (a + 1)) : (low p).toNat = p.toNat % 2 ^ a := by
  simp [low]

theorem add_ofNat_succ (p : BitVec (a + 1)) (n : Nat) :
    p + BitVec.ofNat (a + 1) (n + 1) = p + BitVec.ofNat (a + 1) n + 1#(a + 1) := by
  rw [BitVec.ofNat_add, BitVec.add_assoc]

theorem add_one_add_ofNat (p : BitVec (a + 1)) (n : Nat) :
    p + 1#(a + 1) + BitVec.ofNat (a + 1) n = p + BitVec.ofNat (a + 1) (n + 1) := by
  rw [BitVec.ofNat_add n 1, BitVec.add_assoc, BitVec.add_comm 1#(a + 1)]

/-- Two words closer than the memory is long have two addresses. -/
theorem low_ne {rd : BitVec (a + 1)} {j k : Nat} (h : j < k) (hk : k < j + 2 ^ a) :
    low (rd + BitVec.ofNat (a + 1) j) ≠ low (rd + BitVec.ofNat (a + 1) k) := by
  intro heq
  have hnat := congrArg BitVec.toNat heq
  have hdvd : 2 ^ a ∣ 2 ^ (a + 1) := ⟨2, Nat.pow_succ 2 a⟩
  rw [toNat_low, toNat_low, BitVec.toNat_add, BitVec.toNat_add, BitVec.toNat_ofNat,
    BitVec.toNat_ofNat, Nat.add_mod_mod, Nat.add_mod_mod, Nat.mod_mod_of_dvd _ hdvd,
    Nat.mod_mod_of_dvd _ hdvd] at hnat
  have hmod : (rd.toNat + k - (rd.toNat + j)) % 2 ^ a = 0 :=
    Nat.sub_mod_eq_zero_of_mod_eq hnat.symm
  have hsub : rd.toNat + k - (rd.toNat + j) = k - j := by omega
  rw [hsub, Nat.mod_eq_of_lt (by omega)] at hmod
  omega

section Holds
variable {mem : BitVec a → α} {wr rd : BitVec (a + 1)} {ws : List α}

theorem holds_nil (mem : BitVec a → α) (p : BitVec (a + 1)) : Holds mem p p [] :=
  ⟨Nat.zero_le _, by simp, fun k hk => absurd hk (Nat.not_lt_zero k)⟩

theorem toNat_sub (h : Holds mem wr rd ws) : (wr - rd).toNat = ws.length := by
  have hlt : ws.length < 2 ^ (a + 1) :=
    Nat.lt_of_le_of_lt h.bounded (Nat.pow_lt_pow_right (by decide) (Nat.lt_succ_self a))
  rw [h.pointer, BitVec.add_comm, BitVec.add_sub_cancel, BitVec.toNat_ofNat, Nat.mod_eq_of_lt hlt]

theorem empty_iff (h : Holds mem wr rd ws) : wr = rd ↔ ws = [] := by
  rw [← List.length_eq_zero_iff, ← toNat_sub h]
  constructor
  · rintro rfl
    simp
  · intro h0
    have hz : wr - rd = 0#(a + 1) := BitVec.eq_of_toNat_eq (by simpa using h0)
    have hwr : wr - rd + rd = wr := BitVec.sub_add_cancel wr rd
    rw [← hwr, hz, BitVec.zero_add]

theorem push (h : Holds mem wr rd ws) (x : α) (hlt : ws.length < 2 ^ a) :
    Holds (fun i => if i = low wr then x else mem i) (wr + 1#(a + 1)) rd (ws ++ [x]) := by
  refine ⟨by simpa using Nat.succ_le_of_lt hlt, ?_, ?_⟩
  · rw [h.pointer, ← add_ofNat_succ, List.length_append, List.length_singleton]
  · intro k hk
    rw [List.length_append, List.length_singleton] at hk
    by_cases hlast : k = ws.length
    · subst hlast
      simp [h.pointer]
    · have hk' : k < ws.length := by omega
      have hne : low (rd + BitVec.ofNat (a + 1) k) ≠ low wr := by
        rw [h.pointer]
        exact low_ne hk' (by omega)
      rw [if_neg hne, h.words k hk', List.getElem_append_left hk']

theorem pop {x : α} (h : Holds mem wr rd (x :: ws)) :
    mem (low rd) = x ∧ Holds mem wr (rd + 1#(a + 1)) ws := by
  have hfirst := h.words 0 (by simp)
  refine ⟨by simpa using hfirst, ⟨?_, ?_, ?_⟩⟩
  · have hb := h.bounded
    rw [List.length_cons] at hb
    omega
  · rw [h.pointer, add_one_add_ofNat, List.length_cons]
  · intro k hk
    have hnext := h.words (k + 1) (by simpa using hk)
    rw [add_one_add_ofNat, hnext, List.getElem_cons_succ]

/-- Words may be given up at the end. -/
theorem rollback {vs : List α} (h : Holds mem wr rd (ws ++ vs)) :
    Holds mem (rd + BitVec.ofNat (a + 1) ws.length) rd ws := by
  have hb := h.bounded
  rw [List.length_append] at hb
  refine ⟨by omega, rfl, ?_⟩
  intro k hk
  have hk' : k < (ws ++ vs).length := by
    rw [List.length_append]
    omega
  rw [h.words k hk', List.getElem_append_left hk]

end Holds

end Ring
