import AdcCapture.Clocked
import AdcCapture.ReadController2

/-!
# The burst counter of readController2

`readController2` alone, under any inputs. `curr_count` is cleared on every way
into a read state, so inside one it counts the bytes of the current burst; what
`pause` adds to the same register is overwritten when `pause` is left.
-/

namespace AdcCapture.ReadController2

open Clocked
set_option autoImplicit false

variable {r : Reg} {i : Input} {c : Channel}

def step (r : Reg) (i : Input) : Reg := posedge true r i

/-- A byte moves on the payload stream. -/
def moves (r : Reg) (i : Input) : Bool := (comb r i).axisTvalid && i.axisTready

def reading (c : Channel) (r : Reg) : Prop := r.currState = readState c

/-- The byte that moves in this clock belongs to the channel. -/
def movesOwn (c : Channel) (r : Reg) (i : Input) : Prop :=
  moves r i = true → (comb r i).addr = c.addr ∧
    ∀ d : Channel, (comb r i).rdEn.getLsbD d.index = decide (c = d)

/-- While `init` waits the counter is clear. -/
def Cleared (r : Reg) : Prop := r.currState = .init → r.currCount = 0#16

theorem cleared_reset : Cleared reset := fun _ => rfl

theorem cleared_step (h : Cleared r) (i : Input) : Cleared (step r i) := by
  intro hn
  rcases state_cases r.currState with hi | hp | ⟨d, hd⟩
  · rw [step, posedge_init hi]
    exact h hi
  · rw [step, posedge_pause hp] at hn ⊢
    split at hn
    · rfl
    · cases hn
  · rw [step, posedge_read hd] at hn
    split at hn
    · cases hn
    · exact absurd hn (by simp)

theorem cleared_run (is : List Input) : Cleared (run step reset is) :=
  invariant_run (I := Cleared) (fun _ i h => cleared_step h i) cleared_reset is

/-- A read state is entered with the counter at 0. -/
theorem currCount_of_entered (h : Cleared r) (hr : ¬ reading c r) (hn : reading c (step r i)) :
    (step r i).currCount = 0#16 := by
  unfold reading at hn
  rcases state_cases r.currState with hi | hp | ⟨d, hd⟩
  · rw [step, posedge_init hi]
    exact h hi
  · rw [step, posedge_pause hp] at hn ⊢
    split at hn
    · rfl
    · exact absurd hn (by simp)
  · rw [step, posedge_read hd] at hn
    split at hn
    · exact absurd hn (by simp)
    · have hdc : d = c := by simpa using hn
      exact absurd (hdc ▸ hd) hr

theorem moves_of_reading (h : reading c r) :
    moves r i = (i.axisTready && !i.empty.getLsbD c.index) := by
  rw [moves, axisTvalid_read h, transfer, Bool.and_right_comm, Bool.and_self]

theorem movesOwn_of_reading (h : reading c r) : movesOwn c r i := by
  intro hm
  have ht : transfer c i = true := by
    rw [moves, axisTvalid_read h] at hm
    exact (Bool.and_eq_true_iff.mp hm).1
  refine ⟨addr_read h ht, ?_⟩
  intro d
  rw [rdEn_read h, ht, Bool.true_and]

/-- A clock that stays in a read state counts the byte it moves. -/
theorem currCount_of_stay (h : reading c r) (hn : reading c (step r i))
    (hle : r.currCount.toNat ≤ 1023) :
    (step r i).currCount.toNat = r.currCount.toNat + (moves r i).toNat ∧
      (step r i).currCount.toNat ≤ 1023 := by
  unfold reading at hn
  rw [step, posedge_read h] at hn ⊢
  cases hl : r.currCount == 1023#16 || i.empty.getLsbD c.index with
  | true =>
    rw [hl] at hn
    exact absurd hn (by simp)
  | false =>
    obtain ⟨hc, he⟩ := Bool.or_eq_false_iff.mp hl
    have hne : r.currCount.toNat ≠ 1023 := by
      intro heq
      have hcount : r.currCount = 1023#16 := BitVec.eq_of_toNat_eq heq
      simp [hcount] at hc
    rw [moves_of_reading h, he]
    cases ht : i.axisTready with
    | false => simpa using hle
    | true =>
      have hadd : (r.currCount + 1#16).toNat = r.currCount.toNat + 1 := by
        rw [BitVec.toNat_add]
        simp
        omega
      simp only [Bool.false_eq_true, if_false, if_true, hadd]
      refine ⟨rfl, ?_⟩
      omega

/-- `i` enters the read state of `c`, and the clocks of `vs` are spent in it. -/
structure Visit (c : Channel) (pre : List Input) (i : Input) (vs : List Input) : Prop where
  before : ¬ reading c (run step reset pre)
  entered : reading c (run step reset (pre ++ [i]))
  spent : Always step (fun r _ => reading c r) (run step reset (pre ++ [i])) vs

/-- Inside a visit the counter is the number of bytes moved since the visit began. -/
theorem currCount_of_visit {pre vs : List Input} (h : Visit c pre i vs)
    (hr : reading c (run step reset (pre ++ i :: vs))) :
    (run step reset (pre ++ i :: vs)).currCount.toNat =
        count step moves (run step reset (pre ++ [i])) vs ∧
      (run step reset (pre ++ i :: vs)).currCount.toNat ≤ 1023 := by
  rw [run_split] at hr ⊢
  obtain ⟨hbefore, hentered, hspent⟩ := h
  have h0 : (run step reset (pre ++ [i])).currCount = 0#16 := by
    rw [run_append] at hentered ⊢
    exact currCount_of_entered (cleared_run pre) hbefore hentered
  generalize run step reset (pre ++ [i]) = r at *
  induction vs using List.reverseRecOn with
  | nil => simp [h0]
  | append_singleton vs v ih =>
    obtain ⟨hvs, hv⟩ := (always_snoc _ _ _).mp hspent
    obtain ⟨heq, hle⟩ := ih hv hvs
    rw [run_append] at hr ⊢
    obtain ⟨hadd, hbound⟩ := currCount_of_stay hv hr hle
    refine ⟨?_, hbound⟩
    rw [count_snoc, ← heq]
    exact hadd

theorem moves_le_of_visit {pre vs : List Input} (h : Visit c pre i vs) :
    count step moves (run step reset (pre ++ [i])) vs ≤ 1024 := by
  induction vs using List.reverseRecOn with
  | nil => exact Nat.zero_le _
  | append_singleton vs v _ =>
    -- up to the last clock the count is the register, which is at most 1023
    obtain ⟨hvs, hv⟩ := (always_snoc _ _ _).mp h.spent
    obtain ⟨heq, hle⟩ :=
      currCount_of_visit ⟨h.before, h.entered, hvs⟩ ((run_split _ pre i vs).symm ▸ hv)
    have := Bool.toNat_le (moves (run step (run step reset (pre ++ [i])) vs) v)
    rw [count_snoc]
    omega

theorem burst_counter :
    (∀ is c, reading c (run step reset is) → ∃ pre i vs, is = pre ++ i :: vs ∧ Visit c pre i vs) ∧
    (∀ c pre i vs, Visit c pre i vs →
      (reading c (run step reset (pre ++ i :: vs)) →
        (run step reset (pre ++ i :: vs)).currCount.toNat =
            count step moves (run step reset (pre ++ [i])) vs ∧
          (run step reset (pre ++ i :: vs)).currCount.toNat ≤ 1023) ∧
      count step moves (run step reset (pre ++ [i])) vs ≤ 1024 ∧
      Always step (movesOwn c) (run step reset (pre ++ [i])) vs) := by
  constructor
  · intro is c h
    have h0 : ¬ reading c reset := by
      intro h0
      exact absurd h0 (by simp [reading, reset])
    obtain ⟨pre, i, vs, rfl, hpre, hi, hvs⟩ := exists_entry (P := reading c) h0 h
    exact ⟨pre, i, vs, rfl, hpre, hi, hvs⟩
  · intro c pre i vs h
    refine ⟨currCount_of_visit h, moves_le_of_visit h, ?_⟩
    exact h.spent.mono fun _ _ => movesOwn_of_reading

end AdcCapture.ReadController2
