import Mathlib.Data.List.Basic

/-!
# FIFOs whose words show late

Units go in one at a time and come out in words of `w` units. A completed word
is hidden at first: `reveal` words are shown in each clock, oldest first, and a
word is hidden for less than `lag` clocks. Reading an empty FIFO does nothing.
-/

namespace Clocked

set_option autoImplicit false

universe u

/-- `hidden` words carry the number of clocks since their last unit was stored. -/
structure LaggedFifo (α : Type u) where
  shown : List (List α)
  hidden : List (Nat × List α)
  part : List α

namespace LaggedFifo

variable {α : Type u}

def nil : LaggedFifo α := ⟨[], [], []⟩

def units (f : LaggedFifo α) : List α :=
  f.shown.flatten ++ (f.hidden.map Prod.snd).flatten ++ f.part

def valid (f : LaggedFifo α) : Bool := !f.shown.isEmpty

def full (cap : Nat) (f : LaggedFifo α) : Bool := decide (cap ≤ f.units.length)

def stored (cap : Nat) (din : Option α) (f : LaggedFifo α) : List α :=
  if f.full cap then [] else din.toList

def taken (rdEn : Bool) (f : LaggedFifo α) : List α := if rdEn then f.shown.headD [] else []

def completes (w cap : Nat) (din : Option α) (f : LaggedFifo α) : Bool :=
  decide ((f.part ++ f.stored cap din).length = w)

def waiting (w cap : Nat) (din : Option α) (f : LaggedFifo α) : List (Nat × List α) :=
  f.hidden.map (fun x => (x.1 + 1, x.2)) ++
    if f.completes w cap din then [(0, f.part ++ f.stored cap din)] else []

/-- How many of the waiting words are shown: `reveal`, and all that have waited long enough. -/
def showing (lag reveal : Nat) (ws : List (Nat × List α)) : Nat :=
  max reveal (ws.takeWhile fun x => decide (lag ≤ x.1)).length

def step (w lag cap : Nat) (rdEn : Bool) (din : Option α) (reveal : Nat) (f : LaggedFifo α) :
    LaggedFifo α where
  shown := (if rdEn then f.shown.tail else f.shown) ++
    ((f.waiting w cap din).take (showing lag reveal (f.waiting w cap din))).map Prod.snd
  hidden := (f.waiting w cap din).drop (showing lag reveal (f.waiting w cap din))
  part := if f.completes w cap din then [] else f.part ++ f.stored cap din

section Step
variable {w lag cap reveal : Nat} {rdEn : Bool} {din : Option α} {f : LaggedFifo α}

theorem stored_length_le (cap : Nat) (din : Option α) (f : LaggedFifo α) :
    (f.stored cap din).length ≤ 1 := by
  unfold stored
  split
  · exact Nat.zero_le _
  · cases din <;> simp

/-- Nothing is lost, duplicated or reordered in one clock. -/
theorem taken_append_units_step :
    f.taken rdEn ++ (f.step w lag cap rdEn din reveal).units = f.units ++ f.stored cap din := by
  have hw : ((f.waiting w cap din).map Prod.snd).flatten ++
      (f.step w lag cap rdEn din reveal).part =
        (f.hidden.map Prod.snd).flatten ++ (f.part ++ f.stored cap din) := by
    unfold waiting step
    cases f.completes w cap din <;> simp [Function.comp_def]
  have hs : f.taken rdEn ++ (if rdEn then f.shown.tail else f.shown).flatten = f.shown.flatten := by
    unfold taken
    cases rdEn with
    | false => rfl
    | true => rcases f.shown with _ | ⟨x, xs⟩ <;> rfl
  have ht : (((f.waiting w cap din).take (showing lag reveal (f.waiting w cap din))).map
      Prod.snd).flatten ++ ((f.step w lag cap rdEn din reveal).hidden.map Prod.snd).flatten =
        ((f.waiting w cap din).map Prod.snd).flatten := by
    have hd : (f.step w lag cap rdEn din reveal).hidden =
      (f.waiting w cap din).drop (showing lag reveal (f.waiting w cap din)) := rfl
    rw [← List.flatten_append, ← List.map_append, hd, List.take_append_drop]
  calc f.taken rdEn ++ (f.step w lag cap rdEn din reveal).units
      = (f.taken rdEn ++ (if rdEn then f.shown.tail else f.shown).flatten) ++
          ((((f.waiting w cap din).take (showing lag reveal (f.waiting w cap din))).map
            Prod.snd).flatten ++
              ((f.step w lag cap rdEn din reveal).hidden.map Prod.snd).flatten ++
          (f.step w lag cap rdEn din reveal).part) := by
        simp only [units, step, List.flatten_append, List.append_assoc]
    _ = f.units ++ f.stored cap din := by
        rw [hs, ht, hw]
        simp only [units, List.append_assoc]

theorem hidden_step_of_shown_nil {x : Nat × List α} {xs : List (Nat × List α)}
    (hh : f.hidden = x :: xs) (hn : (f.step w lag cap rdEn din reveal).shown = []) :
    ∃ ys, (f.step w lag cap rdEn din reveal).hidden = (x.1 + 1, x.2) :: ys := by
  obtain ⟨ys, hw⟩ : ∃ ys, f.waiting w cap din = (x.1 + 1, x.2) :: ys := by
    unfold waiting
    rw [hh]
    exact ⟨_, rfl⟩
  obtain ⟨_, ht⟩ := List.append_eq_nil_iff.mp hn
  rw [List.map_eq_nil_iff, List.take_eq_nil_iff] at ht
  have hk := ht.resolve_right (by rw [hw]; simp)
  refine ⟨ys, ?_⟩
  unfold step
  simp only
  rw [hk, List.drop_zero, hw]

end Step

/-- Words are complete, and hidden words were completed at least `w` clocks apart. -/
structure Inv (w lag : Nat) (f : LaggedFifo α) : Prop where
  shown : ∀ x ∈ f.shown, x.length = w
  hidden : ∀ x ∈ f.hidden, x.2.length = w
  part : f.part.length < w
  young : ∀ x ∈ f.hidden, x.1 < lag
  spaced : f.hidden.Pairwise fun x y => y.1 + w ≤ x.1
  since : ∀ x ∈ f.hidden, f.part.length ≤ x.1

theorem inv_nil {w lag : Nat} (hw : 0 < w) : Inv w lag (nil : LaggedFifo α) := by
  constructor <;> simp [nil, hw]

section Inv
variable {w lag cap reveal : Nat} {rdEn : Bool} {din : Option α} {f : LaggedFifo α}

theorem part_append_le (cap : Nat) (din : Option α) (h : Inv w lag f) :
    (f.part ++ f.stored cap din).length ≤ w := by
  have := h.part
  have := stored_length_le cap din f
  rw [List.length_append]
  omega

theorem waiting_spaced (h : Inv w lag f) :
    (f.waiting w cap din).Pairwise fun x y => y.1 + w ≤ x.1 := by
  unfold waiting
  rw [List.pairwise_append]
  refine ⟨?_, ?_, ?_⟩
  · rw [List.pairwise_map]
    exact h.spaced.imp fun hxy => by simp only; omega
  · split <;> simp
  · intro x hx y hy
    obtain ⟨z, hz, rfl⟩ := List.mem_map.mp hx
    split at hy
    · rename_i hc
      obtain rfl := List.mem_singleton.mp hy
      have := h.since z hz
      have := stored_length_le cap din f
      have hw := of_decide_eq_true hc
      rw [List.length_append] at hw
      simp only
      omega
    · cases hy

theorem waiting_length (h : Inv w lag f) : ∀ x ∈ f.waiting w cap din, x.2.length = w := by
  intro x hx
  rcases List.mem_append.mp hx with hx | hx
  · obtain ⟨z, hz, rfl⟩ := List.mem_map.mp hx
    exact h.hidden z hz
  · split at hx
    · rename_i hc
      obtain rfl := List.mem_singleton.mp hx
      exact of_decide_eq_true hc
    · cases hx

theorem young_drop {ws : List (Nat × List α)} (h : ws.Pairwise fun x y => y.1 + w ≤ x.1)
    (reveal : Nat) : ∀ x ∈ ws.drop (showing lag reveal ws), x.1 < lag := by
  have key : ∀ x ∈ ws.drop (ws.takeWhile fun x => decide (lag ≤ x.1)).length, x.1 < lag := by
    induction ws with
    | nil => simp
    | cons y ys ih =>
      intro x hx
      obtain ⟨hy, hys⟩ := List.pairwise_cons.mp h
      by_cases hl : lag ≤ y.1
      · rw [List.takeWhile_cons_of_pos (by simpa using hl)] at hx
        exact ih hys x hx
      · rw [List.takeWhile_cons_of_neg (by simpa using hl)] at hx
        -- ages fall along the list, so every word behind a young one is young
        rcases List.mem_cons.mp hx with rfl | hx
        · omega
        · have := hy x hx
          omega
  intro x hx
  apply key x
  have hle : (ws.takeWhile fun x => decide (lag ≤ x.1)).length ≤ showing lag reveal ws :=
    Nat.le_max_right _ _
  exact (List.drop_sublist_drop_left ws hle).mem hx

theorem inv_step (h : Inv w lag f) : Inv w lag (f.step w lag cap rdEn din reveal) where
  shown x hx := by
    rcases List.mem_append.mp hx with hx | hx
    · split at hx
      · exact h.shown x (List.mem_of_mem_tail hx)
      · exact h.shown x hx
    · obtain ⟨z, hz, rfl⟩ := List.mem_map.mp hx
      exact waiting_length h z (List.mem_of_mem_take hz)
  hidden x hx := waiting_length h x (List.mem_of_mem_drop hx)
  part := by
    have hp := part_append_le cap din h
    have := h.part
    unfold step completes
    simp only
    split
    · simp
      omega
    · rename_i hc
      rw [decide_eq_true_eq] at hc
      omega
  young := young_drop (waiting_spaced h) reveal
  spaced := (waiting_spaced h).sublist (List.drop_sublist _ _)
  since x hx := by
    have hs := stored_length_le cap din f
    unfold step
    simp only
    split
    · exact Nat.zero_le _
    · rename_i hc
      rcases List.mem_append.mp (List.mem_of_mem_drop hx) with hx | hx
      · obtain ⟨z, hz, rfl⟩ := List.mem_map.mp hx
        have := h.since z hz
        rw [List.length_append]
        simp only
        omega
      · rw [if_neg hc] at hx
        cases hx

theorem flatten_length {ws : List (List α)} (h : ∀ x ∈ ws, x.length = w) :
    ws.flatten.length = w * ws.length := by
  induction ws with
  | nil => rfl
  | cons x xs ih =>
    rw [List.flatten_cons, List.length_append, h x List.mem_cons_self,
      ih fun y hy => h y (List.mem_cons_of_mem x hy), List.length_cons, Nat.mul_succ, Nat.add_comm]

theorem units_length (h : Inv w lag f) :
    f.units.length = w * f.shown.length + w * f.hidden.length + f.part.length := by
  have hh : ((f.hidden.map Prod.snd).flatten).length = w * f.hidden.length := by
    rw [flatten_length (w := w), List.length_map]
    intro x hx
    obtain ⟨z, hz, rfl⟩ := List.mem_map.mp hx
    exact h.hidden z hz
  simp only [units, List.length_append, flatten_length h.shown, hh]

theorem length_mul_le {x : Nat × List α} {xs : List (Nat × List α)}
    (h : (x :: xs).Pairwise fun x y => y.1 + w ≤ x.1) : w * xs.length ≤ x.1 := by
  induction xs generalizing x with
  | nil => simp
  | cons y ys ih =>
    obtain ⟨hx, hy⟩ := List.pairwise_cons.mp h
    have h1 := hx y List.mem_cons_self
    have h2 := ih hy
    rw [List.length_cons, Nat.mul_succ]
    omega

/-- Few words are hidden at a time. -/
theorem hidden_length (h : Inv w lag f) : f.hidden = [] ∨ w * f.hidden.length < lag + w := by
  rcases hl : f.hidden with _ | ⟨x, xs⟩
  · exact Or.inl rfl
  · right
    have h1 := length_mul_le (hl ▸ h.spaced)
    have h2 := h.young x (by rw [hl]; exact List.mem_cons_self)
    rw [List.length_cons, Nat.mul_succ]
    omega

end Inv

end LaggedFifo

end Clocked
