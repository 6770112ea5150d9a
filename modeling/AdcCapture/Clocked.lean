import Mathlib.Data.List.Induction

/-!
# Runs of a clocked machine

`step s i` is the register contents after one clock edge with inputs `i`. A run
is the left fold of `step` over the inputs, oldest first. What a machine does
during a run (bytes it sends, words it stores) is collected by `emits`, so that
histories are functions of the run and never fields of the machine.

This module knows nothing of any particular circuit.
-/

namespace Clocked

set_option autoImplicit false

universe u v w

variable {σ : Type u} {ι : Type v} {β : Type w}

def run (step : σ → ι → σ) (s : σ) (is : List ι) : σ := is.foldl step s

/-- Everything `out` emits in the clocks of a run, in order. -/
def emits (step : σ → ι → σ) (out : σ → ι → List β) : σ → List ι → List β
  | _, [] => []
  | s, i :: is => out s i ++ emits step out (step s i) is

def count (step : σ → ι → σ) (p : σ → ι → Bool) : σ → List ι → Nat
  | _, [] => 0
  | s, i :: is => (p s i).toNat + count step p (step s i) is

/-- `K` holds in every clock of a run. -/
def Always (step : σ → ι → σ) (K : σ → ι → Prop) : σ → List ι → Prop
  | _, [] => True
  | s, i :: is => K s i ∧ Always step K (step s i) is

instance decidableAlways (step : σ → ι → σ) (K : σ → ι → Prop) [∀ s i, Decidable (K s i)] :
    ∀ s is, Decidable (Always step K s is)
  | _, [] => isTrue trivial
  | s, i :: is =>
    have := decidableAlways step K (step s i) is
    inferInstanceAs (Decidable (K s i ∧ Always step K (step s i) is))

/-- `P` holds of every clock of a run, given the clocks before it. -/
def Throughout (P : List ι → ι → Prop) (is : List ι) : Prop :=
  ∀ pre i post, is = pre ++ i :: post → P pre i

/-- `A` held in some clock, and `B` has held in every state since then. -/
def Since (step : σ → ι → σ) (A : σ → ι → Prop) (B : σ → Prop) (s : σ) (is : List ι) : Prop :=
  ∃ pre i post, is = pre ++ i :: post ∧ A (run step s pre) i ∧
    ∀ mid, mid <+: post → B (run step s (pre ++ i :: mid))

/-- The machine with a record of what it has emitted. -/
def recorded (step : σ → ι → σ) (out : σ → ι → List β) (p : σ × List β) (i : ι) : σ × List β :=
  (step p.1 i, p.2 ++ out p.1 i)

section Laws
variable {step : σ → ι → σ} {out : σ → ι → List β} {K : σ → ι → Prop}

@[simp] theorem run_nil (s : σ) : run step s [] = s := rfl

@[simp] theorem run_cons (s : σ) (i : ι) (is : List ι) :
    run step s (i :: is) = run step (step s i) is := rfl

@[simp] theorem run_append (s : σ) (is js : List ι) :
    run step s (is ++ js) = run step (run step s is) js := List.foldl_append

theorem run_snoc (s : σ) (is : List ι) (i : ι) :
    run step s (is ++ [i]) = step (run step s is) i := by simp

theorem run_split (s : σ) (pre : List ι) (i : ι) (post : List ι) :
    run step s (pre ++ i :: post) = run step (run step s (pre ++ [i])) post := by simp

@[simp] theorem emits_nil (s : σ) : emits step out s [] = [] := rfl

theorem emits_cons (s : σ) (i : ι) (is : List ι) :
    emits step out s (i :: is) = out s i ++ emits step out (step s i) is := rfl

theorem emits_append (s : σ) (is js : List ι) :
    emits step out s (is ++ js) = emits step out s is ++ emits step out (run step s is) js := by
  induction is generalizing s with
  | nil => rfl
  | cons i is ih => simp [emits_cons, ih, List.append_assoc]

theorem emits_snoc (s : σ) (is : List ι) (i : ι) :
    emits step out s (is ++ [i]) = emits step out s is ++ out (run step s is) i := by
  simp [emits_append, emits_cons]

theorem emits_eq_nil (s : σ) (is : List ι) : emits step (fun _ _ => ([] : List β)) s is = [] := by
  induction is generalizing s with
  | nil => rfl
  | cons i is ih => simp [emits_cons, ih]

theorem emits_flatMap {γ : Type w} (f : β → List γ) (s : σ) (is : List ι) :
    emits step (fun s i => (out s i).flatMap f) s is = (emits step out s is).flatMap f := by
  induction is generalizing s with
  | nil => rfl
  | cons i is ih => simp [emits_cons, ih, List.flatMap_append]

theorem emits_inputs (g : ι → List β) (s : σ) (is : List ι) :
    emits step (fun _ i => g i) s is = is.flatMap g := by
  induction is generalizing s with
  | nil => rfl
  | cons i is ih => rw [emits_cons, ih, List.flatMap_cons]

@[simp] theorem count_nil (p : σ → ι → Bool) (s : σ) : count step p s [] = 0 := rfl

theorem count_cons (p : σ → ι → Bool) (s : σ) (i : ι) (is : List ι) :
    count step p s (i :: is) = (p s i).toNat + count step p (step s i) is := rfl

theorem count_snoc (p : σ → ι → Bool) (s : σ) (is : List ι) (i : ι) :
    count step p s (is ++ [i]) = count step p s is + (p (run step s is) i).toNat := by
  induction is generalizing s with
  | nil => simp [count_cons]
  | cons j js ih => simp [count_cons, ih, Nat.add_assoc]

theorem count_append (p : σ → ι → Bool) (s : σ) (is js : List ι) :
    count step p s (is ++ js) = count step p s is + count step p (run step s is) js := by
  induction is generalizing s with
  | nil => simp
  | cons i is ih => simp [count_cons, ih, Nat.add_assoc]

@[simp] theorem always_nil (s : σ) : Always step K s [] := trivial

theorem always_cons (s : σ) (i : ι) (is : List ι) :
    Always step K s (i :: is) ↔ K s i ∧ Always step K (step s i) is := Iff.rfl

theorem always_append (s : σ) (is js : List ι) :
    Always step K s (is ++ js) ↔ Always step K s is ∧ Always step K (run step s is) js := by
  induction is generalizing s with
  | nil => simp
  | cons i is ih => simp [always_cons, ih, and_assoc]

theorem always_snoc (s : σ) (is : List ι) (i : ι) :
    Always step K s (is ++ [i]) ↔ Always step K s is ∧ K (run step s is) i := by
  simp [always_append, always_cons]

/-- Emissions that agree in every clock after which `K` still holds. -/
theorem emits_eq_of_stays {f g : σ → ι → List β}
    (h : ∀ s i j, K s i → K (step s i) j → f s i = g s i) {s : σ} {is : List ι} {last : ι}
    (hK : Always step K s (is ++ [last])) : emits step f s is = emits step g s is := by
  induction is generalizing s with
  | nil => rfl
  | cons i is ih =>
    have hi : f s i = g s i := by
      cases is with
      | nil => exact h s i last hK.1 hK.2.1
      | cons j js => exact h s i j hK.1 hK.2.1
    rw [emits_cons, emits_cons, hi, ih hK.2]

theorem throughout_nil {P : List ι → ι → Prop} : Throughout P [] := by
  intro pre i post h
  simp at h

theorem throughout_snoc {P : List ι → ι → Prop} {is : List ι} {i : ι} :
    Throughout P (is ++ [i]) ↔ Throughout P is ∧ P is i := by
  constructor
  · intro h
    refine ⟨?_, h is i [] rfl⟩
    rintro pre j post rfl
    exact h pre j (post ++ [i]) (by simp)
  · rintro ⟨h, hi⟩ pre j post heq
    rcases List.eq_nil_or_concat post with rfl | ⟨qs, q, rfl⟩
    · obtain ⟨rfl, hj⟩ := List.append_inj' heq rfl
      obtain rfl := List.singleton_inj.mp hj
      exact hi
    · have heq' : is ++ [i] = (pre ++ j :: qs) ++ [q] := by simpa using heq
      exact h pre j qs (List.append_inj' heq' rfl).1

theorem throughout_congr {P Q : List ι → ι → Prop} (h : ∀ pre i, P pre i ↔ Q pre i)
    (is : List ι) : Throughout P is ↔ Throughout Q is := by
  have hPQ : P = Q := by
    funext pre i
    exact propext (h pre i)
  rw [hPQ]

section Since
variable {A : σ → ι → Prop} {B : σ → Prop} {s : σ} {is : List ι} {i : ι}

theorem not_since_nil : ¬ Since step A B s [] := by
  rintro ⟨pre, i, post, h, _⟩
  simp at h

theorem since_snoc : Since step A B s (is ++ [i]) ↔
    B (run step s (is ++ [i])) ∧ (A (run step s is) i ∨ Since step A B s is) := by
  constructor
  · rintro ⟨pre, j, post, heq, hA, hB⟩
    rcases List.eq_nil_or_concat post with rfl | ⟨qs, q, rfl⟩
    · obtain ⟨rfl, hj⟩ := List.append_inj' heq rfl
      obtain rfl := List.singleton_inj.mp hj
      exact ⟨hB [] List.nil_prefix, .inl hA⟩
    · have heq' : is ++ [i] = (pre ++ j :: qs) ++ [q] := by simpa using heq
      obtain ⟨rfl, _⟩ := List.append_inj' heq' rfl
      refine ⟨heq ▸ hB _ (List.prefix_refl _), .inr ⟨pre, j, qs, rfl, hA, ?_⟩⟩
      intro mid hmid
      apply hB mid
      rw [List.concat_eq_append]
      exact hmid.trans (List.prefix_append _ _)
  · rintro ⟨hB, hA | ⟨pre, j, post, rfl, hA, hpost⟩⟩
    · refine ⟨is, i, [], rfl, hA, ?_⟩
      intro mid hmid
      obtain rfl := List.prefix_nil.mp hmid
      exact hB
    · refine ⟨pre, j, post ++ [i], by simp, hA, ?_⟩
      intro mid hmid
      rcases List.prefix_concat_iff.mp hmid with rfl | hmid
      · simpa using hB
      · exact hpost mid hmid

end Since

theorem always_true (s : σ) (is : List ι) : Always step (fun _ _ => True) s is := by
  induction is generalizing s with
  | nil => trivial
  | cons i is ih => exact ⟨trivial, ih _⟩

theorem always_of_forall_mem {is : List ι} (h : ∀ i ∈ is, ∀ s, K s i) (s : σ) :
    Always step K s is := by
  induction is generalizing s with
  | nil => trivial
  | cons i is ih =>
    exact ⟨h i List.mem_cons_self s, ih (fun j hj => h j (List.mem_cons_of_mem i hj)) _⟩

theorem Always.mono {K' : σ → ι → Prop} (hK : ∀ s i, K s i → K' s i) {s : σ} {is : List ι}
    (h : Always step K s is) : Always step K' s is := by
  induction is generalizing s with
  | nil => trivial
  | cons i is ih => exact ⟨hK s i h.1, ih h.2⟩

end Laws

/-! ## A machine inside a larger one -/

section Component
variable {τ : Type u} {κ : Type v} {step : σ → ι → σ} {inner : τ → κ → τ}

theorem run_component (part : σ → τ) (drive : σ → ι → κ)
    (h : ∀ s i, part (step s i) = inner (part s) (drive s i)) (s : σ) (is : List ι) :
    part (run step s is) = run inner (part s) (emits step (fun s i => [drive s i]) s is) := by
  induction is generalizing s with
  | nil => rfl
  | cons i is ih =>
    rw [run_cons, ih, h]
    rfl

end Component

section Rules
variable {step : σ → ι → σ}

theorem invariant_run_of {I : σ → Prop} {K : σ → ι → Prop}
    (hstep : ∀ s i, I s → K s i → I (step s i)) {s : σ} (h : I s) {is : List ι}
    (hK : Always step K s is) : I (run step s is) := by
  induction is generalizing s with
  | nil => exact h
  | cons i is ih => exact ih (hstep s i h hK.1) hK.2

theorem invariant_run {I : σ → Prop} (hstep : ∀ s i, I s → I (step s i)) {s : σ} (h : I s)
    (is : List ι) : I (run step s is) :=
  invariant_run_of (K := fun _ _ => True) (fun s i hI _ => hstep s i hI) h (always_true s is)

/-- A clock that trades what it emits for what it takes in conserves the total. -/
theorem conservation_of {I : σ → Prop} {K : σ → ι → Prop} (contents : σ → List β)
    (inn out : σ → ι → List β) (hI : ∀ s i, I s → K s i → I (step s i))
    (hstep : ∀ s i, I s → K s i → out s i ++ contents (step s i) = contents s ++ inn s i)
    {s : σ} (h : I s) {is : List ι} (hK : Always step K s is) :
    emits step out s is ++ contents (run step s is) = contents s ++ emits step inn s is := by
  induction is generalizing s with
  | nil => simp
  | cons i is ih =>
    calc emits step out s (i :: is) ++ contents (run step s (i :: is))
        = out s i ++ (emits step out (step s i) is ++ contents (run step (step s i) is)) := by
          simp [emits_cons]
      _ = (out s i ++ contents (step s i)) ++ emits step inn (step s i) is := by
          rw [ih (hI s i h hK.1) hK.2, List.append_assoc]
      _ = contents s ++ emits step inn s (i :: is) := by
          rw [hstep s i h hK.1, emits_cons, List.append_assoc]

theorem conservation (contents : σ → List β) (inn out : σ → ι → List β)
    (hstep : ∀ s i, out s i ++ contents (step s i) = contents s ++ inn s i) (s : σ) (is : List ι) :
    emits step out s is ++ contents (run step s is) = contents s ++ emits step inn s is :=
  conservation_of (I := fun _ => True) (K := fun _ _ => True) contents inn out
    (fun _ _ _ _ => trivial) (fun s i _ _ => hstep s i) trivial (always_true s is)

theorem count_balance {I : σ → Prop} (level : σ → Nat) (p q : σ → ι → Bool)
    (hI : ∀ s i, I s → I (step s i))
    (hstep : ∀ s i, I s → level (step s i) + (q s i).toNat = level s + (p s i).toNat)
    {s : σ} (h : I s) (is : List ι) :
    level (run step s is) + count step q s is = level s + count step p s is := by
  induction is generalizing s with
  | nil => rfl
  | cons i is ih =>
    have h1 := hstep s i h
    have h2 := ih (hI s i h)
    simp only [run_cons, count_cons]
    omega

/-- If every clock short of `stop` lowers the rank, a long enough run reaches `stop`. -/
theorem exists_stop {I stop : σ → Prop} {K : σ → ι → Prop} (rank : σ → Nat)
    (hI : ∀ s i, I s → ¬ stop s → K s i → I (step s i) ∧ rank (step s i) < rank s)
    {s : σ} (h : I s) {is : List ι} (hK : Always step K s is) (hlen : rank s < is.length) :
    ∃ pre post, is = pre ++ post ∧ I (run step s pre) ∧ stop (run step s pre) := by
  induction is generalizing s with
  | nil => simp at hlen
  | cons i is ih =>
    by_cases hs : stop s
    · exact ⟨[], i :: is, rfl, h, hs⟩
    · obtain ⟨hn, hlt⟩ := hI s i h hs hK.1
      obtain ⟨pre, post, rfl, hp⟩ := ih hn hK.2 (by simp at hlen; omega)
      exact ⟨i :: pre, post, rfl, hp⟩

section Fair
variable {τ : Type u} {κ : Type v} {I : σ → τ → Prop} {K : ι → Prop} {ticks : ι → κ → Prop}
  (measure : τ → Nat) (need : τ → κ)

/-- A stretch of clocks gets on, or has lacked what was needed all along. -/
theorem gets_on (hstep : ∀ s i x, I s x → K i → ∃ x', I (step s i) x' ∧
      (measure x' < measure x ∨ x' = x ∧ (measure x = 0 ∨ ¬ ticks i (need x))))
    {is : List ι} (hK : ∀ i ∈ is, K i) {s : σ} {x : τ} (h : I s x) :
    ∃ x', I (run step s is) x' ∧ (measure x' < measure x ∨
      x' = x ∧ (measure x = 0 ∨ ∀ i ∈ is, ¬ ticks i (need x))) := by
  induction is generalizing s x with
  | nil => exact ⟨x, h, .inr ⟨rfl, .inr (by simp)⟩⟩
  | cons i is ih =>
    obtain ⟨y, hy, hmove⟩ := hstep s i x h (hK i List.mem_cons_self)
    obtain ⟨z, hz, hrest⟩ := ih (fun j hj => hK j (List.mem_cons_of_mem i hj)) hy
    refine ⟨z, hz, ?_⟩
    rcases hmove with hlt | ⟨rfl, hstay⟩
    · rcases hrest with hlt' | ⟨rfl, _⟩
      · exact .inl (Nat.lt_trans hlt' hlt)
      · exact .inl hlt
    · rcases hrest with hlt' | ⟨rfl, h0 | hnone⟩
      · exact .inl hlt'
      · exact .inr ⟨rfl, .inl h0⟩
      · rcases hstay with h0 | hno
        · exact .inr ⟨rfl, .inl h0⟩
        · refine .inr ⟨rfl, .inr ?_⟩
          intro j hj
          rcases List.mem_cons.mp hj with rfl | hj
          · exact hno
          · exact hnone j hj

/-- If every round ticks whatever may be needed, enough rounds bring the measure to zero. -/
theorem fair_run (hstep : ∀ s i x, I s x → K i → ∃ x', I (step s i) x' ∧
      (measure x' < measure x ∨ x' = x ∧ (measure x = 0 ∨ ¬ ticks i (need x))))
    {rounds : List (List ι)} (hK : ∀ is ∈ rounds, ∀ i ∈ is, K i)
    (hfair : ∀ is ∈ rounds, ∀ k, ∃ i ∈ is, ticks i k) {s : σ} {x : τ} (h : I s x)
    (hlen : measure x ≤ rounds.length) :
    ∃ x', I (run step s rounds.flatten) x' ∧ measure x' = 0 := by
  induction rounds generalizing s x with
  | nil => exact ⟨x, h, Nat.le_zero.mp hlen⟩
  | cons is rounds ih =>
    obtain ⟨y, hy, hmove⟩ := gets_on measure need hstep (hK is List.mem_cons_self) h
    rw [List.flatten_cons, run_append]
    apply ih (fun js hjs => hK js (List.mem_cons_of_mem is hjs))
      (fun js hjs => hfair js (List.mem_cons_of_mem is hjs)) hy
    rw [List.length_cons] at hlen
    rcases hmove with hlt | ⟨rfl, h0 | hnone⟩
    · omega
    · omega
    · obtain ⟨i, hi, htick⟩ := hfair is List.mem_cons_self (need y)
      exact absurd htick (hnone i hi)

end Fair

theorem run_recorded (out : σ → ι → List β) (s : σ) (bs : List β) (is : List ι) :
    run (recorded step out) (s, bs) is = (run step s is, bs ++ emits step out s is) := by
  induction is generalizing s bs with
  | nil => simp
  | cons i is ih => simp [recorded, ih, emits_cons]

/-- A state predicate that follows `A` and `B` from clock to clock is `Since`. -/
theorem since_iff {A : σ → ι → Prop} {B C I : σ → Prop} (hI : ∀ s i, I s → I (step s i))
    (hstep : ∀ s i, I s → (C (step s i) ↔ B (step s i) ∧ (A s i ∨ C s))) {s : σ} (h : I s)
    (h0 : ¬ C s) (is : List ι) : Since step A B s is ↔ C (run step s is) := by
  induction is using List.reverseRecOn with
  | nil => exact iff_of_false not_since_nil h0
  | append_singleton is i ih =>
    rw [since_snoc, ih, run_snoc, hstep _ i (invariant_run hI h is)]

/-- A state inside `P` goes back to the clock that entered `P` last. -/
theorem exists_entry {P : σ → Prop} {s : σ} (h0 : ¬ P s) {is : List ι} (h : P (run step s is)) :
    ∃ pre i vs, is = pre ++ i :: vs ∧ ¬ P (run step s pre) ∧ P (run step s (pre ++ [i])) ∧
      Always step (fun s _ => P s) (run step s (pre ++ [i])) vs := by
  induction is using List.reverseRecOn with
  | nil => exact absurd h h0
  | append_singleton is i ih =>
    by_cases hp : P (run step s is)
    · obtain ⟨pre, j, vs, rfl, hpre, hj, hvs⟩ := ih hp
      refine ⟨pre, j, vs ++ [i], by simp, hpre, hj, ?_⟩
      refine (always_snoc _ _ _).mpr ⟨hvs, ?_⟩
      rw [← run_append, List.append_assoc]
      exact hp
    · exact ⟨is, i, [], rfl, hp, h, trivial⟩

end Rules

end Clocked
