import AdcCapture.Clocked

/-!
# rstBridge

The block runs at rising edges of `clk` and at rising edges of the active-low
`asyncrst_n`. A fall of `asyncrst_n` is not an event for it, a rise is one more
clock. Here the three events come in any order.
-/

namespace AdcCapture.RstBridge

open Clocked
set_option autoImplicit false

structure Reg where
  rff1 : Bool
  rstN : Bool
  deriving DecidableEq, Repr

/-- The `always_ff` body. -/
def body (asyncrstN : Bool) (r : Reg) : Reg :=
  if asyncrstN = false then ⟨false, false⟩ else ⟨true, r.rff1⟩

theorem body_true (r : Reg) : body true r = ⟨true, r.rff1⟩ := rfl

theorem body_false (r : Reg) : body false r = ⟨false, false⟩ := rfl

/-- The flip-flops as they are configured. -/
def powerUpReg : Reg := ⟨false, false⟩

inductive Event where
  | clk | fall | rise
  deriving DecidableEq, Repr

structure State where
  asyncrstN : Bool
  reg : Reg
  deriving DecidableEq, Repr

/-- A fall of a low line and a rise of a high one are no edges. -/
def step (s : State) (e : Event) : State :=
  match e with
  | .clk => { s with reg := body s.asyncrstN s.reg }
  | .fall => { s with asyncrstN := false }
  | .rise => if s.asyncrstN then s else ⟨true, body true s.reg⟩

def powerUp (line : Bool) : State := ⟨line, powerUpReg⟩

/-! ## Two flip-flops after the release -/

/-- The bridge next to the number of `clk` edges since the last rise of `asyncrst_n`. -/
def watch (w : State × Nat) (e : Event) : State × Nat :=
  (step w.1 e,
    match e with
    | .clk => w.2 + 1
    | .fall => w.2
    | .rise => if w.1.asyncrstN then w.2 else 0)

/-- The `clk` edges since the last rise of `asyncrst_n`, or since power-up. -/
def edges (line : Bool) (es : List Event) : Nat := (run watch (powerUp line, 0) es).2

/-- `rst_n` rises at a `clk` edge, the second one after the release or a later one. -/
def releasesLate (line : Bool) (pre : List Event) (e : Event) : Prop :=
  (run step (powerUp line) pre).reg.rstN = false →
    (step (run step (powerUp line) pre) e).reg.rstN = true → e = .clk ∧ 2 ≤ edges line (pre ++ [e])

/-- What the block is there for. -/
structure Bridges (line : Bool) (es : List Event) : Prop where
  asserts : ∀ pre, pre <+: es → (run step (powerUp line) pre).asyncrstN = false →
    (run step (powerUp line) pre).reg.rstN = false
  releases : Throughout (releasesLate line) es

/-- Neither the missing nor the extra edge of the sensitivity list shows in this event. -/
def spared (line : Bool) (pre : List Event) (e : Event) : Prop :=
  let s := run step (powerUp line) pre
  match e with
  | .fall => s.asyncrstN = true → s.reg.rstN = false
  | .rise => s.asyncrstN = false → s.reg.rff1 = false
  | .clk => s.asyncrstN = true → line = true ∧ Event.fall ∉ pre

section Snoc
variable {line : Bool} {es : List Event} {e : Event}

theorem run_watch (line : Bool) (es : List Event) :
    (run watch (powerUp line, 0) es).1 = run step (powerUp line) es := by
  induction es using List.reverseRecOn with
  | nil => rfl
  | append_singleton es e ih =>
    rw [run_append, run_append, ← ih]
    rfl

theorem edges_snoc : edges line (es ++ [e]) =
    match e with
    | .clk => edges line es + 1
    | .fall => edges line es
    | .rise => if (run step (powerUp line) es).asyncrstN then edges line es else 0 := by
  rw [← run_watch, edges, run_append]
  cases e <;> rfl

theorem bridges_snoc : Bridges line (es ++ [e]) ↔ Bridges line es ∧
    ((run step (powerUp line) (es ++ [e])).asyncrstN = false →
      (run step (powerUp line) (es ++ [e])).reg.rstN = false) ∧ releasesLate line es e := by
  constructor
  · intro h
    obtain ⟨hes, he⟩ := throughout_snoc.mp h.releases
    refine ⟨⟨?_, hes⟩, h.asserts _ (List.prefix_refl _), he⟩
    intro pre hpre
    exact h.asserts pre (hpre.trans (List.prefix_append _ _))
  · rintro ⟨h, hlast, he⟩
    refine ⟨?_, throughout_snoc.mpr ⟨h.releases, he⟩⟩
    intro pre hpre
    rcases List.prefix_concat_iff.mp hpre with rfl | hpre
    · exact hlast
    · exact h.asserts pre hpre

end Snoc

/-! ## Spared runs -/

/-- The flip-flops in a spared run. -/
structure Known (line : Bool) (es : List Event) (s : State) : Prop where
  low : s.asyncrstN = false → s.reg.rstN = false
  risen : s.asyncrstN = true → ¬ (line = true ∧ Event.fall ∉ es) →
    s.reg = ⟨true, false⟩ ∧ edges line es = 0
  untouched : line = true → Event.fall ∉ es →
    s.asyncrstN = true ∧ (s.reg.rff1 = true → 1 ≤ edges line es)

section Known
variable {line : Bool} {es : List Event} {e : Event}

theorem known_nil : Known line [] (powerUp line) where
  low _ := rfl
  risen hl hn := absurd ⟨hl, by simp⟩ hn
  untouched hl _ := ⟨hl, fun h => by cases h⟩

theorem known_snoc (h : Known line es (run step (powerUp line) es)) (hs : spared line es e) :
    Known line (es ++ [e]) (run step (powerUp line) (es ++ [e])) := by
  have hedges : edges line (es ++ [e]) = _ := edges_snoc
  rw [run_snoc]
  unfold spared at hs
  generalize run step (powerUp line) es = s at *
  cases e with
  | clk =>
    cases hl : s.asyncrstN with
    | false =>
      refine ⟨?_, ?_, ?_⟩
      · intro _
        simp [step, hl, body_false]
      · intro hn
        simp [step, hl] at hn
      · intro hline hf
        have hu := (h.untouched hline (by simpa using hf)).1
        rw [hl] at hu
        cases hu
    | true =>
      have hline := hs hl
      refine ⟨?_, ?_, ?_⟩
      · intro hn
        simp [step, hl] at hn
      · intro _ hn
        exact absurd (by simpa using hline) hn
      · intro _ _
        simp only at hedges
        refine ⟨hl, fun _ => ?_⟩
        omega
  | fall =>
    refine ⟨?_, ?_, ?_⟩
    · intro _
      cases hl : s.asyncrstN with
      | false => exact h.low hl
      | true => exact hs hl
    · intro hn
      cases hn
    · intro _ hf
      simp at hf
  | rise =>
    cases hl : s.asyncrstN with
    | true =>
      have hstep : step s .rise = s := by simp [step, hl]
      simp only [hl, if_true] at hedges
      rw [hstep]
      refine ⟨h.low, ?_, ?_⟩
      · intro _ hn
        rw [hedges]
        exact h.risen hl (by simpa using hn)
      · intro hline hf
        rw [hedges]
        exact h.untouched hline (by simpa using hf)
    | false =>
      simp only [hl, Bool.false_eq_true, if_false] at hedges
      have hstep : step s .rise = ⟨true, ⟨true, false⟩⟩ := by simp [step, hl, body_true, hs hl]
      rw [hstep]
      refine ⟨?_, ?_, ?_⟩
      · intro hn
        cases hn
      · intro _ _
        exact ⟨rfl, hedges⟩
      · intro hline hf
        have hu := (h.untouched hline (by simpa using hf)).1
        rw [hl] at hu
        cases hu

theorem known_run (h : Throughout (spared line) es) :
    Known line es (run step (powerUp line) es) := by
  induction es using List.reverseRecOn with
  | nil => exact known_nil
  | append_singleton es e ih =>
    obtain ⟨hes, he⟩ := throughout_snoc.mp h
    exact known_snoc (ih hes) he

/-- After a spared run the next event keeps the promise exactly when it is spared too. -/
theorem keeps_iff_spared (h : Known line es (run step (powerUp line) es)) :
    (((run step (powerUp line) (es ++ [e])).asyncrstN = false →
      (run step (powerUp line) (es ++ [e])).reg.rstN = false) ∧ releasesLate line es e) ↔
      spared line es e := by
  have hedges : edges line (es ++ [e]) = _ := edges_snoc
  unfold releasesLate spared
  rw [run_snoc]
  generalize run step (powerUp line) es = s at *
  cases e with
  | clk =>
    cases hl : s.asyncrstN with
    | false => simp [step, hl, body_false]
    | true =>
      by_cases hline : line = true ∧ Event.fall ∉ es
      · have hu := (h.untouched hline.1 hline.2).2
        dsimp only
        constructor
        · intro _ _
          exact hline
        · intro _
          refine ⟨fun hn => absurd hn (by simp [step, hl]), ?_⟩
          intro _ hr
          have h1 := hu (by simpa [step, hl, body_true] using hr)
          simp only at hedges
          refine ⟨rfl, ?_⟩
          omega
      · obtain ⟨hreg, h0⟩ := h.risen hl hline
        simp only at hedges
        rw [hedges, h0]
        simp [step, hl, body_true, hreg, hline]
  | fall =>
    cases hl : s.asyncrstN with
    | false => simp [step, h.low hl]
    | true => simp [step]; grind
  | rise =>
    cases hl : s.asyncrstN with
    | true => simp [step, hl]
    | false => simp [step, hl, body_true, h.low hl]

end Known

theorem bridges_iff (line : Bool) (es : List Event) :
    Bridges line es ↔ Throughout (spared line) es := by
  induction es using List.reverseRecOn with
  | nil =>
    constructor
    · intro _
      exact throughout_nil
    · intro _
      refine ⟨?_, throughout_nil⟩
      intro pre hpre _
      rw [List.prefix_nil.mp hpre]
      rfl
  | append_singleton es e ih =>
    rw [bridges_snoc, throughout_snoc, ih]
    apply and_congr_right
    intro h
    exact keeps_iff_spared (known_run h)

/-- A low pulse between two `clk` edges. -/
theorem pulse_is_lost : ¬ Bridges true [.clk, .clk, .fall, .rise, .clk] := by
  intro h
  have hlow := h.asserts [.clk, .clk, .fall] (by simp) rfl
  exact absurd hlow (by decide)

end AdcCapture.RstBridge
