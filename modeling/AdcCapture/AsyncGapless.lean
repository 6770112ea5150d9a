import AdcCapture.AsyncFrames

/-!
# Frames leave axis_async_fifo without a gap

The write pointer reaches the read side at frame boundaries only. So the rest of
a frame is in the memory when its first word is read, and the output register is
refilled in the clock in which it is emptied.
-/

namespace AdcCapture.AxisAsyncFifo

open Clocked
open Packets (Ends ends_nil ends_snoc)
set_option autoImplicit false

variable {α : Type} {a u : Nat}

/-- What the read side sees are whole frames. -/
structure Whole (lastOf : α → Bool) (m : MReg α a) (C out : List α) (n : Counts) : Prop where
  stored : Ends lastOf C
  sync : Ends lastOf (C.take n.sync)
  sent : Ends lastOf (C.take n.sent1)
  fetched : ¬ Ends lastOf (C.take n.got) → m.memReadDataValid = true
  offered : ¬ Ends lastOf out → m.mAxisTvalid = true

section Step
variable {c : Config a u} {r : Reg α a} {C P out : List α} {n : Counts} {lastOf : α → Bool}

theorem last_of_commit {s : SReg α a} {i : SInput α u} (hf : c.frameFifo = true)
    (h : move c s i = .commit) : i.sAxisTlast = true := by
  simp only [move, hf] at h
  grind

theorem whole_sEdge (hf : c.frameFifo = true) (h : Inv c r C P out n)
    (hw : Whole lastOf r.m C out n) {i : SInput α u} (hi : i.sAxisTlast = lastOf i.sAxis) :
    Whole lastOf r.m ((move c r.s i).stored i.sAxis C P) out
      { n with sync := syncNext c r.s i C P n, seen1 := n.got, seen2 := n.seen1 } := by
  have hsent := h.sent_le
  have hsync := h.s.sync_le
  have hgot := got_le_stored h
  rw [if_pos hf] at hsent
  have hstored : Ends lastOf ((move c r.s i).stored i.sAxis C P) := by
    cases hm : move c r.s i with
    | commit =>
      simp only [Move.stored]
      rw [ends_snoc, ← hi]
      exact last_of_commit hf hm
    | keep | store | drop => exact hw.stored
  constructor
  case stored => exact hstored
  case sync =>
    simp only [syncNext]
    split
    · split
      · rw [take_stored _ _ _ (Nat.le_refl _), List.take_length]
        exact hw.stored
      · rw [List.take_length]
        exact hstored
    · rw [take_stored _ _ _ hsync]
      exact hw.sync
  case sent =>
    rw [take_stored _ _ _ (Nat.le_trans hsent hsync)]
    exact hw.sent
  case fetched =>
    rw [take_stored _ _ _ hgot]
    exact hw.fetched
  case offered => exact hw.offered

theorem whole_mEdge (hf : c.frameFifo = true) (h : Inv c r C P out n)
    (hw : Whole lastOf r.m C out n) {t : Bool} {y : FromS a} {w : α} {old : Nat} {n' : Counts}
    (hn : MNext c r.m t old n n') :
    Whole lastOf (mEdge c r.m t y w) C (out ++ handed r.m t) n' := by
  have hdata := h.data
  cases hr : r.m.mRstSync3 with
  | true =>
    obtain ⟨h0, h1, _, _, _, _, hv, ht⟩ := h.m.resting hr
    have hout : out = [] := by
      rw [h0, List.take_zero] at hdata
      exact (List.append_eq_nil_iff.mp hdata.symm).1
    have hnil : out ++ handed r.m t = [] := by simp [hout, handed, ht]
    rw [hn.reset hr, hnil]
    refine ⟨hw.stored, hw.sync, hw.sent, ?_, ?_⟩
    · intro hne
      rw [h0, List.take_zero] at hne
      exact absurd (ends_nil) hne
    · intro hne
      exact absurd (ends_nil) hne
  | false =>
    constructor
    case stored => exact hw.stored
    case sync =>
      rw [hn.sync]
      exact hw.sync
    case sent =>
      rw [hn.framed hr hf]
      split
      · exact hw.sent
      · exact hw.sync
    case fetched =>
      intro hne
      rw [hn.got] at hne
      cases hwant : wantsRead r.m t with
      | false =>
        have hvalid : r.m.memReadDataValid = true := by
          have hor := (Bool.or_eq_false_iff.mp hwant).2
          simpa using hor
        simp [mEdge, hr, hwant, hvalid]
      | true =>
        cases hempty : empty c r.m with
        | false => simp [mEdge, hr, hwant, hempty]
        | true =>
          have hread : read c r.m t = false := by simp [read, hempty]
          rw [hread, Bool.toNat_false, Nat.add_zero] at hne
          have hlt : n.got < n.visible c := by
            have hle := h.m.got_le
            have hsame : n.visible c = n.sent1 := by simp [Counts.visible, hf]
            have hdiff : n.got ≠ n.sent1 := by
              intro heq
              rw [heq] at hne
              exact hne hw.sent
            omega
          have hfull := empty_eq_false h hlt
          simp [hempty] at hfull
    case offered =>
      intro hne
      cases hv : r.m.mAxisTvalid with
      | false =>
        have hhand : handed r.m t = [] := by simp [handed, hv]
        rw [hhand, List.append_nil] at hne
        have htrue := hw.offered hne
        simp [hv] at htrue
      | true =>
        cases t with
        | false => simp [mEdge, hr, storeOutput, hv]
        | true =>
          have hhand : handed r.m true = [r.m.mAxis] := by simp [handed, hv, hr]
          have hmem : r.m.memReadDataValid = true := by
            rw [← Bool.not_eq_false]
            intro hno
            have htrue := hw.fetched (by
              rw [hdata, waiting, hv, hno]
              simpa [hhand] using hne)
            simp [hno] at htrue
          simp [mEdge, hr, storeOutput, hmem]

end Step

/-- Before both sides are cleared nothing is handed over; afterwards the frames are whole. -/
def Gapless (c : Config a u) (lastOf : α → Bool) (r : Reg α a) (out : List α) : Prop :=
  (Starting r ∧ out = []) ∨ ∃ C P n, Inv c r C P out n ∧ Whole lastOf r.m C out n

/-- The packed words carry their `tlast`. -/
def Packed (lastOf : α → Bool) (e : Event α a u) : Prop :=
  ∀ i ∈ e.sInput, i.sAxisTlast = lastOf i.sAxis

section Run
variable {c : Config a u} {r : Reg α a} {out : List α} {lastOf : α → Bool}

theorem gapless_step (hf : c.frameFifo = true) (h : Gapless c lastOf r out) {e : Event α a u}
    (he : Packed lastOf e) : Gapless c lastOf (step c r e) (out ++ delivered r e) := by
  rcases h with ⟨hst, rfl⟩ | ⟨C, P, n, hinv, hw⟩
  · have hdel : delivered r e = [] := by
      cases e <;> simp [delivered, Event.mAxisTready, handed, hst.m3]
    rw [hdel]
    rcases starting_step hst e with hnext | ⟨hnext, _⟩
    · exact .inl ⟨hnext, rfl⟩
    · refine .inr ⟨[], [], _, hnext, ?_⟩
      constructor <;> simp [ends_nil]
  · refine .inr ?_
    cases e with
    | s i =>
      have hout : delivered r (.s i : Event α a u) = [] := rfl
      rw [hout, List.append_nil]
      exact ⟨_, _, _, inv_sEdge hinv i, whole_sEdge hf hinv hw (he i rfl)⟩
    | m t =>
      obtain ⟨n', hn, hnext⟩ := inv_mEdge (t := t) hinv (fair_old hinv) (sent_le_stored hinv)
        (getElem?_of_read hinv)
      exact ⟨C, P, n', hnext, whole_mEdge hf hinv hw hn⟩
    | both i t k =>
      obtain ⟨n', p, hn, _, hnext⟩ := inv_both hinv i t k
      have hfirst := whole_sEdge hf hinv hw (he i rfl)
      have hsecond := whole_mEdge (y := FromS.mix k.toM r.s.out (sEdge c r.s i r.m.out).out)
        (w := readWord c r i k.collision) hf (inv_sEdge hinv i) hfirst hn
      exact ⟨_, _, _, hnext, { hsecond with }⟩

/-- Once the first word of a frame has been handed over, the next word is on offer until the
last. -/
theorem gapless (hf : c.frameFifo = true) (r : Reg α a) {es : List (Event α a u)}
    (hes : ∀ e ∈ es, Packed lastOf e)
    (hopen : ¬ Ends lastOf (emits (step c) delivered (asyncRst r) es)) :
    (run (step c) (asyncRst r) es).m.mAxisTvalid = true := by
  have hrun : Gapless c lastOf (run (step c) (asyncRst r) es)
      (emits (step c) delivered (asyncRst r) es) := by
    clear hopen
    induction es using List.reverseRecOn with
    | nil => exact .inl ⟨starting_asyncRst r, rfl⟩
    | append_singleton es e ih =>
      rw [run_snoc, emits_snoc]
      apply gapless_step hf (ih fun d hd => hes d (List.mem_append_left _ hd))
      exact hes e (List.mem_append_right _ (List.mem_singleton_self e))
  rcases hrun with ⟨_, hnil⟩ | ⟨C, P, n, _, hw⟩
  · rw [hnil] at hopen
    exact absurd (ends_nil) hopen
  · exact hw.offered hopen

end Run

/-- A frame of two words, up to the clock in which the first is handed over. -/
def halfFrame : List (Event Word 15 1) :=
  List.replicate 3 (.both (wordIn ⟨1#8, true, 0#1⟩ false) true noSkew) ++
    .both (wordIn ⟨5#8, false, 0#1⟩ true) true noSkew ::
    .both (wordIn ⟨6#8, true, 0#1⟩ true) true noSkew ::
      List.replicate 6 (.both (wordIn ⟨1#8, true, 0#1⟩ false) true noSkew)

theorem packed_halfFrame : ∀ e ∈ halfFrame, Packed Word.tlast e := by
  have hword (w : Word) (v : Bool) :
      Packed Word.tlast (.both (wordIn w v) true noSkew : Event Word 15 1) := by
    rintro i ⟨⟩
    rfl
  intro e he
  simp only [halfFrame, List.mem_append, List.mem_cons, List.mem_replicate] at he
  rcases he with ⟨_, rfl⟩ | rfl | rfl | ⟨_, rfl⟩ <;> exact hword _ _

theorem gapless_halfFrame :
    (run (step txFifo) (asyncRst someFifo) halfFrame).m.mAxisTvalid = true := by
  have hout : emits (step txFifo) delivered (asyncRst someFifo) halfFrame =
      [⟨5#8, false, 0#1⟩] := by
    decide +kernel
  apply gapless rfl someFifo packed_halfFrame
  rw [hout]
  simp [Ends]

end AdcCapture.AxisAsyncFifo
