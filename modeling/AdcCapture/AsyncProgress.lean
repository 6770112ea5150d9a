import AdcCapture.AsyncFrames

/-!
# axis_async_fifo delivers

While both clocks tick and the sink is ready, every word committed so far comes
out. The measure counts what is left of the reset, how far the update of the
write pointer has come on its way round, and the words still to be read. Words
taken in meanwhile do not matter.
-/

namespace AdcCapture.AxisAsyncFifo

open Clocked
set_option autoImplicit false

variable {α : Type} {a u : Nat}

/-- Edges until the update is back where it started. -/
def dist (u₀ u₁ u₂ u₃ a₁ a₂ : Bool) : Nat :=
  if u₀ != u₁ then 5 else if u₁ != u₂ then 4 else if u₂ != u₃ then 3
  else if u₃ != a₁ then 2 else if a₁ != a₂ then 1 else 0

section Dist
variable (u₀ u₁ u₂ u₃ a₁ a₂ v : Bool)

theorem dist_lt : dist u₀ u₁ u₂ u₃ a₁ a₂ < 6 := by
  revert u₀ u₁ u₂ u₃ a₁ a₂
  decide

theorem dist_s (h : oneChange u₀ u₁ u₂ u₃ a₁ a₂ = true) :
    dist u₀ u₁ u₂ u₃ u₃ a₁ ≤ dist u₀ u₁ u₂ u₃ a₁ a₂ ∧
      (0 < dist u₀ u₁ u₂ u₃ a₁ a₂ → dist u₀ u₁ u₂ u₃ a₁ a₂ < 3 →
        dist u₀ u₁ u₂ u₃ u₃ a₁ < dist u₀ u₁ u₂ u₃ a₁ a₂) := by
  revert u₀ u₁ u₂ u₃ a₁ a₂
  decide

theorem dist_m (h : oneChange u₀ u₁ u₂ u₃ a₁ a₂ = true) (hv : v = u₀ ∨ v = u₁) :
    dist u₀ v u₁ u₂ a₁ a₂ ≤ dist u₀ u₁ u₂ u₃ a₁ a₂ ∧
      (v = u₀ → 3 ≤ dist u₀ u₁ u₂ u₃ a₁ a₂ →
        dist u₀ v u₁ u₂ a₁ a₂ < dist u₀ u₁ u₂ u₃ a₁ a₂) := by
  revert u₀ u₁ u₂ u₃ a₁ a₂ v
  decide

theorem dist_resample (h : oneChange u₀ u₁ u₂ u₃ a₁ a₂ = true) :
    dist u₀ u₁ u₂ u₃ u₃ a₂ ≤ dist u₀ u₁ u₂ u₃ a₁ a₂ := by
  revert u₀ u₁ u₂ u₃ a₁ a₂
  decide

theorem back_of_dist (h : dist u₀ u₁ u₂ u₃ a₁ a₂ = 0) : u₀ = a₂ := by
  revert u₀ u₁ u₂ u₃ a₁ a₂
  decide

theorem three_le_dist (h : oneChange u₀ u₁ u₂ u₃ a₁ a₂ = true) (hne : u₃ ≠ u₀) :
    3 ≤ dist u₀ u₁ u₂ u₃ a₁ a₂ := by
  revert u₀ u₁ u₂ u₃ a₁ a₂
  decide

end Dist

/-! ## The measure -/

def distance (r : Reg α a) : Nat :=
  dist r.s.wrPtrUpdate r.m.wrPtrUpdateSync1 r.m.wrPtrUpdateSync2 r.m.wrPtrUpdateSync3
    r.s.wrPtrUpdateAckSync1 r.s.wrPtrUpdateAckSync2

/-- What keeps the read side from seeing the first `T` words, with the update at distance `d`. -/
def owed (c : Config a u) (T d : Nat) (n : Counts) : Nat :=
  if c.frameFifo then
    if T ≤ n.sent1 then 0 else (if T ≤ n.sync then 0 else 6) + d
  else if T ≤ n.sent2 then 0 else if T ≤ n.sent1 then 3 else 4

def bubble (m : MReg α a) : Nat :=
  if m.mAxisTvalid then 0 else if m.memReadDataValid then 1 else 2

def left (T : Nat) (m : MReg α a) (out : List α) : Nat :=
  3 * (T - out.length) + if out.length < T then bubble m else 0

def resetting (m : MReg α a) : Nat := m.mRstSync2.toNat + m.mRstSync3.toNat

section Steps
variable {c : Config a u} {r : Reg α a} {C P out : List α} {n : Counts} {T : Nat}

theorem owed_eq_zero (h : Inv c r C P out n) (h0 : owed c T (distance r) n = 0) :
    T ≤ n.visible c := by
  have hsynced := h.synced
  simp only [owed, Counts.visible] at h0 ⊢
  split at h0 <;> rename_i hf
  · rw [if_pos hf]
    by_cases hT : T ≤ n.sent1
    · exact hT
    · by_cases hsync : T ≤ n.sync
      · have hne : r.m.wrPtrUpdateSync3 ≠ r.s.wrPtrUpdate := by
          intro heq
          have hsame := hsynced hf heq
          omega
        have hfar := three_le_dist _ _ _ _ _ _ h.chain hne
        rw [if_neg hT, distance] at h0
        omega
      · rw [if_neg hT, if_neg hsync] at h0
        omega
  · rw [if_neg hf]
    by_cases hT : T ≤ n.sent2
    · exact hT
    · rw [if_neg hT] at h0
      split at h0 <;> simp at h0

theorem distance_sEdge (h : Inv c r C P out n) (i : SInput α u) (hr : r.s.sRstSync3 = false) :
    distance { r with s := sEdge c r.s i r.m.out } = if starts c r.s i then 5
      else dist r.s.wrPtrUpdate r.m.wrPtrUpdateSync1 r.m.wrPtrUpdateSync2 r.m.wrPtrUpdateSync3
        r.m.wrPtrUpdateSync3 r.s.wrPtrUpdateAckSync1 := by
  have hupd := wrPtrUpdate_sEdge h i r.m.out
  have hack : (sEdge c r.s i r.m.out).wrPtrUpdateAckSync1 = r.m.wrPtrUpdateSync3 ∧
      (sEdge c r.s i r.m.out).wrPtrUpdateAckSync2 = r.s.wrPtrUpdateAckSync1 := by
    simp [sEdge, hr, MReg.out]
  rw [distance, hupd, hack.1, hack.2]
  split
  · rename_i hst
    obtain ⟨h1, _⟩ := oneChange_back _ _ _ _ _ _ h.chain (starts_back hst)
    simp [dist, h1]
  · rfl

/-- The position offered after a clock in which an update sets off. -/
theorem le_syncNext {i : SInput α u} (hT : T ≤ C.length) (hst : starts c r.s i = true) :
    T ≤ syncNext c r.s i C P n := by
  have hgrow := length_stored_le i.sAxis C P (move c r.s i)
  rw [syncNext, if_pos hst]
  split
  · exact hT
  · exact Nat.le_trans hT hgrow

/-- An update that waits with nothing on its way sets off. -/
theorem starts_of_waiting (h : Inv c r C P out n) (hf : c.frameFifo = true)
    (hsync : n.sync < C.length) (hd : distance r = 0) (i : SInput α u) :
    starts c r.s i = true := by
  have hback := back_of_dist _ _ _ _ _ _ hd
  have hvalid : r.s.wrPtrUpdateValid = true := by
    rw [← Bool.not_eq_false]
    intro hv
    have hsame := h.s.sync_eq hf hv
    omega
  simp [starts, hf, hback, hvalid]

theorem owed_sEdge (h : Inv c r C P out n) (hT : T ≤ C.length) (i : SInput α u) :
    let d' := distance { r with s := sEdge c r.s i r.m.out }
    let n' : Counts :=
      { n with sync := syncNext c r.s i C P n, seen1 := n.got, seen2 := n.seen1 }
    owed c T d' n' ≤ owed c T (distance r) n ∧ (0 < owed c T (distance r) n →
      owed c T (distance r) n % 6 < 3 → owed c T d' n' < owed c T (distance r) n) := by
  intro d' n'
  cases hr : r.s.sRstSync3 with
  | true =>
    obtain ⟨rfl, _⟩ := h.s.resting hr
    have hT0 : T = 0 := Nat.le_zero.mp hT
    simp [owed, hT0]
  | false =>
    cases hf : c.frameFifo with
    | false =>
      simp only [owed, hf, n', Bool.false_eq_true, if_false]
      split
      · omega
      · split <;> omega
    | true =>
      have hdist := distance_sEdge h i hr
      have hlt : distance r < 6 := dist_lt _ _ _ _ _ _
      simp only [owed, hf, if_true]
      by_cases hsent : T ≤ n.sent1
      · simp [n', hsent]
      · by_cases hst : starts c r.s i = true
        · obtain ⟨_, _, h3, _⟩ := oneChange_back _ _ _ _ _ _ h.chain (starts_back hst)
          have hsync : n.sent1 = n.sync := by
            apply h.synced hf
            rw [h3, starts_back hst]
          have hfar : ¬ T ≤ n.sync := by omega
          have hnear : T ≤ syncNext c r.s i C P n := le_syncNext hT hst
          have hd : d' = 5 := hdist.trans (if_pos hst)
          simp only [hd, n', hsent, hfar, hnear, if_true, if_false]
          omega
        · have hd : d' = dist r.s.wrPtrUpdate r.m.wrPtrUpdateSync1 r.m.wrPtrUpdateSync2
              r.m.wrPtrUpdateSync3 r.m.wrPtrUpdateSync3 r.s.wrPtrUpdateAckSync1 :=
            hdist.trans (if_neg hst)
          have hsync : syncNext c r.s i C P n = n.sync := by
            rw [syncNext, if_neg hst]
          have hmove : d' ≤ distance r ∧
              (0 < distance r → distance r < 3 → d' < distance r) := by
            rw [hd]
            exact dist_s _ _ _ _ _ _ h.chain
          by_cases hfar : T ≤ n.sync
          · have hne : r.m.wrPtrUpdateSync3 ≠ r.s.wrPtrUpdate := by
              intro heq
              have hsame := h.synced hf heq
              omega
            have hthree : 3 ≤ distance r := three_le_dist _ _ _ _ _ _ h.chain hne
            simp only [n', hsync, hsent, hfar, if_true, if_false]
            omega
          · have hpos : distance r ≠ 0 := by
              intro h0
              exact hst (starts_of_waiting h hf (by omega) h0 i)
            simp only [n', hsync, hsent, hfar, if_false]
            omega

theorem owed_mEdge {y : FromS a} {t : Bool} {w : α} {n' : Counts} (h : Inv c r C P out n)
    {old : Nat} (hy : y.wrPtrUpdate = r.s.wrPtrUpdate ∨ y.wrPtrUpdate = r.m.wrPtrUpdateSync1)
    (hn : MNext c r.m t old n n') (hT : T ≤ old) :
    let d' := distance { r with m := mEdge c r.m t y w }
    owed c T d' n' ≤ owed c T (distance r) n ∧ (r.m.mRstSync3 = false →
      y.wrPtrUpdate = r.s.wrPtrUpdate → 3 ≤ owed c T (distance r) n % 6 →
        owed c T d' n' < owed c T (distance r) n) := by
  intro d'
  cases hr : r.m.mRstSync3 with
  | true =>
    obtain ⟨_, _, _, h1, h2, h3, _⟩ := h.m.resting hr
    have hd : d' = distance r := by
      simp [d', distance, mEdge, hr, h1, h2, h3]
    rw [hd, hn.reset hr]
    simp
  | false =>
    have hle := h.m.sent_le
    have hbound := h.sent_le
    have hsent2 := hn.sent2 hr
    cases hf : c.frameFifo with
    | false =>
      have hsent1 := hn.plain hr hf
      simp only [owed, hf, hsent2, Bool.false_eq_true, if_false]
      split <;> split <;> (try split) <;> omega
    | true =>
      rw [hf, if_pos rfl] at hbound
      have hsent1 := hn.framed hr hf
      have hlt : distance r < 6 := dist_lt _ _ _ _ _ _
      have hd : d' = dist r.s.wrPtrUpdate y.wrPtrUpdate r.m.wrPtrUpdateSync1
          r.m.wrPtrUpdateSync2 r.s.wrPtrUpdateAckSync1 r.s.wrPtrUpdateAckSync2 := by
        simp [d', distance, mEdge, hr]
      obtain ⟨hclose, hcloser⟩ : d' ≤ distance r ∧
          (y.wrPtrUpdate = r.s.wrPtrUpdate → 3 ≤ distance r → d' < distance r) := by
        rw [hd]
        exact dist_m _ _ _ _ _ _ _ h.chain hy
      simp only [owed, hf, if_true, hn.sync]
      by_cases hsent : T ≤ n.sent1
      · have hnext : T ≤ n'.sent1 := by
          rw [hsent1]
          split <;> omega
        simp [hsent, hnext]
      · by_cases hsync : T ≤ n.sync
        · simp only [hsent, hsync, if_true, if_false]
          refine ⟨by split <;> omega, ?_⟩
          intro _ hnew hthree
          have hless := hcloser hnew (by omega)
          split <;> omega
        · have hnext : ¬ T ≤ n'.sent1 := by
            rw [hsent1]
            split <;> omega
          simp only [hsent, hsync, hnext, if_false]
          refine ⟨by omega, ?_⟩
          intro _ hnew hthree
          have hless := hcloser hnew (by omega)
          omega

theorem left_mEdge (h : Inv c r C P out n) (y : FromS a) (w : α) (T : Nat) :
    let m' := mEdge c r.m true y w
    left T m' (out ++ handed r.m true) ≤ left T r.m out ∧ (r.m.mRstSync3 = false →
      T ≤ n.visible c → 0 < left T r.m out →
        left T m' (out ++ handed r.m true) < left T r.m out) := by
  intro m'
  cases hr : r.m.mRstSync3 with
  | true =>
    obtain ⟨_, _, _, _, _, _, hv, ht⟩ := h.m.resting hr
    simp [left, bubble, handed, m', mEdge, hr, hv, ht]
  | false =>
    have hlen := length_out h
    have hempty : T ≤ n.visible c → n.got < T → empty c r.m = false := by
      intro hT hgot
      exact empty_eq_false h (Nat.lt_of_lt_of_le hgot hT)
    rcases Bool.eq_false_or_eq_true r.m.mAxisTvalid with hv | hv <;>
      rcases Bool.eq_false_or_eq_true r.m.memReadDataValid with hd | hd <;>
      simp only [waiting, hv, hd] at hlen <;>
      simp [left, bubble, handed, m', mEdge, wantsRead, storeOutput, hr, hv, hd] at hlen ⊢
    · omega
    · refine ⟨by split <;> (try split) <;> omega, ?_⟩
      intro _ _
      split <;> (try split) <;> omega
    · intro _ hpos
      rcases hpos with h0 | h0
      · rw [if_pos (by omega)]
        exact Nat.one_pos
      · exact h0
    · refine ⟨by split <;> (try split) <;> omega, ?_⟩
      intro hT hpos
      have hlt : out.length < T := by
        rcases hpos with h0 | h0
        · omega
        · split at h0 <;> omega
      simp [hlt, hempty hT (by omega)]

/-! ## Rounds -/

/-- What is left of the reset, of the update, and of the words. -/
structure Rank where
  reset : Nat
  update : Nat
  words : Nat

def Rank.measure (x : Rank) : Nat := x.reset + x.update + x.words

inductive Side where
  | s | m
  deriving DecidableEq

/-- The side that has to tick next. -/
def Rank.need (x : Rank) : Side :=
  if 0 < x.reset ∨ x.update = 0 ∨ 3 ≤ x.update % 6 then .m else .s

def Event.ticks : Event α a u → Side → Prop
  | .s _, k => k = .s
  | .m _, k => k = .m
  | .both _ _ _, _ => True

theorem resetting_mEdge (h : Inv c r C P out n) {y : FromS a} (hy : y.sRstSync1 = false) {t : Bool}
    {w : α} : resetting (mEdge c r.m t y w) ≤ resetting r.m ∧
      (0 < resetting r.m → resetting (mEdge c r.m t y w) < resetting r.m) ∧
      (resetting r.m = 0 → r.m.mRstSync3 = false) := by
  have hrun := h.m.running
  cases h2 : r.m.mRstSync2 <;> cases h3 : r.m.mRstSync3 <;>
    simp [resetting, mEdge, hy, h.m.started, h2, h3] at hrun ⊢

theorem Rank.lt_or_eq {x x' : Rank} (h1 : x'.reset ≤ x.reset) (h2 : x'.update ≤ x.update)
    (h3 : x'.words ≤ x.words) : x'.measure < x.measure ∨ x' = x := by
  by_cases heq : x'.reset = x.reset ∧ x'.update = x.update ∧ x'.words = x.words
  · obtain ⟨e1, e2, e3⟩ := heq
    right
    cases x
    cases x'
    simp_all
  · left
    rw [measure, measure]
    omega

def rankOf (c : Config a u) (T : Nat) (r : Reg α a) (out : List α) (n : Counts) : Rank :=
  ⟨resetting r.m, owed c T (distance r) n, left T r.m out⟩

/-- The rank after an edge of `m_clk`. -/
theorem rank_mEdge {y : FromS a} {w : α} {old : Nat} {n' : Counts} (h : Inv c r C P out n)
    (hy : Fair c r C old y) (hn : MNext c r.m true old n n') (hT : T ≤ old) {x x' : Rank}
    (hx : x = rankOf c T r out n)
    (hx' : x' = rankOf c T { r with m := mEdge c r.m true y w } (out ++ handed r.m true) n') :
    (x'.reset ≤ x.reset ∧ x'.update ≤ x.update ∧ x'.words ≤ x.words) ∧
      ((3 ≤ x.update % 6 → y.wrPtrUpdate = r.s.wrPtrUpdate) → x.need = .m → 0 < x.measure →
        x'.measure < x.measure) := by
  obtain ⟨hr, hr', hrun⟩ := resetting_mEdge h (t := true) (w := w) hy.started
  obtain ⟨ho, ho'⟩ := owed_mEdge (w := w) h hy.update hn hT
  obtain ⟨hl, hl'⟩ := left_mEdge h y w T
  have h1 : x'.reset ≤ x.reset := by rw [hx, hx']; exact hr
  have h2 : x'.update ≤ x.update := by rw [hx, hx']; exact ho
  have h3 : x'.words ≤ x.words := by rw [hx, hx']; exact hl
  refine ⟨⟨h1, h2, h3⟩, ?_⟩
  intro hnew hneed hpos
  rw [Rank.measure] at hpos ⊢
  rw [Rank.measure]
  by_cases hreset : 0 < x.reset
  · have hless : x'.reset < x.reset := by
      rw [hx] at hreset
      rw [hx, hx']
      exact hr' hreset
    omega
  · have hr3 : r.m.mRstSync3 = false := by
      rw [hx] at hreset
      exact hrun (Nat.eq_zero_of_not_pos hreset)
    by_cases h0 : x.update = 0
    · have hwords : 0 < x.words := by omega
      have hless : x'.words < x.words := by
        rw [hx] at h0 hwords
        rw [hx, hx']
        exact hl' hr3 (owed_eq_zero h h0) hwords
      omega
    · have hthree : 3 ≤ x.update % 6 := by
        rw [Rank.need] at hneed
        split at hneed <;> rename_i hc
        · rcases hc with hc | hc | hc
          · exact absurd hc hreset
          · exact absurd hc h0
          · exact hc
        · simp at hneed
      have hless : x'.update < x.update := by
        have hsame := hnew hthree
        rw [hx] at hthree
        rw [hx, hx']
        exact ho' hr3 hsame hthree
      omega

/-- The rank after an edge of `s_clk`. -/
theorem rank_sEdge (h : Inv c r C P out n) (hT : T ≤ C.length) (i : SInput α u) {x x' : Rank}
    (hx : x = rankOf c T r out n)
    (hx' : x' = rankOf c T { r with s := sEdge c r.s i r.m.out } out
      { n with sync := syncNext c r.s i C P n, seen1 := n.got, seen2 := n.seen1 }) :
    (x'.reset = x.reset ∧ x'.update ≤ x.update ∧ x'.words = x.words) ∧
      (x.need = .s → x'.measure < x.measure) := by
  obtain ⟨ho, ho'⟩ := owed_sEdge h hT i
  have h1 : x'.reset = x.reset := by rw [hx, hx']; rfl
  have h2 : x'.update ≤ x.update := by rw [hx, hx']; exact ho
  have h3 : x'.words = x.words := by rw [hx, hx']; rfl
  refine ⟨⟨h1, h2, h3⟩, ?_⟩
  intro hneed
  rw [Rank.need] at hneed
  split at hneed <;> rename_i hc
  · simp at hneed
  · have hless : x'.update < x.update := by
      rw [hx] at hc
      rw [hx, hx']
      have hpos : 0 < owed c T (distance r) n := Nat.pos_of_ne_zero fun h0 => hc (.inr (.inl h0))
      apply ho' hpos
      exact Nat.lt_of_not_le fun hge => hc (.inr (.inr hge))
    rw [Rank.measure, Rank.measure]
    omega

/-- The write side's sample brings the update no further away. -/
theorem distance_both {i : SInput α u} {t : Bool} {k : Skew α a} {n' : Counts} {C' P' out' : List α}
    (hmid : Inv c ⟨sEdge c r.s i r.m.out, mBoth c r i t k⟩ C' P' out' n') :
    distance (step c r (.both i t k)) ≤
      distance ⟨sEdge c r.s i r.m.out, mBoth c r i t k⟩ := by
  cases hr : r.s.sRstSync3 with
  | true => simp [distance, step, mBoth, sEdge, hr]
  | false =>
    cases hsel : k.toS.wrPtrUpdateSync3 with
    | false => simp [distance, step, mBoth, sEdge, hr, FromM.mix, pick, hsel, MReg.out]
    | true =>
      have hback := dist_resample _ _ _ _ _ _ hmid.chain
      have hack : (step c r (.both i t k)).s.wrPtrUpdateAckSync1 =
          (mBoth c r i t k).wrPtrUpdateSync3 := by
        simp [step, mBoth, sEdge, hr, FromM.mix, pick, hsel, MReg.out, mEdge]
      have hack2 : (step c r (.both i t k)).s.wrPtrUpdateAckSync2 =
          (sEdge c r.s i r.m.out).wrPtrUpdateAckSync2 := by
        simp [step, sEdge, hr]
      rw [distance, hack, hack2]
      exact hback

theorem owed_mono {d d' : Nat} (h : d' ≤ d) : owed c T d' n ≤ owed c T d n := by
  simp only [owed]
  split
  · split
    · exact Nat.le_refl 0
    · omega
  · exact Nat.le_refl _

/-- Nothing sets off while the read side has not seen the last update. -/
theorem starts_eq_false (h : Inv c r C P out n) (i : SInput α u)
    (hthree : 3 ≤ owed c T (distance r) n % 6) : starts c r.s i = false := by
  rw [← Bool.not_eq_true]
  intro hst
  obtain ⟨h1, h2, h3, h4⟩ := oneChange_back _ _ _ _ _ _ h.chain (starts_back hst)
  have hd : distance r = 0 := by
    simp [distance, dist, starts_back hst, h1, h2, h3, h4]
  have hf : c.frameFifo = true :=
    (Bool.and_eq_true_iff.mp (Bool.and_eq_true_iff.mp hst).1).1
  simp only [owed, hf, hd, if_true] at hthree
  split at hthree
  · omega
  · split at hthree <;> omega

def Ranked (c : Config a u) (T : Nat) (p : Reg α a × List α) (x : Rank) : Prop :=
  ∃ C P n, Inv c p.1 C P p.2 n ∧ T ≤ C.length ∧ x = rankOf c T p.1 p.2 n

/-- A step gets on, unless the other side has to tick. -/
theorem ranked_step (T : Nat) (p : Reg α a × List α) (e : Event α a u) (x : Rank)
    (h : Ranked c T p x) (he : e.mAxisTready ≠ some false) :
    ∃ x', Ranked c T (recorded (step c) delivered p e) x' ∧
      (x'.measure < x.measure ∨ x' = x ∧ (x.measure = 0 ∨ ¬ e.ticks x.need)) := by
  obtain ⟨r, out⟩ := p
  obtain ⟨C, P, n, h, hT, hx⟩ := h
  cases e with
  | s i =>
    have hnext := inv_sEdge h i
    have hgrow := length_stored_le i.sAxis C P (move c r.s i)
    have hrec : recorded (step c) delivered (r, out) (.s i : Event α a u) =
        ({ r with s := sEdge c r.s i r.m.out }, out) := by
      simp [recorded, step, delivered, Event.mAxisTready]
    rw [hrec]
    obtain ⟨⟨h1, h2, h3⟩, hless⟩ := rank_sEdge h hT i hx rfl
    refine ⟨_, ⟨_, _, _, hnext, Nat.le_trans hT hgrow, rfl⟩, ?_⟩
    rcases Rank.lt_or_eq (Nat.le_of_eq h1) h2 (Nat.le_of_eq h3) with hlt | heq
    · exact .inl hlt
    · refine .inr ⟨heq, .inr ?_⟩
      intro hneed
      have hlt := hless hneed
      rw [heq] at hlt
      exact Nat.lt_irrefl _ hlt
  | m t =>
    obtain rfl : t = true := by
      cases t with
      | false => simp [Event.mAxisTready] at he
      | true => rfl
    obtain ⟨n', hn, hnext⟩ := inv_mEdge h (fair_old h) (sent_le_stored h) (getElem?_of_read h)
    obtain ⟨⟨h1, h2, h3⟩, hless⟩ := rank_mEdge (w := r.s.mem (Ring.low r.m.rdAddr)) h
      (fair_old h) hn hT hx rfl
    refine ⟨_, ⟨_, _, _, hnext, hT, rfl⟩, ?_⟩
    rcases Rank.lt_or_eq h1 h2 h3 with hlt | heq
    · exact .inl hlt
    · refine .inr ⟨heq, ?_⟩
      by_cases h0 : x.measure = 0
      · exact .inl h0
      · refine .inr ?_
        intro hneed
        have hlt := hless (fun _ => rfl) hneed (Nat.pos_of_ne_zero h0)
        rw [heq] at hlt
        exact Nat.lt_irrefl _ hlt
  | both i t k =>
    obtain rfl : t = true := by
      cases t with
      | false => simp [Event.mAxisTready] at he
      | true => rfl
    obtain ⟨n', p, hn, hmid, hnext⟩ := inv_both h i true k
    have hgrow := length_stored_le i.sAxis C P (move c r.s i)
    generalize hx1 : rankOf c T { r with s := sEdge c r.s i r.m.out } out
      { n with sync := syncNext c r.s i C P n, seen1 := n.got, seen2 := n.seen1 } = x₁
    generalize hx2 : rankOf c T ⟨sEdge c r.s i r.m.out, mBoth c r i true k⟩
      (out ++ handed r.m true) n' = x₂
    obtain ⟨⟨r1, u1, w1⟩, hless1⟩ := rank_sEdge h hT i hx hx1.symm
    obtain ⟨⟨r2, u2, w2⟩, hless2⟩ := rank_mEdge (inv_sEdge h i) (fair_mix h i k.toM) hn hT
      hx1.symm hx2.symm
    generalize hx3 : rankOf c T (step c r (.both i true k)) (out ++ handed r.m true)
      { n' with seen1 := p } = x₃
    have r3 : x₃.reset = x₂.reset := by rw [← hx2, ← hx3]; rfl
    have w3 : x₃.words = x₂.words := by rw [← hx2, ← hx3]; rfl
    have u3 : x₃.update ≤ x₂.update := by
      rw [← hx2, ← hx3]
      exact owed_mono (distance_both hmid)
    refine ⟨x₃, ⟨_, _, _, hnext, Nat.le_trans hT hgrow, hx3.symm⟩, ?_⟩
    have hle2 : x₂.measure ≤ x₁.measure := by
      rw [Rank.measure, Rank.measure]
      omega
    have hle3 : x₃.measure ≤ x₂.measure := by
      rw [Rank.measure, Rank.measure]
      omega
    rcases Rank.lt_or_eq (Nat.le_of_eq r1) u1 (Nat.le_of_eq w1) with hlt | rfl
    · exact .inl (by omega)
    · by_cases h0 : x₁.measure = 0
      · have hend : x₃.measure < x₁.measure ∨ x₃ = x₁ :=
          Rank.lt_or_eq (by omega) (by omega) (by omega)
        rcases hend with hlt | heq
        · exact .inl hlt
        · exact .inr ⟨heq, .inl h0⟩
      · left
        cases hneed : x₁.need with
        | s => exact absurd (hless1 hneed) (Nat.lt_irrefl _)
        | m =>
          have hlt := hless2 (by
            intro hthree
            rw [hx] at hthree
            have hst := starts_eq_false h i hthree
            have hupd := wrPtrUpdate_sEdge h i r.m.out
            rw [hst, if_neg Bool.false_ne_true] at hupd
            simp [FromS.mix, SReg.out, pick, hupd]) hneed (Nat.pos_of_ne_zero h0)
          omega

end Steps

section Run
variable {c : Config a u}

theorem passed_prefix (c : Config a u) (bs cs : List (Beat α)) :
    passed c bs <+: passed c (bs ++ cs) := by
  induction cs using List.reverseRecOn with
  | nil => simp
  | append_singleton cs b ih =>
    rw [← List.append_assoc]
    apply ih.trans
    cases hf : c.frameFifo with
    | false => simp [passed, hf]
    | true =>
      rw [passed_snoc hf]
      exact List.prefix_append _ _

theorem rank_le {r : Reg α a} {C P out : List α} {n : Counts} (h : Inv c r C P out n) :
    (rankOf c C.length r out n).measure ≤ 3 * 2 ^ a + 21 := by
  have hlen := length_out h
  have hroom := h.s.room
  have hseen := h.s.seen_le
  have hgot := h.seen_le
  have hwait : (waiting r.m).length ≤ 2 := by
    simp only [waiting]
    split <;> split <;> simp
  have hreset : resetting r.m ≤ 2 := by
    have h2 := Bool.toNat_le r.m.mRstSync2
    have h3 := Bool.toNat_le r.m.mRstSync3
    rw [resetting]
    omega
  have hdist : distance r < 6 := dist_lt _ _ _ _ _ _
  have howed : owed c C.length (distance r) n ≤ 11 := by
    simp only [owed]
    split
    · split
      · omega
      · split <;> omega
    · split <;> (try split) <;> omega
  have hleft : left C.length r.m out ≤ 3 * (2 ^ a + 2) + 2 := by
    have hb : bubble r.m ≤ 2 := by
      simp only [bubble]
      split <;> (try split) <;> omega
    simp only [left]
    split <;> omega
  rw [Rank.measure, rankOf]
  simp only
  omega

/-- Nothing is left to do: the words are out. -/
theorem Ranked.done {T : Nat} {p : Reg α a × List α} {x : Rank} (h : Ranked c T p x)
    (h0 : x.measure = 0) : T ≤ p.2.length := by
  obtain ⟨C, P, n, _, _, rfl⟩ := h
  rw [Rank.measure, rankOf] at h0
  simp only [left] at h0
  omega

/-- The words committed so far are out once this many have been delivered. -/
theorem Tracked.ranked {r : Reg α a} {bs : List (Beat α)} {out : List α} (h : Tracked c r bs out) :
    passed c bs = [] ∨
      ∃ x, Ranked c (passed c bs).length (r, out) x ∧ x.measure ≤ 3 * 2 ^ a + 21 := by
  rcases h with ⟨_, rfl, _⟩ | ⟨C, P, n, hinv, hk⟩
  · simp [passed, cutFrames]
  · rw [← hk.stored]
    exact .inr ⟨rankOf c C.length r out n, ⟨C, P, n, hinv, Nat.le_refl _, rfl⟩, rank_le hinv⟩

/--
Every intact frame is delivered: from any point of any run, once both clocks have
ticked in each of `3 * 2 ^ a + 21` rounds with the sink ready, whatever the source
does meanwhile.
-/
theorem delivered_in_time (hd : c.dropWhenFull = false) (r : Reg α a) (es : List (Event α a u))
    {rounds : List (List (Event α a u))}
    (hready : ∀ is ∈ rounds, ∀ e ∈ is, e.mAxisTready ≠ some false)
    (hfair : ∀ is ∈ rounds, ∀ k, ∃ e ∈ is, e.ticks k) (hlen : 3 * 2 ^ a + 21 ≤ rounds.length) :
    passed c (emits (step c) (accepted c) (asyncRst r) es) <+:
      emits (step c) delivered (asyncRst r) (es ++ rounds.flatten) := by
  rcases (tracked_run hd r es).ranked with hnone | ⟨x, hx, hle⟩
  · rw [hnone]
    exact List.nil_prefix
  · obtain ⟨y, hy, h0⟩ := fair_run Rank.measure Rank.need (ranked_step _) hready hfair hx
      (Nat.le_trans hle hlen)
    have hout := hy.done h0
    rw [run_recorded] at hout
    have hprefix := (tracked_run hd r (es ++ rounds.flatten)).prefix_passed
    have hgrow := passed_prefix c (emits (step c) (accepted c) (asyncRst r) es)
      (emits (step c) (accepted c) (run (step c) (asyncRst r) es) rounds.flatten)
    rw [← emits_append] at hgrow
    rw [← emits_append] at hout
    exact List.prefix_of_prefix_length_le hgrow hprefix hout

/-- The one frame, with the rounds that it may need. -/
theorem delivered_in_time_oneFrame :
    [⟨5#8, true, 0#1⟩] <+: emits (step txFifo) delivered (asyncRst someFifo) (oneFrame ++
      (List.replicate 98325 [.both (wordIn ⟨1#8, true, 0#1⟩ false) true noSkew]).flatten) := by
  have hin : passed txFifo (emits (step txFifo) (accepted txFifo) (asyncRst someFifo) oneFrame) =
      [⟨5#8, true, 0#1⟩] := by
    decide +kernel
  rw [← hin]
  apply delivered_in_time rfl someFifo oneFrame
  · intro is his e he
    rw [List.eq_of_mem_replicate his, List.mem_singleton] at he
    subst he
    simp [Event.mAxisTready]
  · intro is his k
    rw [List.eq_of_mem_replicate his]
    exact ⟨_, List.mem_singleton_self _, trivial⟩
  · rw [List.length_replicate]
    decide

end Run

end AdcCapture.AxisAsyncFifo
