import AdcCapture.FramePacing

/-!
# No `tx_done` pulse is missed by the last waiting frame

A pulse counts only in `pause`, with `udp_checksum_gen` idle and ready. The clock
after an accepted `tlast` and the one after that do not qualify, but the pulse of
that frame is later; afterwards only a full header FIFO can withhold `ready`, and
then a header, hence a frame, is still on its way to the MAC.
-/

namespace AdcCapture.TxSystem

open Clocked
set_option autoImplicit false

variable {s : Reg} {i : Input}

/-- The pulse of a data frame comes three clocks after its `tlast` or later. -/
def timely (s : Reg) (i : Input) : Prop :=
  ∀ d, finished s i = some (.data d) → d.closedAt + 3 ≤ s.mac.now

/-- The latest data frame is unsent and satisfies `P`. -/
def LatestUnsent (P : DataFrame → Prop) (s : Reg) : Prop :=
  ∃ d ∈ unsent s, d.seq + 1 = s.mac.closed ∧ P d

/-- No pulse has been missed. -/
structure Awake (s : Reg) : Prop where
  path : TxPath.Inv s.path
  headed : s.mac.Headed
  headers : s.mac.handed + UdpChecksumGen.queued s.path.gen +
    (UdpChecksumGen.finishing s.path.gen).toNat ≤ s.mac.closed
  upstream : s.mac.handed < s.mac.closed → LatestUnsent (fun _ => True) s
  finishing : s.path.gen.state = .finishSum → LatestUnsent (fun d => s.mac.now ≤ d.closedAt + 1) s
  idle : currState s = .pause → s.path.gen.state = .idle → s.path.gen.sUdpHdrReady = false →
    LatestUnsent (fun d => s.mac.now ≤ d.closedAt + 2) s ∨ s.mac.handed < s.mac.closed
  ready : currState s = .pause → s.path.gen.sUdpHdrReady = true → unsent s ≠ []

theorem awake_reset : Awake reset where
  path := TxPath.inv_reset
  headed _ h := by cases h
  headers := by decide
  upstream h := absurd h (Nat.lt_irrefl 0)
  finishing h := by cases h
  idle h := by cases h
  ready h := by cases h

theorem headers_step (hs : Awake s) : (step s i).mac.handed +
    UdpChecksumGen.queued (step s i).path.gen +
      (UdpChecksumGen.finishing (step s i).path.gen).toNat ≤ (step s i).mac.closed := by
  have hq := UdpChecksumGen.queued_posedge
    (i := TxPath.genInput s.path (pathInput s i)) hs.path.gen.bounded
  have hf := UdpChecksumGen.finishing_posedge
    (i := TxPath.genInput s.path (pathInput s i)) hs.path.gen
  have hh := hs.headers
  have hm : (step s i).mac.handed = s.mac.handed +
    (UdpChecksumGen.hdrHandedOver s.path.gen (TxPath.genInput s.path (pathInput s i))).toNat := rfl
  have hc : (step s i).mac.closed = s.mac.closed + (UdpChecksumGen.lastAccepted s.path.gen
    (TxPath.genInput s.path (pathInput s i))).toNat := rfl
  rw [hm, hc, step_path, TxPath.step_gen]
  omega

theorem unsent_ne_nil_of_latest {P : DataFrame → Prop} (h : LatestUnsent P s) : unsent s ≠ [] := by
  obtain ⟨d, hd, _⟩ := h
  exact List.ne_nil_of_mem hd

theorem latest_step {P Q : DataFrame → Prop} (hl : lastAccepted s i = false)
    (hs : LatestUnsent P s)
    (hp : ∀ d, d.seq + 1 = s.mac.closed → P d → finished s i ≠ some (.data d))
    (hq : ∀ d, P d → Q d) : LatestUnsent Q (step s i) := by
  obtain ⟨d, hd, hseq, hP⟩ := hs
  refine ⟨d, (Mac.mem_unsent_step (macInput s i) hd).resolve_left (hp d hseq hP), ?_, hq d hP⟩
  rw [step_mac, Mac.step, macInput, hl]
  exact hseq

theorem latest_of_last (hl : lastAccepted s i = true) :
    LatestUnsent (fun d => (step s i).mac.now ≤ d.closedAt + 1) (step s i) := by
  refine ⟨⟨s.mac.closed, s.mac.now⟩, ?_, ?_, le_rfl⟩
  · apply List.mem_append_right
    rw [step_mac, Mac.step, macInput, hl]
    exact List.mem_append_right _ List.mem_cons_self
  · rw [step_mac, Mac.step, macInput, hl]
    rfl

/-- Before its header is handed over the latest frame cannot have been sent. -/
theorem latest_step_of_not_handed (hs : Awake s) (hl : lastAccepted s i = false)
    (hh : s.mac.handed < s.mac.closed) : LatestUnsent (fun _ => True) (step s i) := by
  refine latest_step hl (hs.upstream hh) (fun d hseq _ hfin => ?_) fun _ h => h
  have := Mac.handed_of_finished hs.headed hfin
  omega

theorem upstream_step (hs : Awake s)
    (hh : (step s i).mac.handed < (step s i).mac.closed) :
    LatestUnsent (fun _ => True) (step s i) := by
  cases hl : lastAccepted s i with
  | true =>
    obtain ⟨d, hd, hseq, _⟩ := latest_of_last hl
    exact ⟨d, hd, hseq, trivial⟩
  | false =>
    rw [closed_step hl, handed_step] at hh
    exact latest_step_of_not_handed hs hl (by omega)

theorem finishing_step (h : (step s i).path.gen.state = .finishSum) : lastAccepted s i = true := by
  rw [state_step] at h
  split at h
  · split at h <;> cases h
  · cases h
  · cases h
  · cases h
  · split at h
    · rename_i hl
      exact hl
    · cases h
  · cases h

theorem paused_of_idle_step (hs : TxPath.Inv s.path) (hp : currState (step s i) = .pause)
    (hg : (step s i).path.gen.state = .idle) : lastAccepted s i = false ∧
      currState s = .pause ∧ (s.path.gen.state = .finishSum ∨
        s.path.gen.state = .idle ∧ hdrAccepted s i = false) := by
  have hgen : s.path.gen.state = .finishSum ∨
      s.path.gen.state = .idle ∧ hdrAccepted s i = false := by
    rw [state_step] at hg
    split at hg
    · rename_i hi
      refine Or.inr ⟨hi, ?_⟩
      split at hg
      · cases hg
      · rename_i ha
        exact Bool.not_eq_true _ ▸ ha
    · cases hg
    · cases hg
    · cases hg
    · split at hg <;> cases hg
    · rename_i hf
      exact Or.inl hf
  refine ⟨?_, ?_, hgen⟩
  · apply UdpChecksumGen.lastAccepted_eq_false
    rcases hgen with h | h <;> simp [h]
  · rcases ReadController2.state_cases (currState s) with hi | hpz | ⟨c, hc⟩
    · have hq := AdcBuffer.readController_init (i := bufferInput s i) hi
      have hp' : (AdcBuffer.step s.path.buffer (bufferInput s i)).readController.currState =
        .pause := hp
      rw [hq] at hp'
      simp only at hp'
      split at hp' <;> cases hp'
    · exact hpz
    · have hh := hs.reading c hc
      rcases hgen with h | h <;> simp [UdpChecksumGen.holdsHeader, h] at hh

/-- With a full header FIFO the latest header has not been handed over. -/
theorem not_handed_of_full (hs : Awake s) (hf : UdpChecksumGen.headerFifoFull s.path.gen = true) :
    (step s i).mac.handed < s.mac.closed := by
  have hh := hs.headers
  have h8 := (UdpChecksumGen.headerFifoFull_iff _).mp hf
  have := Bool.toNat_le
    (UdpChecksumGen.hdrHandedOver s.path.gen (TxPath.genInput s.path (pathInput s i)))
  unfold UdpChecksumGen.queued at hh
  rw [handed_step]
  omega

theorem idle_step (hs : Awake s) (ht : timely s i) (hp : currState (step s i) = .pause)
    (hg : (step s i).path.gen.state = .idle)
    (hr : (step s i).path.gen.sUdpHdrReady = false) :
    LatestUnsent (fun d => (step s i).mac.now ≤ d.closedAt + 2) (step s i) ∨
      (step s i).mac.handed < (step s i).mac.closed := by
  obtain ⟨hl, _, hf | ⟨hi, ha⟩⟩ := paused_of_idle_step hs.path hp hg
  · left
    apply latest_step hl (hs.finishing hf)
    · intro d _ hd hfin
      have := ht d hfin
      omega
    · intro d hd
      exact Nat.succ_le_succ hd
  · right
    rw [closed_step hl]
    apply not_handed_of_full hs
    rw [sUdpHdrReady_step, hi, ha] at hr
    simpa using hr

theorem ready_step (hs : Awake s) (ht : timely s i) (hp : currState (step s i) = .pause)
    (hr : (step s i).path.gen.sUdpHdrReady = true) : unsent (step s i) ≠ [] := by
  have hg := (UdpChecksumGen.inv_posedge (i := TxPath.genInput s.path (pathInput s i))
    hs.path.gen).ready hr
  obtain ⟨hl, hpz, hf | ⟨hi, ha⟩⟩ := paused_of_idle_step hs.path hp hg
  · rw [sUdpHdrReady_step, hf] at hr
    cases hr
  · cases hrd : s.path.gen.sUdpHdrReady with
    | false =>
      rcases hs.idle hpz hi hrd with hlat | hh
      · apply unsent_ne_nil_of_latest
        apply latest_step (Q := fun _ => True) hl hlat
        · intro d _ hd hfin
          have := ht d hfin
          omega
        · intro _ _
          trivial
      · exact unsent_ne_nil_of_latest (latest_step_of_not_handed hs hl hh)
    | true =>
      -- the pulse of a data frame would have been answered with a header
      apply unsent_step_ne_nil (hs.ready hpz hrd)
      intro d hfin
      have hv := ReadController2.axisTvalidHdr_pause
        (i := AdcBuffer.readInput s.path.buffer (bufferInput s i)) hpz
      have hacc : hdrAccepted s i = true :=
        Bool.and_eq_true_iff.mpr ⟨hrd, hv.trans (congrArg Option.isSome hfin)⟩
      rw [ha] at hacc
      cases hacc

theorem awake_step (hs : Awake s) (ht : timely s i) : Awake (step s i) where
  path := TxPath.inv_step hs.path _
  headed := Mac.headed_step hs.headed _
  headers := headers_step hs
  upstream := upstream_step hs
  finishing h := latest_of_last (finishing_step h)
  idle := idle_step hs ht
  ready := ready_step hs ht

theorem awake_run {is : List Input} (h : Always step timely reset is) : Awake (run step reset is) :=
  invariant_run_of (I := Awake) (fun _ _ hs ht => awake_step hs ht) awake_reset h

theorem unsent_of_awake (hs : Awake s) (hp : currState s = .pause)
    (hg : s.path.gen.state = .finishSum ∨ s.path.gen.state = .idle) : unsent s ≠ [] := by
  rcases hg with hf | hi
  · exact unsent_ne_nil_of_latest (hs.finishing hf)
  · cases hr : s.path.gen.sUdpHdrReady with
    | true => exact hs.ready hp hr
    | false =>
      rcases hs.idle hp hi hr with hlat | hh
      · exact unsent_ne_nil_of_latest hlat
      · exact unsent_ne_nil_of_latest (hs.upstream hh)

theorem no_lost_wakeup (is : List Input) (h : Always step timely reset is)
    (hp : currState (run step reset is) = .pause)
    (hg : (run step reset is).path.gen.state = .finishSum ∨
      (run step reset is).path.gen.state = .idle) :
    count step dataSent reset is < (frames is).closed.length := by
  have hu := List.length_pos_of_ne_nil (unsent_of_awake (awake_run h) hp hg)
  rw [closed_length is]
  omega

theorem no_lost_wakeup_second_frame : ∃ is, count step dataSent reset is = 1 ∧
    currState (run step reset is) = .pause ∧ (run step reset is).path.gen.state = .finishSum ∧
    1 < (frames is).closed.length := by
  obtain ⟨is, hk, hc, d, hp⟩ : Reaches 1 fun s => ∃ m, Paused .finishSum m s :=
    (reaches_burst (n := 1) (m := 63487) (by rw [WidthConverter.wrDepth_eq])).quiet
      (drive false false false) rfl fun s hs => ⟨_, (closes hs false).1⟩
  have htimely : Always step timely reset is := by
    refine hk.mono fun s i hprompt d hd => ?_
    obtain ⟨e, he, hage⟩ := hprompt _ hd
    obtain rfl : d = e := by injection he
    exact hage
  refine ⟨is, hc, hp.paused, hp.gen, ?_⟩
  have h := no_lost_wakeup is htimely hp.paused (Or.inl hp.gen)
  rwa [hc] at h

end AdcCapture.TxSystem
