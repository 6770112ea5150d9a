import AdcCapture.Packets
import AdcCapture.CaptureOverlap

/-!
# Frames on the payload stream

`axis_tlast` follows `curr_count == 1023` or the empty flag of the channel, the
transfer follows `axis_tready` and the same flag. A frame is closed by a byte
exactly when no read state runs dry and the 1024th byte is not held back.
-/

namespace AdcCapture.AdcBuffer

open Clocked WidthConverter
set_option autoImplicit false

variable {s : Reg} {i : Input}

structure Beat where
  data : BitVec 8
  addr : BitVec 3
  last : Bool
  deriving DecidableEq, Repr

def beat (s : Reg) (i : Input) : List Beat :=
  if transfers s i then [⟨dout s i, (out s i).addr, (out s i).axisTlast⟩] else []

/-- The payload stream of a run, cut after each byte transferred with `axis_tlast`. -/
def frames (is : List Input) : Packets Beat := Packets.cut Beat.last (emits step beat reset is)

/-- An end-of-frame mark comes with a transferred byte. -/
def lastOnByte (s : Reg) (i : Input) : Prop :=
  (out s i).axisTlast = true → (out s i).axisTvalid = true ∧ i.axisTready = true

/-- 1 to 1024 bytes of one channel. -/
def ChannelFrame (f : List Beat) : Prop :=
  1 ≤ f.length ∧ f.length ≤ 1024 ∧ ∃ c : Channel, ∀ b ∈ f, b.addr = c.addr

structure Framed (is : List Input) : Prop where
  marked : Always step lastOnByte reset is
  sized : ∀ f ∈ (frames is).closed, ChannelFrame f
  settled : (run step reset is).readController.currState = .init → (frames is).rest = []

/-- No read state is run dry and the 1024th byte of a burst is not held back. -/
def unbroken (s : Reg) (i : Input) : Prop :=
  ∀ c, s.readController.currState = ReadController2.readState c →
    (s.buffer c).units ≠ [] ∧ (s.readController.currCount = 1023#16 → i.axisTready = true)

theorem axisTlast_read {c : Channel}
    (h : s.readController.currState = ReadController2.readState c) :
    (out s i).axisTlast =
      (s.readController.currCount == 1023#16 || WidthConverter.empty (s.buffer c)) := by
  rw [out, ReadController2.axisTlast_read h]
  have he : (readInput s i).empty.getLsbD c.index = WidthConverter.empty (s.buffer c) :=
    empty_getLsbD s c
  rw [he]

theorem lastOnByte_iff : lastOnByte s i ↔ unbroken s i := by
  unfold lastOnByte unbroken
  rcases ReadController2.state_cases s.readController.currState with h | h | ⟨c, h⟩
  · simp [out, ReadController2.idle_of_not_read (.inl h), h]
  · simp [out, ReadController2.idle_of_not_read (.inr h), h]
  · rw [axisTlast_read h, out, ReadController2.axisTvalid_read h]
    simp only [transfer_iff, h, ReadController2.readState_inj, Bool.or_eq_true, beq_iff_eq,
      WidthConverter.empty_iff]
    constructor
    · rintro hl d rfl
      by_cases hn : (s.buffer c).units = []
      · exact absurd hn (hl (Or.inr hn)).1.2
      · exact ⟨hn, fun hc => (hl (Or.inl hc)).2⟩
    · intro hu hl
      obtain ⟨hn, hc⟩ := hu c rfl
      have ht := hc (hl.resolve_right hn)
      exact ⟨⟨ht, hn⟩, ht⟩

/-! ## Bursts -/

section Frames
variable {is : List Input}

theorem frames_snoc_of_idle (h : transfers (run step reset is) i = false) :
    frames (is ++ [i]) = frames is := by
  rw [frames, emits_snoc, beat, h]
  simp [frames]

theorem frames_snoc_of_transfers (h : transfers (run step reset is) i = true) :
    frames (is ++ [i]) = Packets.push Beat.last (frames is)
      ⟨dout (run step reset is) i, (out (run step reset is) i).addr,
        (out (run step reset is) i).axisTlast⟩ := by
  rw [frames, emits_snoc, beat, if_pos h, Packets.cut_snoc, frames]

end Frames

/-- Where a run stands in the current frame. -/
structure Burst (p : Packets Beat) (s : Reg) : Prop where
  sized : ∀ f ∈ p.closed, ChannelFrame f
  reading : ∀ c, s.readController.currState = ReadController2.readState c →
    p.rest.length = s.readController.currCount.toNat ∧
      s.readController.currCount.toNat ≤ 1023 ∧ ∀ b ∈ p.rest, b.addr = c.addr
  resting : (∀ c, s.readController.currState ≠ ReadController2.readState c) → p.rest = []

theorem transfers_eq_false_of_idle
    (h : ∀ c, s.readController.currState ≠ ReadController2.readState c) :
    transfers s i = false := by
  rw [← Bool.not_eq_true, transfers_iff]
  rintro ⟨c, hc⟩
  exact h c hc.1

theorem burst_of_idle {p : Packets Beat} (hp : Burst p s) (hs : Inv s)
    (h : ∀ c, s.readController.currState ≠ ReadController2.readState c) : Burst p (step s i) := by
  have hrest := hp.resting h
  refine ⟨hp.sized, ?_, fun _ => hrest⟩
  intro c hc
  have h0 : (step s i).readController.currCount = 0#16 := by
    rcases ReadController2.state_cases s.readController.currState with hi | hpz | ⟨d, hd⟩
    · rw [readController_init hi]
      exact hs.cleared hi
    · rw [readController_pause hpz] at hc ⊢
      split at hc
      · rfl
      · exact absurd hc (by simp)
    · exact absurd hd (h d)
  simp [h0, hrest]

/-- Inside a read state only that state's fields matter. -/
theorem burst_of_state {p : Packets Beat} {c : Channel}
    (h : s.readController.currState = ReadController2.readState c)
    (hsized : ∀ f ∈ p.closed, ChannelFrame f)
    (hlen : p.rest.length = s.readController.currCount.toNat)
    (hle : s.readController.currCount.toNat ≤ 1023) (haddr : ∀ b ∈ p.rest, b.addr = c.addr) :
    Burst p s where
  sized := hsized
  reading d hd := by
    obtain rfl := ReadController2.readState_inj.mp (h.symm.trans hd)
    exact ⟨hlen, hle, haddr⟩
  resting hno := absurd h (hno c)

theorem burst_of_hold {p : Packets Beat} (hp : Burst p s)
    (hn : (step s i).readController = s.readController) : Burst p (step s i) := by
  constructor
  · exact hp.sized
  · rw [hn]
    exact hp.reading
  · rw [hn]
    exact hp.resting

section Byte
variable {p : Packets Beat} {c : Channel} {b : Beat}

theorem addr_append (hp : Burst p s)
    (h : s.readController.currState = ReadController2.readState c) (hb : b.addr = c.addr) :
    ∀ x ∈ p.rest ++ [b], x.addr = c.addr :=
  List.forall_mem_append.mpr ⟨(hp.reading c h).2.2, List.forall_mem_singleton.mpr hb⟩

theorem burst_of_byte (hp : Burst p s)
    (h : s.readController.currState = ReadController2.readState c) (hb : b.addr = c.addr)
    (hc : s.readController.currCount ≠ 1023#16)
    (hn : (step s i).readController =
      ⟨ReadController2.readState c, s.readController.currCount + 1#16⟩) :
    Burst ⟨p.closed, p.rest ++ [b]⟩ (step s i) := by
  obtain ⟨hlen, hle, _⟩ := hp.reading c h
  have hlt : s.readController.currCount.toNat ≠ 1023 := fun hn => hc (BitVec.eq_of_toNat_eq hn)
  have hadd : (s.readController.currCount + 1#16).toNat = s.readController.currCount.toNat + 1 := by
    rw [BitVec.toNat_add]
    simp
    omega
  apply burst_of_state (c := c)
  · rw [hn]
  · exact hp.sized
  · rw [hn, hadd, List.length_append, hlen]
    rfl
  · rw [hn, hadd]
    omega
  · exact addr_append hp h hb

theorem burst_of_last (hp : Burst p s)
    (h : s.readController.currState = ReadController2.readState c) (hb : b.addr = c.addr)
    (hn : (step s i).readController.currState = .pause) :
    Burst ⟨p.closed ++ [p.rest ++ [b]], []⟩ (step s i) := by
  obtain ⟨hlen, hle, _⟩ := hp.reading c h
  have hframe : ChannelFrame (p.rest ++ [b]) := by
    refine ⟨?_, ?_, c, addr_append hp h hb⟩
    · simp
    · rw [List.length_append, hlen]
      exact Nat.succ_le_succ hle
  constructor
  · exact List.forall_mem_append.mpr ⟨hp.sized, List.forall_mem_singleton.mpr hframe⟩
  · intro d hd
    exact absurd (hn.symm.trans hd) (by simp)
  · intro _
    rfl

end Byte

/-- A burst goes on below count 1023 and is closed by its 1024th byte. -/
theorem burst_of_read {is : List Input} {c : Channel}
    (hp : Burst (frames is) (run step reset is))
    (h : (run step reset is).readController.currState = ReadController2.readState c)
    (hu : unbroken (run step reset is) i) :
    Burst (frames (is ++ [i])) (step (run step reset is) i) := by
  generalize hs : run step reset is = s at *
  obtain ⟨hne, hlast⟩ := hu c h
  have hemp := (WidthConverter.empty_eq_false_iff (s.buffer c)).mpr hne
  have hnext := readController_read (i := i) h
  have htl := axisTlast_read (i := i) h
  rw [hemp, Bool.or_false] at hnext htl
  cases ht : i.axisTready with
  | false =>
    have hc : (s.readController.currCount == 1023#16) = false := by
      rw [beq_eq_false_iff_ne]
      intro hc
      rw [hlast hc] at ht
      cases ht
    rw [hc, ht, ← h] at hnext
    rw [frames_snoc_of_idle (by rw [hs, transfers, ht, Bool.and_false])]
    exact burst_of_hold hp hnext
  | true =>
    have hreads : reads c s i := ⟨h, ht, hne⟩
    have htr : transfers s i = true := transfers_iff.mpr ⟨c, hreads⟩
    rw [frames_snoc_of_transfers (by rw [hs, htr]), hs, htl, Packets.push]
    cases hc : s.readController.currCount == 1023#16 with
    | true =>
      rw [hc, if_pos rfl] at hnext
      exact burst_of_last hp h (addr_of_reads hreads) (congrArg ReadController2.Reg.currState hnext)
    | false =>
      rw [hc, ht, if_neg (by simp), if_pos rfl] at hnext
      exact burst_of_byte hp h (addr_of_reads hreads) (by simpa using hc) hnext

theorem burst_run {is : List Input} (h : Always step unbroken reset is) :
    Burst (frames is) (run step reset is) := by
  induction is using List.reverseRecOn with
  | nil => exact ⟨by simp [frames], fun c hc => absurd hc (by simp [reset, ReadController2.reset]),
      fun _ => rfl⟩
  | append_singleton is i ih =>
    obtain ⟨his, hi⟩ := (always_snoc _ _ _).mp h
    rw [run_append]
    by_cases hr : ∃ c, (run step reset is).readController.currState = ReadController2.readState c
    · obtain ⟨c, hc⟩ := hr
      exact burst_of_read (ih his) hc hi
    · have hr' := not_exists.mp hr
      rw [frames_snoc_of_idle (transfers_eq_false_of_idle hr')]
      exact burst_of_idle (ih his) (inv_run is) hr'

theorem framed_iff_unbroken (is : List Input) : Framed is ↔ Always step unbroken reset is := by
  have hmark : Always step lastOnByte reset is ↔ Always step unbroken reset is :=
    ⟨Always.mono fun _ _ => lastOnByte_iff.mp, Always.mono fun _ _ => lastOnByte_iff.mpr⟩
  constructor
  · exact fun h => hmark.mp h.marked
  · intro h
    have hb := burst_run h
    refine ⟨hmark.mpr h, hb.sized, ?_⟩
    intro hi
    apply hb.resting
    intro c hc
    rw [hi] at hc
    exact absurd hc (by simp)

/-! ## The 1024th byte held back -/

/-- `n` bytes into a burst of `c`, with `m` bytes of it left. -/
structure Bursting (c : Channel) (n m : Nat) (s : Reg) : Prop where
  reading : s.readController = ⟨ReadController2.readState c, BitVec.ofNat 16 n⟩
  closed : enWr s = false
  left : (s.buffer c).units.length = m

namespace Bursting
variable {c : Channel} {n m : Nat}

theorem units_ne_nil (h : Bursting c n (m + 1) s) : (s.buffer c).units ≠ [] := by
  intro hnil
  have hl := h.left
  rw [hnil] at hl
  cases hl

theorem count_ne (h : Bursting c n m s) (hn : n < 1023) :
    (s.readController.currCount == 1023#16) = false := by
  rw [beq_eq_false_iff_ne, h.reading]
  intro hc
  have := congrArg BitVec.toNat hc
  simp only [BitVec.toNat_ofNat] at this
  omega

end Bursting

theorem bursting_step {c : Channel} {n m : Nat} (h : Bursting c n (m + 1) s) (hn : n < 1023)
    (ht : i.axisTready = true) (ha : ¬ accepts s i) : Bursting c (n + 1) m (step s i) := by
  have hst : s.readController.currState = ReadController2.readState c := by rw [h.reading]
  have hne := h.units_ne_nil
  have hc := h.count_ne hn
  refine ⟨?_, enWr_step_eq_false h.closed ha, ?_⟩
  · rw [readController_read hst, hc, (WidthConverter.empty_eq_false_iff _).mpr hne, ht, h.reading]
    simp [BitVec.ofNat_add]
  · have hlen := congrArg List.length (transferred_append_step (s := s) (i := i) c)
    have htr : (transferred c s i).length = 1 := by
      have hr : reads c s i := ⟨hst, ht, hne⟩
      simp [transferred, transfers_iff.mpr ⟨c, hr⟩, addr_of_reads hr]
    rw [stored_of_enWr_false c h.closed, List.length_append, htr] at hlen
    simp only [List.flatMap_nil, List.append_nil, h.left] at hlen
    omega

theorem bursting_hold {c : Channel} {n m : Nat} (h : Bursting c n (m + 1) s) (hn : n < 1023)
    (ht : i.axisTready = false) (ha : ¬ accepts s i) : Bursting c n (m + 1) (step s i) := by
  have hst : s.readController.currState = ReadController2.readState c := by rw [h.reading]
  have hnr : ¬ reads c s i := fun hr => absurd (hr.2.1.symm.trans ht) (by simp)
  refine ⟨?_, enWr_step_eq_false h.closed ha, ?_⟩
  · rw [readController_read hst, h.count_ne hn,
      (WidthConverter.empty_eq_false_iff _).mpr h.units_ne_nil, ht, h.reading]
    rfl
  · rw [units_step_of_idle hnr h.closed, h.left]

theorem bursting_run {c : Channel} {n m k : Nat} (h : Bursting c n (m + k) s) (hn : n + k ≤ 1023) :
    Bursting c (n + k) m (run step s (List.replicate k (captureInput false true))) := by
  induction k generalizing s n with
  | zero => exact h
  | succ k ih =>
    have hs := bursting_step h (by omega) (i := captureInput false true) rfl
      (not_accepts_of_idle rfl)
    rw [List.replicate_succ, run_cons, show n + (k + 1) = n + 1 + k by omega]
    exact ih hs (by omega)

theorem bursting_of_departs (hs : Inv s) (h : Departs s i) :
    Bursting .adc1 0 ((step s i).buffer .adc1).units.length (step s i) := by
  refine ⟨?_, (draining_of_departs h).closed, rfl⟩
  obtain ⟨hf, hne⟩ := (departs_iff h.waiting).mp h
  rw [readController_init h.waiting, hs.cleared h.waiting, (orFull_iff s).mpr hf,
    (empty_eq_zero_iff s).mpr hne]
  rfl

theorem level_step_of_filling (h : Filling wrDepth s) (c : Channel) :
    ((step s i).buffer c).units.length = 2 * wrDepth := by
  have hr : ¬ reads c s i := fun hr => absurd (h.waiting.symm.trans hr.1) (by simp)
  have hfull : WidthConverter.full (s.buffer c) = true := by
    rw [full_iff, h.level]
    omega
  have hst : stored c s i = [] := by
    rw [stored, hfull]
    simp
  rw [units_step_of_not_reads hr, hst, List.flatMap_nil, List.append_nil, h.level]

/-- The first burst of a capture, with `axis_tready` low in the clock of its 1024th byte. -/
def heldBackRun : List Input :=
  captureRun wrDepth true ++ captureInput false true ::
    (List.replicate 1023 (captureInput false true) ++ [captureInput false false])

theorem last_byte_held_back : ¬ Framed heldBackRun := by
  intro h
  have hfill := filling_captureRun le_rfl true
  have hd := departs_of_filling hfill (i := captureInput false true)
  have hb := bursting_of_departs (inv_run _) hd
  have hlen : ((step (run step reset (captureRun wrDepth true))
      (captureInput false true)).buffer .adc1).units.length = (2 * wrDepth - 1023) + 1023 := by
    rw [level_step_of_filling hfill, wrDepth_eq]
  rw [hlen] at hb
  -- 1023 bytes of the first burst have gone, and `axis_tready` drops for the last one
  have h1023 := bursting_run hb (by omega)
  have hm := h.marked
  rw [heldBackRun, always_append, always_cons, always_snoc] at hm
  have hst := congrArg ReadController2.Reg.currState h1023.reading
  have hcount := congrArg ReadController2.Reg.currCount h1023.reading
  exact absurd ((lastOnByte_iff.mp hm.2.2.2 .adc1 hst).2 hcount) (by simp [captureInput])

end AdcCapture.AdcBuffer
