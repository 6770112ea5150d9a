import AdcCapture.Clocked
import AdcCapture.AdcInterface

/-!
# Alignment

In `POLL` the outputs have settled, so the compare with 0xF0 decides whether the
cut is at a sample boundary. Each poll that fails rules out one offset; after
seven of them the eighth is the right one.
-/

namespace AdcCapture.AdcInterface

open Clocked
set_option autoImplicit false

/-- `adc_en` once high stays high. -/
def steady (s : Reg) (i : Input) : Prop := 0 < s.enabled → i.adcEn = true

def aligned (s : Reg) : Prop := s.bitslip.stateCurr = .stop

/-- Where the machine stands; `P.cut j` is the offset after `j` slips. -/
structure Inv (P : Serial) (s : Reg) : Prop where
  missed : ∀ j < s.slips, P.cut j % 8 ≠ 0
  startup : s.bitslip.stateCurr = .startup →
    s.slips = 0 ∧ s.enabled = s.bitslip.countCurr.toNat
  poll : s.bitslip.stateCurr = .poll →
    s.enabled = 8 + 9 * s.slips ∧ (s.slips = 0 ∨ 9 ≤ s.sinceSlip)
  slip : s.bitslip.stateCurr = .slip →
    1 ≤ s.slips ∧ s.enabled = 9 * s.slips + s.bitslip.countCurr.toNat ∧
      s.sinceSlip = s.bitslip.countCurr.toNat + 1
  stop : s.bitslip.stateCurr = .stop →
    8 ≤ s.enabled ∧ (s.slips = 0 ∨ 9 ≤ s.sinceSlip) ∧ P.cut s.slips % 8 = 0

section Step
variable {P : Serial} {s : Reg} {i : Input}

theorem inv_reset : Inv P reset where
  missed j hj := absurd hj (Nat.not_lt_zero j)
  startup _ := ⟨rfl, rfl⟩
  poll h := by cases h
  slip h := by cases h
  stop h := by cases h

/-- Seven failed polls leave one offset. -/
theorem slips_le (hs : Inv P s) : s.slips ≤ 7 := by
  by_contra hlt
  obtain ⟨j, hj, hcut⟩ := P.visits 0 0 le_rfl (by omega)
  rw [Nat.zero_add] at hcut
  exact hs.missed j (by omega) hcut

theorem start_emod (P : Serial) (s : Reg) : start P s % 8 = P.cut s.slips % 8 := by
  unfold start
  omega

theorem frmData_iff (h : settled s = true) : frmData P s i = 0xF0#8 ↔ P.cut s.slips % 8 = 0 := by
  rw [frmData, if_pos h, frameDetector_iserdes_iff, start_emod]

theorem settled_of_poll (hs : Inv P s) (h : s.bitslip.stateCurr = .poll) : settled s = true := by
  obtain ⟨he, hq⟩ := hs.poll h
  exact decide_eq_true ⟨by omega, hq.imp_right fun h9 => by omega⟩

theorem settled_of_stop (hs : Inv P s) (h : aligned s) : settled s = true := by
  obtain ⟨he, hq, _⟩ := hs.stop h
  exact decide_eq_true ⟨by omega, hq.imp_right fun h9 => by omega⟩

theorem count_add_one {c : BitVec 3} (h : c ≠ 0b111#3) : (c + 1#3).toNat = c.toNat + 1 := by
  have hc : c.toNat ≠ 7 := fun h7 => h (BitVec.eq_of_toNat_eq h7)
  have := c.isLt
  rw [BitVec.toNat_add]
  simp
  omega

theorem no_slip (h : s.bitslip.stateCurr ≠ .poll) :
    (step P s i).slips = s.slips ∧ (step P s i).sinceSlip = s.sinceSlip + 1 := by
  cases hst : s.bitslip.stateCurr with
  | poll => exact absurd hst h
  | startup | slip | stop => simp [step, out, Bitslip.comb, hst]

theorem inv_step_startup (hs : Inv P s) (hk : steady s i) (h : s.bitslip.stateCurr = .startup) :
    Inv P (step P s i) := by
  obtain ⟨h0, he⟩ := hs.startup h
  obtain ⟨hsl, hsi⟩ := no_slip (P := P) (i := i) (by rw [h]; simp)
  have hb : (step P s i).bitslip = ⟨if s.bitslip.countCurr = 0b111#3 then .poll else .startup,
      if i.adcEn then s.bitslip.countCurr + 1#3 else s.bitslip.countCurr⟩ := by
    simp [step, Bitslip.posedge, Bitslip.comb, h]
  have hen : (step P s i).enabled = s.enabled + i.adcEn.toNat := rfl
  by_cases hc : s.bitslip.countCurr = 0b111#3
  · have h7 : s.enabled = 7 := by rw [he, hc]; rfl
    have hce : i.adcEn = true := hk (by omega)
    rw [if_pos hc] at hb
    refine ⟨by rw [hsl]; exact hs.missed, by simp [hb], ?_, by simp [hb], by simp [hb]⟩
    intro _
    rw [hsl, hen, h7, h0, hce]
    exact ⟨rfl, Or.inl rfl⟩
  · rw [if_neg hc] at hb
    refine ⟨by rw [hsl]; exact hs.missed, ?_, by simp [hb], by simp [hb], by simp [hb]⟩
    intro _
    rw [hsl, hen, hb]
    refine ⟨h0, ?_⟩
    cases i.adcEn with
    | true => simp [count_add_one hc, he]
    | false => simp [he]

theorem inv_step_poll (hs : Inv P s) (hk : steady s i) (h : s.bitslip.stateCurr = .poll) :
    Inv P (step P s i) := by
  obtain ⟨he, hq⟩ := hs.poll h
  have hset := settled_of_poll hs h
  have hce : i.adcEn = true := hk (by omega)
  have hen : (step P s i).enabled = s.enabled + 1 := by simp [step, hce]
  by_cases hf : frmData P s i = 0xF0#8
  · have hb : (step P s i).bitslip.stateCurr = .stop := by
      simp [step, Bitslip.posedge, Bitslip.comb, h, hf]
    have hsl : (step P s i).slips = s.slips ∧ (step P s i).sinceSlip = s.sinceSlip + 1 := by
      simp [step, out, Bitslip.comb, h, hf]
    refine ⟨by rw [hsl.1]; exact hs.missed, by simp [hb], by simp [hb], by simp [hb], ?_⟩
    intro _
    rw [hsl.1, hsl.2, hen]
    exact ⟨by omega, hq.imp_right fun h9 => by omega, (frmData_iff hset).mp hf⟩
  · have hb : (step P s i).bitslip = ⟨.slip, 0#3⟩ := by
      simp [step, Bitslip.posedge, Bitslip.comb, h, hf]
    have hsl : (step P s i).slips = s.slips + 1 ∧ (step P s i).sinceSlip = 1 := by
      simp [step, out, Bitslip.comb, h, hf]
    refine ⟨?_, by simp [hb], by simp [hb], ?_, by simp [hb]⟩
    · intro j hj
      rw [hsl.1] at hj
      rcases Nat.lt_succ_iff_lt_or_eq.mp hj with hlt | rfl
      · exact hs.missed j hlt
      · exact fun hcut => hf ((frmData_iff hset).mpr hcut)
    · intro _
      rw [hsl.1, hsl.2, hen, hb]
      exact ⟨by omega, by rw [he]; simp; omega, rfl⟩

theorem inv_step_slip (hs : Inv P s) (hk : steady s i) (h : s.bitslip.stateCurr = .slip) :
    Inv P (step P s i) := by
  obtain ⟨h1, he, hq⟩ := hs.slip h
  obtain ⟨hsl, hsi⟩ := no_slip (P := P) (i := i) (by rw [h]; simp)
  have hce : i.adcEn = true := hk (by omega)
  have hen : (step P s i).enabled = s.enabled + 1 := by simp [step, hce]
  have hb : (step P s i).bitslip = ⟨if s.bitslip.countCurr = 0b111#3 then .poll else .slip,
      s.bitslip.countCurr + 0b001#3⟩ := by simp [step, Bitslip.posedge, Bitslip.comb, h]
  have hm : ∀ j < (step P s i).slips, P.cut j % 8 ≠ 0 := by
    rw [hsl]
    exact hs.missed
  by_cases hc : s.bitslip.countCurr = 0b111#3
  · have h7 : s.bitslip.countCurr.toNat = 7 := by rw [hc]; rfl
    rw [if_pos hc] at hb
    refine ⟨hm, by simp [hb], ?_, by simp [hb], by simp [hb]⟩
    intro _
    rw [hsl, hsi, hen]
    exact ⟨by omega, Or.inr (by omega)⟩
  · rw [if_neg hc] at hb
    refine ⟨hm, by simp [hb], by simp [hb], ?_, by simp [hb]⟩
    intro _
    rw [hsl, hsi, hen, hb]
    have hadd := count_add_one hc
    exact ⟨h1, by simp only; omega, by simp only; omega⟩

theorem inv_step_stop (hs : Inv P s) (h : s.bitslip.stateCurr = .stop) : Inv P (step P s i) := by
  obtain ⟨he, hq, hcut⟩ := hs.stop h
  obtain ⟨hsl, hsi⟩ := no_slip (P := P) (i := i) (by rw [h]; simp)
  have hb : (step P s i).bitslip.stateCurr = .stop := by
    simp [step, Bitslip.posedge, Bitslip.comb, h]
  have hen : s.enabled ≤ (step P s i).enabled := Nat.le_add_right _ _
  refine ⟨by rw [hsl]; exact hs.missed, by simp [hb], by simp [hb], by simp [hb], ?_⟩
  intro _
  rw [hsl, hsi]
  exact ⟨by omega, hq.imp_right fun h9 => by omega, hcut⟩

theorem inv_step (hs : Inv P s) (hk : steady s i) : Inv P (step P s i) := by
  cases h : s.bitslip.stateCurr with
  | startup => exact inv_step_startup hs hk h
  | poll => exact inv_step_poll hs hk h
  | slip => exact inv_step_slip hs hk h
  | stop => exact inv_step_stop hs h

theorem aligned_iff : (out P s i).aligned = true ↔ aligned s := by
  unfold aligned
  cases h : s.bitslip.stateCurr <;> simp [out, Bitslip.comb, h]
  split <;> rfl

theorem aligned_step (h : aligned s) : aligned (step P s i) := by
  unfold aligned at *
  simp [step, Bitslip.posedge, Bitslip.comb, h]

theorem aligned_of_enabled (hs : Inv P s) (h : 72 ≤ s.enabled) : aligned s := by
  have h7 := slips_le hs
  cases hst : s.bitslip.stateCurr with
  | startup =>
    have := (hs.startup hst).2
    have := s.bitslip.countCurr.isLt
    omega
  | poll =>
    have := (hs.poll hst).1
    omega
  | slip =>
    have := (hs.slip hst).2.1
    have := s.bitslip.countCurr.isLt
    omega
  | stop => exact hst

theorem adcWord_of_aligned (hs : Inv P s) (h : aligned s) (c : Channel) :
    adcWord P c s i = P.samples c (s.now + P.cut s.slips / 8) := by
  have hcut := (hs.stop h).2.2
  have hset := settled_of_stop hs h
  rw [adcWord, if_pos hset, if_pos hset, dOut_iserdes _ (by rw [start_emod]; exact hcut)]
  congr 1
  unfold start
  omega

end Step

section Run
variable {P : Serial} {s : Reg}

theorem inv_run_of (hs : Inv P s) {is : List Input} (h : Always (step P) steady s is) :
    Inv P (run (step P) s is) :=
  invariant_run_of (I := Inv P) (fun _ _ hs hk => inv_step hs hk) hs h

theorem run_of_aligned (h : aligned s) (js : List Input) :
    aligned (run (step P) s js) ∧ (run (step P) s js).slips = s.slips ∧
      (run (step P) s js).now = s.now + js.length := by
  induction js using List.reverseRecOn with
  | nil => exact ⟨h, rfl, rfl⟩
  | append_singleton js j ih =>
    obtain ⟨ha, hsl, hn⟩ := ih
    rw [run_append, List.length_append]
    have hns := no_slip (P := P) (i := j) (s := run (step P) s js)
      (fun hp => by rw [aligned, hp] at ha; cases ha)
    refine ⟨aligned_step ha, hns.1.trans hsl, ?_⟩
    rw [← Nat.add_assoc, ← hn]
    rfl

end Run

theorem enabled_run {P : Serial} (s : Reg) {is : List Input} (h : ∀ i ∈ is, i.adcEn = true) :
    (run (step P) s is).enabled = s.enabled + is.length := by
  induction is generalizing s with
  | nil => rfl
  | cons i is ih =>
    have hi : (step P s i).enabled = s.enabled + 1 := by simp [step, h i List.mem_cons_self]
    rw [run_cons, ih _ fun j hj => h j (List.mem_cons_of_mem i hj), hi, List.length_cons]
    omega

theorem alignment_returns_samples (P : Serial) (is : List Input)
    (h : Always (step P) steady reset is) :
    let s := run (step P) reset is
    s.slips ≤ 7 ∧ (72 ≤ s.enabled → aligned s) ∧
    (∀ i, ((out P s i).aligned = true ↔ aligned s) ∧
      (aligned s → (out P s i).iserdesBslip = false ∧ aligned (step P s i))) ∧
    (aligned s → ∃ d : Int, ∀ js, Always (step P) steady s js → ∀ i c,
      adcWord P c (run (step P) s js) i = P.samples c (d + js.length)) := by
  intro s
  have hs : Inv P s := inv_run_of inv_reset h
  refine ⟨slips_le hs, aligned_of_enabled hs, ?_, ?_⟩
  · intro i
    refine ⟨aligned_iff, ?_⟩
    intro ha
    refine ⟨?_, aligned_step ha⟩
    have hst : s.bitslip.stateCurr = .stop := ha
    simp [out, Bitslip.comb, hst]
  · intro ha
    refine ⟨s.now + P.cut s.slips / 8, ?_⟩
    intro js hjs i c
    obtain ⟨ha', hsl, hn⟩ := run_of_aligned (P := P) ha js
    rw [adcWord_of_aligned (inv_run_of hs hjs) ha' c, hsl, hn]
    congr 1
    omega

/-- Slips that go one bit to the right and three bits to the left in turn visit all offsets. -/
theorem visits_alternating (k : Nat) (o : Int) (h0 : 0 ≤ o) (h8 : o < 8) :
    ∃ j < 8, ((k + j : Nat) + 3 - 2 * ((k + j) % 2 : Nat) : Int) % 8 = o := by
  obtain ⟨j, hj8, hj⟩ : ∃ j < 8, ((k + j : Nat) : Int) % 8 = (o - 3 + 2 * ((o + 1) % 2)) % 8 :=
    ⟨((o - 3 + 2 * ((o + 1) % 2) - k) % 8).toNat, by omega, by omega⟩
  refine ⟨j, hj8, ?_⟩
  rcases Int.emod_two_eq o with ho | ho
  · have hm : (k + j) % 2 = 1 := by omega
    omega
  · have hm : (k + j) % 2 = 0 := by omega
    omega

/-- Primitives at `DATA_RATE` DDR: the word moves one bit to the right at the first slip, three
bits to the left at the second, and so on. -/
def alternating : Serial where
  samples _ n := BitVec.ofInt 16 n
  cut k := k + 3 - 2 * (k % 2 : Nat)
  visits := visits_alternating

def enabledInput : Input := ⟨true, 0#8, fun _ => 0#8, fun _ => 0#8⟩

theorem steady_replicate (P : Serial) (s : Reg) (n : Nat) :
    Always (step P) steady s (List.replicate n enabledInput) := by
  apply always_of_forall_mem
  intro i hi _ _
  rw [List.eq_of_mem_replicate hi]
  rfl

theorem alignment_returns_samples_alternating :
    let s := run (step alternating) reset (List.replicate 72 enabledInput)
    aligned s ∧ ∃ d : Int, ∀ n i c, adcWord alternating c
      (run (step alternating) s (List.replicate n enabledInput)) i = BitVec.ofInt 16 (d + n) := by
  intro s
  obtain ⟨_, ha, _, hw⟩ := alignment_returns_samples alternating _ (steady_replicate _ _ 72)
  have hen : s.enabled = 72 := by
    refine (enabled_run _ ?_).trans rfl
    intro i hi
    rw [List.eq_of_mem_replicate hi]
    rfl
  have ha : aligned s := ha (Nat.le_of_eq hen.symm)
  obtain ⟨d, hd⟩ := hw ha
  refine ⟨ha, d, ?_⟩
  intro n i c
  rw [hd _ (steady_replicate _ _ n), List.length_replicate]
  rfl

end AdcCapture.AdcInterface
