import AdcCapture.Clocked

/-!
# spi_3_wire_master

The SPI master as the block design instantiates it: one slave, 16 command bits,
8 data bits, `clk_div` 5. Signals keep their old values throughout a clock and
the last assignment counts. `line` is what the slave drives on `sdio`.
-/

namespace AdcCapture.SpiMaster

open Clocked
set_option autoImplicit false

def cmdWidth : Nat := 16

def dWidth : Nat := 8

def clkDiv : Nat := 5

inductive Machine where
  | ready | execute
  deriving DecidableEq, Repr

/-- `sdio` is `none` where the master leaves the line at high impedance. -/
structure Reg where
  state : Machine
  clkRatio : Nat
  count : Nat
  clkToggles : Nat
  assertData : Bool
  rwBuffer : Bool
  cmdBuffer : BitVec 16
  dBuffer : BitVec 8
  lastBitRx : Nat
  sclk : Bool
  ssN : Bool
  sdio : Option Bool
  busy : Bool
  rxData : BitVec 8
  deriving DecidableEq, Repr

structure Input where
  enable : Bool
  cpol : Bool
  cpha : Bool
  rw : Bool
  txCmd : BitVec 16
  txData : BitVec 8
  line : Bool

/-- The registers as they are configured. -/
def powerUpReg : Reg where
  state := .ready
  clkRatio := 0
  count := 0
  clkToggles := 0
  assertData := false
  rwBuffer := false
  cmdBuffer := 0#16
  dBuffer := 0#8
  lastBitRx := 0
  sclk := false
  ssN := false
  sdio := none
  busy := false
  rxData := 0#8

/-- The asynchronous reset. -/
def reset (r : Reg) : Reg :=
  { r with busy := true, ssN := true, sdio := none, rxData := 0#8, state := .ready }

def sdioIn (r : Reg) (i : Input) : Bool := r.sdio.getD i.line

def shiftIn (d : BitVec 8) (b : Bool) : BitVec 8 := d.extractLsb' 0 7 ++ BitVec.ofBool b

/-- `(cmd_width+d_width)*2 + 1`, the number of the toggle that ends a transaction. -/
def lastToggle : Nat := (cmdWidth + dWidth) * 2 + 1

def clocksCommand (r : Reg) : Bool := r.assertData && r.clkToggles < r.lastBitRx - dWidth * 2

def clocksData (r : Reg) : Bool := r.assertData && r.lastBitRx - dWidth * 2 < r.clkToggles

def receives (r : Reg) : Bool :=
  !r.assertData && r.clkToggles < r.lastBitRx + 1 && !r.rwBuffer &&
    r.lastBitRx - dWidth * 2 < r.clkToggles

def start (r : Reg) (i : Input) : Reg :=
  { r with
    busy := true
    ssN := true
    sdio := none
    clkRatio := clkDiv
    count := clkDiv
    sclk := i.cpol
    assertData := !i.cpha
    rwBuffer := i.rw
    cmdBuffer := i.txCmd
    dBuffer := i.txData
    clkToggles := 0
    lastBitRx := (cmdWidth + dWidth) * 2 + i.cpha.toNat - 1
    state := .execute }

/-- The clock of `execute` in which `count` has reached `clk_ratio`. -/
def toggle (r : Reg) (i : Input) : Reg :=
  let done := r.clkToggles == lastToggle
  { r with
    busy := !done
    ssN := done
    count := 1
    assertData := !r.assertData
    clkToggles := r.clkToggles + 1
    sclk := if r.clkToggles < lastToggle && !r.ssN then !r.sclk else r.sclk
    sdio :=
      if done then none
      else if clocksCommand r then some r.cmdBuffer.msb
      else if clocksData r then (if r.rwBuffer then some r.dBuffer.msb else none)
      else r.sdio
    cmdBuffer := if clocksCommand r then r.cmdBuffer <<< 1 else r.cmdBuffer
    dBuffer :=
      if clocksData r && r.rwBuffer then r.dBuffer <<< 1
      else if receives r then shiftIn r.dBuffer (sdioIn r i)
      else r.dBuffer
    rxData := if done && !r.rwBuffer then r.dBuffer else r.rxData
    state := if done then .ready else .execute }

def posedge (r : Reg) (i : Input) : Reg :=
  match r.state with
  | .ready =>
    if i.enable then start r i else { r with busy := false, ssN := true, sdio := none }
  | .execute =>
    if r.count = r.clkRatio then toggle r i
    else { r with busy := true, ssN := false, count := r.count + 1 }

/-! ## Transactions -/

inductive Transaction where
  | write (cmd : BitVec 16) (data : BitVec 8)
  | read (cmd : BitVec 16)
  deriving DecidableEq, Repr

def transaction (i : Input) : Transaction :=
  if i.rw then .write i.txCmd i.txData else .read i.txCmd

/-- A transaction starts, or a bit is shifted into `d_buffer`. -/
inductive Mark where
  | start (t : Transaction)
  | bit (b : Bool)
  deriving DecidableEq, Repr

def marks (r : Reg) (i : Input) : List Mark :=
  match r.state with
  | .ready => if i.enable then [.start (transaction i)] else []
  | .execute => if r.count = r.clkRatio && receives r then [.bit (sdioIn r i)] else []

def started (ms : List Mark) : List Transaction :=
  ms.filterMap fun m => match m with | .start t => some t | .bit _ => none

def collect (bits : List Bool) (m : Mark) : List Bool :=
  match m with
  | .start _ => []
  | .bit b => bits ++ [b]

/-- The bits received since the last start. -/
def received (ms : List Mark) : List Bool := ms.foldl collect []

def byteOf (bits : List Bool) : BitVec 8 := bits.foldl shiftIn 0#8

@[simp] theorem started_nil : started [] = [] := rfl

@[simp] theorem started_append (ms ns : List Mark) :
    started (ms ++ ns) = started ms ++ started ns := List.filterMap_append

theorem started_marks_of_execute {r : Reg} (h : r.state = .execute) (i : Input) :
    started (marks r i) = [] := by
  simp only [marks, h]
  split <;> rfl

theorem toNat_shiftIn (d : BitVec 8) (b : Bool) :
    (shiftIn d b).toNat = (2 * d.toNat + b.toNat) % 256 := by
  have hb := Bool.toNat_lt b
  have hor := Nat.shiftLeft_add_eq_or_of_lt (i := 1) hb (d.toNat % 128)
  rw [shiftIn, BitVec.toNat_append, BitVec.toNat_ofBool, BitVec.extractLsb'_toNat,
    Nat.shiftRight_zero, ← hor]
  omega

theorem foldl_shiftIn (d : BitVec 8) (bits : List Bool) : (bits.foldl shiftIn d).toNat =
    (d.toNat <<< bits.length + (byteOf bits).toNat) % 256 := by
  induction bits using List.reverseRecOn with
  | nil => simp [byteOf, Nat.mod_eq_of_lt d.isLt]
  | append_singleton bits b ih =>
    have hs := Nat.shiftLeft_succ d.toNat bits.length
    simp only [byteOf, List.foldl_append, List.foldl_cons, List.foldl_nil, toNat_shiftIn,
      List.length_append, List.length_cons, List.length_nil, Nat.zero_add] at ih ⊢
    rw [ih, hs]
    omega

/-- Eight bits push out whatever was in the buffer. -/
theorem foldl_shiftIn_eq_byteOf (d : BitVec 8) {bits : List Bool} (h : bits.length = dWidth) :
    bits.foldl shiftIn d = byteOf bits := by
  apply BitVec.eq_of_toNat_eq
  have hb := (byteOf bits).isLt
  rw [foldl_shiftIn, h]
  simp only [dWidth]
  omega

/-! ## How long a transaction takes -/

/-- The counters of a transaction under way. -/
structure Counting (r : Reg) : Prop where
  ratio : r.clkRatio = clkDiv
  count_pos : 1 ≤ r.count
  count_le : r.count ≤ clkDiv
  toggles_le : r.clkToggles ≤ lastToggle

def Sound (r : Reg) : Prop := r.state = .execute → Counting r

/-- Clocks until the master is in `ready` again. -/
def remaining (r : Reg) : Nat :=
  match r.state with
  | .ready => 0
  | .execute => (lastToggle - r.clkToggles) * clkDiv + (clkDiv - r.count) + 1

/-- Clocks of `execute` in one transaction. -/
def duration : Nat := lastToggle * clkDiv + 1

section Step
variable {r : Reg} {i : Input}

theorem sound_reset (r : Reg) : Sound (reset r) := by
  intro h
  cases h

theorem remaining_eq_zero_iff : remaining r = 0 ↔ r.state = .ready := by
  unfold remaining
  cases r.state <;> simp

theorem execute_of_remaining (h : 0 < remaining r) : r.state = .execute := by
  cases hs : r.state with
  | ready => simp [remaining, hs] at h
  | execute => rfl

theorem remaining_execute (h : r.state = .execute) : remaining r =
    (lastToggle - r.clkToggles) * clkDiv + (clkDiv - r.count) + 1 := by
  simp only [remaining, h]

theorem remaining_le (r : Reg) : remaining r ≤ duration + clkDiv := by
  cases h : r.state with
  | ready => simp [remaining_eq_zero_iff.mpr h]
  | execute =>
    rw [remaining_execute h, duration]
    simp only [clkDiv]
    omega

theorem sound_execute (hr : Sound r) (h : r.state = .execute) :
    Sound (posedge r i) ∧ remaining (posedge r i) + 1 = remaining r := by
  obtain ⟨hratio, hpos, hle, htog⟩ := hr h
  have hrem := remaining_execute h
  by_cases hc : r.count = r.clkRatio
  · have hp : posedge r i = toggle r i := by simp [posedge, h, hc]
    by_cases hd : r.clkToggles = lastToggle
    · have hst : (toggle r i).state = .ready := by simp [toggle, hd]
      rw [hp]
      refine ⟨fun hx => absurd (hst.symm.trans hx) (by simp), ?_⟩
      rw [remaining_eq_zero_iff.mpr hst, hrem, hd, hc, hratio]
      simp
    · have hst : (toggle r i).state = .execute := by simp [toggle, hd]
      rw [hp]
      refine ⟨fun _ => ⟨hratio, Nat.le_refl _, (by decide : 1 ≤ clkDiv), ?_⟩, ?_⟩
      · simp only [toggle]
        omega
      · rw [hrem, hc, hratio, remaining_execute hst]
        simp only [toggle, clkDiv]
        omega
  · have hp : posedge r i = { r with busy := true, ssN := false, count := r.count + 1 } := by
      simp [posedge, h, hc]
    rw [hp]
    refine ⟨fun _ => ⟨hratio, by simp, ?_, htog⟩, ?_⟩
    · simp only
      omega
    · rw [hrem]
      simp only [remaining, h]
      omega

theorem sound_ready (h : r.state = .ready) (hi : i.enable = false) :
    Sound (posedge r i) ∧ remaining (posedge r i) = 0 := by
  have hst : (posedge r i).state = .ready := by simp [posedge, h, hi]
  exact ⟨fun hx => absurd (hst.symm.trans hx) (by simp), remaining_eq_zero_iff.mpr hst⟩

theorem sound_start (h : r.state = .ready) (hi : i.enable = true) :
    Sound (posedge r i) ∧ remaining (posedge r i) = duration := by
  have hp : posedge r i = start r i := by simp [posedge, h, hi]
  rw [hp]
  exact ⟨fun _ => ⟨rfl, (by decide : 1 ≤ clkDiv), Nat.le_refl _, Nat.zero_le _⟩, rfl⟩

theorem sound_step (hr : Sound r) (i : Input) : Sound (posedge r i) := by
  cases h : r.state with
  | execute => exact (sound_execute hr h).1
  | ready =>
    cases hi : i.enable with
    | false => exact (sound_ready h hi).1
    | true => exact (sound_start h hi).1

end Step

/-! ## Runs -/

section Run
variable {r : Reg} {is : List Input}

theorem sound_run (hr : Sound r) (is : List Input) : Sound (run posedge r is) :=
  invariant_run (I := Sound) (fun _ i h => sound_step h i) hr is

theorem started_cons (r : Reg) (i : Input) (is : List Input) :
    started (emits posedge marks r (i :: is)) =
      started (marks r i) ++ started (emits posedge marks (posedge r i) is) := by
  rw [emits_cons, started_append]

/-- A busy master takes no notice of its inputs. -/
theorem run_busy (hr : Sound r) (h : is.length ≤ remaining r) :
    started (emits posedge marks r is) = [] ∧
      remaining (run posedge r is) + is.length = remaining r ∧
      Always posedge (fun r _ => r.state = .execute) r is := by
  induction is generalizing r with
  | nil => exact ⟨rfl, rfl, trivial⟩
  | cons i is ih =>
    simp only [List.length_cons] at h
    have hx : r.state = .execute := execute_of_remaining (by omega)
    obtain ⟨hs, hrem⟩ := sound_execute (i := i) hr hx
    obtain ⟨hst, hlen, hall⟩ := ih hs (by omega)
    refine ⟨?_, ?_, hx, hall⟩
    · rw [started_cons, started_marks_of_execute hx, hst]
      rfl
    · simp only [run_cons, List.length_cons]
      omega

theorem run_low (hr : Sound r) (hi : ∀ i ∈ is, i.enable = false) :
    started (emits posedge marks r is) = [] ∧
      remaining (run posedge r is) = remaining r - is.length := by
  induction is generalizing r with
  | nil => exact ⟨rfl, rfl⟩
  | cons i is ih =>
    have hlow := hi i List.mem_cons_self
    obtain ⟨hst, hlen⟩ := ih (sound_step hr i) fun j hj => hi j (List.mem_cons_of_mem i hj)
    rw [started_cons, hst, run_cons, hlen, List.length_cons]
    cases hx : r.state with
    | execute =>
      obtain ⟨_, hrem⟩ := sound_execute (i := i) hr hx
      rw [started_marks_of_execute hx]
      refine ⟨rfl, ?_⟩
      omega
    | ready =>
      have h0 := remaining_eq_zero_iff.mpr hx
      have h1 := (sound_ready hx hlow).2
      refine ⟨by simp [marks, hx, hlow], ?_⟩
      omega

/-- A clock of a run that is long enough to reach it, when the master is ready. -/
theorem exists_ready (hr : Sound r) (h : remaining r < is.length) : ∃ pre i post,
    is = pre ++ i :: post ∧ pre.length = remaining r ∧
      started (emits posedge marks r pre) = [] ∧ (run posedge r pre).state = .ready := by
  have hlen : (is.take (remaining r)).length = remaining r := by
    rw [List.length_take]
    omega
  obtain ⟨hst, hrem, _⟩ := run_busy hr (show (is.take (remaining r)).length ≤ _ by omega)
  refine ⟨is.take (remaining r), is[remaining r], is.drop (remaining r + 1), ?_, hlen, hst, ?_⟩
  · rw [← List.drop_eq_getElem_cons h, List.take_append_drop]
  · apply remaining_eq_zero_iff.mp
    omega

variable {t : Transaction}

/-- With `enable` held from a given moment on, the master starts in its first ready clock. -/
theorem started_hold (hr : Sound r) (hi : ∀ i ∈ is, i.enable = true ∧ transaction i = t) :
    (is.length ≤ remaining r → started (emits posedge marks r is) = []) ∧
    (remaining r < is.length → ∃ pre i post, is = pre ++ i :: post ∧ pre.length = remaining r ∧
      (run posedge r pre).state = .ready ∧ started (emits posedge marks r is) =
        t :: started (emits posedge marks (run posedge r (pre ++ [i])) post)) := by
  refine ⟨fun h => (run_busy hr h).1, ?_⟩
  intro h
  obtain ⟨pre, i, post, rfl, hlen, hpre, hready⟩ := exists_ready hr h
  obtain ⟨hen, htr⟩ := hi i (by simp)
  refine ⟨pre, i, post, rfl, hlen, hready, ?_⟩
  have hm : started (marks (run posedge r pre) i) = [t] := by
    simp [marks, hready, hen, htr, started]
  rw [emits_append, started_append, hpre, started_cons, hm, run_append]
  rfl

theorem started_hold_iff (hr : Sound r) (hi : ∀ i ∈ is, i.enable = true ∧ transaction i = t) :
    started (emits posedge marks r is) = [t] ↔
      remaining r + 1 ≤ is.length ∧ is.length ≤ remaining r + 1 + duration := by
  obtain ⟨hshort, hlong⟩ := started_hold hr hi
  by_cases h : is.length ≤ remaining r
  · rw [hshort h]
    constructor
    · intro hn
      cases hn
    · intro hn
      omega
  · obtain ⟨pre, i, post, rfl, hlen, hready, hst⟩ := hlong (by omega)
    have hen := (hi i (by simp)).1
    have hpost : ∀ j ∈ post, j.enable = true ∧ transaction j = t := fun j hj => hi j (by simp [hj])
    obtain ⟨hs, hrem⟩ := sound_start hready hen
    obtain ⟨hshort', hlong'⟩ := started_hold hs hpost
    rw [hst, run_snoc, List.cons_eq_cons, List.length_append, List.length_cons]
    by_cases hd : post.length ≤ duration
    · rw [hshort' (by omega)]
      simp only [and_self, true_iff]
      omega
    · obtain ⟨pre', j, post', -, -, -, hst'⟩ := hlong' (by omega)
      rw [hst']
      constructor
      · rintro ⟨-, hn⟩
        cases hn
      · intro hn
        omega

end Run

/-! ## The byte of a read -/

/-- `d_buffer` in a read under way, after the given bits. -/
structure Shifting (bits : List Bool) (r : Reg) : Prop where
  reads : r.rwBuffer = false
  last_le : r.lastBitRx + 1 ≤ lastToggle
  le_last : lastToggle ≤ r.lastBitRx + 2
  phase : r.assertData = decide ((r.lastBitRx + r.clkToggles) % 2 = 1)
  length : bits.length = min dWidth ((r.clkToggles + 15 - r.lastBitRx) / 2)
  buffer : ∃ d, r.dBuffer = bits.foldl shiftIn d

/-- A read under way, or its byte on `rx_data`. -/
def Reading (bits : List Bool) (r : Reg) : Prop :=
  match r.state with
  | .ready => bits.length = dWidth ∧ r.rxData = byteOf bits
  | .execute => Shifting bits r

section Reading
variable {r : Reg} {i : Input} {bits : List Bool}

theorem marks_execute (h : r.state = .execute) : marks r i =
    if r.count = r.clkRatio && receives r then [.bit (sdioIn r i)] else [] := by
  simp only [marks, h]

theorem receives_iff (h : Shifting bits r) : receives r = true ↔
    (r.lastBitRx + r.clkToggles) % 2 = 0 ∧ r.clkToggles ≤ r.lastBitRx ∧
      r.lastBitRx < r.clkToggles + 16 := by
  have h1 := h.last_le
  have h2 := h.le_last
  simp only [lastToggle, cmdWidth, dWidth] at h1 h2
  simp only [receives, h.reads, h.phase, Bool.not_false, Bool.and_true, Bool.and_eq_true,
    Bool.not_eq_true', decide_eq_false_iff_not, decide_eq_true_eq]
  simp only [dWidth]
  omega

theorem not_receives_last (h : Shifting bits r) (hd : r.clkToggles = lastToggle) :
    receives r = false := by
  rw [← Bool.not_eq_true, receives_iff h]
  have h1 := h.last_le
  omega

theorem byteOf_of_last (h : Shifting bits r) (hd : r.clkToggles = lastToggle) :
    bits.length = dWidth ∧ r.dBuffer = byteOf bits := by
  obtain ⟨d, hbuf⟩ := h.buffer
  have h1 := h.last_le
  have h2 := h.le_last
  have hlen : bits.length = dWidth := by
    rw [h.length, hd]
    simp only [lastToggle, cmdWidth, dWidth] at h1 h2 ⊢
    omega
  exact ⟨hlen, by rw [hbuf, foldl_shiftIn_eq_byteOf d hlen]⟩

theorem shifting_toggle (h : Shifting bits r) :
    Shifting ((if receives r then [Mark.bit (sdioIn r i)] else []).foldl collect bits)
      (toggle r i) := by
  obtain ⟨d, hbuf⟩ := h.buffer
  have h1 := h.last_le
  have h2 := h.le_last
  have hlen := h.length
  have hrec := receives_iff h
  have hphase : (!r.assertData) = decide ((r.lastBitRx + (r.clkToggles + 1)) % 2 = 1) := by
    rw [h.phase]
    rw [← decide_not, decide_eq_decide]
    omega
  simp only [lastToggle, cmdWidth, dWidth] at h1 h2
  cases hre : receives r with
  | true =>
    obtain ⟨hpar, hle, hlt⟩ := hrec.mp hre
    refine ⟨h.reads, h.last_le, h.le_last, hphase, ?_, d, ?_⟩
    · simp only [if_true, List.foldl_cons, List.foldl_nil, collect, List.length_append,
        List.length_cons, List.length_nil, hlen, toggle, dWidth]
      omega
    · simp [toggle, h.reads, hre, collect, hbuf, List.foldl_append]
  | false =>
    have hn : ¬ ((r.lastBitRx + r.clkToggles) % 2 = 0 ∧ r.clkToggles ≤ r.lastBitRx ∧
        r.lastBitRx < r.clkToggles + 16) := fun hc => by
      rw [hrec.mpr hc] at hre
      cases hre
    refine ⟨h.reads, h.last_le, h.le_last, hphase, ?_, d, ?_⟩
    · simp only [Bool.false_eq_true, if_false, List.foldl_nil, hlen, toggle, dWidth]
      omega
    · simp [toggle, h.reads, hre, hbuf]

theorem reading_execute (hx : r.state = .execute) (h : Shifting bits r) :
    Reading ((marks r i).foldl collect bits) (posedge r i) := by
  rw [marks_execute hx]
  by_cases hc : r.count = r.clkRatio
  · have hp : posedge r i = toggle r i := by simp [posedge, hx, hc]
    simp only [hp, hc, decide_true, Bool.true_and]
    by_cases hd : r.clkToggles = lastToggle
    · have hst : (toggle r i).state = .ready := by simp [toggle, hd]
      have hre := not_receives_last h hd
      simp only [Reading, hst, hre]
      simpa [toggle, hd, h.reads] using byteOf_of_last h hd
    · have hst : (toggle r i).state = .execute := by simp [toggle, hd]
      simp only [Reading, hst]
      exact shifting_toggle h
  · have hp : posedge r i = { r with busy := true, ssN := false, count := r.count + 1 } := by
      simp [posedge, hx, hc]
    simp only [hp, hc, decide_false, Bool.false_and, Reading, hx]
    exact ⟨h.reads, h.last_le, h.le_last, h.phase, h.length, h.buffer⟩

theorem reading_step (h : Reading bits r) (hk : r.state = .execute ∨ i.enable = false) :
    Reading ((marks r i).foldl collect bits) (posedge r i) := by
  cases hx : r.state with
  | execute =>
    simp only [Reading, hx] at h
    exact reading_execute hx h
  | ready =>
    have hi : i.enable = false := hk.resolve_left (by simp [hx])
    simp only [Reading, hx] at h
    simpa [Reading, marks, posedge, hx, hi] using h

theorem reading_start (hx : r.state = .ready) (hi : i.enable = true) (hrw : i.rw = false) :
    Reading [] (posedge r i) := by
  have hp : posedge r i = start r i := by simp [posedge, hx, hi]
  rw [hp]
  have hl : (start r i).lastBitRx = 47 + i.cpha.toNat := by
    cases hc : i.cpha <;> simp [start, hc, cmdWidth, dWidth]
  have hle := Bool.toNat_le i.cpha
  simp only [Reading]
  refine ⟨hrw, ?_, ?_, ?_, ?_, i.txData, rfl⟩
  · simp only [hl, lastToggle, cmdWidth, dWidth]
    omega
  · simp only [hl, lastToggle, cmdWidth, dWidth]
    omega
  · rw [hl]
    cases hc : i.cpha <;> simp [start, hc]
  · simp only [start, List.length_nil, cmdWidth, dWidth]
    omega

theorem reading_run {is : List Input} (h : Reading bits r)
    (hk : Always posedge (fun r i => r.state = .execute ∨ i.enable = false) r is) :
    Reading ((emits posedge marks r is).foldl collect bits) (run posedge r is) := by
  induction is generalizing r bits with
  | nil => exact h
  | cons i is ih =>
    rw [emits_cons, List.foldl_append]
    exact ih (reading_step h hk.1) hk.2

/-- After `enable` has been held for one read, the bits since its start are the bits of the read. -/
theorem reading_hold {is : List Input} {cmd : BitVec 16} (hr : Sound r)
    (hi : ∀ i ∈ is, i.enable = true ∧ transaction i = .read cmd) (hmin : remaining r < is.length)
    (hmax : is.length ≤ remaining r + 1 + duration) (bits : List Bool) :
    Reading ((emits posedge marks r is).foldl collect bits) (run posedge r is) := by
  obtain ⟨pre, i, post, rfl, hlen, hpre, hready⟩ := exists_ready hr hmin
  obtain ⟨hen, htr⟩ := hi i (by simp)
  have hrw : i.rw = false := by
    unfold transaction at htr
    split at htr
    · cases htr
    · simpa using ‹¬ i.rw = true›
  have hm : marks (run posedge r pre) i = [.start (transaction i)] := by
    simp [marks, hready, hen]
  obtain ⟨hs, hrem⟩ := sound_start hready hen
  simp only [List.length_append, List.length_cons] at hmax
  obtain ⟨_, _, hbusy⟩ := run_busy hs (show post.length ≤ _ by omega)
  have hread := reading_run (reading_start hready hen hrw) (hbusy.mono fun _ _ hx => .inl hx)
  rw [emits_append, List.foldl_append, emits_cons, List.foldl_append, hm, run_append, run_cons]
  exact hread

end Reading

end AdcCapture.SpiMaster
