import AdcCapture.AxisAsyncFifo

/-!
# Pointers on the way from one clock to the other

Every pointer register stands for a position in the sequence of committed words.
`Inv` orders these positions and says which words the memory holds; it is kept
by an edge of either clock and by edges that fall together.
-/

namespace AdcCapture.AxisAsyncFifo

open Clocked
set_option autoImplicit false

variable {α : Type} {a u : Nat}

def ptr (a n : Nat) : BitVec (a + 1) := BitVec.ofNat (a + 1) n

def code (a n : Nat) : BitVec (a + 1) := Gray.encode (ptr a n)

theorem ptr_succ (n : Nat) : ptr a n + 1#(a + 1) = ptr a (n + 1) := (BitVec.ofNat_add n 1).symm

theorem opposite_code {c : Config a u} {m n : Nat} :
    Gray.opposite (code a m) (code a n) = true ↔ ptr a m = ptr a (n + 2 ^ a) := by
  rw [code, code, Gray.opposite_encode_iff (Nat.lt_trans Nat.zero_lt_one c.addr_width), ptr, ptr,
    ptr, BitVec.ofNat_add]

/-- Pointers less than one turn apart tell their positions apart. -/
theorem ptr_inj {m n : Nat} (h : ptr a m = ptr a n) (hle : n ≤ m) (hlt : m < n + 2 ^ (a + 1)) :
    m = n := by
  have hmod : m % 2 ^ (a + 1) = n % 2 ^ (a + 1) := by
    have hnat := congrArg BitVec.toNat h
    rwa [ptr, ptr, BitVec.toNat_ofNat, BitVec.toNat_ofNat] at hnat
  have hsub := Nat.sub_mod_eq_zero_of_mod_eq hmod
  rw [Nat.mod_eq_of_lt (by omega)] at hsub
  omega

theorem half_lt_turn (a : Nat) : 2 ^ a < 2 ^ (a + 1) :=
  Nat.pow_lt_pow_right (by decide) (Nat.lt_succ_self a)

/-! ## What an edge of s_clk does -/

/-- The pointer that writes, and its code. -/
def wr (c : Config a u) (s : SReg α a) : BitVec (a + 1) :=
  if c.frameFifo then s.wrPtrCur else s.wrPtr

def wrGray (c : Config a u) (s : SReg α a) : BitVec (a + 1) :=
  if c.frameFifo then s.wrPtrCurGray else s.wrPtrGray

inductive Move where
  | keep | store | commit | drop
  deriving DecidableEq, Repr

def move (c : Config a u) (s : SReg α a) (i : SInput α u) : Move :=
  if transfer c s i then
    if !c.frameFifo then .commit
    else if fullCur s || fullWr s || s.dropFrame then (if i.sAxisTlast then .drop else .keep)
    else if i.sAxisTlast then (if badFrame c i then .drop else .commit)
    else .store
  else .keep

/-- The committed words and the stored words of the open frame, after a clock. -/
def Move.stored (w : α) (C P : List α) : Move → List α
  | .commit => C ++ P ++ [w]
  | .keep | .store | .drop => C

def Move.part (w : α) (P : List α) : Move → List α
  | .keep => P
  | .store => P ++ [w]
  | .commit | .drop => []

/-- A pointer update sets off for the other side. -/
def starts (c : Config a u) (s : SReg α a) (i : SInput α u) : Bool :=
  c.frameFifo && s.wrPtrUpdate == s.wrPtrUpdateAckSync2 &&
    (s.wrPtrUpdateValid || move c s i == .commit)

section Comb
variable {c : Config a u} {s : SReg α a} {i : SInput α u}

theorem wrPtrNext_eq : (writeComb c s i).wrPtrNext =
    if move c s i = .commit then wr c s + 1#(a + 1) else s.wrPtr := by
  simp only [writeComb, move, wr, flagged, writeDefaults]
  grind

theorem wrPtrGrayNext_eq : (writeComb c s i).wrPtrGrayNext =
    if move c s i = .commit then Gray.encode (wr c s + 1#(a + 1)) else s.wrPtrGray := by
  simp only [writeComb, move, wr, flagged, writeDefaults]
  grind

theorem frameFifo_of_move (h : move c s i = .store ∨ move c s i = .drop) :
    c.frameFifo = true := by
  simp only [move] at h
  grind

theorem wrNext_eq : (if c.frameFifo then (writeComb c s i).wrPtrCurNext
      else (writeComb c s i).wrPtrNext) =
    match move c s i with
    | .keep => wr c s
    | .store | .commit => wr c s + 1#(a + 1)
    | .drop => s.wrPtr := by
  simp only [writeComb, move, wr, flagged, writeDefaults]
  grind

theorem wrGrayNext_eq : (if c.frameFifo then (writeComb c s i).wrPtrCurGrayNext
      else (writeComb c s i).wrPtrGrayNext) =
    match move c s i with
    | .keep => wrGray c s
    | .store | .commit => Gray.encode (wr c s + 1#(a + 1))
    | .drop => Gray.encode s.wrPtr := by
  simp only [writeComb, move, wr, wrGray, flagged, writeDefaults]
  grind

theorem wrPtrUpdateNext_eq : (writeComb c s i).wrPtrUpdateNext =
    if starts c s i then !s.wrPtrUpdateAckSync2 else s.wrPtrUpdate := by
  simp only [writeComb, starts, move, flagged, writeDefaults]
  grind

theorem wrPtrUpdateValidNext_eq (hf : c.frameFifo = true) : (writeComb c s i).wrPtrUpdateValidNext =
    if s.wrPtrUpdate = s.wrPtrUpdateAckSync2 then s.wrPtrUpdateValid && move c s i == .commit
    else s.wrPtrUpdateValid || move c s i == .commit := by
  simp only [writeComb, move, flagged, writeDefaults, hf]
  grind

theorem wrPtrSyncGrayNext_eq : (writeComb c s i).wrPtrSyncGrayNext =
    if starts c s i then
      if s.wrPtrUpdateValid then s.wrPtrGray else Gray.encode (wr c s + 1#(a + 1))
    else s.wrPtrSyncGray := by
  simp only [writeComb, starts, move, wr, flagged, writeDefaults]
  grind

theorem write_eq : (writeComb c s i).write = match move c s i with
    | .keep => false
    | .store | .commit => true
    | .drop => !(fullCur s || fullWr s || s.dropFrame) := by
  simp only [writeComb, move, flagged, writeDefaults]
  grind

/-- Nothing is written past the words that may not have been read. -/
theorem room_of_write (h : (writeComb c s i).write = true) :
    (if c.frameFifo then fullCur s else full s) = false := by
  simp only [writeComb, transfer, sAxisTready, flagged, writeDefaults] at h
  grind

end Comb

/-! ## Positions -/

/-- The positions that the pointer registers stand for. -/
structure Counts where
  /-- Offered by `wr_ptr_sync_gray_reg`. -/
  sync : Nat
  /-- Where the write side believes the read pointer to be. -/
  seen1 : Nat
  seen2 : Nat
  /-- Where the read side believes the write pointer to be. -/
  sent1 : Nat
  sent2 : Nat
  got : Nat

def Counts.visible (c : Config a u) (n : Counts) : Nat := if c.frameFifo then n.sent1 else n.sent2

structure SInv (c : Config a u) (s : SReg α a) (C P : List α) (n : Counts) : Prop where
  wrPtr : s.wrPtr = ptr a C.length
  wrPtrGray : s.wrPtrGray = code a C.length
  wr_eq : wr c s = ptr a (C.length + P.length)
  wrGray_eq : wrGray c s = code a (C.length + P.length)
  no_part : c.frameFifo = false → P = []
  addr : s.sRstSync2 = false → s.wrAddr = wr c s
  seen1 : s.rdPtrGraySync1 = code a n.seen1
  seen2 : s.rdPtrGraySync2 = code a n.seen2
  seen_le : n.seen2 ≤ n.seen1
  seen_stored : n.seen1 ≤ C.length
  room : C.length + P.length ≤ n.seen2 + 2 ^ a
  sync : s.wrPtrSyncGray = code a n.sync
  sync_le : n.sync ≤ C.length
  sync_eq : c.frameFifo = true → s.wrPtrUpdateValid = false → n.sync = C.length
  started : s.sRstSync1 = false
  running : s.sRstSync3 = false → s.sRstSync2 = false
  resting : s.sRstSync3 = true → C = [] ∧ P = [] ∧ n.seen1 = 0 ∧ n.seen2 = 0 ∧
    s.wrPtrUpdateValid = false ∧ s.wrPtrUpdate = false ∧ s.wrPtrUpdateAckSync1 = false ∧
    s.wrPtrUpdateAckSync2 = false

structure MInv (c : Config a u) (m : MReg α a) (n : Counts) : Prop where
  rdPtr : m.rdPtr = ptr a n.got
  rdPtrGray : m.rdPtrGray = code a n.got
  addr : m.mRstSync2 = false → m.rdAddr = m.rdPtr
  sent1 : m.wrPtrGraySync1 = code a n.sent1
  sent2 : m.wrPtrGraySync2 = code a n.sent2
  sent_le : n.sent2 ≤ n.sent1
  got_le : n.got ≤ n.visible c
  started : m.mRstSync1 = false
  running : m.mRstSync3 = false → m.mRstSync2 = false
  resting : m.mRstSync3 = true → n.got = 0 ∧ n.sent1 = 0 ∧ n.sent2 = 0 ∧
    m.wrPtrUpdateSync1 = false ∧ m.wrPtrUpdateSync2 = false ∧ m.wrPtrUpdateSync3 = false ∧
    m.memReadDataValid = false ∧ m.mAxisTvalid = false

/-- An update goes round through the six registers, one at a time. -/
def oneChange (u₀ u₁ u₂ u₃ a₁ a₂ : Bool) : Bool :=
  (u₀ ^^ u₁).toNat + (u₁ ^^ u₂).toNat + (u₂ ^^ u₃).toNat + (u₃ ^^ a₁).toNat + (a₁ ^^ a₂).toNat ≤ 1

/-- Words read from the memory and not yet handed over. -/
def waiting (m : MReg α a) : List α :=
  (if m.mAxisTvalid then [m.mAxis] else []) ++ (if m.memReadDataValid then [m.memReadData] else [])

structure Inv (c : Config a u) (r : Reg α a) (C P out : List α) (n : Counts) : Prop where
  s : SInv c r.s C P n
  m : MInv c r.m n
  seen_le : n.seen1 ≤ n.got
  sent_le : n.sent1 ≤ if c.frameFifo then n.sync else C.length
  chain : oneChange r.s.wrPtrUpdate r.m.wrPtrUpdateSync1 r.m.wrPtrUpdateSync2
    r.m.wrPtrUpdateSync3 r.s.wrPtrUpdateAckSync1 r.s.wrPtrUpdateAckSync2 = true
  synced : c.frameFifo = true → r.m.wrPtrUpdateSync3 = r.s.wrPtrUpdate → n.sent1 = n.sync
  mem : Ring.Holds r.s.mem (ptr a (C.length + P.length)) (ptr a n.got) (C.drop n.got ++ P)
  data : C.take n.got = out ++ waiting r.m

section S
variable {c : Config a u} {s : SReg α a} {i : SInput α u} {x : FromM a} {C P : List α} {n : Counts}

theorem full_iff (h : SInv c s C P n) : (if c.frameFifo then fullCur s else full s) = true ↔
    C.length + P.length = n.seen2 + 2 ^ a := by
  have hsame : (if c.frameFifo then fullCur s else full s) =
      Gray.opposite (wrGray c s) s.rdPtrGraySync2 := by
    simp only [fullCur, full, wrGray]
    split <;> rfl
  rw [hsame, h.wrGray_eq, h.seen2, opposite_code (c := c)]
  constructor
  · intro heq
    have hroom := h.room
    have hseen := h.seen_le
    have hstored := h.seen_stored
    have hturn := half_lt_turn a
    exact (ptr_inj heq.symm hroom (by omega)).symm
  · intro heq
    rw [heq]

theorem transfer_eq_false (hs : s.sRstSync3 = true) : transfer c s i = false := by
  simp [transfer, sAxisTready, hs]

theorem move_eq_keep (h : transfer c s i = false) : move c s i = .keep := by
  simp [move, h]

theorem lt_room (h : SInv c s C P n) (hm : move c s i = .store ∨ move c s i = .commit) :
    C.length + P.length < n.seen2 + 2 ^ a := by
  have hw : (writeComb c s i).write = true := by
    rw [write_eq]
    rcases hm with hm | hm <;> rw [hm]
  have hfull := room_of_write hw
  have hne : C.length + P.length ≠ n.seen2 + 2 ^ a := by
    intro heq
    rw [(full_iff h).mpr heq] at hfull
    simp at hfull
  have hle := h.room
  omega

/-- The position offered after a clock. -/
def syncNext (c : Config a u) (s : SReg α a) (i : SInput α u) (C P : List α) (n : Counts) : Nat :=
  if starts c s i then
    if s.wrPtrUpdateValid then C.length else ((move c s i).stored i.sAxis C P).length
  else n.sync

theorem length_stored_le (w : α) (C P : List α) (mv : Move) :
    C.length ≤ (mv.stored w C P).length := by
  cases mv <;> simp [Move.stored]

theorem length_stored (w : α) (C P : List α) : ((move c s i).stored w C P).length =
    if move c s i = .commit then C.length + P.length + 1 else C.length := by
  cases move c s i <;> simp [Move.stored, Nat.add_assoc]

theorem length_after (w : α) (C P : List α) (mv : Move) :
    (mv.stored w C P).length + (mv.part w P).length = match mv with
      | .keep => C.length + P.length
      | .store | .commit => C.length + P.length + 1
      | .drop => C.length := by
  cases mv <;> simp [Move.stored, Move.part, Nat.add_assoc]

theorem sInv_sEdge (h : SInv c s C P n) (hx : x.rdPtrGray = code a n.got) (hgot : n.seen1 ≤ n.got)
    (hle : n.got ≤ C.length) (hrst : x.mRstSync1 = false) :
    SInv c (sEdge c s i x) ((move c s i).stored i.sAxis C P) ((move c s i).part i.sAxis P)
      { n with sync := syncNext c s i C P n, seen1 := n.got, seen2 := n.seen1 } := by
  by_cases hr : s.sRstSync3 = true
  · obtain ⟨rfl, rfl, h1, h2, hv, hu, ha1, ha2⟩ := h.resting hr
    have hmove := move_eq_keep (transfer_eq_false (c := c) (i := i) hr)
    have hnw := wrNext_eq (c := c) (s := s) (i := i)
    have hgot0 : n.got = 0 := Nat.le_zero.mp hle
    have hsync0 : n.sync = 0 := Nat.le_zero.mp h.sync_le
    have hstarts : starts c s i = false := by simp [starts, hv, hmove]
    have hzero : code a 0 = 0#(a + 1) := by simp [code, ptr, Gray.encode]
    have hwr : wr c s = 0#(a + 1) := by simpa [ptr] using h.wr_eq
    have hstarted := h.started
    rw [hmove] at hnw ⊢
    simp only [Move.stored, Move.part, syncNext, hstarts]
    constructor <;> simp_all [sEdge, ptr, wr, wrGray]
  · rw [Bool.not_eq_true] at hr
    have hlen := length_stored (c := c) (s := s) (i := i) i.sAxis C P
    have hafter := length_after i.sAxis C P (move c s i)
    have hwr := wrNext_eq (c := c) (s := s) (i := i)
    have hgray := wrGrayNext_eq (c := c) (s := s) (i := i)
    constructor
    case wrPtr =>
      have hnext : (sEdge c s i x).wrPtr = (writeComb c s i).wrPtrNext := by simp [sEdge, hr]
      rw [hnext, wrPtrNext_eq, hlen, h.wr_eq, h.wrPtr, ptr_succ]
      split <;> rfl
    case wrPtrGray =>
      have hnext : (sEdge c s i x).wrPtrGray = (writeComb c s i).wrPtrGrayNext := by
        simp [sEdge, hr]
      rw [hnext, wrPtrGrayNext_eq, hlen, h.wr_eq, h.wrPtrGray, ptr_succ]
      split <;> rfl
    case wr_eq =>
      have hnext : wr c (sEdge c s i x) = if c.frameFifo then (writeComb c s i).wrPtrCurNext
          else (writeComb c s i).wrPtrNext := by simp [wr, sEdge, hr]
      rw [hnext, hwr, hafter, h.wr_eq, h.wrPtr, ptr_succ]
      cases move c s i <;> rfl
    case wrGray_eq =>
      have hnext : wrGray c (sEdge c s i x) = if c.frameFifo then (writeComb c s i).wrPtrCurGrayNext
          else (writeComb c s i).wrPtrGrayNext := by simp [wrGray, sEdge, hr]
      rw [hnext, hgray, hafter, h.wr_eq, h.wrPtr, h.wrGray_eq, ptr_succ]
      cases move c s i <;> rfl
    case no_part =>
      intro hf
      have hp := h.no_part hf
      have hmove : move c s i ≠ .store := by
        intro hm
        have hframe := frameFifo_of_move (.inl hm)
        simp [hf] at hframe
      cases hm : move c s i <;> simp_all [Move.part]
    case addr =>
      intro _
      simp [wr, sEdge, hr]
    case seen1 => simpa [sEdge, hr] using hx
    case seen2 => simpa [sEdge, hr] using h.seen1
    case seen_le => exact hgot
    case seen_stored => exact Nat.le_trans hle (length_stored_le _ _ _ _)
    case room =>
      have hroom := h.room
      have hseen := h.seen_le
      rw [hafter]
      cases hm : move c s i with
      | keep =>
        simp only
        omega
      | store | commit =>
        have hlt := lt_room (i := i) h (by simp [hm])
        simp only
        omega
      | drop =>
        simp only
        omega
    case sync =>
      have hnext : (sEdge c s i x).wrPtrSyncGray = (writeComb c s i).wrPtrSyncGrayNext := by
        simp [sEdge, hr]
      rw [hnext, wrPtrSyncGrayNext_eq]
      unfold syncNext
      by_cases hst : starts c s i = true
      · rw [if_pos hst, if_pos hst]
        by_cases hv : s.wrPtrUpdateValid = true
        · rw [if_pos hv, if_pos hv, h.wrPtrGray]
        · have hm : move c s i = .commit := by
            rw [Bool.not_eq_true] at hv
            simpa [starts, hv] using (Bool.and_eq_true_iff.mp hst).2
          rw [if_neg hv, if_neg hv, hlen, if_pos hm, h.wr_eq, ptr_succ]
          rfl
      · rw [if_neg hst, if_neg hst]
        exact h.sync
    case sync_le =>
      have hgrow := length_stored_le i.sAxis C P (move c s i)
      have hold := h.sync_le
      simp only [syncNext]
      split
      · split
        · exact hgrow
        · exact Nat.le_refl _
      · omega
    case sync_eq =>
      intro hf hv
      have hnext : (sEdge c s i x).wrPtrUpdateValid = (writeComb c s i).wrPtrUpdateValidNext := by
        simp [sEdge, hr]
      rw [hnext, wrPtrUpdateValidNext_eq hf] at hv
      have hold := h.sync_eq hf
      have hlast : move c s i ≠ .commit →
          ((move c s i).stored i.sAxis C P).length = C.length := by
        intro hm
        rw [hlen, if_neg hm]
      by_cases hu : s.wrPtrUpdate = s.wrPtrUpdateAckSync2 <;>
        by_cases hm : move c s i = .commit <;> cases hvalid : s.wrPtrUpdateValid <;>
        simp_all [syncNext, starts]
    case started => rfl
    case running =>
      intro _
      simp [sEdge, h.started, hrst]
    case resting =>
      intro h3
      have h2 : s.sRstSync2 = true := by simpa [sEdge] using h3
      simp [h.running hr] at h2

end S

/-! ## What an edge of m_clk does -/

/-- The words handed over in a clock. What is left from before a reset does not count. -/
def handed (m : MReg α a) (mAxisTready : Bool) : List α :=
  if m.mAxisTvalid && mAxisTready && !m.mRstSync3 then [m.mAxis] else []

section M
variable {c : Config a u} {m : MReg α a} {t : Bool} {y : FromS a} {word : α} {n : Counts}

theorem lt_visible (h : MInv c m n) (hr : read c m t = true) : n.got < n.visible c := by
  have hne : n.got ≠ n.visible c := by
    intro heq
    have hempty : empty c m = true := by
      simp only [empty, h.rdPtrGray, h.sent1, h.sent2, heq, Counts.visible]
      split <;> simp
    simp [read, hempty] at hr
  have hle := h.got_le
  omega

theorem waiting_mEdge (h : m.mRstSync3 = false) : handed m t ++ waiting (mEdge c m t y word) =
    waiting m ++ if read c m t then [word] else [] := by
  rcases Bool.eq_false_or_eq_true m.mAxisTvalid with hv | hv <;>
    rcases Bool.eq_false_or_eq_true m.memReadDataValid with hd | hd <;>
    rcases Bool.eq_false_or_eq_true (empty c m) with he | he <;> cases t <;>
    simp [handed, waiting, mEdge, read, wantsRead, storeOutput, h, hv, hd, he]

theorem mInv_mEdge (h : MInv c m n) (hr : m.mRstSync3 = false) (hy : y.sRstSync1 = false) {k : Nat}
    (hk : (mEdge c m t y word).wrPtrGraySync1 = code a k) (hle : n.sent1 ≤ k) :
    MInv c (mEdge c m t y word)
      { n with sent1 := k, sent2 := n.sent1, got := n.got + (read c m t).toNat } := by
  have hgot := h.got_le
  have hsent := h.sent_le
  constructor
  case rdPtr =>
    cases hread : read c m t <;> simp [mEdge, hr, rdPtrNext, hread, h.rdPtr, ptr_succ]
  case rdPtrGray =>
    cases hread : read c m t <;> simp [mEdge, hr, hread, h.rdPtr, h.rdPtrGray, ptr_succ, code]
  case addr =>
    intro _
    simp [mEdge, hr]
  case sent1 => exact hk
  case sent2 => simpa [mEdge, hr] using h.sent1
  case sent_le => exact hle
  case got_le =>
    cases hread : read c m t with
    | false =>
      simp only [Counts.visible] at hgot ⊢
      split at hgot <;> rename_i hf <;> simp [hf] <;> omega
    | true =>
      have hlt := lt_visible h hread
      simp only [Counts.visible] at hlt ⊢
      split at hlt <;> rename_i hf <;> simp [hf] <;> omega
  case started => rfl
  case running =>
    intro _
    simp [mEdge, h.started, hy]
  case resting =>
    intro h3
    have h2 : m.mRstSync2 = true := by simpa [mEdge] using h3
    simp [h.running hr] at h2

theorem mInv_reset (h : MInv c m n) (hr : m.mRstSync3 = true) (hy : y.sRstSync1 = false) :
    MInv c (mEdge c m t y word) n := by
  obtain ⟨h0, h1, h2, hu1, hu2, hu3, hv, ht⟩ := h.resting hr
  have hzero : code a 0 = 0#(a + 1) := by simp [code, ptr, Gray.encode]
  have hread : read c m t = false := by
    simp [read, empty, h.rdPtrGray, h.sent1, h.sent2, h0, h1, h2]
  have hptr := h.rdPtr
  have hstarted := h.started
  constructor <;> simp_all [mEdge, ptr, rdPtrNext]

end M

/-- What the read side may sample: what is sent, or was sent just before. -/
structure Fair (c : Config a u) (r : Reg α a) (C : List α) (old : Nat) (y : FromS a) : Prop where
  gray : c.frameFifo = false → ∃ k, old ≤ k ∧ k ≤ C.length ∧ y.wrPtrGray = code a k
  sync : r.m.wrPtrUpdateSync2 ≠ r.m.wrPtrUpdateSync3 → y.wrPtrSyncGray = r.s.wrPtrSyncGray
  update : y.wrPtrUpdate = r.s.wrPtrUpdate ∨ y.wrPtrUpdate = r.m.wrPtrUpdateSync1
  started : y.sRstSync1 = false

section Step
variable {c : Config a u} {r : Reg α a} {C P out : List α} {n : Counts}

theorem oneChange_m (u₀ u₁ u₂ u₃ a₁ a₂ v : Bool) (h : oneChange u₀ u₁ u₂ u₃ a₁ a₂ = true)
    (hv : v = u₀ ∨ v = u₁) : oneChange u₀ v u₁ u₂ a₁ a₂ = true := by
  revert u₀ u₁ u₂ u₃ a₁ a₂ v
  decide

/-- The positions after an edge of `m_clk`. -/
structure MNext (c : Config a u) (m : MReg α a) (t : Bool) (old : Nat) (n n' : Counts) : Prop where
  sync : n'.sync = n.sync
  seen1 : n'.seen1 = n.seen1
  got : n'.got = n.got + (read c m t).toNat
  reset : m.mRstSync3 = true → n' = n
  sent2 : m.mRstSync3 = false → n'.sent2 = n.sent1
  framed : m.mRstSync3 = false → c.frameFifo = true → n'.sent1 =
    if m.wrPtrUpdateSync2 = m.wrPtrUpdateSync3 then n.sent1 else n.sync
  plain : m.mRstSync3 = false → c.frameFifo = false → old ≤ n'.sent1

theorem read_eq_false {m : MReg α a} {t : Bool} (h : MInv c m n) (hr : m.mRstSync3 = true) :
    read c m t = false := by
  obtain ⟨h0, h1, h2, _⟩ := h.resting hr
  simp [read, empty, h.rdPtrGray, h.sent1, h.sent2, h0, h1, h2]

theorem inv_mEdge {y : FromS a} {t : Bool} {word : α} {old : Nat} (h : Inv c r C P out n)
    (hy : Fair c r C old y) (hold : c.frameFifo = false → n.sent1 ≤ old)
    (hword : read c r.m t = true → C[n.got]? = some word) :
    ∃ n', MNext c r.m t old n n' ∧
      Inv c { r with m := mEdge c r.m t y word } C P (out ++ handed r.m t) n' := by
  cases hr : r.m.mRstSync3 with
  | true =>
    obtain ⟨_, _, _, hu1, hu2, hu3, hv, ht⟩ := h.m.resting hr
    have hread := read_eq_false (t := t) h.m hr
    have hchain := h.chain
    have hsynced := h.synced
    have hdata := h.data
    refine ⟨n, ⟨rfl, rfl, by simp [hread], fun _ => rfl, by simp [hr], by simp [hr],
      by simp [hr]⟩, ?_⟩
    exact
      { s := h.s
        m := mInv_reset h.m hr hy.started
        seen_le := h.seen_le
        sent_le := h.sent_le
        chain := by simpa [mEdge, hr, hu1, hu2, hu3] using hchain
        synced := by simpa [mEdge, hr, hu3] using hsynced
        mem := h.mem
        data := by simpa [mEdge, hr, waiting, handed, hv, ht] using hdata }
  | false =>
    have hsent := h.sent_le
    obtain ⟨k, hk, hle, hbound, hframed, hplain⟩ : ∃ k,
        (mEdge c r.m t y word).wrPtrGraySync1 = code a k ∧ n.sent1 ≤ k ∧
        (k ≤ if c.frameFifo then n.sync else C.length) ∧
        (c.frameFifo = true → k =
          if r.m.wrPtrUpdateSync2 = r.m.wrPtrUpdateSync3 then n.sent1 else n.sync) ∧
        (c.frameFifo = false → old ≤ k) := by
      cases hf : c.frameFifo with
      | false =>
        obtain ⟨k, hk1, hk2, hk⟩ := hy.gray hf
        exact ⟨k, by simpa [mEdge, hr, hf] using hk, Nat.le_trans (hold hf) hk1, by simpa using hk2,
          by simp, fun _ => hk1⟩
      | true =>
        rw [hf, if_pos rfl] at hsent
        by_cases hu : r.m.wrPtrUpdateSync2 = r.m.wrPtrUpdateSync3
        · refine ⟨n.sent1, ?_, Nat.le_refl _, by simpa using hsent, by simp [hu], by simp⟩
          simpa [mEdge, hr, hf, hu] using h.m.sent1
        · refine ⟨n.sync, ?_, hsent, by simp, by simp [hu], by simp⟩
          have hne : (r.m.wrPtrUpdateSync2 ^^ r.m.wrPtrUpdateSync3) = true := by simpa using hu
          simpa [mEdge, hr, hf, hne] using (hy.sync hu).trans h.s.sync
    refine ⟨{ n with sent1 := k, sent2 := n.sent1, got := n.got + (read c r.m t).toNat },
      ⟨rfl, rfl, rfl, by simp [hr], fun _ => rfl, fun _ => hframed, fun _ => hplain⟩, ?_⟩
    constructor
    case s => exact { h.s with }
    case m => exact mInv_mEdge h.m hr hy.started hk hle
    case seen_le => exact Nat.le_trans h.seen_le (Nat.le_add_right _ _)
    case sent_le => exact hbound
    case chain =>
      have hshift := oneChange_m _ _ _ _ _ _ _ h.chain hy.update
      simpa [mEdge, hr] using hshift
    case synced =>
      intro hf hu
      have hus : r.m.wrPtrUpdateSync2 = r.s.wrPtrUpdate := by simpa [mEdge, hr] using hu
      have hkept := h.synced hf
      rw [hframed hf]
      split <;> rename_i hu2
      · exact hkept (hu2 ▸ hus)
      · rfl
    case mem =>
      cases hread : read c r.m t with
      | false => simpa using h.mem
      | true =>
        have hdrop : C.drop n.got = C[n.got]?.toList ++ C.drop (n.got + 1) :=
          List.drop_eq_getElem?_toList_append
        rw [hword hread] at hdrop
        have hmem := h.mem
        rw [hdrop] at hmem
        obtain ⟨_, hpop⟩ := Ring.pop hmem
        simpa [ptr_succ] using hpop
    case data =>
      have hwait : handed r.m t ++ waiting (mEdge c r.m t y word) =
          waiting r.m ++ if read c r.m t then [word] else [] := waiting_mEdge hr
      rw [List.append_assoc, hwait, ← List.append_assoc, ← h.data]
      cases hread : read c r.m t with
      | false => simp
      | true => simp [List.take_add_one, hword hread]

theorem oneChange_s (u₀ u₁ u₂ u₃ a₁ a₂ v : Bool) (h : oneChange u₀ u₁ u₂ u₃ a₁ a₂ = true)
    (hv : v = u₀ ∨ (u₀ = a₂ ∧ v = !a₂)) : oneChange v u₁ u₂ u₃ u₃ a₁ = true := by
  revert u₀ u₁ u₂ u₃ a₁ a₂ v
  decide

/-- An update that has come back has passed everywhere. -/
theorem oneChange_back (u₀ u₁ u₂ u₃ a₁ a₂ : Bool) (h : oneChange u₀ u₁ u₂ u₃ a₁ a₂ = true)
    (hu : u₀ = a₂) : u₁ = a₂ ∧ u₂ = a₂ ∧ u₃ = a₂ ∧ a₁ = a₂ := by
  revert u₀ u₁ u₂ u₃ a₁ a₂
  decide

theorem got_le_stored (h : Inv c r C P out n) : n.got ≤ C.length := by
  have hgot := h.m.got_le
  have hsent := h.sent_le
  have hle := h.m.sent_le
  have hsync := h.s.sync_le
  simp only [Counts.visible] at hgot
  split at hgot <;> rename_i hf <;> simp [hf] at hsent <;> omega

theorem take_stored (w : α) (C P : List α) {k : Nat} (hk : k ≤ C.length) (mv : Move) :
    (mv.stored w C P).take k = C.take k := by
  cases mv <;> simp [Move.stored, List.take_append_of_le_length hk]

/-- The memory after the write of this clock. -/
theorem holds_written (h : Inv c r C P out n) (i : SInput α u) (x : FromM a) :
    Ring.Holds (sEdge c r.s i x).mem
      (ptr a (C.length + P.length + ((writeComb c r.s i).write).toNat)) (ptr a n.got)
      (C.drop n.got ++ P ++ if (writeComb c r.s i).write then [i.sAxis] else []) := by
  cases hw : (writeComb c r.s i).write with
  | false => simpa [sEdge, hw] using h.mem
  | true =>
    have hfull := room_of_write hw
    have hne : C.length + P.length ≠ n.seen2 + 2 ^ a := by
      intro heq
      rw [(full_iff h.s).mpr heq] at hfull
      simp at hfull
    have hroom := h.s.room
    have hseen := h.s.seen_le
    have hgot := h.seen_le
    have hstored := got_le_stored h
    have haddr : r.s.wrAddr = ptr a (C.length + P.length) := by
      have hr : r.s.sRstSync3 = false := by
        rw [← Bool.not_eq_true]
        intro hr
        rw [write_eq, move_eq_keep (transfer_eq_false hr)] at hw
        simp at hw
      rw [h.s.addr (h.s.running hr), h.s.wr_eq]
    have hlt : (C.drop n.got ++ P).length < 2 ^ a := by
      rw [List.length_append, List.length_drop]
      omega
    have hpush := Ring.push h.mem i.sAxis hlt
    simpa [sEdge, hw, haddr, ptr_succ] using hpush

theorem holds_sEdge (h : Inv c r C P out n) (i : SInput α u) (x : FromM a) :
    Ring.Holds (sEdge c r.s i x).mem
      (ptr a (((move c r.s i).stored i.sAxis C P).length + ((move c r.s i).part i.sAxis P).length))
      (ptr a n.got) (((move c r.s i).stored i.sAxis C P).drop n.got ++
        (move c r.s i).part i.sAxis P) := by
  have hw := holds_written h i x
  have hgot := got_le_stored h
  rw [length_after]
  rw [write_eq] at hw
  cases hm : move c r.s i with
  | keep => simpa [hm, Move.stored, Move.part] using hw
  | store => simpa [hm, Move.stored, Move.part] using hw
  | commit =>
    rw [hm] at hw
    simpa [Move.stored, Move.part, List.drop_append_of_le_length hgot] using hw
  | drop =>
    rw [hm, List.append_assoc] at hw
    have hback := Ring.rollback hw
    have hptr : ptr a n.got + BitVec.ofNat (a + 1) (C.drop n.got).length = ptr a C.length := by
      rw [ptr, ← BitVec.ofNat_add, List.length_drop, Nat.add_sub_cancel' hgot]
      rfl
    rw [hptr] at hback
    simpa [Move.stored, Move.part] using hback

theorem wrPtrUpdate_sEdge (h : Inv c r C P out n) (i : SInput α u) (x : FromM a) :
    (sEdge c r.s i x).wrPtrUpdate =
      if starts c r.s i then !r.s.wrPtrUpdateAckSync2 else r.s.wrPtrUpdate := by
  cases hr : r.s.sRstSync3 with
  | false =>
    have hnext : (sEdge c r.s i x).wrPtrUpdate = (writeComb c r.s i).wrPtrUpdateNext := by
      simp [sEdge, hr]
    rw [hnext, wrPtrUpdateNext_eq]
  | true =>
    obtain ⟨_, _, _, _, hv, hu, _, _⟩ := h.s.resting hr
    have hmove := move_eq_keep (transfer_eq_false (c := c) (i := i) hr)
    simp [sEdge, hr, starts, hv, hmove, hu]

theorem starts_back {i : SInput α u} (hst : starts c r.s i = true) :
    r.s.wrPtrUpdate = r.s.wrPtrUpdateAckSync2 := by
  have hback := (Bool.and_eq_true_iff.mp (Bool.and_eq_true_iff.mp hst).1).2
  simpa using hback

theorem inv_sEdge (h : Inv c r C P out n) (i : SInput α u) :
    Inv c { r with s := sEdge c r.s i r.m.out } ((move c r.s i).stored i.sAxis C P)
      ((move c r.s i).part i.sAxis P) out
      { n with sync := syncNext c r.s i C P n, seen1 := n.got, seen2 := n.seen1 } := by
  have hgot := got_le_stored h
  have hupd := wrPtrUpdate_sEdge h i r.m.out
  constructor
  case s => exact sInv_sEdge h.s h.m.rdPtrGray h.seen_le hgot h.m.started
  case m => exact { h.m with }
  case seen_le => exact Nat.le_refl _
  case sent_le =>
    have hsent := h.sent_le
    have hgrow := length_stored_le i.sAxis C P (move c r.s i)
    have hsync := h.s.sync_le
    simp only [syncNext]
    split <;> rename_i hf
    · rw [if_pos hf] at hsent
      split
      · split <;> omega
      · exact hsent
    · rw [if_neg hf] at hsent
      omega
  case chain =>
    cases hr : r.s.sRstSync3 with
    | false =>
      have hshift := oneChange_s _ _ _ _ _ _ (sEdge c r.s i r.m.out).wrPtrUpdate h.chain (by
        rw [hupd]
        split
        · rename_i hst
          exact .inr ⟨starts_back hst, rfl⟩
        · exact .inl rfl)
      simpa [sEdge, hr, MReg.out] using hshift
    | true =>
      obtain ⟨_, _, _, _, _, hu, ha1, ha2⟩ := h.s.resting hr
      simpa [sEdge, hr, hu, ha1, ha2] using h.chain
  case synced =>
    intro hf hu
    rw [hupd] at hu
    simp only [syncNext]
    by_cases hst : starts c r.s i = true
    · obtain ⟨_, _, h3, _⟩ := oneChange_back _ _ _ _ _ _ h.chain (starts_back hst)
      rw [if_pos hst, h3] at hu
      simp at hu
    · rw [if_neg hst] at hu ⊢
      exact h.synced hf hu
  case mem => exact holds_sEdge h i r.m.out
  case data => rw [take_stored _ _ _ hgot, h.data]

/-- The words handed over so far are those read and not waiting. -/
theorem length_out (h : Inv c r C P out n) : out.length + (waiting r.m).length = n.got := by
  have hdata := congrArg List.length h.data
  rw [List.length_take, List.length_append, Nat.min_eq_left (got_le_stored h)] at hdata
  exact hdata.symm

theorem visible_le (h : Inv c r C P out n) : n.visible c ≤ C.length := by
  have hsent := h.sent_le
  have hle := h.m.sent_le
  have hsync := h.s.sync_le
  simp only [Counts.visible]
  split <;> rename_i hf <;> simp [hf] at hsent <;> omega

theorem empty_eq_false (h : Inv c r C P out n) (hlt : n.got < n.visible c) :
    empty c r.m = false := by
  have hle := visible_le h
  have hroom := h.s.room
  have hseen := h.s.seen_le
  have hgot := h.seen_le
  have hturn := half_lt_turn a
  have hside : (if c.frameFifo then r.m.wrPtrGraySync1 else r.m.wrPtrGraySync2) =
      code a (n.visible c) := by
    rw [Counts.visible, h.m.sent1, h.m.sent2]
    split <;> rfl
  rw [empty, hside, h.m.rdPtrGray, beq_eq_false_iff_ne]
  intro heq
  have hsame := ptr_inj (Gray.encode_injective heq).symm (Nat.le_of_lt hlt) (by omega)
  omega

/-! ## Edges that fall together -/

theorem oneChange_resample (u₀ u₁ u₂ u₃ a₁ a₂ : Bool) (h : oneChange u₀ u₁ u₂ u₃ a₁ a₂ = true) :
    oneChange u₀ u₁ u₂ u₃ u₃ a₂ = true := by
  revert u₀ u₁ u₂ u₃ a₁ a₂
  decide

/-- The write side may have caught the read side after its edge, as well as before it. -/
theorem inv_resample {s : SReg α a} {m : MReg α a} {i : SInput α u} {x x' : FromM a} {k : Nat}
    (h : Inv c ⟨sEdge c s i x, m⟩ C P out n) (hs : s.sRstSync3 = false → s.sRstSync2 = false)
    (hx : x.mRstSync1 = false) (hx' : x'.mRstSync1 = false) (hk : x'.rdPtrGray = code a k)
    (hseen : n.seen1 ≤ k) (hgot : k ≤ n.got)
    (hu : x'.wrPtrUpdateSync3 = x.wrPtrUpdateSync3 ∨ x'.wrPtrUpdateSync3 = m.wrPtrUpdateSync3) :
    ∃ k', Inv c ⟨sEdge c s i x', m⟩ C P out { n with seen1 := k' } := by
  cases hr : s.sRstSync3 with
  | true =>
    have hsame : sEdge c s i x' = sEdge c s i x := by simp [sEdge, hr, hx, hx']
    rw [hsame]
    exact ⟨n.seen1, h⟩
  | false =>
    have hle := got_le_stored h
    have hrun : (sEdge c s i x').sRstSync3 = false := by simpa [sEdge] using hs hr
    refine ⟨k, ?_⟩
    constructor
    case s =>
      exact
        { h.s with
          wr_eq := h.s.wr_eq
          wrGray_eq := h.s.wrGray_eq
          addr := fun _ => by simp [wr, sEdge, hr]
          seen1 := by simpa [sEdge, hr] using hk
          seen_le := Nat.le_trans h.s.seen_le hseen
          seen_stored := Nat.le_trans hgot hle
          running := fun _ => by simpa [sEdge, hx, hx'] using h.s.running hrun
          resting := fun h3 => by simp [hrun] at h3 }
    case m => exact { h.m with }
    case seen_le => exact hgot
    case sent_le => exact h.sent_le
    case chain =>
      have hchain := h.chain
      rcases hu with hu | hu
      · simpa [sEdge, hr, hu] using hchain
      · have hnew := oneChange_resample _ _ _ _ _ _ hchain
        simpa [sEdge, hr, hu] using hnew
    case synced => exact h.synced
    case mem => exact h.mem
    case data => exact h.data

theorem getElem?_of_read (h : Inv c r C P out n) {t : Bool} (hread : read c r.m t = true) :
    C[n.got]? = some (r.s.mem (Ring.low r.m.rdAddr)) := by
  have hvis := lt_visible h.m hread
  have hsent := h.sent_le
  have hsync := h.s.sync_le
  have hle := h.m.sent_le
  have hlt : n.got < C.length := by
    simp only [Counts.visible] at hvis
    split at hvis <;> rename_i hf <;> simp [hf] at hsent <;> omega
  have hrun : r.m.mRstSync3 = false := by
    rw [← Bool.not_eq_true]
    intro hr
    obtain ⟨h0, h1, h2, _⟩ := h.m.resting hr
    simp [Counts.visible, h0, h1, h2] at hvis
  have hmem := h.mem
  rw [List.drop_eq_getElem_cons hlt] at hmem
  obtain ⟨hword, _⟩ := Ring.pop hmem
  rw [List.getElem?_eq_getElem hlt, h.m.addr (h.m.running hrun), h.m.rdPtr, hword]

/-- The word read is not the one written. -/
theorem low_ne (h : Inv c r C P out n) {i : SInput α u} {t : Bool} (hread : read c r.m t = true)
    (hw : (writeComb c r.s i).write = true) : Ring.low r.s.wrAddr ≠ Ring.low r.m.rdAddr := by
  have hword := getElem?_of_read h hread
  have hlt : n.got < C.length := (List.getElem?_eq_some_iff.mp hword).1
  have hfull := room_of_write hw
  have hne : C.length + P.length ≠ n.seen2 + 2 ^ a := by
    intro heq
    rw [(full_iff h.s).mpr heq] at hfull
    simp at hfull
  have hroom := h.s.room
  have hseen := h.s.seen_le
  have hgot := h.seen_le
  have hs : r.s.sRstSync3 = false := by
    rw [← Bool.not_eq_true]
    intro hr
    obtain ⟨rfl, _⟩ := h.s.resting hr
    simp at hlt
  have hm : r.m.mRstSync3 = false := by
    rw [← Bool.not_eq_true]
    intro hr
    obtain ⟨h0, h1, h2, _⟩ := h.m.resting hr
    have hvis := lt_visible h.m hread
    simp [Counts.visible, h0, h1, h2] at hvis
  rw [h.s.addr (h.s.running hs), h.s.wr_eq, h.m.addr (h.m.running hm), h.m.rdPtr]
  have hadd : ptr a (C.length + P.length) =
      ptr a n.got + BitVec.ofNat (a + 1) (C.length + P.length - n.got) := by
    rw [ptr, ptr, ← BitVec.ofNat_add, Nat.add_sub_cancel' (by omega)]
  have hapart : Ring.low (ptr a n.got + BitVec.ofNat (a + 1) 0) ≠
      Ring.low (ptr a n.got + BitVec.ofNat (a + 1) (C.length + P.length - n.got)) :=
    Ring.low_ne (by omega) (by omega)
  rw [hadd]
  simpa using hapart.symm

theorem fair_old (h : Inv c r C P out n) : Fair c r C C.length r.s.out :=
  ⟨fun _ => ⟨C.length, Nat.le_refl _, Nat.le_refl _, h.s.wrPtrGray⟩, fun _ => rfl, .inl rfl,
    h.s.started⟩

theorem sent_le_stored (h : Inv c r C P out n) (hf : c.frameFifo = false) :
    n.sent1 ≤ C.length := by
  have hsent := h.sent_le
  rwa [hf, if_neg Bool.false_ne_true] at hsent

/-- A sample of the write side taken during its edge. -/
theorem fair_mix (h : Inv c r C P out n) (i : SInput α u) (sel : FromS a) :
    Fair c { r with s := sEdge c r.s i r.m.out } ((move c r.s i).stored i.sAxis C P) C.length
      (FromS.mix sel r.s.out (sEdge c r.s i r.m.out).out) := by
  have hnext := inv_sEdge h i
  have hupd := wrPtrUpdate_sEdge h i r.m.out
  constructor
  case gray =>
    intro hf
    have hp := h.s.no_part hf
    have hgrow := length_stored_le i.sAxis C P (move c r.s i)
    have hlen := length_stored (c := c) (s := r.s) (i := i) i.sAxis C P
    have hone : ((move c r.s i).stored i.sAxis C P).length ≤ C.length + 1 := by
      rw [hlen, hp]
      split <;> simp
    obtain ⟨k, hk1, hk2, hk⟩ := Gray.mix_encode (w := a + 1) sel.wrPtrGray hgrow hone
    refine ⟨k, hk1, hk2, ?_⟩
    have hold := h.s.wrPtrGray
    have hnew : (sEdge c r.s i r.m.out).wrPtrGray =
        code a ((move c r.s i).stored i.sAxis C P).length := hnext.s.wrPtrGray
    simp only [FromS.mix, SReg.out, hold, hnew]
    exact hk
  case sync =>
    intro hu
    have hst : starts c r.s i = false := by
      rw [← Bool.not_eq_true]
      intro hst
      obtain ⟨_, h2, h3, _⟩ := oneChange_back _ _ _ _ _ _ h.chain (starts_back hst)
      exact hu (h2.trans h3.symm)
    have hsame : (sEdge c r.s i r.m.out).wrPtrSyncGray = r.s.wrPtrSyncGray := by
      rw [hnext.s.sync, h.s.sync, syncNext, hst]
      rfl
    simp only [FromS.mix, SReg.out, hsame, Gray.mix_self]
  case update =>
    simp only [FromS.mix, SReg.out, pick]
    split
    · exact .inl rfl
    · by_cases hst : starts c r.s i = true
      · obtain ⟨h1, _⟩ := oneChange_back _ _ _ _ _ _ h.chain (starts_back hst)
        exact .inr ((starts_back hst).trans h1.symm)
      · rw [hupd, if_neg hst]
        exact .inl rfl
  case started => simp [FromS.mix, SReg.out, pick, sEdge, h.s.started]

/-- The read side after edges that fall together. -/
def mBoth (c : Config a u) (r : Reg α a) (i : SInput α u) (t : Bool) (k : Skew α a) : MReg α a :=
  mEdge c r.m t (FromS.mix k.toM r.s.out (sEdge c r.s i r.m.out).out) (readWord c r i k.collision)

/-- First the write side ticks, then the read side; last, the write side's sample is corrected. -/
theorem inv_both (h : Inv c r C P out n) (i : SInput α u) (t : Bool) (k : Skew α a) :
    ∃ n' p, MNext c r.m t C.length
        { n with sync := syncNext c r.s i C P n, seen1 := n.got, seen2 := n.seen1 } n' ∧
      Inv c ⟨sEdge c r.s i r.m.out, mBoth c r i t k⟩ ((move c r.s i).stored i.sAxis C P)
        ((move c r.s i).part i.sAxis P) (out ++ handed r.m t) n' ∧
      Inv c (step c r (.both i t k)) ((move c r.s i).stored i.sAxis C P)
        ((move c r.s i).part i.sAxis P) (out ++ handed r.m t) { n' with seen1 := p } := by
  have hfirst := inv_sEdge h i
  have hword : read c r.m t = true →
      ((move c r.s i).stored i.sAxis C P)[n.got]? = some (readWord c r i k.collision) := by
    intro hread
    have hold := getElem?_of_read h hread
    have hlt : n.got < C.length := (List.getElem?_eq_some_iff.mp hold).1
    have hsame : ((move c r.s i).stored i.sAxis C P)[n.got]? = C[n.got]? := by
      have htake := take_stored i.sAxis C P (k := n.got + 1) hlt (move c r.s i)
      have hget := congrArg (fun l => l[n.got]?) htake
      simpa using hget
    rw [hsame, hold, readWord, if_neg]
    rw [Bool.and_eq_true, beq_iff_eq]
    rintro ⟨hw, heq⟩
    exact low_ne h hread hw heq
  have hsent : c.frameFifo = false → n.sent1 ≤ C.length := sent_le_stored h
  obtain ⟨n', hnext, hsecond⟩ := inv_mEdge hfirst (fair_mix h i k.toM) hsent hword
  have hge : n.got ≤ n'.got := by
    rw [hnext.got]
    exact Nat.le_add_right _ _
  have hle : n'.got ≤ n.got + 1 := by
    have hone := Bool.toNat_le (read c r.m t)
    rw [hnext.got]
    simp only
    omega
  obtain ⟨p, hp1, hp2, hp⟩ := Gray.mix_encode (w := a + 1) k.toS.rdPtrGray hge hle
  -- what the write side samples of the read side
  generalize hx : FromM.mix k.toS r.m.out (mEdge c r.m t r.s.out k.collision).out = x
  have hgray : x.rdPtrGray = code a p := by
    have hnew := hsecond.m.rdPtrGray
    have hold := h.m.rdPtrGray
    simp only [← hx, FromM.mix, MReg.out]
    rw [hold]
    exact (congrArg _ hnew).trans hp
  have hrst : x.mRstSync1 = false := by
    simp [← hx, FromM.mix, MReg.out, pick, mEdge, h.m.started]
  have hack : x.wrPtrUpdateSync3 = r.m.wrPtrUpdateSync3 ∨
      x.wrPtrUpdateSync3 = (mEdge c r.m t r.s.out k.collision).wrPtrUpdateSync3 := by
    simp only [← hx, FromM.mix, MReg.out, pick]
    split
    · exact .inr rfl
    · exact .inl rfl
  obtain ⟨q, hq⟩ := inv_resample hsecond h.s.running h.m.started hrst hgray
    (Nat.le_trans (Nat.le_of_eq hnext.seen1) hp1) hp2 hack
  refine ⟨n', q, hnext, hsecond, ?_⟩
  rw [step, hx]
  exact hq

end Step

end AdcCapture.AxisAsyncFifo
