import AdcCapture.AsyncPointers

/-!
# Frames through axis_async_fifo

A frame is passed on whole or not at all: dropped are the frames marked as bad
and those that do not fit into the memory. A reset starts from any register
contents.
-/

namespace AdcCapture.AxisAsyncFifo

open Clocked
set_option autoImplicit false

variable {α : Type} {a u : Nat}

namespace Event

def sInput : Event α a u → Option (SInput α u)
  | .s i | .both i _ _ => some i
  | .m _ => none

def mAxisTready : Event α a u → Option Bool
  | .m t | .both _ t _ => some t
  | .s _ => none

end Event

/-- A word taken in, with what the write side looks at. -/
structure Beat (α : Type) where
  word : α
  last : Bool
  bad : Bool

def takes (c : Config a u) (s : SReg α a) (i : SInput α u) : List (Beat α) :=
  if transfer c s i then [⟨i.sAxis, i.sAxisTlast, badFrame c i⟩] else []

def accepted (c : Config a u) (r : Reg α a) (e : Event α a u) : List (Beat α) :=
  match e.sInput with
  | some i => takes c r.s i
  | none => []

def delivered (r : Reg α a) (e : Event α a u) : List α :=
  match e.mAxisTready with
  | some t => handed r.m t
  | none => []

def cutFrames (bs : List (Beat α)) : Packets (Beat α) := Packets.cut Beat.last bs

def intact (a : Nat) (f : List (Beat α)) : Bool :=
  decide (f.length ≤ 2 ^ a) && !f.getLast?.any Beat.bad

/-- What the words taken in become. -/
def passed (c : Config a u) (bs : List (Beat α)) : List α :=
  if c.frameFifo then
    ((cutFrames bs).closed.filter (intact a)).flatMap (List.map Beat.word)
  else bs.map Beat.word

/-! ## The write side -/

/-- What the write side keeps of the words taken in. -/
structure Kept (c : Config a u) (s : SReg α a) (bs : List (Beat α)) (C P : List α) : Prop where
  stored : C = passed c bs
  part : c.frameFifo = true → P = ((cutFrames bs).rest.take (2 ^ a)).map Beat.word
  dropping : c.frameFifo = true → s.dropFrame = true → 2 ^ a < (cutFrames bs).rest.length

section Kept
variable {c : Config a u} {s : SReg α a} {i : SInput α u} {C P : List α} {n : Counts}
  {bs : List (Beat α)}

theorem fullWr_iff (hf : c.frameFifo = true) (h : SInv c s C P n) :
    fullWr s = true ↔ P.length = 2 ^ a := by
  have hcur : s.wrPtrCur = ptr a (C.length + P.length) := by
    have hwr := h.wr_eq
    rwa [wr, if_pos hf] at hwr
  have hroom := h.room
  have hseen := h.seen_le
  have hstored := h.seen_stored
  have hturn : 2 ^ (a + 1) = 2 ^ a + 2 ^ a := by omega
  have hpos : 0 < 2 ^ a := Nat.two_pow_pos a
  have hround : ptr a (C.length + 2 ^ (a + 1)) = ptr a C.length := by
    apply BitVec.eq_of_toNat_eq
    simp [ptr]
  rw [fullWr, Gray.wrapped_iff, h.wrPtr, hcur, ← hround]
  have hsum : ptr a (C.length + P.length) + BitVec.ofNat (a + 1) (2 ^ a) =
      ptr a (C.length + P.length + 2 ^ a) := (BitVec.ofNat_add _ _).symm
  rw [hsum]
  constructor
  · intro heq
    have hsame := ptr_inj heq (by omega) (by omega)
    omega
  · intro hlen
    rw [hlen, hturn, Nat.add_assoc]

/-- What becomes of a word, read off the open frame. -/
theorem move_frame (hf : c.frameFifo = true) (hd : c.dropWhenFull = false) (h : SInv c s C P n)
    (hk : Kept c s bs C P) (ht : transfer c s i = true) : move c s i =
    if (cutFrames bs).rest.length < 2 ^ a then
      if i.sAxisTlast then (if badFrame c i then .drop else .commit) else .store
    else if i.sAxisTlast then .drop else .keep := by
  have hpart := hk.part hf
  have hlen : P.length = min (2 ^ a) (cutFrames bs).rest.length := by
    rw [hpart, List.length_map, List.length_take]
  have hwr := fullWr_iff hf h
  by_cases hlt : (cutFrames bs).rest.length < 2 ^ a
  · have hnot : fullWr s = false := by
      rw [← Bool.not_eq_true, hwr, hlen]
      omega
    have hcur : fullCur s = false := by
      simp only [transfer, sAxisTready, hf, hd, hnot] at ht
      simp at ht
      exact ht.1.1
    have hdrop : s.dropFrame = false := by
      rw [← Bool.not_eq_true]
      intro hdrop
      have hlong := hk.dropping hf hdrop
      omega
    simp [move, ht, hf, hnot, hcur, hdrop, hlt]
  · have hfull : fullWr s = true := by
      rw [hwr, hlen]
      omega
    simp [move, ht, hf, hfull, hlt]

theorem passed_snoc (hf : c.frameFifo = true) (bs : List (Beat α)) (b : Beat α) :
    passed c (bs ++ [b]) = passed c bs ++
      if b.last && (decide ((cutFrames bs).rest.length < 2 ^ a) && !b.bad) then
        (cutFrames bs).rest.map Beat.word ++ [b.word] else [] := by
  rw [passed, passed, if_pos hf, if_pos hf, cutFrames, Packets.cut_snoc, Packets.push]
  cases hl : b.last with
  | false => simp [cutFrames]
  | true =>
    have hint : intact a ((cutFrames bs).rest ++ [b]) =
        (decide ((cutFrames bs).rest.length < 2 ^ a) && !b.bad) := by
      simp only [intact, List.length_append, List.length_singleton, List.getLast?_concat]
      rfl
    rw [cutFrames] at hint ⊢
    rw [if_pos rfl, List.filter_append, List.flatMap_append]
    cases hi : intact a ((Packets.cut Beat.last bs).rest ++ [b]) <;> rw [hi] at hint <;>
      simp [hi, ← hint]

theorem rest_snoc (bs : List (Beat α)) (b : Beat α) : (cutFrames (bs ++ [b])).rest =
    if b.last then [] else (cutFrames bs).rest ++ [b] := by
  rw [cutFrames, Packets.cut_snoc, Packets.push]
  split <;> rfl

theorem dropFrame_sEdge {x : FromM a} (h : (sEdge c s i x).dropFrame = true) :
    transfer c s i = true ∧ c.frameFifo = true ∧ i.sAxisTlast = false ∧ move c s i = .keep := by
  have hnext : (writeComb c s i).dropFrameNext = true := by
    cases hr : s.sRstSync3 <;> simp [sEdge, hr] at h
    exact h
  simp only [writeComb, move, flagged, writeDefaults] at hnext ⊢
  grind

theorem kept_sEdge (hd : c.dropWhenFull = false) (h : SInv c s C P n) (hk : Kept c s bs C P)
    (x : FromM a) : Kept c (sEdge c s i x) (bs ++ takes c s i) ((move c s i).stored i.sAxis C P)
      ((move c s i).part i.sAxis P) := by
  cases ht : transfer c s i with
  | false =>
    rw [move_eq_keep ht, takes, ht]
    refine ⟨by simpa [Move.stored] using hk.stored, by simpa [Move.part] using hk.part, ?_⟩
    intro _ hdf
    have hmoved := (dropFrame_sEdge hdf).1
    simp [ht] at hmoved
  | true =>
    have htakes : takes c s i = [⟨i.sAxis, i.sAxisTlast, badFrame c i⟩] := by simp [takes, ht]
    have hstored := hk.stored
    rw [htakes]
    cases hf : c.frameFifo with
    | false =>
      have hmove : move c s i = .commit := by simp [move, ht, hf]
      rw [hmove]
      refine ⟨?_, by simp [hf], by simp [hf]⟩
      simp [Move.stored, hstored, h.no_part hf, passed, hf]
    | true =>
      have hmove := move_frame hf hd h hk ht
      have hpart := hk.part hf
      constructor
      case stored =>
        rw [passed_snoc hf, hmove, ← hstored]
        by_cases hlt : (cutFrames bs).rest.length < 2 ^ a
        · rw [List.take_of_length_le (Nat.le_of_lt hlt)] at hpart
          cases i.sAxisTlast <;> cases badFrame c i <;> simp [hlt, Move.stored, hpart]
        · cases i.sAxisTlast <;> simp [hlt, Move.stored]
      case part =>
        intro _
        rw [rest_snoc, hmove, hpart]
        by_cases hlt : (cutFrames bs).rest.length < 2 ^ a
        · have htake : ∀ b : Beat α, ((cutFrames bs).rest ++ [b]).take (2 ^ a) =
              (cutFrames bs).rest.take (2 ^ a) ++ [b] := by
            intro b
            have hle : ((cutFrames bs).rest ++ [b]).length ≤ 2 ^ a := by
              rw [List.length_append]
              exact Nat.succ_le_of_lt hlt
            rw [List.take_of_length_le hle, List.take_of_length_le (Nat.le_of_lt hlt)]
          cases i.sAxisTlast <;> cases badFrame c i <;> simp [hlt, Move.part, htake, -List.map_take]
        · have htake : ∀ b : Beat α, ((cutFrames bs).rest ++ [b]).take (2 ^ a) =
              (cutFrames bs).rest.take (2 ^ a) := by
            intro b
            exact List.take_append_of_le_length (Nat.le_of_not_lt hlt)
          cases i.sAxisTlast <;> simp [hlt, Move.part, htake, -List.map_take]
      case dropping =>
        intro _ hdf
        obtain ⟨_, _, hlast, hkeep⟩ := dropFrame_sEdge hdf
        have hge : ¬ (cutFrames bs).rest.length < 2 ^ a := by
          intro hlt
          rw [hmove, if_pos hlt, hlast] at hkeep
          simp at hkeep
        rw [rest_snoc, hlast, if_neg Bool.false_ne_true, List.length_append, List.length_singleton]
        omega

end Kept

/-! ## Reset -/

/-- What an edge of `s_clk` in reset leaves. -/
structure SClear (s : SReg α a) : Prop where
  wrPtr : s.wrPtr = 0#(a + 1)
  wrPtrCur : s.wrPtrCur = 0#(a + 1)
  wrPtrGray : s.wrPtrGray = 0#(a + 1)
  wrPtrSyncGray : s.wrPtrSyncGray = 0#(a + 1)
  wrPtrCurGray : s.wrPtrCurGray = 0#(a + 1)
  rdPtrGraySync1 : s.rdPtrGraySync1 = 0#(a + 1)
  rdPtrGraySync2 : s.rdPtrGraySync2 = 0#(a + 1)
  wrPtrUpdateValid : s.wrPtrUpdateValid = false
  wrPtrUpdate : s.wrPtrUpdate = false
  wrPtrUpdateAckSync1 : s.wrPtrUpdateAckSync1 = false
  wrPtrUpdateAckSync2 : s.wrPtrUpdateAckSync2 = false
  dropFrame : s.dropFrame = false

structure MClear (m : MReg α a) : Prop where
  rdPtr : m.rdPtr = 0#(a + 1)
  rdPtrGray : m.rdPtrGray = 0#(a + 1)
  wrPtrGraySync1 : m.wrPtrGraySync1 = 0#(a + 1)
  wrPtrGraySync2 : m.wrPtrGraySync2 = 0#(a + 1)
  wrPtrUpdateSync1 : m.wrPtrUpdateSync1 = false
  wrPtrUpdateSync2 : m.wrPtrUpdateSync2 = false
  wrPtrUpdateSync3 : m.wrPtrUpdateSync3 = false
  memReadDataValid : m.memReadDataValid = false
  mAxisTvalid : m.mAxisTvalid = false

/-- One side has not had an edge since `async_rst`. -/
structure Starting (r : Reg α a) : Prop where
  waits : r.s.sRstSync1 = true ∨ r.m.mRstSync1 = true
  s2 : r.s.sRstSync2 = true
  s3 : r.s.sRstSync3 = true
  m2 : r.m.mRstSync2 = true
  m3 : r.m.mRstSync3 = true
  s_clear : r.s.sRstSync1 = false → SClear r.s
  m_clear : r.m.mRstSync1 = false → MClear r.m

theorem starting_asyncRst (r : Reg α a) : Starting (asyncRst r) := by
  constructor <;> simp [asyncRst]

section Reset
variable {c : Config a u} {r : Reg α a}

theorem code_zero : code a 0 = 0#(a + 1) := by simp [code, ptr, Gray.encode]

theorem sClear_sEdge {s : SReg α a} {i : SInput α u} {x : FromM a} (h : s.sRstSync3 = true) :
    SClear (sEdge c s i x) := by
  constructor <;> simp [sEdge, h]

theorem mClear_mEdge {m : MReg α a} {t : Bool} {y : FromS a} {word : α}
    (h : m.mRstSync3 = true) : MClear (mEdge c m t y word) := by
  constructor <;> simp [mEdge, h]

/-- Both sides have been cleared: nothing is stored. -/
theorem inv_clear (hs : SClear r.s) (hm : MClear r.m) (hs1 : r.s.sRstSync1 = false)
    (hm1 : r.m.mRstSync1 = false) (hs3 : r.s.sRstSync3 = true) (hm3 : r.m.mRstSync3 = true)
    (hsa : r.s.sRstSync2 = false → r.s.wrAddr = 0#(a + 1))
    (hma : r.m.mRstSync2 = false → r.m.rdAddr = 0#(a + 1)) :
    Inv c r [] [] [] ⟨0, 0, 0, 0, 0, 0⟩ := by
  have hptr : ptr a 0 = 0#(a + 1) := rfl
  have hwr : wr c r.s = 0#(a + 1) := by simp [wr, hs.wrPtr, hs.wrPtrCur]
  have hgray : wrGray c r.s = 0#(a + 1) := by simp [wrGray, hs.wrPtrGray, hs.wrPtrCurGray]
  constructor
  case s =>
    constructor <;> simp [hptr, code_zero, hwr, hgray, hs1, hs3, hs.wrPtr, hs.wrPtrGray,
      hs.wrPtrSyncGray, hs.rdPtrGraySync1, hs.rdPtrGraySync2, hs.wrPtrUpdateValid, hs.wrPtrUpdate,
      hs.wrPtrUpdateAckSync1, hs.wrPtrUpdateAckSync2]
    exact hsa
  case m =>
    constructor <;> simp [hptr, code_zero, hm1, hm3, hm.rdPtr, hm.rdPtrGray, hm.wrPtrGraySync1,
      hm.wrPtrGraySync2, hm.wrPtrUpdateSync1, hm.wrPtrUpdateSync2, hm.wrPtrUpdateSync3,
      hm.memReadDataValid, hm.mAxisTvalid]
    exact hma
  case seen_le => exact Nat.le_refl 0
  case sent_le => simp
  case chain =>
    simp [oneChange, hs.wrPtrUpdate, hs.wrPtrUpdateAckSync1, hs.wrPtrUpdateAckSync2,
      hm.wrPtrUpdateSync1, hm.wrPtrUpdateSync2, hm.wrPtrUpdateSync3]
  case synced => exact fun _ _ => rfl
  case mem => simpa using Ring.holds_nil r.s.mem (ptr a 0)
  case data => simp [waiting, hm.memReadDataValid, hm.mAxisTvalid]

theorem wrAddr_sEdge {s : SReg α a} {i : SInput α u} {x : FromM a} (h : SClear s)
    (h3 : s.sRstSync3 = true) : (sEdge c s i x).wrAddr = 0#(a + 1) := by
  have hnext : (sEdge c s i x).wrAddr = if c.frameFifo then (writeComb c s i).wrPtrCurNext
      else (writeComb c s i).wrPtrNext := rfl
  rw [hnext, wrNext_eq, move_eq_keep (transfer_eq_false h3)]
  simp [wr, h.wrPtr, h.wrPtrCur]

theorem rdAddr_mEdge {m : MReg α a} {t : Bool} {y : FromS a} {word : α} (h : MClear m) :
    (mEdge c m t y word).rdAddr = 0#(a + 1) := by
  have hempty : empty c m = true := by
    simp [empty, h.rdPtrGray, h.wrPtrGraySync1, h.wrPtrGraySync2]
  simp [mEdge, rdPtrNext, read, hempty, h.rdPtr]

theorem starting_step (h : Starting r) (e : Event α a u) :
    Starting (step c r e) ∨
      Inv c (step c r e) [] [] [] ⟨0, 0, 0, 0, 0, 0⟩ ∧ (step c r e).s.dropFrame = false := by
  cases e with
  | s i =>
    cases hm : r.m.mRstSync1 with
    | true =>
      refine .inl ⟨.inr hm, by simp [step, sEdge, MReg.out, hm], h.s2, h.m2, h.m3, ?_, h.m_clear⟩
      intro _
      exact sClear_sEdge h.s3
    | false =>
      refine .inr ⟨inv_clear (sClear_sEdge h.s3) (h.m_clear hm) rfl hm h.s2 h.m3 ?_ ?_,
        (sClear_sEdge h.s3).dropFrame⟩
      · intro h2
        have hs : r.s.sRstSync1 = false := by
          simpa [step, sEdge, MReg.out, hm] using h2
        exact wrAddr_sEdge (h.s_clear hs) h.s3
      · intro h2
        have htrue : r.m.mRstSync2 = false := h2
        simp [h.m2] at htrue
  | m t =>
    cases hs : r.s.sRstSync1 with
    | true =>
      refine .inl ⟨.inl hs, h.s2, h.s3, by simp [step, mEdge, SReg.out, hs], h.m2, h.s_clear, ?_⟩
      intro _
      exact mClear_mEdge h.m3
    | false =>
      refine .inr ⟨inv_clear (h.s_clear hs) (mClear_mEdge h.m3) hs rfl h.s3 h.m2 ?_ ?_,
        (h.s_clear hs).dropFrame⟩
      · intro h2
        have htrue : r.s.sRstSync2 = false := h2
        simp [h.s2] at htrue
      · intro h2
        have hm : r.m.mRstSync1 = false := by
          simpa [step, mEdge, SReg.out, hs] using h2
        exact rdAddr_mEdge (h.m_clear hm)
  | both i t k =>
    refine .inr ⟨inv_clear (sClear_sEdge h.s3) (mClear_mEdge h.m3) rfl rfl h.s2 h.m2 ?_ ?_,
      (sClear_sEdge h.s3).dropFrame⟩
    · intro h2
      have hs : r.s.sRstSync1 = false := by
        have hor : (r.s.sRstSync1 || _) = false := h2
        exact (Bool.or_eq_false_iff.mp hor).1
      exact wrAddr_sEdge (h.s_clear hs) h.s3
    · intro h2
      have hm : r.m.mRstSync1 = false := by
        have hor : (_ || r.m.mRstSync1) = false := h2
        exact (Bool.or_eq_false_iff.mp hor).2
      exact rdAddr_mEdge (h.m_clear hm)

end Reset

/-! ## Runs -/

/-- Before both sides are cleared nothing is taken in; afterwards the invariants hold. -/
def Tracked (c : Config a u) (r : Reg α a) (bs : List (Beat α)) (out : List α) : Prop :=
  (Starting r ∧ bs = [] ∧ out = []) ∨
    ∃ C P n, Inv c r C P out n ∧ Kept c r.s bs C P

section Run
variable {c : Config a u} {r : Reg α a} {bs : List (Beat α)} {out : List α}

theorem tracked_step (hd : c.dropWhenFull = false) (h : Tracked c r bs out) (e : Event α a u) :
    Tracked c (step c r e) (bs ++ accepted c r e) (out ++ delivered r e) := by
  rcases h with ⟨hst, rfl, rfl⟩ | ⟨C, P, n, hinv, hk⟩
  · have hacc : accepted c r e = [] := by
      cases e <;> simp [accepted, Event.sInput, takes, transfer_eq_false hst.s3]
    have hdel : delivered r e = [] := by
      cases e <;> simp [delivered, Event.mAxisTready, handed, hst.m3]
    rw [hacc, hdel]
    rcases starting_step hst e with hnext | ⟨hnext, hdrop⟩
    · exact .inl ⟨hnext, rfl, rfl⟩
    · refine .inr ⟨[], [], _, hnext, ?_⟩
      constructor <;> simp [passed, cutFrames, hdrop]
  · refine .inr ?_
    cases e with
    | s i =>
      have hout : delivered r (.s i : Event α a u) = [] := rfl
      rw [hout, List.append_nil]
      exact ⟨_, _, _, inv_sEdge hinv i, kept_sEdge hd hinv.s hk _⟩
    | m t =>
      obtain ⟨n', _, hnext⟩ := inv_mEdge (t := t) hinv (fair_old hinv) (sent_le_stored hinv)
        (getElem?_of_read hinv)
      have hin : accepted c r (.m t : Event α a u) = [] := rfl
      rw [hin, List.append_nil]
      exact ⟨C, P, n', hnext, hk⟩
    | both i t k =>
      obtain ⟨n', p, _, _, hnext⟩ := inv_both hinv i t k
      exact ⟨_, _, _, hnext, kept_sEdge hd hinv.s hk _⟩

theorem tracked_run (hd : c.dropWhenFull = false) (r : Reg α a) (es : List (Event α a u)) :
    Tracked c (run (step c) (asyncRst r) es) (emits (step c) (accepted c) (asyncRst r) es)
      (emits (step c) delivered (asyncRst r) es) := by
  induction es using List.reverseRecOn with
  | nil => exact .inl ⟨starting_asyncRst r, rfl, rfl⟩
  | append_singleton es e ih =>
    rw [run_snoc, emits_snoc, emits_snoc]
    exact tracked_step hd ih e

theorem Tracked.prefix_passed (h : Tracked c r bs out) : out <+: passed c bs := by
  rcases h with ⟨_, _, rfl⟩ | ⟨C, P, n, hinv, hk⟩
  · exact List.nil_prefix
  · have htake : out <+: C.take n.got := by
      rw [hinv.data]
      exact List.prefix_append _ _
    rw [← hk.stored]
    exact htake.trans (List.take_prefix _ _)

end Run

/-! ## The FIFO in front of the transmitter -/

/-- The packed word: `KEEP_ENABLE`, `ID_ENABLE` and `DEST_ENABLE` are 0. -/
structure Word where
  tdata : BitVec 8
  tlast : Bool
  tuser : BitVec 1
  deriving DecidableEq, Repr

/-- `tx_fifo` with the parameters of `eth.sv`. -/
def txFifo : Config 15 1 where
  frameFifo := true
  dropBadFrame := true
  dropWhenFull := false
  userBadFrameValue := 1#1
  userBadFrameMask := 1#1
  bad_frame := fun _ => rfl
  when_full := by decide
  bad_mask := by decide
  addr_width := by decide

def wordIn (w : Word) (tvalid : Bool) : SInput Word 1 := ⟨w, tvalid, w.tlast, w.tuser⟩

def noSkew : Skew Word 15 :=
  ⟨⟨0#16, 0#16, false, false, .zero⟩, ⟨0#16, false, false⟩, ⟨0#8, false, 0#1⟩⟩

def someFifo : Reg Word 15 where
  s := ⟨9#16, 9#16, 13#16, 13#16, 13#16, 9#16, 12#16, 12#16, true, true, false, false, false, false,
    false, true, .zero, .zero, fun _ => ⟨7#8, true, 0#1⟩⟩
  m := ⟨8#16, 12#16, 8#16, 13#16, 13#16, true, false, false, false, false, false, ⟨7#8, true, 0#1⟩,
    true, ⟨7#8, true, 0#1⟩, true, .zero, .zero, .zero⟩

/-- Three clocks of reset, then a frame of one word and ten clocks for it. -/
def oneFrame : List (Event Word 15 1) :=
  List.replicate 3 (.both (wordIn ⟨1#8, true, 0#1⟩ false) true noSkew) ++
    .both (wordIn ⟨5#8, true, 0#1⟩ true) true noSkew ::
      List.replicate 10 (.both (wordIn ⟨1#8, true, 0#1⟩ false) true noSkew)

example : emits (step txFifo) delivered (asyncRst someFifo) oneFrame = [⟨5#8, true, 0#1⟩] := by
  decide +kernel

end AdcCapture.AxisAsyncFifo
