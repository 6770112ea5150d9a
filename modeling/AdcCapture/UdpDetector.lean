import AdcCapture.LaggedFifo

/-!
# udpDetector

Bytes of datagrams to port 0x1000 are packed into 32-bit words by one
`fifo_generator_1`. `axis_tlast` is a port that nothing reads.
-/

namespace AdcCapture.UdpDetector

open Clocked
set_option autoImplicit false

abbrev FifoGenerator1 : Type := LaggedFifo (BitVec 8)

/-- Capacity of `fifo_generator_1` in bytes. -/
def wrDepth : Nat := 512

/-- Clocks within which a complete word is shown. -/
def lag : Nat := 8

/-- `reveal` and `stale` belong to the FIFO: the words it shows early, and its output
register while no word is shown. -/
structure Input where
  destPort : BitVec 16
  axisTdata : BitVec 8
  axisTvalid : Bool
  axisTlast : Bool
  reveal : Nat
  stale : BitVec 32

def word : List (BitVec 8) → BitVec 32
  | [a, b, c, d] => a ++ b ++ c ++ d
  | _ => 0#32

def wordBytes (w : BitVec 32) : List (BitVec 8) :=
  [w.extractLsb' 24 8, w.extractLsb' 16 8, w.extractLsb' 8 8, w.extractLsb' 0 8]

def full (f : FifoGenerator1) : Bool := f.full wrDepth

def wrEn (f : FifoGenerator1) (i : Input) : Bool :=
  i.axisTvalid && i.destPort == 0x1000#16 && full f == false

def dataReady (f : FifoGenerator1) : Bool := f.valid

def empty (f : FifoGenerator1) : Bool := !f.valid

def data (f : FifoGenerator1) (i : Input) : BitVec 32 :=
  match f.shown with
  | [] => i.stale
  | x :: _ => word x

def posedge (rst : Bool) (f : FifoGenerator1) (rdEn : Bool) (i : Input) : FifoGenerator1 :=
  if rst then LaggedFifo.nil
  else f.step 4 lag wrDepth rdEn (if wrEn f i then some i.axisTdata else none) i.reveal

@[simp] theorem wordBytes_length (w : BitVec 32) : (wordBytes w).length = 4 := rfl

theorem wordBytes_word {x : List (BitVec 8)} (h : x.length = 4) : wordBytes (word x) = x := by
  obtain ⟨a, b, c, d, rfl⟩ : ∃ a b c d, x = [a, b, c, d] := by
    rcases x with _ | ⟨a, _ | ⟨b, _ | ⟨c, _ | ⟨d, _ | _⟩⟩⟩⟩ <;> simp at h ⊢
  simp only [wordBytes, word, List.cons.injEq, and_true]
  refine ⟨?_, ?_, ?_, ?_⟩ <;> apply BitVec.eq_of_getLsbD_eq <;> intro k hk <;>
    simp only [BitVec.getLsbD_append, BitVec.getLsbD_extractLsb'] <;> grind

theorem word_wordBytes (w : BitVec 32) : word (wordBytes w) = w := by
  have h : w.extractLsb' 24 8 ++ w.extractLsb' 16 8 ++ w.extractLsb' 8 8 ++ w.extractLsb' 0 8 =
      w := by
    apply BitVec.eq_of_getLsbD_eq
    intro k hk
    simp only [BitVec.getLsbD_append, BitVec.getLsbD_extractLsb']
    split
    · grind
    · split
      · grind
      · split <;> grind
  exact h

/-! ## Four-byte groups -/

/-- The consecutive four-byte groups of a byte stream; up to three bytes are left over. -/
def groups : List (BitVec 8) → List (BitVec 32)
  | a :: b :: c :: d :: bs => word [a, b, c, d] :: groups bs
  | _ => []

theorem groups_wordBytes_append (w : BitVec 32) (bs : List (BitVec 8)) :
    groups (wordBytes w ++ bs) = w :: groups bs := by
  have h : groups (wordBytes w ++ bs) = word (wordBytes w) :: groups bs := rfl
  rw [h, word_wordBytes]

theorem groups_flatMap_append (ws : List (BitVec 32)) (bs : List (BitVec 8)) :
    groups (ws.flatMap wordBytes ++ bs) = ws ++ groups bs := by
  induction ws with
  | nil => rfl
  | cons w ws ih =>
    rw [List.flatMap_cons, List.append_assoc, groups_wordBytes_append, ih, List.cons_append]

theorem groups_length (bs : List (BitVec 8)) : (groups bs).length = bs.length / 4 := by
  induction bs using groups.induct with
  | case1 a b c d bs ih => simp [groups, ih]; omega
  | case2 bs h =>
    rcases bs with _ | ⟨a, _ | ⟨b, _ | ⟨c, _ | ⟨d, bs⟩⟩⟩⟩
    · rfl
    · simp [groups]
    · simp [groups]
    · simp [groups]
    · exact absurd rfl (h a b c d bs)

theorem groups_prefix_append (bs cs : List (BitVec 8)) : groups bs <+: groups (bs ++ cs) := by
  induction bs using groups.induct with
  | case1 a b c d bs ih =>
    obtain ⟨t, ht⟩ := ih
    exact ⟨t, congrArg (List.cons (word [a, b, c, d])) ht⟩
  | case2 bs h =>
    have hnil : groups bs = [] := by
      rw [groups]
      exact fun a b c d cs hb => h a b c d cs hb
    rw [hnil]
    exact List.nil_prefix

end AdcCapture.UdpDetector
