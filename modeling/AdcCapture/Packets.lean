import Mathlib.Data.List.Induction

/-!
# Cutting a stream into packets

A stream whose elements may be marked as the last of their packet. `closed` are
the packets ended by a mark, `rest` what has been sent since the latest mark.
-/

namespace Clocked

set_option autoImplicit false

universe u

structure Packets (β : Type u) where
  closed : List (List β)
  rest : List β

namespace Packets

variable {β : Type u} {isLast : β → Bool}

def push (isLast : β → Bool) (p : Packets β) (b : β) : Packets β :=
  if isLast b then ⟨p.closed ++ [p.rest ++ [b]], []⟩ else ⟨p.closed, p.rest ++ [b]⟩

def cut (isLast : β → Bool) (bs : List β) : Packets β := bs.foldl (push isLast) ⟨[], []⟩

@[simp] theorem cut_nil : cut isLast [] = ⟨[], []⟩ := rfl

theorem cut_snoc (bs : List β) (b : β) :
    cut isLast (bs ++ [b]) = push isLast (cut isLast bs) b := by
  simp [cut, List.foldl_append]

theorem closed_ne_nil (bs : List β) : ∀ p ∈ (cut isLast bs).closed, p ≠ [] := by
  induction bs using List.reverseRecOn with
  | nil => simp
  | append_singleton bs b ih =>
    rw [cut_snoc, push]
    split
    · intro p hp
      rcases List.mem_append.mp hp with h | h
      · exact ih p h
      · rw [List.mem_singleton.mp h]
        simp
    · exact ih

theorem foldl_push_open {bs : List β} (h : ∀ b ∈ bs, isLast b = false) (p : Packets β) :
    bs.foldl (push isLast) p = ⟨p.closed, p.rest ++ bs⟩ := by
  induction bs generalizing p with
  | nil => simp
  | cons b bs ih =>
    rw [List.foldl_cons, push, h b List.mem_cons_self]
    rw [ih fun c hc => h c (List.mem_cons_of_mem b hc)]
    simp

/-- Only the last element is marked. -/
def IsPacket (isLast : β → Bool) (p : List β) : Prop :=
  ∃ q b, p = q ++ [b] ∧ (∀ x ∈ q, isLast x = false) ∧ isLast b = true

/-- The last element, if there is one, is marked. -/
def Ends (isLast : β → Bool) (bs : List β) : Prop := ∀ b ∈ bs.getLast?, isLast b = true

theorem ends_nil : Ends isLast [] := by
  intro b hb
  simp at hb

theorem ends_snoc (bs : List β) (b : β) : Ends isLast (bs ++ [b]) ↔ isLast b = true := by
  simp [Ends]

theorem cut_packets (bs : List β) : (∀ p ∈ (cut isLast bs).closed, IsPacket isLast p) ∧
    ∀ b ∈ (cut isLast bs).rest, isLast b = false := by
  induction bs using List.reverseRecOn with
  | nil => simp
  | append_singleton bs b ih =>
    obtain ⟨hclosed, hrest⟩ := ih
    rw [cut_snoc, push]
    cases hb : isLast b with
    | true =>
      refine ⟨?_, by simp⟩
      intro p hp
      rcases List.mem_append.mp hp with h | h
      · exact hclosed p h
      · rw [List.mem_singleton.mp h]
        exact ⟨_, b, rfl, hrest, hb⟩
    | false =>
      refine ⟨hclosed, ?_⟩
      intro x hx
      rcases List.mem_append.mp hx with h | h
      · exact hrest x h
      · rw [List.mem_singleton.mp h]
        exact hb

theorem flatten_closed (isLast : β → Bool) (bs : List β) :
    (cut isLast bs).closed.flatten ++ (cut isLast bs).rest = bs := by
  induction bs using List.reverseRecOn with
  | nil => simp
  | append_singleton bs b ih =>
    rw [cut_snoc, push]
    split <;> simp [← List.append_assoc, ih]

theorem rest_eq_nil_iff (bs : List β) : (cut isLast bs).rest = [] ↔ Ends isLast bs := by
  induction bs using List.reverseRecOn with
  | nil => simp [ends_nil]
  | append_singleton bs b _ =>
    rw [ends_snoc, cut_snoc, push]
    cases isLast b <;> simp

theorem foldl_push_packets {ps : List (List β)} (h : ∀ p ∈ ps, IsPacket isLast p)
    (q : Packets β) (hq : q.rest = []) :
    ps.flatten.foldl (push isLast) q = ⟨q.closed ++ ps, []⟩ := by
  induction ps generalizing q with
  | nil =>
    obtain ⟨closed, rest⟩ := q
    simp at hq
    simp [hq]
  | cons p ps ih =>
    obtain ⟨r, b, rfl, hopen, hb⟩ := h p List.mem_cons_self
    have hps : ∀ x ∈ ps, IsPacket isLast x := fun x hx => h x (List.mem_cons_of_mem _ hx)
    rw [List.flatten_cons, List.foldl_append, List.foldl_append, foldl_push_open hopen]
    rw [List.foldl_cons, List.foldl_nil, push, if_pos hb, ih hps _ rfl, hq]
    simp

theorem cut_flatten {ps : List (List β)} (h : ∀ p ∈ ps, IsPacket isLast p) :
    cut isLast ps.flatten = ⟨ps, []⟩ := foldl_push_packets h _ rfl

theorem isPrefix_closed (isLast : β → Bool) {as bs : List β} (h : as <+: bs) :
    (cut isLast as).closed <+: (cut isLast bs).closed := by
  obtain ⟨cs, rfl⟩ := h
  induction cs using List.reverseRecOn with
  | nil => simp
  | append_singleton cs c ih =>
    rw [← List.append_assoc, cut_snoc, push]
    split
    · exact ih.trans (List.prefix_append _ _)
    · exact ih

theorem isPacket_map {γ : Type u} {marked : γ → Bool} (f : β → γ) {p : List β}
    (hf : ∀ b ∈ p, marked (f b) = isLast b) (h : IsPacket isLast p) :
    IsPacket marked (p.map f) := by
  obtain ⟨q, b, rfl, hopen, hb⟩ := h
  refine ⟨q.map f, f b, by simp, ?_, ?_⟩
  · intro x hx
    obtain ⟨y, hy, rfl⟩ := List.mem_map.mp hx
    rw [hf y (List.mem_append_left _ hy)]
    exact hopen y hy
  · rw [hf b (by simp)]
    exact hb

theorem cut_map {γ : Type u} (isLast : β → Bool) (marked : γ → Bool) (f : β → γ)
    (hf : ∀ b, marked (f b) = isLast b) (bs : List β) : cut marked (bs.map f) =
      ⟨(cut isLast bs).closed.map (List.map f), (cut isLast bs).rest.map f⟩ := by
  induction bs using List.reverseRecOn with
  | nil => rfl
  | append_singleton bs b ih =>
    rw [List.map_append, List.map_singleton, cut_snoc, cut_snoc, ih, push, push, hf]
    split <;> simp

/-- What `g` takes from each packet, the last of which may be incomplete. -/
def collect {γ : Type u} (g : List β → List γ) (p : Packets β) : List γ :=
  p.closed.flatMap g ++ g p.rest

theorem collect_push {γ : Type u} {g : List β → List γ} (hg : g [] = []) (p : Packets β) (b : β) :
    collect g (push isLast p b) = p.closed.flatMap g ++ g (p.rest ++ [b]) := by
  rw [push]
  split <;> simp [collect, hg]

/-- What has been taken stays when a packet grows. -/
theorem collect_mono {γ : Type u} {g : List β → List γ} (hg : g [] = [])
    (hgrow : ∀ q b, g q <+: g (q ++ [b])) {as bs : List β} (h : as <+: bs) :
    collect g (cut isLast as) <+: collect g (cut isLast bs) := by
  obtain ⟨cs, rfl⟩ := h
  induction cs using List.reverseRecOn with
  | nil => simp
  | append_singleton cs c ih =>
    rw [← List.append_assoc, cut_snoc, collect_push hg]
    apply ih.trans
    rw [collect, List.prefix_append_right_inj]
    exact hgrow _ c

end Packets

end Clocked
