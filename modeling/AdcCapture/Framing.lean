import AdcCapture.Packets
import Mathlib.Data.List.Infix

/-!
# Headers and packets put together

A stream of headers and a stream of packets make one stream of frames: `frame h q`
is what stands for the packet `q` with the header `h`. The last header may have
only a part of its packet.
-/

namespace Clocked

set_option autoImplicit false

universe u

namespace Framing

variable {η β γ : Type u}

def encode (frame : η → List β → List γ) (hs : List η) (p : Packets β) : List γ :=
  (List.zipWith frame hs (p.closed ++ [p.rest])).flatten

/-- Each packet has its header, and one header more may be there. -/
def Paired (hs : List η) (p : Packets β) : Prop :=
  (hs.length = p.closed.length ∧ p.rest = []) ∨ ∃ gs h, hs = gs ++ [h] ∧ gs.length = p.closed.length

theorem zipWith_map_zipWith {κ δ : Type u} (g : κ → List γ → δ) (f : η → κ)
    (frame : η → List β → List γ) (hs : List η) (qs : List (List β)) :
    List.zipWith g (hs.map f) (List.zipWith frame hs qs) =
      List.zipWith (fun h q => g (f h) (frame h q)) hs qs := by
  induction hs generalizing qs with
  | nil => rfl
  | cons h hs ih =>
    cases qs with
    | nil => rfl
    | cons q qs => simp [ih]

section Encode
variable {frame : η → List β → List γ} {hs : List η} {p : Packets β} {isLast : β → Bool}

/-- Every header has its packet. -/
theorem encode_closed (hlen : hs.length = p.closed.length) :
    encode frame hs p = (List.zipWith frame hs p.closed).flatten := by
  have happ : List.zipWith frame (hs ++ []) (p.closed ++ [p.rest]) =
      List.zipWith frame hs p.closed ++ List.zipWith frame [] [p.rest] :=
    List.zipWith_append hlen
  rw [List.append_nil, List.zipWith_nil_left, List.append_nil] at happ
  rw [encode, happ]

/-- The last header has a part of its packet. -/
theorem encode_open (h : η) (hlen : hs.length = p.closed.length) :
    encode frame (hs ++ [h]) p = encode frame hs p ++ frame h p.rest := by
  rw [encode_closed hlen, encode, List.zipWith_append hlen]
  simp

/-- One element more of the last packet. -/
theorem encode_push (h : η) (hlen : hs.length = p.closed.length) (b : β) :
    encode frame (hs ++ [h]) (Packets.push isLast p b) =
      encode frame hs p ++ frame h (p.rest ++ [b]) := by
  rw [Packets.push]
  cases isLast b with
  | true =>
    have hlen' : (hs ++ [h]).length = (p.closed ++ [p.rest ++ [b]]).length := by simp [hlen]
    rw [if_pos rfl, encode_closed hlen', List.zipWith_append hlen, encode_closed hlen]
    simp
  | false =>
    have hopen : encode frame (hs ++ [h]) ⟨p.closed, p.rest ++ [b]⟩ =
        encode frame hs ⟨p.closed, p.rest ++ [b]⟩ ++ frame h (p.rest ++ [b]) :=
      encode_open h hlen
    have hsame : encode frame hs ⟨p.closed, p.rest ++ [b]⟩ =
        (List.zipWith frame hs p.closed).flatten := encode_closed hlen
    rw [if_neg Bool.false_ne_true, hopen, hsame, encode_closed hlen]

section Cut
variable {marked : γ → Bool}
  (hpacket : ∀ h q, Packets.IsPacket isLast q → Packets.IsPacket marked (frame h q))
include hpacket

theorem isPacket_zipWith {qs : List (List β)} (hq : ∀ q ∈ qs, Packets.IsPacket isLast q)
    (hs : List η) : ∀ f ∈ List.zipWith frame hs qs, Packets.IsPacket marked f := by
  intro f hf
  induction hs generalizing qs with
  | nil => simp at hf
  | cons h hs ih =>
    cases qs with
    | nil => simp at hf
    | cons q qs =>
      rw [List.zipWith_cons_cons, List.mem_cons] at hf
      rcases hf with rfl | hf
      · exact hpacket h q (hq q List.mem_cons_self)
      · exact ih (fun x hx => hq x (List.mem_cons_of_mem q hx)) hf

/-- Cutting the encoded stream gives the frames back. -/
theorem cut_encode_closed (bs : List β)
    (hlen : hs.length = (Packets.cut isLast bs).closed.length) :
    Packets.cut marked (encode frame hs (Packets.cut isLast bs)) =
      ⟨List.zipWith frame hs (Packets.cut isLast bs).closed, []⟩ := by
  rw [encode_closed hlen]
  exact Packets.cut_flatten (isPacket_zipWith hpacket (Packets.cut_packets bs).1 hs)

theorem cut_encode_open
    (hopen : ∀ h q, (∀ b ∈ q, isLast b = false) → ∀ c ∈ frame h q, marked c = false)
    (bs : List β) (h : η) (hlen : hs.length = (Packets.cut isLast bs).closed.length) :
    Packets.cut marked (encode frame (hs ++ [h]) (Packets.cut isLast bs)) =
      ⟨List.zipWith frame hs (Packets.cut isLast bs).closed,
        frame h (Packets.cut isLast bs).rest⟩ := by
  have hrest := hopen h _ (Packets.cut_packets bs).2
  have hclosed := cut_encode_closed hpacket bs hlen
  rw [Packets.cut] at hclosed
  rw [encode_open h hlen, Packets.cut, List.foldl_append, hclosed, Packets.foldl_push_open hrest]
  simp

/-- Frames put into frames: the outer stream is encoded from the inner one. -/
theorem encode_encode {κ δ : Type u} (outer : κ → List γ → List δ) (f : η → κ)
    (hopen : ∀ h q, (∀ b ∈ q, isLast b = false) → ∀ c ∈ frame h q, marked c = false)
    (bs : List β) (h : Paired hs (Packets.cut isLast bs)) :
    encode outer (hs.map f) (Packets.cut marked (encode frame hs (Packets.cut isLast bs))) =
      encode (fun h q => outer (f h) (frame h q)) hs (Packets.cut isLast bs) := by
  rcases h with ⟨hlen, hrest⟩ | ⟨gs, h, rfl, hlen⟩
  · have hout : (hs.map f).length =
        (List.zipWith frame hs (Packets.cut isLast bs).closed).length := by simp [hlen]
    rw [cut_encode_closed hpacket bs hlen, encode_closed hout, encode_closed hlen,
      zipWith_map_zipWith]
  · have hout : (gs.map f).length =
        (List.zipWith frame gs (Packets.cut isLast bs).closed).length := by simp [hlen]
    rw [cut_encode_open hpacket hopen bs h hlen, List.map_append, List.map_singleton,
      encode_open _ hout, encode_open h hlen, encode_closed hout, encode_closed hlen,
      zipWith_map_zipWith]

end Cut

/-! ## Prefixes -/

theorem encode_isPrefix_headers {gs : List η} (h : gs <+: hs) :
    encode frame gs p <+: encode frame hs p := by
  obtain ⟨ts, rfl⟩ := h
  apply List.IsPrefix.flatten
  induction gs generalizing p with
  | nil => simp
  | cons g gs ih =>
    obtain ⟨closed, rest⟩ := p
    cases closed with
    | nil => simp
    | cons q qs => simpa using @ih ⟨qs, rest⟩

theorem flatten_zipWith_grow {q r : List β} (hgrow : ∀ h, frame h q <+: frame h r)
    (qs rs : List (List β)) : (List.zipWith frame hs (qs ++ [q])).flatten <+:
      (List.zipWith frame hs (qs ++ r :: rs)).flatten := by
  induction hs generalizing qs with
  | nil => simp
  | cons h hs ih =>
    cases qs with
    | nil => simpa using (hgrow h).trans (List.prefix_append _ _)
    | cons x xs => simpa using ih xs

theorem encode_isPrefix_push (hgrow : ∀ h q b, frame h q <+: frame h (q ++ [b])) (b : β) :
    encode frame hs p <+: encode frame hs (Packets.push isLast p b) := by
  have hlast (h : η) := hgrow h p.rest b
  rw [Packets.push]
  split
  · rw [encode, encode, List.append_assoc]
    exact flatten_zipWith_grow hlast p.closed [[]]
  · exact flatten_zipWith_grow hlast p.closed []

/-- Headers and packets that go on keep what has been encoded. -/
theorem encode_mono (hgrow : ∀ h q b, frame h q <+: frame h (q ++ [b])) {gs : List η}
    {as bs : List β} (hh : gs <+: hs) (hb : as <+: bs) :
    encode frame gs (Packets.cut isLast as) <+: encode frame hs (Packets.cut isLast bs) := by
  apply (encode_isPrefix_headers hh).trans
  obtain ⟨cs, rfl⟩ := hb
  induction cs using List.reverseRecOn with
  | nil => simp
  | append_singleton cs c ih =>
    rw [← List.append_assoc, Packets.cut_snoc]
    exact ih.trans (encode_isPrefix_push hgrow c)

/-- Only the headers that are there matter. -/
theorem encode_congr {frame' : η → List β → List γ} (h : ∀ x ∈ hs, ∀ q, frame x q = frame' x q)
    (p : Packets β) : encode frame hs p = encode frame' hs p := by
  rw [encode, encode]
  congr 1
  generalize p.closed ++ [p.rest] = qs
  induction hs generalizing qs with
  | nil => rfl
  | cons x xs ih =>
    cases qs with
    | nil => rfl
    | cons q qs =>
      rw [List.zipWith_cons_cons, List.zipWith_cons_cons, h x List.mem_cons_self,
        ih fun y hy => h y (List.mem_cons_of_mem x hy)]

/-- One element for each header. -/
theorem encode_singleton (f : η → γ) (h : Paired hs p) :
    encode (fun x _ => [f x]) hs p = hs.map f := by
  have hzip (gs : List η) (qs : List (List β)) (hlen : gs.length = qs.length) :
      (List.zipWith (fun x _ => [f x]) gs qs).flatten = gs.map f := by
    induction gs generalizing qs with
    | nil => rfl
    | cons x xs ih =>
      cases qs with
      | nil => simp at hlen
      | cons q qs => simp [ih qs (by simpa using hlen)]
  rcases h with ⟨hlen, _⟩ | ⟨gs, x, rfl, hlen⟩
  · rw [encode_closed hlen, hzip hs p.closed hlen]
  · rw [encode_open x hlen, encode_closed hlen, hzip gs p.closed hlen, List.map_append]
    rfl

end Encode

end Framing

end Clocked
