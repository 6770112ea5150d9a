import AdcCapture.UdpStack
import Mathlib.Data.List.Forall2

/-!
# Datagrams from end to end

What the receivers take from the frames that the transmitters put together, and
from it what comes out of `udp_rx` over a whole run.
-/

namespace AdcCapture.UdpStack

open Clocked
open AxisOutput (Word)
open IpHeader (sent)
open UdpIpTx (EthIp UdpHdr)
set_option autoImplicit false

/-! ## One frame -/

/-- The Ethernet payload of a datagram. -/
def ipFrame (x : UdpIpTx.Hdr) (q : List Word) : List Word :=
  IpEthTx.layout.frame (ipHdr (UdpIpTx.pass x)) (UdpIpTx.layout.frame x q)

/-- The payload as the UDP length cuts it. -/
def fitted (x : UdpIpTx.Hdr) (q : List Word) : List Word :=
  PayloadLength.fit FrameTx.early (x.udp.length - 8#16) q

/-- The header that comes out of `udp_rx`. -/
def received (x : UdpIpTx.Hdr) : EthIp × UdpHdr :=
  (⟨x.eth, sent (UdpIpTx.pass x).ip.toIpHdr⟩, x.udp)

theorem ip_accepts (x : UdpIpTx.Hdr) (q : List Word) :
    IpEthRx.layout.accepts (ipFrame x q) = true ∧
      IpEthRx.layout.hdrBytes (ipFrame x q) = (sent (UdpIpTx.pass x).ip.toIpHdr).bytes ∧
      (ipFrame x q).drop IpEthRx.layout.hdrLen =
        PayloadLength.fit FrameTx.early x.udp.length (UdpIpTx.layout.frame x q) := by
  have hvalid : IpEthRx.valid (sent (UdpIpTx.pass x).ip.toIpHdr).bytes = true := by
    have hfirst : 4#4 ++ 5#4 = 0x45#8 := by decide
    have hhead : (sent (UdpIpTx.pass x).ip.toIpHdr).bytes.head? = some 0x45#8 :=
      congrArg some hfirst
    rw [IpEthRx.valid, IpHeader.sum_sent, hhead]
    decide
  have hcount : (UdpIpTx.pass x).ip.toIpHdr.length - 20#16 = x.udp.length :=
    BitVec.add_sub_cancel _ _
  have h := IpEthRx.layout.accepts_words (IpHeader.length_bytes _) hvalid
    (PayloadLength.fit FrameTx.early x.udp.length (UdpIpTx.layout.frame x q))
  rw [← hcount] at h ⊢
  exact h

theorem ip_head (x : UdpIpTx.Hdr) (q : List Word) : IpEthRx.layout.head x.eth (ipFrame x q) =
    [(x.eth, (sent (UdpIpTx.pass x).ip.toIpHdr).bytes)] := by
  obtain ⟨hacc, hbytes, _⟩ := ip_accepts x q
  rw [FrameRx.Layout.head, hacc, if_pos rfl, hbytes]

/-- The IP modules do not touch the payload, if the length covers the UDP header. -/
theorem ip_body {x : UdpIpTx.Hdr} (hlen : 8 < x.udp.length.toNat) (q : List Word) :
    IpEthRx.layout.body (ipFrame x q) = UdpIpTx.layout.frame x q := by
  obtain ⟨hacc, hbytes, hdrop⟩ := ip_accepts x q
  have hcount : IpEthRx.layout.count (sent (UdpIpTx.pass x).ip.toIpHdr).bytes =
      x.udp.length := by
    have hbytes := IpEthRx.count_bytes (sent (UdpIpTx.pass x).ip.toIpHdr)
    exact hbytes.trans (BitVec.add_sub_cancel _ _)
  have hwords : (UdpIpTx.layout.words x.udp).length = 8 := UdpIpTx.layout.length_words x.udp
  have hrx : ∀ n : BitVec 16, IpEthRx.format.early n = true → FrameTx.early n = true := by
    intro n hn
    have hlt : 1#16 < n := of_decide_eq_true hn
    rw [FrameTx.early, bne_iff_ne]
    rintro rfl
    exact absurd hlt (by decide)
  have hthrough : PayloadLength.fit FrameTx.early x.udp.length (UdpIpTx.layout.frame x q) =
      UdpIpTx.layout.frame x q := by
    have hopen := UdpIpTx.layout.not_last_words x.udp
    have hself : PayloadLength.fit FrameTx.early (x.udp.length - 8#16) (fitted x q) = fitted x q :=
      PayloadLength.fit_fit rfl (fun _ h => h) _ q
    rw [FrameTx.Layout.frame]
    change PayloadLength.fit FrameTx.early x.udp.length (UdpIpTx.layout.words x.udp ++ _) = _
    rw [PayloadLength.fit_append hopen (by rwa [hwords]), hwords]
    exact congrArg _ hself
  rw [FrameRx.Layout.body, hacc, if_pos rfl, hbytes, hdrop, hcount,
    PayloadLength.fit_fit rfl hrx, hthrough]

theorem udp_accepts (x : UdpIpTx.Hdr) (q : List Word) :
    UdpIpRx.layout.accepts (UdpIpTx.layout.frame x q) = true ∧
      UdpIpRx.layout.hdrBytes (UdpIpTx.layout.frame x q) = x.udp.bytes ∧
      (UdpIpTx.layout.frame x q).drop UdpIpRx.layout.hdrLen = fitted x q :=
  UdpIpRx.layout.accepts_words (UdpHdr.length_bytes _) rfl (fitted x q)

theorem udp_head (e : EthIp) (x : UdpIpTx.Hdr) (q : List Word) :
    UdpIpRx.layout.head e (UdpIpTx.layout.frame x q) = [(e, x.udp.bytes)] := by
  obtain ⟨hacc, hbytes, _⟩ := udp_accepts x q
  rw [FrameRx.Layout.head, hacc, if_pos rfl, hbytes]

theorem udp_body (x : UdpIpTx.Hdr) (q : List Word) :
    UdpIpRx.layout.body (UdpIpTx.layout.frame x q) = fitted x q := by
  obtain ⟨hacc, hbytes, hdrop⟩ := udp_accepts x q
  have hcount : UdpIpRx.layout.count x.udp.bytes = x.udp.length - 8#16 :=
    UdpIpRx.count_bytes x.udp
  rw [FrameRx.Layout.body, hacc, if_pos rfl, hbytes, hdrop, hcount]
  exact PayloadLength.fit_fit rfl (fun _ h => h) _ q

/-! ## All frames -/

section Encode
variable {hs : List UdpIpTx.Hdr} {p : Packets Word}

def ipReceived (x : UdpIpTx.Hdr) : EthAxisTx.EthHdr × IpHeader.IpFields :=
  (x.eth, sent (UdpIpTx.pass x).ip.toIpHdr)

theorem ip_heads (h : Framing.Paired hs p) :
    Framing.encode (fun x q => IpEthRx.layout.head
      (IpEthTx.format.pass (ipHdr (UdpIpTx.pass x))) (ipFrame x q)) hs p =
      (hs.map ipReceived).map fun h => (h.1, IpEthRx.layout.bytes h.2) := by
  have hone := Framing.encode_singleton
    (fun x : UdpIpTx.Hdr => (x.eth, (sent (UdpIpTx.pass x).ip.toIpHdr).bytes)) h
  have hhead := Framing.encode_congr (fun x (_ : x ∈ hs) q => ip_head x q) p
  rw [List.map_map]
  exact hhead.trans hone

theorem ip_bodies (hlen : ∀ x ∈ hs, 8 < x.udp.length.toNat) :
    Framing.encode (fun x q => IpEthRx.layout.body (ipFrame x q)) hs p =
      Framing.encode UdpIpTx.layout.frame hs p :=
  Framing.encode_congr (fun x hx q => ip_body (hlen x hx) q) p

theorem udp_heads (h : Framing.Paired hs p) : Framing.encode
      (fun x q => UdpIpRx.layout.head (received x).1 (UdpIpTx.layout.frame x q)) hs p =
      (hs.map received).map fun h => (h.1, UdpIpRx.layout.bytes h.2) := by
  have hone := Framing.encode_singleton (fun x => ((received x).1, x.udp.bytes)) h
  rw [List.map_map, Framing.encode_congr (fun x _ q => udp_head (received x).1 x q) p, hone]
  rfl

theorem udp_bodies (hs : List UdpIpTx.Hdr) (p : Packets Word) :
    Framing.encode (fun x q => UdpIpRx.layout.body (UdpIpTx.layout.frame x q)) hs p =
      Framing.encode fitted hs p :=
  Framing.encode_congr (fun x _ q => udp_body x q) p

end Encode

theorem isPacket_ipFrame (x : UdpIpTx.Hdr) (q : List Word) (hq : Packets.IsPacket Word.tlast q) :
    Packets.IsPacket Word.tlast (ipFrame x q) :=
  IpEthTx.layout.isPacket_frame _ _ (UdpIpTx.layout.isPacket_frame x q hq)

theorem open_ipFrame (x : UdpIpTx.Hdr) (q : List Word) (hq : ∀ v ∈ q, v.tlast = false) :
    ∀ v ∈ ipFrame x q, v.tlast = false :=
  IpEthTx.layout.open_frame _ _ (UdpIpTx.layout.open_frame x q hq)

/-! ## Runs -/

/-- Nothing is on its way. -/
def Drained (s : State) : Prop :=
  FrameTx.Drained s.tx.udpIpTx ∧ FrameTx.Drained s.tx.ipEthTx ∧ EthLink.Drained (ethLink s) ∧
    FrameRx.Drained s.rx.ipEthRx ∧ FrameRx.Drained s.rx.udpIpRx

instance (s : State) : Decidable (Drained s) :=
  inferInstanceAs (Decidable ((_ ∧ _ ∧ _) ∧ (_ ∧ _ ∧ _) ∧ (_ ∧ _ ∧ _ ∧ _) ∧ (_ ∧ _) ∧ _ ∧ _))

section Between
variable {s : State} {hs : List UdpIpTx.Hdr} {ps po : List Word} {ho : List (EthIp × UdpHdr)}

/-- What has come out is what went in, as far as it has come. -/
theorem Between.isPrefix (h : Between s hs ps ho po)
    (hlen : ∀ x ∈ hs, 8 < x.udp.length.toNat) :
    ho <+: hs.map received ∧ po <+: Framing.encode fitted hs (Packets.cut Word.tlast ps) := by
  obtain ⟨gu, wu, gi, wi, w, ge, we, gr, wr, hudp, hip, heth, hipRx, hudpRx⟩ := h
  have hpair := hudp.phase.paired
  have hpacket := UdpIpTx.layout.isPacket_frame
  have hopen := UdpIpTx.layout.open_frame
  -- the frames on the way down
  have hhdrs : gu.map ipHdr <+: hs.map fun x => ipHdr (UdpIpTx.pass x) := by
    have h := hudp.isPrefix.1.map ipHdr
    rwa [List.map_map] at h
  obtain ⟨hgi, hwi⟩ := hip.layer hpacket hopen hpair hhdrs hudp.isPrefix.2
  -- and on the way up
  obtain ⟨hge, hwe⟩ := heth.isPrefix
  obtain ⟨hgr, hwr⟩ := hipRx.layer isPacket_ipFrame open_ipFrame hpair (hge.trans hgi)
    (hwe.trans hwi)
  rw [ip_heads hpair, List.prefix_map_iff_of_injective IpEthRx.layout.bytes_injective] at hgr
  rw [ip_bodies hlen] at hwr
  have hups : gr.map (fun h => (⟨h.1, h.2⟩ : EthIp)) <+: hs.map fun x => (received x).1 := by
    have h := hgr.map fun h => (⟨h.1, h.2⟩ : EthIp)
    rwa [List.map_map] at h
  obtain ⟨hho, hpo⟩ := hudpRx.layer hpacket hopen hpair hups hwr
  rw [udp_heads hpair, List.prefix_map_iff_of_injective UdpIpRx.layout.bytes_injective] at hho
  rw [udp_bodies] at hpo
  exact ⟨hho, hpo⟩

theorem Between.complete (h : Between s hs ps ho po) (hd : Drained s)
    (hlen : ∀ x ∈ hs, 8 < x.udp.length.toNat) :
    ho = hs.map received ∧ po = Framing.encode fitted hs (Packets.cut Word.tlast ps) := by
  obtain ⟨gu, wu, gi, wi, w, ge, we, gr, wr, hudp, hip, heth, hipRx, hudpRx⟩ := h
  obtain ⟨hd1, hd2, hd3, hd4, hd5⟩ := hd
  have hpair := hudp.phase.paired
  have hpacket := UdpIpTx.layout.isPacket_frame
  have hopen := UdpIpTx.layout.open_frame
  obtain ⟨hgu, hwu⟩ := hudp.complete hd1
  have hhdrs : gu.map ipHdr = hs.map fun x => ipHdr (UdpIpTx.pass x) := by
    rw [hgu, List.map_map]
    rfl
  obtain ⟨hgi, hwi⟩ := hip.layer_complete hd2 hpacket hopen hpair hhdrs hwu
  obtain ⟨hge, hwe⟩ := heth.complete hd3
  obtain ⟨hgr, hwr⟩ := hipRx.layer_complete isPacket_ipFrame open_ipFrame hpair hd4
    (hge.trans hgi) (hwe.trans hwi)
  rw [ip_heads hpair] at hgr
  rw [ip_bodies hlen] at hwr
  have hip' := List.map_injective_iff.mpr IpEthRx.layout.bytes_injective hgr
  have hups : gr.map (fun h => (⟨h.1, h.2⟩ : EthIp)) = hs.map fun x => (received x).1 := by
    rw [hip', List.map_map]
    rfl
  obtain ⟨hho, hpo⟩ := hudpRx.layer_complete hpacket hopen hpair hd5 hups hwr
  rw [udp_heads hpair] at hho
  rw [udp_bodies] at hpo
  exact ⟨List.map_injective_iff.mpr UdpIpRx.layout.bytes_injective hho, hpo⟩

end Between

/-- All packets are complete and have the length that is in their header. -/
def Matches (hs : List UdpIpTx.Hdr) (p : Packets Word) : Prop :=
  List.Forall₂ (fun x q => q.length + 8 = x.udp.length.toNat) hs p.closed ∧ p.rest = []

theorem fitted_exact {x : UdpIpTx.Hdr} {q : List Word} (hq : Packets.IsPacket Word.tlast q)
    (hlen : q.length + 8 = x.udp.length.toNat) : fitted x q = q := by
  obtain ⟨vs, v, rfl, hopen, hv⟩ := hq
  have hlt := x.udp.length.isLt
  have hcount : vs.length + 1 = (x.udp.length - 8#16).toNat := by
    rw [List.length_append, List.length_singleton] at hlen
    rw [BitVec.toNat_sub]
    simp
    omega
  exact PayloadLength.fit_exact hopen hv hcount rfl

theorem encode_fitted {hs : List UdpIpTx.Hdr} {ps : List Word}
    (h : Matches hs (Packets.cut Word.tlast ps)) :
    Framing.encode fitted hs (Packets.cut Word.tlast ps) = ps := by
  obtain ⟨hmatch, hrest⟩ := h
  have hpackets : ∀ q ∈ (Packets.cut Word.tlast ps).closed, Packets.IsPacket Word.tlast q :=
    (Packets.cut_packets ps).1
  have hflat := Packets.flatten_closed Word.tlast ps
  rw [hrest, List.append_nil] at hflat
  have hzip (gs : List UdpIpTx.Hdr) (qs : List (List Word))
      (hg : List.Forall₂ (fun x q => q.length + 8 = x.udp.length.toNat) gs qs)
      (hq : ∀ q ∈ qs, Packets.IsPacket Word.tlast q) : List.zipWith fitted gs qs = qs := by
    induction hg with
    | nil => rfl
    | cons hlen _ ih =>
      rw [List.zipWith_cons_cons, fitted_exact (hq _ List.mem_cons_self) hlen,
        ih fun q hmem => hq q (List.mem_cons_of_mem _ hmem)]
  rw [Framing.encode_closed hmatch.length_eq, hzip hs _ hmatch hpackets, hflat]

/--
Whatever the stalls on both sides, the headers come out of `udp_rx` in order, with the
IP length and checksum filled in, and so does the payload as the lengths cut it. Once
nothing is on its way all of it has come out, and it is the payload itself if the
lengths are right.
-/
theorem datagrams_delivered (s : State) (i : Input) (is : List Input)
    (hlen : ∀ x ∈ emits step hdrIn (posedge s i true) is, 8 < x.udp.length.toNat) :
    emits step hdrOut (posedge s i true) is <+:
      (emits step hdrIn (posedge s i true) is).map received ∧
    emits step payloadOut (posedge s i true) is <+:
      Framing.encode fitted (emits step hdrIn (posedge s i true) is)
        (Packets.cut Word.tlast (emits step payloadIn (posedge s i true) is)) ∧
    (Drained (run step (posedge s i true) is) →
      emits step hdrOut (posedge s i true) is =
        (emits step hdrIn (posedge s i true) is).map received ∧
      emits step payloadOut (posedge s i true) is =
        Framing.encode fitted (emits step hdrIn (posedge s i true) is)
          (Packets.cut Word.tlast (emits step payloadIn (posedge s i true) is)) ∧
      (Matches (emits step hdrIn (posedge s i true) is)
          (Packets.cut Word.tlast (emits step payloadIn (posedge s i true) is)) →
        emits step payloadOut (posedge s i true) is =
          emits step payloadIn (posedge s i true) is)) := by
  have h := between_run s i is
  refine ⟨(h.isPrefix hlen).1, (h.isPrefix hlen).2, ?_⟩
  intro hd
  obtain ⟨hhdrs, hpays⟩ := h.complete hd hlen
  refine ⟨hhdrs, hpays, ?_⟩
  intro hmatch
  rw [hpays, encode_fitted hmatch]

def someState : State :=
  let eth : EthAxisTx.EthHdr := ⟨0#48, 0#48, 0#16⟩
  let ip : IpHeader.IpFields :=
    ⟨⟨⟨0#6, 0#2, 0#16, 0#3, 0#13, 0#8, 0#8, 0#32, 0#32⟩, 0#16⟩, 0#4, 0#4, 0#16⟩
  let udp : UdpHdr := ⟨0#16, 0#16, 0#16, 0#16⟩
  let output : AxisOutput.Reg :=
    ⟨⟨0#8, false, false⟩, false, ⟨0#8, false, false⟩, false, false⟩
  ⟨⟨⟨.idle, 0#3, 0#16, (), 0#8, udp, false, false, false, ⟨eth, ip⟩, false, false, output⟩,
      ⟨.idle, 0#6, 0#16, 0#16, 0#8, ip.toIpHdr, false, false, false, eth, false, false, output⟩,
      ⟨.idle, 0#8, eth, false, false, false, output⟩⟩,
    ⟨⟨.idle, 0#8, false, false, eth, false, false, output⟩,
      ⟨.idle, 0#6, 0#16, 0#16, 0#8, false, false, false, eth, ip, false, false, false, none,
        output⟩,
      ⟨.idle, 0#3, 0#16, (), 0#8, false, false, false, ⟨eth, ip⟩, udp, false, false, false, none,
        output⟩⟩⟩

/-- The header of a datagram of two bytes. -/
def shortHdr : UdpIpTx.Hdr where
  eth := ⟨0x020000000001#48, 0x020000000002#48, 0x0800#16⟩
  version := 4#4
  ihl := 5#4
  ip := ⟨0#6, 0#2, 0#16, 2#3, 0#13, 64#8, 0x11#8, 0xC0A80180#32, 0xC0A80181#32⟩
  headerChecksum := 0#16
  udp := ⟨1234#16, 5678#16, 10#16, 0#16⟩

def offer (valid : Bool) (v : Word) (tvalid : Bool) : Input := ⟨⟨valid, shortHdr, v, tvalid⟩, true⟩

def twoBytes : List Input :=
  List.replicate 2 (offer true ⟨7#8, false, false⟩ true) ++
    List.replicate 42 (offer false ⟨7#8, false, false⟩ true) ++
    offer false ⟨8#8, true, false⟩ true :: List.replicate 6 (offer false ⟨0#8, false, false⟩ false)

theorem datagrams_delivered_twoBytes :
    let start := posedge someState (offer false ⟨0#8, false, false⟩ false) true
    emits step hdrOut start twoBytes = [received shortHdr] ∧
      emits step payloadOut start twoBytes = [⟨7#8, false, false⟩, ⟨8#8, true, false⟩] := by
  intro start
  have hhdr : emits step hdrIn start twoBytes = [shortHdr] := by decide +kernel
  have hpay : emits step payloadIn start twoBytes = [⟨7#8, false, false⟩, ⟨8#8, true, false⟩] := by
    decide +kernel
  have hdrained : Drained (run step start twoBytes) := by decide +kernel
  have hlen : ∀ x ∈ emits step hdrIn start twoBytes, 8 < x.udp.length.toNat := by
    rw [hhdr]
    decide
  obtain ⟨hhdrs, _, hexact⟩ := (datagrams_delivered someState _ twoBytes hlen).2.2 hdrained
  have hmatch : Matches (emits step hdrIn start twoBytes)
      (Packets.cut Word.tlast (emits step payloadIn start twoBytes)) := by
    rw [hhdr, hpay]
    exact ⟨.cons rfl .nil, rfl⟩
  exact ⟨by rw [hhdrs, hhdr]; rfl, by rw [hexact hmatch, hpay]⟩

end AdcCapture.UdpStack
