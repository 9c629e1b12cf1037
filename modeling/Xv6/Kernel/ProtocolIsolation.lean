import Mathlib
import Xv6.Kernel.NetRx

/-!
# Protocols and Socket Types

One table finds the sockets for UDP, TCP and ICMP, by ports and address only. No receive
path looks at the type of the socket that it finds, and `net_rx_icmp` turns the byte with
the ICMP type as if it had two: what is left of it is always an Echo Reply.

- `sockHashtableGet_iff`: the socket that a lookup finds;
- `netRx_udp`, `netRx_icmp`, `netRx_tcp`: the sockets that a packet is queued on;
- `protocol_isolation_iff`: a frame stays with the sockets of its protocol if and only if
  the first socket in the table that fits it is one.
-/

namespace Xv6.Kernel.Net

open Xv6.Kernel.Tcp (TcpState TcpCb TcpHdr Signal Chan Arrival tcpSegmentsArrives TextTaken
  queued_iff TcpState.takesText)

/-! ## Socket types -/

def SOCK_STREAM : UInt8 := 1
def SOCK_DGRAM : UInt8 := 2
def SOCK_RAW : UInt8 := 3

/-- What the receive paths do not look at: the type of each socket, and whether its `tcpcb`
    has been initialised. -/
structure Kinds where
  type : ℕ → UInt8
  ready : ℕ → Bool

/-! ## The socket that a lookup finds -/

def Sock.HasKey (so : Sock) (lport : UInt16) (raddr : UInt32) (rport : UInt16) : Prop :=
  so.lport = lport ∧ so.raddr = raddr ∧ so.rport = rport

instance (so : Sock) (lport : UInt16) (raddr : UInt32) (rport : UInt16) :
    Decidable (so.HasKey lport raddr rport) :=
  inferInstanceAs (Decidable (_ ∧ _ ∧ _))

/-- `si` comes first of the sockets with this key in a chain. -/
def FirstWith (s : State) (chain : List ℕ) (lport : UInt16) (raddr : UInt32) (rport : UInt16)
    (si : ℕ) : Prop :=
  (s.sock si).HasKey lport raddr rport ∧ ∃ before after, chain = before ++ si :: after ∧
    ∀ k ∈ before, ¬ (s.sock k).HasKey lport raddr rport

/-- The socket that the table has for a packet: the first one with its ports and address,
    or if there is none the first one that is bound to no peer. -/
inductive Selects (s : State) (lport : UInt16) (raddr : UInt32) (rport : UInt16) (si : ℕ) : Prop
  | bound (h : FirstWith s (s.sockets (hash lport)) lport raddr rport si)
  | wildcard (hnone : ∀ k ∈ s.sockets (hash lport), ¬ (s.sock k).HasKey lport raddr rport)
      (h : FirstWith s (s.sockets (hash lport)) lport 0 0 si)

theorem firstWith_iff {s : State} {chain : List ℕ} {lport : UInt16} {raddr : UInt32}
    {rport : UInt16} {si : ℕ} : FirstWith s chain lport raddr rport si ↔
      chain.find? (fun k => (s.sock k).HasKey lport raddr rport) = some si := by
  rw [List.find?_eq_some_iff_append, FirstWith]
  simp

theorem sockHashtableGetLoop_eq (sock : ℕ → Sock) (lport : UInt16) (raddr : UInt32)
    (rport : UInt16) (chain : List ℕ) (backup : Option ℕ) :
    sockHashtableGetLoop sock lport raddr rport chain backup =
      (chain.find? fun k => (sock k).HasKey lport raddr rport).or
        (backup.or (chain.find? fun k => (sock k).HasKey lport 0 0)) := by
  induction chain generalizing backup with
  | nil => simp [sockHashtableGetLoop]
  | cons si rest ih =>
    rw [sockHashtableGetLoop, ih, ih, List.find?_cons, List.find?_cons]
    by_cases hport : (sock si).lport = lport
    · by_cases hpeer : (sock si).raddr = raddr ∧ (sock si).rport = rport
      · simp [Sock.HasKey, hport, hpeer]
      · have hkey : ¬ (sock si).HasKey lport raddr rport := fun h => hpeer h.2
        rw [if_pos hport, if_neg hpeer, decide_eq_false hkey]
        by_cases hwild : (sock si).raddr = 0 ∧ (sock si).rport = 0
        · have hkey₀ : (sock si).HasKey lport 0 0 := ⟨hport, hwild⟩
          rw [decide_eq_true hkey₀]
          -- the first socket without a peer is kept, and no later one replaces it
          cases backup <;> simp [hwild]
        · have hkey₀ : ¬ (sock si).HasKey lport 0 0 := fun h => hwild h.2
          rw [decide_eq_false hkey₀, if_neg fun h => hwild h.2]
    · simp [Sock.HasKey, hport]

/-- **The lookup.** -/
theorem sockHashtableGet_iff {s : State} {lport : UInt16} {raddr : UInt32} {rport : UInt16}
    {si : ℕ} : sockHashtableGet s lport raddr rport = some si ↔ Selects s lport raddr rport si := by
  rw [sockHashtableGet, sockHashtableGetLoop_eq, Option.none_or]
  constructor
  · intro h
    cases hfind : (s.sockets (hash lport)).find?
        (fun k => (s.sock k).HasKey lport raddr rport) with
    | some k =>
      rw [hfind, Option.some_or] at h
      cases h
      exact .bound (firstWith_iff.mpr hfind)
    | none =>
      rw [hfind, Option.none_or] at h
      refine .wildcard (fun k hk hkey => ?_) (firstWith_iff.mpr h)
      have := List.find?_eq_none.mp hfind k hk
      simp [hkey] at this
  · rintro (h | ⟨hnone, h⟩)
    · rw [firstWith_iff.mp h, Option.some_or]
    · have hfind : (s.sockets (hash lport)).find?
          (fun k => (s.sock k).HasKey lport raddr rport) = none := by
        rw [List.find?_eq_none]
        exact fun k hk => by simpa using hnone k hk
      rw [hfind, Option.none_or, firstWith_iff.mp h]

/-- A socket that is found is in its chain. -/
theorem sockHashtableGet_mem {s : State} {lport : UInt16} {raddr : UInt32} {rport : UInt16}
    {si : ℕ} (h : sockHashtableGet s lport raddr rport = some si) :
    si ∈ s.sockets (hash lport) := by
  have hfirst : ∀ {raddr rport}, FirstWith s (s.sockets (hash lport)) lport raddr rport si →
      si ∈ s.sockets (hash lport) := by
    rintro raddr rport ⟨-, before, after, hchain, -⟩
    simp [hchain]
  rcases sockHashtableGet_iff.mp h with hsel | ⟨-, hsel⟩
  · exact hfirst hsel
  · exact hfirst hsel

/-! ## Packets -/

/-- The frame passes the tests of `net_rx` and `net_rx_ip`, and carries this protocol. -/
structure CarriesIp (frame : List UInt8) (proto : UInt8) : Prop where
  length : sizeofEth + sizeofIp ≤ frame.length
  type : bswaps (uint16At (frame.take sizeofEth) 12) = ETHTYPE_IP
  vhl : (iphdrOf frame).getD 0 0 = 0x45
  cksum : inCksum (iphdrOf frame) = 0
  whole : bswaps (uint16At (iphdrOf frame) 6) = 0
  dst : bswapl (uint32At (iphdrOf frame) 16) = localIp
  proto : (iphdrOf frame).getD 9 0 = proto

/-- The length that `net_rx_ip` passes on -/
def ipLen (iphdr : List UInt8) : UInt16 := bswaps (uint16At iphdr 2) - 20

/-- The sender's address -/
def ipSrc (iphdr : List UInt8) : UInt32 := bswapl (uint32At iphdr 12)

/-- The source port of a UDP or TCP header -/
def srcPort (hdr : List UInt8) : UInt16 := bswaps (uint16At hdr 0)

/-- The destination port of a UDP or TCP header -/
def dstPort (hdr : List UInt8) : UInt16 := bswaps (uint16At hdr 2)

/-- The bytes behind the IP header are a datagram that `net_rx_udp` delivers. -/
structure IsDatagram (iphdr seg : List UInt8) : Prop where
  header : sizeofUdp ≤ seg.length
  ulen : bswaps (uint16At (seg.take sizeofUdp) 4) = ipLen iphdr
  length : (ipLen iphdr - 8).toNat ≤ seg.length - sizeofUdp

/-- What `net_rx_icmp` cuts off the end of the buffer -/
def icmpPadding (iphdr seg : List UInt8) : ℕ :=
  (UInt16.ofNat (seg.length - sizeofIcmp - (ipLen iphdr - 8).toNat)).toNat

/-- The bytes behind the IP header are a packet that `net_rx_icmp` delivers: its text is
    there, and the buffer has room for the length and the hop count that are put behind. -/
structure IsIcmp (iphdr seg : List UInt8) : Prop where
  header : sizeofIcmp ≤ seg.length
  length : (ipLen iphdr - 8).toNat ≤ seg.length - sizeofIcmp
  room : seg.length - sizeofIcmp - icmpPadding iphdr seg + 3 ≤ MBUF_SIZE

/-- Something has been put on the queue of the socket. -/
def Queued (s s' : State) (si : ℕ) : Prop := (s'.sock si).rxq ≠ (s.sock si).rxq

/-- The buffer is queued on the socket by a receive path with this result. -/
def Queues (s : State) (x : Except String State) (si : ℕ) : Prop :=
  ∃ s', x = .ok s' ∧ Queued s s' si

section Receive

variable {s s' : State} {m : Mbuf} {si : ℕ} {iphdr : List UInt8} {rand : UInt32}

theorem not_queued_mbuffree : ¬ Queued s (s.mbuffree m) si := fun h => h rfl

theorem queues_ok : Queues s (.ok s') si ↔ Queued s s' si :=
  ⟨fun ⟨_, h, hq⟩ => Except.ok.inj h ▸ hq, fun hq => ⟨s', rfl, hq⟩⟩

theorem not_queues_ok (h : ¬ Queued s s' si) : ¬ Queues s (.ok s') si :=
  fun hq => h (queues_ok.mp hq)

theorem not_queues_error {e : String} : ¬ Queues s (.error e) si := by
  rintro ⟨_, h, -⟩
  cases h

/-- Only the socket that a buffer is pushed to has it queued. -/
theorem queued_push {sj : ℕ} {chan : Chan} :
    Queued s ((s.mbufqPushtail si m).wakeup si chan) sj ↔ sj = si := by
  rw [Queued]
  by_cases hj : sj = si
  · subst hj
    simp [State.wakeup, State.mbufqPushtail, State.setSock]
  · simp [State.wakeup, State.mbufqPushtail, State.setSock, hj]

/-- A datagram is queued on the socket that the table has for it. -/
theorem netRxUdp_queued : Queued s (netRxUdp s m (ipLen iphdr) iphdr) si ↔
    IsDatagram iphdr m.data ∧ Selects s (dstPort (m.data.take sizeofUdp)) (ipSrc iphdr)
      (srcPort (m.data.take sizeofUdp)) si := by
  unfold netRxUdp
  split
  · next hp =>
    have hshort := mbufpull_none.mp hp
    exact ⟨fun h => absurd h not_queued_mbuffree, fun h => absurd h.1.header (by omega)⟩
  · next udphdr m' hp =>
    obtain ⟨hlen, rfl, rfl⟩ := mbufpull_some hp
    have hrest : (m.data.drop sizeofUdp).length = m.data.length - sizeofUdp := by simp
    dsimp only
    rw [hrest]
    -- the lengths of the two headers have to agree with what has arrived
    split
    · next hulen =>
      exact ⟨fun h => absurd h not_queued_mbuffree, fun h => absurd h.1.ulen hulen⟩
    next hulen =>
    split
    · next hlong =>
      exact ⟨fun h => absurd h not_queued_mbuffree,
        fun h => absurd h.1.length (Nat.not_le.mpr hlong)⟩
    next hshort =>
    have hdatagram : IsDatagram iphdr m.data := ⟨hlen, not_not.mp hulen, Nat.not_lt.mp hshort⟩
    rw [sockrecvudp, ← sockHashtableGet_iff]
    split
    · next hnone =>
      refine ⟨fun h => absurd h not_queued_mbuffree, fun h => ?_⟩
      have hsome := h.2
      rw [dstPort, ipSrc, srcPort, hnone] at hsome
      cases hsome
    · next sj hsome =>
      rw [queued_push, dstPort, ipSrc, srcPort, hsome]
      exact ⟨fun h => ⟨hdatagram, by rw [h]⟩, fun h => (Option.some.inj h.2).symm⟩

/-- The type of every ICMP packet is read as an Echo Reply. -/
theorem icmp_type_eq (b : UInt8) : (bswaps b.toUInt16).toUInt8 = ICMP_ECHOREPLY := by
  have hall : ∀ n < 256, (bswaps (UInt8.ofNat n).toUInt16).toUInt8 = ICMP_ECHOREPLY := by
    decide +kernel
  have hb : UInt8.ofNat b.toNat = b := UInt8.ofNat_toNat
  rw [← hb]
  exact hall b.toNat b.toNat_lt

theorem mbufput_ok {m m' : Mbuf} {b : List UInt8} :
    mbufput m b = .ok m' ↔ m.data.length + b.length ≤ MBUF_SIZE ∧
      m' = { m with data := m.data ++ b } := by
  unfold mbufput
  split
  · next hlong => exact ⟨nofun, fun h => absurd h.1 (Nat.not_le.mpr hlong)⟩
  · next hfits =>
    constructor
    · rintro h
      cases h
      exact ⟨Nat.not_lt.mp hfits, rfl⟩
    · rintro ⟨-, rfl⟩
      rfl

theorem mbuftrim_length {m : Mbuf} {n : ℕ} (h : n ≤ m.data.length) :
    (mbuftrim m n).data.length = m.data.length - n := by
  rw [mbuftrim, if_neg (Nat.not_lt.mpr h)]
  simp

/-- An ICMP packet of any type is queued on the socket that the table has for it. -/
theorem netRxIcmp_queued : Queues s (netRxIcmp s m (ipLen iphdr) iphdr) si ↔
    IsIcmp iphdr m.data ∧ Selects s 0 (ipSrc iphdr) 0 si := by
  unfold netRxIcmp
  split
  · next hp =>
    have hshort := mbufpull_none.mp hp
    exact ⟨fun h => absurd h (not_queues_ok not_queued_mbuffree),
      fun h => absurd h.1.header (by omega)⟩
  · next icmphdr m' hp =>
    obtain ⟨hlen, rfl, rfl⟩ := mbufpull_some hp
    have hrest : (m.data.drop sizeofIcmp).length = m.data.length - sizeofIcmp := by simp
    have hcut : icmpPadding iphdr m.data ≤ (m.data.drop sizeofIcmp).length := by
      rw [hrest, icmpPadding, UInt16.toNat_ofNat']
      exact (Nat.mod_le _ _).trans (Nat.sub_le _ _)
    dsimp only
    rw [icmp_type_eq, if_pos rfl, hrest]
    split
    · next hlong =>
      exact ⟨fun h => absurd h (not_queues_ok not_queued_mbuffree),
        fun h => absurd h.1.length (Nat.not_le.mpr hlong)⟩
    next hshort =>
    rw [show (UInt16.ofNat (m.data.length - sizeofIcmp - (ipLen iphdr - 8).toNat)).toNat =
      icmpPadding iphdr m.data from rfl]
    have htrim := mbuftrim_length (m := { m with data := m.data.drop sizeofIcmp }) hcut
    dsimp only at htrim
    rw [hrest] at htrim
    -- the 2 bytes for the length and the one for the TTL fit behind the text
    split
    · next e hput =>
      refine ⟨fun h => absurd h not_queues_error, fun h => ?_⟩
      have hroom := h.1.room
      rw [mbufput_ok.mpr ⟨by rw [htrim]; simp [uint16Bytes]; omega, rfl⟩] at hput
      cases hput
    next m₁ hput₁ =>
    obtain ⟨hfits₁, rfl⟩ := mbufput_ok.mp hput₁
    split
    · next e hput =>
      refine ⟨fun h => absurd h not_queues_error, fun h => ?_⟩
      have hroom := h.1.room
      rw [mbufput_ok.mpr ⟨by simp [htrim, uint16Bytes]; omega, rfl⟩] at hput
      cases hput
    next m₂ hput₂ =>
    obtain ⟨hfits₂, rfl⟩ := mbufput_ok.mp hput₂
    have hicmp : IsIcmp iphdr m.data := ⟨hlen, Nat.not_lt.mp hshort, by
      simp [htrim, uint16Bytes] at hfits₂
      omega⟩
    rw [queues_ok, sockrecvicmp, ← sockHashtableGet_iff]
    split
    · next hnone =>
      refine ⟨fun h => absurd h not_queued_mbuffree, fun h => ?_⟩
      have hsome := h.2
      rw [ipSrc, hnone] at hsome
      cases hsome
    · next sj hsome =>
      rw [queued_push, ipSrc, hsome]
      exact ⟨fun h => ⟨hicmp, by rw [h]⟩, fun h => (Option.some.inj h.2).symm⟩

/-- The state machine puts text on the queue of its own socket only. -/
theorem segmentArrives_queued {sj : ℕ} {hdr : TcpHdr} {raddr : UInt32} {lport rport len : UInt16}
    (h : segmentArrives rand s si hdr m raddr lport rport len = .ok s')
    (hget : TextTaken (s.sock si).tcpcb hdr len.toUInt32 →
      sockHashtableGet s lport raddr rport = some si) (hq : Queued s s' sj) : sj = si := by
  unfold segmentArrives at h
  split at h
  · cases h
  next r hr =>
  by_contra hne
  cases h
  apply hq
  simp only [State.setSock, Function.update_of_ne hne]
  cases hqueued : r.queued with
  | none => rfl
  | some ispush =>
    have htext := (queued_iff hr).mp (by rw [hqueued]; rfl)
    simp only [sockrecvtcp, hget htext]
    split
    · cases ispush <;> simp [State.wakeup, State.mbufqPushtail, State.setSock,
        Function.update_of_ne hne]
    · rfl

/-- The text of a segment is queued on the socket whose state machine the segment goes to. -/
theorem netRxTcp_queued (h : netRxTcp rand s m (ipLen iphdr) iphdr = .ok s')
    (hq : Queued s s' si) : IsSegment s iphdr m.data si := by
  unfold netRxTcp at h
  split at h
  · cases h
    exact absurd hq not_queued_mbuffree
  next tcphdr m' hp =>
  obtain ⟨hlen, rfl, rfl⟩ := mbufpull_some hp
  have hrest : (m.data.drop sizeofTcp).length = m.data.length - sizeofTcp := by simp
  dsimp only at h
  rw [hrest] at h
  split at h
  · cases h
    exact absurd hq not_queued_mbuffree
  next hshort =>
  split at h
  · cases h
    exact absurd hq not_queued_mbuffree
  next sj hget =>
  -- a socket without a peer is in `LISTEN`, where no text is taken
  split at h
  · next hfree =>
    split at h
    · cases h
      exact absurd hq not_queued_mbuffree
    next hpar =>
    split at h
    · cases h
    next hlisten =>
    split at h
    · cases h
    next s₁ hupd =>
    obtain ⟨hl, htcb⟩ := sockHashtableUpdate_spec hupd
    have hlisten : (s₁.sock sj).tcpcb.state = .listen := by
      rw [htcb]
      exact not_not.mp hlisten
    have hq₁ : Queued s₁ s' si := fun heq => hq (heq.trans (hl.2 si))
    have hsi := segmentArrives_queued h (fun ht => absurd ht (not_textTaken_of_listen hlisten)) hq₁
    subst hsi
    exact ⟨hlen, Nat.not_lt.mp hshort, hget, fun _ => by simpa using hpar⟩
  · next hbound =>
    have hsi := segmentArrives_queued h (fun _ => hget) hq
    subst hsi
    exact ⟨hlen, Nat.not_lt.mp hshort, hget, fun hor => absurd hor hbound⟩

end Receive

/-! ## Frames -/

/-- The buffer of a frame behind the IP header -/
def Mbuf.ipPayload (m : Mbuf) : Mbuf := { m with data := payloadOf m.data }

/-- A frame with an IP packet goes to the function for the packet's protocol. -/
theorem netRx_carries {rand : UInt32} {s : State} {m : Mbuf} {proto : UInt8}
    (h : CarriesIp m.data proto) : netRx rand s m =
      if proto = IPPROTO_UDP then
        .ok (netRxUdp s m.ipPayload (ipLen (iphdrOf m.data)) (iphdrOf m.data))
      else if proto = IPPROTO_TCP then
        netRxTcp rand s m.ipPayload (ipLen (iphdrOf m.data)) (iphdrOf m.data)
      else if proto = IPPROTO_ICMP then
        netRxIcmp s m.ipPayload (ipLen (iphdrOf m.data)) (iphdrOf m.data)
      else .ok (s.mbuffree m.ipPayload) := by
  obtain ⟨hlen, htype, hvhl, hcksum, hwhole, hdst, hproto⟩ := h
  have heth : mbufpull m sizeofEth =
      some (m.data.take sizeofEth, { m with data := m.data.drop sizeofEth }) :=
    if_neg (by omega)
  have hip : mbufpull { m with data := m.data.drop sizeofEth } sizeofIp =
      some (iphdrOf m.data, m.ipPayload) :=
    if_neg (by rw [List.length_drop]; omega)
  rw [netRx, heth]
  dsimp only
  rw [if_pos htype, netRxIp, hip]
  dsimp only
  rw [if_neg (not_not.mpr hvhl), if_neg (not_not.mpr hcksum), if_neg (not_not.mpr hwhole),
    if_neg (not_not.mpr hdst), hproto, ipLen]

/-- A frame without an IP packet is put on no queue. -/
theorem netRx_carries_none {rand : UInt32} {s : State} {m : Mbuf} {si : ℕ}
    (h : ∀ proto, ¬ CarriesIp m.data proto) : ¬ Queues s (netRx rand s m) si := by
  unfold netRx
  split
  · exact not_queues_ok not_queued_mbuffree
  next ethhdr m' hp =>
  obtain ⟨hlen, rfl, rfl⟩ := mbufpull_some hp
  dsimp only
  -- another type of frame, or an IP header that fails a test
  split
  swap
  · split
    · unfold netRxArp
      split
      · exact not_queues_ok not_queued_mbuffree
      · exact not_queues_ok fun hq => hq ((arpInput_leaked s _).2 si)
    · exact not_queues_ok not_queued_mbuffree
  next htype =>
  unfold netRxIp
  split
  · exact not_queues_ok not_queued_mbuffree
  next iphdr m' hp' =>
  obtain ⟨hlong, rfl, rfl⟩ := mbufpull_some hp'
  rw [List.length_drop] at hlong
  have hip : (m.data.drop sizeofEth).take sizeofIp = iphdrOf m.data := rfl
  rw [hip]
  split
  · exact not_queues_ok not_queued_mbuffree
  next hvhl =>
  split
  · exact not_queues_ok not_queued_mbuffree
  next hcksum =>
  split
  · exact not_queues_ok not_queued_mbuffree
  next hwhole =>
  split
  · exact not_queues_ok not_queued_mbuffree
  next hdst =>
  exact absurd ⟨by omega, htype, not_not.mp hvhl, not_not.mp hcksum, not_not.mp hwhole,
    not_not.mp hdst, rfl⟩ (h _)

section Carries

variable {rand : UInt32} {s : State} {m : Mbuf} {si : ℕ}

theorem netRx_udp (h : CarriesIp m.data IPPROTO_UDP) : Queues s (netRx rand s m) si ↔
    IsDatagram (iphdrOf m.data) (payloadOf m.data) ∧
      Selects s (dstPort ((payloadOf m.data).take sizeofUdp)) (ipSrc (iphdrOf m.data))
        (srcPort ((payloadOf m.data).take sizeofUdp)) si := by
  rw [netRx_carries h, if_pos rfl, queues_ok]
  exact netRxUdp_queued

theorem netRx_icmp (h : CarriesIp m.data IPPROTO_ICMP) : Queues s (netRx rand s m) si ↔
    IsIcmp (iphdrOf m.data) (payloadOf m.data) ∧ Selects s 0 (ipSrc (iphdrOf m.data)) 0 si := by
  rw [netRx_carries h, if_neg (by decide), if_neg (by decide), if_pos rfl]
  exact netRxIcmp_queued

theorem netRx_tcp (h : CarriesIp m.data IPPROTO_TCP) (hq : Queues s (netRx rand s m) si) :
    IsSegment s (iphdrOf m.data) (payloadOf m.data) si := by
  rw [netRx_carries h, if_neg (by decide), if_pos rfl] at hq
  obtain ⟨s', hok, hq⟩ := hq
  exact netRxTcp_queued hok hq

/-- What is queued came in a packet of one of the three protocols. -/
theorem carries_of_queues (hq : Queues s (netRx rand s m) si) :
    CarriesIp m.data IPPROTO_UDP ∨ CarriesIp m.data IPPROTO_TCP ∨
      CarriesIp m.data IPPROTO_ICMP := by
  by_contra hnone
  by_cases hip : ∃ proto, CarriesIp m.data proto
  · obtain ⟨proto, hc⟩ := hip
    have hudp : proto ≠ IPPROTO_UDP := fun heq => hnone (.inl (heq ▸ hc))
    have htcp : proto ≠ IPPROTO_TCP := fun heq => hnone (.inr (.inl (heq ▸ hc)))
    have hicmp : proto ≠ IPPROTO_ICMP := fun heq => hnone (.inr (.inr (heq ▸ hc)))
    rw [netRx_carries hc, if_neg hudp, if_neg htcp, if_neg hicmp] at hq
    exact not_queues_ok not_queued_mbuffree hq
  · exact netRx_carries_none (fun proto hc => hip ⟨proto, hc⟩) hq

end Carries

/-! ## Isolation -/

/-- What a socket of type `SOCK_RAW` is for -/
def EchoReply (frame : List UInt8) : Prop :=
  CarriesIp frame IPPROTO_ICMP ∧ (payloadOf frame).getD 0 0 = ICMP_ECHOREPLY

/-- The packet in a frame reaches sockets of the type for its protocol only. -/
structure Isolated (k : Kinds) (rand : UInt32) (s : State) (m : Mbuf) : Prop where
  udp : CarriesIp m.data IPPROTO_UDP → ∀ si, Queues s (netRx rand s m) si →
    k.type si = SOCK_DGRAM
  /-- The state machine is run on sockets that have been set up for it. -/
  tcp : CarriesIp m.data IPPROTO_TCP → ∀ si,
    IsSegment s (iphdrOf m.data) (payloadOf m.data) si → k.type si = SOCK_STREAM ∧ k.ready si
  icmp : CarriesIp m.data IPPROTO_ICMP → ∀ si, Queues s (netRx rand s m) si →
    k.type si = SOCK_RAW
  raw : ∀ si, Queues s (netRx rand s m) si → k.type si = SOCK_RAW → EchoReply m.data

/-- The socket that the table has for the packet in a frame is of the type for the packet's
    protocol. -/
structure Matching (k : Kinds) (s : State) (frame : List UInt8) : Prop where
  udp : CarriesIp frame IPPROTO_UDP → IsDatagram (iphdrOf frame) (payloadOf frame) → ∀ si,
    Selects s (dstPort ((payloadOf frame).take sizeofUdp)) (ipSrc (iphdrOf frame))
      (srcPort ((payloadOf frame).take sizeofUdp)) si → k.type si = SOCK_DGRAM
  /-- The socket is connected, or an `accept` waits on it. -/
  tcp : CarriesIp frame IPPROTO_TCP → sizeofTcp ≤ (payloadOf frame).length →
    (textLen (iphdrOf frame)).toNat ≤ (payloadOf frame).length - sizeofTcp → ∀ si,
    Selects s (dstPort ((payloadOf frame).take sizeofTcp)) (ipSrc (iphdrOf frame))
      (srcPort ((payloadOf frame).take sizeofTcp)) si →
    ((s.sock si).raddr = 0 ∨ (s.sock si).rport = 0 → (s.sock si).parent = true) →
    k.type si = SOCK_STREAM ∧ k.ready si
  icmp : CarriesIp frame IPPROTO_ICMP → IsIcmp (iphdrOf frame) (payloadOf frame) → ∀ si,
    Selects s 0 (ipSrc (iphdrOf frame)) 0 si →
    k.type si = SOCK_RAW ∧ (payloadOf frame).getD 0 0 = ICMP_ECHOREPLY

/-- **A packet stays with the sockets of its protocol if and only if the first socket in
    the table that fits it is one**, and a packet for a raw socket is an Echo Reply. -/
theorem protocol_isolation_iff (k : Kinds) (rand : UInt32) (s : State) (m : Mbuf) :
    Isolated k rand s m ↔ Matching k s m.data := by
  constructor
  · intro hiso
    refine ⟨fun hc hdatagram si hsel => ?_, fun hc hlen htext si hsel hopen => ?_,
      fun hc hicmp si hsel => ?_⟩
    · exact hiso.udp hc si ((netRx_udp hc).mpr ⟨hdatagram, hsel⟩)
    · exact hiso.tcp hc si ⟨hlen, htext, sockHashtableGet_iff.mpr hsel, hopen⟩
    · have hq : Queues s (netRx rand s m) si := (netRx_icmp hc).mpr ⟨hicmp, hsel⟩
      have hraw := hiso.icmp hc si hq
      exact ⟨hraw, (hiso.raw si hq hraw).2⟩
  · intro hmatch
    have hudp : CarriesIp m.data IPPROTO_UDP → ∀ si, Queues s (netRx rand s m) si →
        k.type si = SOCK_DGRAM := fun hc si hq => by
      obtain ⟨hdatagram, hsel⟩ := (netRx_udp hc).mp hq
      exact hmatch.udp hc hdatagram si hsel
    have htcp : CarriesIp m.data IPPROTO_TCP → ∀ si,
        IsSegment s (iphdrOf m.data) (payloadOf m.data) si →
        k.type si = SOCK_STREAM ∧ k.ready si := fun hc si hseg =>
      hmatch.tcp hc hseg.header hseg.length si (sockHashtableGet_iff.mp hseg.found) hseg.open_
    have hicmp : CarriesIp m.data IPPROTO_ICMP → ∀ si, Queues s (netRx rand s m) si →
        k.type si = SOCK_RAW ∧ (payloadOf m.data).getD 0 0 = ICMP_ECHOREPLY := fun hc si hq => by
      obtain ⟨hpacket, hsel⟩ := (netRx_icmp hc).mp hq
      exact hmatch.icmp hc hpacket si hsel
    refine ⟨hudp, htcp, fun hc si hq => (hicmp hc si hq).1, fun si hq hraw => ?_⟩
    -- a raw socket is neither of the other two types, so the packet is an ICMP packet
    rcases carries_of_queues hq with hc | hc | hc
    · exact absurd (hraw.symm.trans (hudp hc si hq)) (by decide)
    · exact absurd (hraw.symm.trans (htcp hc si (netRx_tcp hc hq)).1) (by decide)
    · exact ⟨hc, (hicmp hc si hq).2⟩

/-! ## A datagram in a TCP stream -/

/-- The datagram "hi" from port 80 of 10.0.2.2 to port 2000: the Ethernet header, the IP
    header, the UDP header and the text -/
def datagramBuffer : Mbuf where
  addr := 0x87000000
  data :=
    [0x52, 0x54, 0, 0x12, 0x34, 0x56, 0x52, 0x55, 10, 0, 2, 2, 8, 0] ++
    [0x45, 0, 0, 30, 0, 0, 0, 0, 64, 17, 0x62, 0xbf, 10, 0, 2, 2, 10, 0, 2, 15] ++
    [0, 80, 0x07, 0xd0, 0, 10, 0, 0] ++ [0x68, 0x69]

/-- The datagram is queued on the TCP connection of `oneConnection`, which has the same ports
    and the same address. -/
theorem datagram_in_stream : ¬ ∀ (k : Kinds) (rand : UInt32) (s : State) (m : Mbuf),
    Isolated k rand s m := by
  intro hall
  have hiso := hall ⟨fun _ => SOCK_STREAM, fun _ => true⟩ 7 oneConnection datagramBuffer
  have hc : CarriesIp datagramBuffer.data IPPROTO_UDP :=
    ⟨by decide, by decide, by decide, by decide, by decide, by decide, by decide⟩
  have hdatagram : IsDatagram (iphdrOf datagramBuffer.data) (payloadOf datagramBuffer.data) :=
    ⟨by decide, by decide, by decide⟩
  have hsel : Selects oneConnection (dstPort ((payloadOf datagramBuffer.data).take sizeofUdp))
      (ipSrc (iphdrOf datagramBuffer.data))
      (srcPort ((payloadOf datagramBuffer.data).take sizeofUdp)) 1 :=
    sockHashtableGet_iff.mp (by decide)
  have hdgram := hiso.udp hc 1 ((netRx_udp hc).mpr ⟨hdatagram, hsel⟩)
  exact absurd hdgram (show SOCK_STREAM ≠ SOCK_DGRAM by decide)

end Xv6.Kernel.Net
