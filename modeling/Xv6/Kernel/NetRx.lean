import Mathlib
import Xv6.Kernel.TcpArrival
import Xv6.Kernel.Net

/-!
# The Fate of a Received Buffer

`net_rx` owns the buffer of the frame it is given and has to hand it on: to
`mbuffree`, or to the receive queue of a socket. Every protocol does, on each of its
paths, except one: `net_rx_tcp` gives the buffer to `tcp_segments_arrives`, which
queues it if it takes the segment's text and does nothing with it otherwise.

- `netRxTcp_fate`: what happens to the buffer of a TCP segment;
- `net_rx_fate_iff`: a buffer meets exactly one fate if and only if its frame is not a
  segment for a socket that takes no text from it.
-/

namespace Xv6.Kernel.Net

open Xv6.Kernel.Tcp (TcpState TcpCb TcpHdr Signal Chan Arrival tcpSegmentsArrives TextTaken
  queued_iff TcpState.takesText)

/-! ## Fates -/

/-- The buffer at `m` has been passed to `mbuffree`, and put on no queue. -/
def Freed (s s' : State) (m : ℕ) : Prop :=
  s'.freed = s.freed ++ [m] ∧ ∀ si, (s'.sock si).rxq = (s.sock si).rxq

/-- The buffer at `m` has been linked into the queue of one socket, and nothing freed. -/
def Linked (s s' : State) (m : ℕ) : Prop :=
  s'.freed = s.freed ∧ ∃ si m', m'.addr = m ∧ (s'.sock si).rxq = (s.sock si).rxq ++ [m'] ∧
    ∀ sj, sj ≠ si → (s'.sock sj).rxq = (s.sock sj).rxq

/-- Exactly one of the two has happened to the buffer at `m`, once, and nothing to any
    other buffer. -/
def OneFate (s s' : State) (m : ℕ) : Prop := Freed s s' m ∨ Linked s s' m

/-- No buffer has been freed or queued. -/
def Leaked (s s' : State) : Prop :=
  s'.freed = s.freed ∧ ∀ si, (s'.sock si).rxq = (s.sock si).rxq

theorem Leaked.not_oneFate {s s' : State} {m : ℕ} (h : Leaked s s') : ¬ OneFate s s' m := by
  rintro (⟨hf, -⟩ | ⟨-, si, m', -, hq, -⟩)
  · have := congrArg List.length (h.1.symm.trans hf)
    simp at this
  · have := congrArg List.length ((h.2 si).symm.trans hq)
    simp at this

theorem mbuffree_fate (s : State) (m : Mbuf) : OneFate s (s.mbuffree m) m.addr :=
  .inl ⟨rfl, fun _ => rfl⟩

theorem mbufqPushtail_fate (s : State) (si : ℕ) (m : Mbuf) :
    OneFate s (s.mbufqPushtail si m) m.addr := by
  refine .inr ⟨rfl, si, m, rfl, ?_, fun sj hne => ?_⟩
  · simp [State.mbufqPushtail, State.setSock]
  · simp [State.mbufqPushtail, State.setSock, Function.update_of_ne hne]

/-- A fate is read off `freed` and the queues: the two states around it may be exchanged
    for states that agree on these. -/
theorem OneFate.congr {s s' t t' : State} {m : ℕ} (h : OneFate s s' m) (hl : Leaked s t)
    (hr : Leaked s' t') : OneFate t t' m := by
  rcases h with ⟨hf, hq⟩ | ⟨hf, si, m', hm, hsi, hsj⟩
  · exact .inl ⟨by rw [hr.1, hf, hl.1], fun si => by rw [hr.2, hq, hl.2]⟩
  · refine .inr ⟨by rw [hr.1, hf, hl.1], si, m', hm, by rw [hr.2, hsi, hl.2], fun sj hne => ?_⟩
    rw [hr.2, hsj sj hne, hl.2]

theorem Leaked.refl (s : State) : Leaked s s := ⟨rfl, fun _ => rfl⟩

theorem Leaked.symm {s t : State} (h : Leaked s t) : Leaked t s :=
  ⟨h.1.symm, fun si => (h.2 si).symm⟩

theorem Leaked.trans {s t u : State} (h : Leaked s t) (h' : Leaked t u) : Leaked s u :=
  ⟨h'.1.trans h.1, fun si => (h'.2 si).trans (h.2 si)⟩

/-- A store into a `struct sock` that keeps its queue -/
theorem setSock_leaked {s : State} {si : ℕ} {so : Sock} (h : so.rxq = (s.sock si).rxq) :
    Leaked s (s.setSock si so) := by
  refine ⟨rfl, fun sj => ?_⟩
  by_cases hj : sj = si
  · subst hj
    simpa [State.setSock] using h
  · simp [State.setSock, Function.update_of_ne hj]

@[simp] theorem mbufpull_none {m : Mbuf} {n : ℕ} : mbufpull m n = none ↔ m.data.length < n := by
  simp [mbufpull]

theorem mbufpull_some {m m' : Mbuf} {n : ℕ} {h : List UInt8} (hp : mbufpull m n = some (h, m')) :
    n ≤ m.data.length ∧ h = m.data.take n ∧ m' = { m with data := m.data.drop n } := by
  unfold mbufpull at hp
  split at hp
  · cases hp
  · cases hp
    exact ⟨by omega, rfl, rfl⟩

@[simp] theorem mbuftrim_addr (m : Mbuf) (n : ℕ) : (mbuftrim m n).addr = m.addr := by
  unfold mbuftrim
  split <;> rfl

theorem mbufput_addr {m m' : Mbuf} {b : List UInt8} (h : mbufput m b = .ok m') :
    m'.addr = m.addr := by
  unfold mbufput at h
  split at h
  · cases h
  · cases h
    rfl

/-! ## UDP, ICMP and ARP -/

theorem sockrecvudp_fate (s : State) (m : Mbuf) (raddr : UInt32) (lport rport : UInt16) :
    OneFate s (sockrecvudp s m raddr lport rport) m.addr := by
  unfold sockrecvudp
  split
  · exact mbuffree_fate s m
  · rename_i si _
    exact (mbufqPushtail_fate s si { m with sip := raddr, sport := rport }).congr (.refl s)
      ⟨rfl, fun _ => rfl⟩

theorem netRxUdp_fate (s : State) (m : Mbuf) (len : UInt16) (iphdr : List UInt8) :
    OneFate s (netRxUdp s m len iphdr) m.addr := by
  unfold netRxUdp
  split
  · exact mbuffree_fate s m
  · rename_i hp
    obtain ⟨-, -, rfl⟩ := mbufpull_some hp
    dsimp only
    split_ifs
    · exact mbuffree_fate s _
    · exact mbuffree_fate s _
    · simpa using sockrecvudp_fate s (mbuftrim _ _) _ _ _

theorem sockrecvicmp_fate (s : State) (m : Mbuf) (raddr : UInt32) :
    OneFate s (sockrecvicmp s m raddr) m.addr := by
  unfold sockrecvicmp
  split
  · exact mbuffree_fate s m
  · rename_i si _
    exact (mbufqPushtail_fate s si m).congr (.refl s) ⟨rfl, fun _ => rfl⟩

theorem netRxIcmp_fate {s s' : State} {m : Mbuf} {len : UInt16} {iphdr : List UInt8}
    (h : netRxIcmp s m len iphdr = .ok s') : OneFate s s' m.addr := by
  unfold netRxIcmp at h
  split at h
  · cases h
    exact mbuffree_fate s m
  · rename_i hp
    obtain ⟨-, -, rfl⟩ := mbufpull_some hp
    dsimp only at h
    split_ifs at h
    · cases h
      exact mbuffree_fate s _
    · split at h
      · cases h
      · rename_i m₁ hm₁
        split at h
        · cases h
        · rename_i m₂ hm₂
          cases h
          have haddr : m₂.addr = m.addr := by
            rw [mbufput_addr hm₂, mbufput_addr hm₁, mbuftrim_addr]
          exact haddr ▸ sockrecvicmp_fate s m₂ _

theorem arpInput_leaked (s : State) (arphdr : List UInt8) : Leaked s (arpInput s arphdr) := by
  have hupd : ∀ ip mac, Leaked s (updateArp s ip mac).1 := by
    intro ip mac
    unfold updateArp
    split <;> exact ⟨rfl, fun _ => rfl⟩
  unfold arpInput
  split
  · exact .refl s
  · dsimp only
    generalize hsip : bswapl (uint32At arphdr 14) = sip
    generalize hmac : (arphdr.drop 8).take ETHADDR_LEN = smac
    have hl := hupd sip smac
    revert hl
    rcases updateArp s sip smac with ⟨s₁, merged⟩
    intro hl
    have hadd : Leaked s₁ (if merged = true then s₁ else addArp s₁ sip smac) := by
      split <;> exact ⟨rfl, fun _ => rfl⟩
    dsimp only
    split
    · exact hl
    · split
      · exact hl.trans (hadd.trans ⟨rfl, fun _ => rfl⟩)
      · exact hl.trans (hadd.trans ⟨rfl, fun _ => rfl⟩)

theorem netRxArp_fate (s : State) (m : Mbuf) : OneFate s (netRxArp s m) m.addr := by
  unfold netRxArp
  split
  · exact mbuffree_fate s m
  · rename_i arphdr m' hp
    obtain ⟨-, -, rfl⟩ := mbufpull_some hp
    have hl := arpInput_leaked s arphdr
    exact .inl ⟨congrArg (· ++ [m.addr]) hl.1, hl.2⟩

/-! ## TCP -/

/-- The length that `net_rx_tcp` passes on: what follows the fixed header -/
def textLen (iphdr : List UInt8) : UInt16 := bswaps (uint16At iphdr 2) - 20 - 20

/-- The bytes `seg` behind the IP header are a segment that `net_rx_tcp` gives to the
    state machine of the socket `si`. -/
structure IsSegment (s : State) (iphdr seg : List UInt8) (si : ℕ) : Prop where
  header : sizeofTcp ≤ seg.length
  length : (textLen iphdr).toNat ≤ seg.length - sizeofTcp
  found : sockHashtableGet s (bswaps (uint16At (seg.take sizeofTcp) 2))
    (bswapl (uint32At iphdr 12)) (bswaps (uint16At (seg.take sizeofTcp) 0)) = some si
  open_ : (s.sock si).raddr = 0 ∨ (s.sock si).rport = 0 → (s.sock si).parent = true

/-- The text of the segment `seg` is taken by the socket `si`. -/
def TakesText (s : State) (iphdr seg : List UInt8) (si : ℕ) : Prop :=
  TextTaken (s.sock si).tcpcb (tcpHdr (seg.take sizeofTcp)) (textLen iphdr).toUInt32

/-- `sockrecvtcp` looks the socket up again and finds the one that the segment was given
    to, as the table has not changed. -/
theorem sockrecvtcp_eq {s : State} {si : ℕ} {raddr : UInt32} {lport rport : UInt16} (m : Mbuf)
    (ispush : Bool) (hget : sockHashtableGet s lport raddr rport = some si)
    (hpeer : (s.sock si).raddr ≠ 0 ∧ (s.sock si).rport ≠ 0) :
    OneFate s (sockrecvtcp s m raddr lport rport ispush) m.addr := by
  unfold sockrecvtcp
  simp only [hget]
  rw [if_pos hpeer]
  have hq := mbufqPushtail_fate s si { m with sip := raddr, sport := rport }
  cases ispush with
  | false => exact hq
  | true => exact hq.congr (.refl s) ⟨rfl, fun _ => rfl⟩

/-- The state machine keeps the buffer exactly if it takes the segment's text. -/
theorem segmentArrives_fate {rand : UInt32} {s s' : State} {si : ℕ} {hdr : TcpHdr} {m : Mbuf}
    {raddr : UInt32} {lport rport len : UInt16}
    (h : segmentArrives rand s si hdr m raddr lport rport len = .ok s')
    (hget : TextTaken (s.sock si).tcpcb hdr len.toUInt32 →
      sockHashtableGet s lport raddr rport = some si ∧
        (s.sock si).raddr ≠ 0 ∧ (s.sock si).rport ≠ 0) :
    OneFate s s' m.addr ↔ TextTaken (s.sock si).tcpcb hdr len.toUInt32 := by
  unfold segmentArrives at h
  split at h
  · cases h
  · rename_i r hr
    have hiff := queued_iff hr
    cases h
    -- without text for the queue nobody frees the buffer
    cases hq : r.queued with
    | none =>
      have hno : ¬ TextTaken (s.sock si).tcpcb hdr len.toUInt32 := by
        rw [← hiff, hq]
        simp
      simp only [hno, iff_false]
      have hl : Leaked s (s.setSock si { s.sock si with tcpcb := r.cb }) := setSock_leaked rfl
      exact Leaked.not_oneFate ⟨hl.1, hl.2⟩
    | some ispush =>
      have hyes : TextTaken (s.sock si).tcpcb hdr len.toUInt32 := by
        rw [← hiff, hq]
        rfl
      simp only [hyes, iff_true]
      obtain ⟨hget, hpeer⟩ := hget hyes
      set s₁ := sockrecvtcp s m raddr lport rport ispush with hs₁
      have hfate : OneFate s s₁ m.addr := sockrecvtcp_eq m ispush hget hpeer
      have hl : Leaked s₁ (s₁.setSock si { s₁.sock si with tcpcb := r.cb }) := setSock_leaked rfl
      exact hfate.congr (.refl s) ⟨hl.1, hl.2⟩

/-- A listening socket takes no text. -/
theorem not_textTaken_of_listen {cb : TcpCb} {hdr : TcpHdr} {len : UInt32}
    (h : cb.state = .listen) : ¬ TextTaken cb hdr len := by
  intro ht
  have := ht.state
  simp [h, TcpState.takesText] at this

/-- `sock_hashtable_update` changes the peer of a socket only. -/
theorem sockHashtableUpdate_spec {s s₁ : State} {si : ℕ} {raddr : UInt32} {rport : UInt16}
    (h : sockHashtableUpdate s si raddr rport = some s₁) :
    Leaked s s₁ ∧ (s₁.sock si).tcpcb = (s.sock si).tcpcb := by
  unfold sockHashtableUpdate at h
  split at h
  · cases h
    exact ⟨setSock_leaked rfl, by simp [State.setSock]⟩
  · cases h

/-- A socket that `net_rx_tcp` found with a peer is connected to the segment's sender. -/
theorem netRxTcp_fate {rand : UInt32} {s s' : State} {m : Mbuf} {iphdr : List UInt8}
    (h : netRxTcp rand s m (bswaps (uint16At iphdr 2) - 20) iphdr = .ok s') :
    OneFate s s' m.addr ↔
      ∀ si, IsSegment s iphdr m.data si → TakesText s iphdr m.data si := by
  unfold netRxTcp at h
  split at h
  · rename_i hp
    cases h
    have hlen := mbufpull_none.mp hp
    exact ⟨fun _ si hseg => absurd hseg.header (by omega), fun _ => mbuffree_fate s m⟩
  · rename_i tcphdr m' hp
    obtain ⟨hlen, rfl, rfl⟩ := mbufpull_some hp
    have hrest : (m.data.drop sizeofTcp).length = m.data.length - sizeofTcp := by simp
    dsimp only at h
    rw [hrest] at h
    split at h
    · rename_i hlong
      cases h
      refine ⟨fun _ si hseg => absurd hseg.length ?_, fun _ => mbuffree_fate s _⟩
      exact Nat.not_le.mpr hlong
    · rename_i hshort
      split at h
      · rename_i hget
        cases h
        refine ⟨fun _ si hseg => ?_, fun _ => by simpa using mbuffree_fate s (mbuftrim _ _)⟩
        rw [hseg.found] at hget
        cases hget
      · rename_i si hget
        -- the segment is for `si` alone, and goes to its state machine or is freed
        have hsame : ∀ sj, IsSegment s iphdr m.data sj → sj = si := fun sj hseg =>
          Option.some_inj.mp (hseg.found.symm.trans hget)
        have honly : IsSegment s iphdr m.data si →
            ((∀ sj, IsSegment s iphdr m.data sj → TakesText s iphdr m.data sj) ↔
              TakesText s iphdr m.data si) := fun hseg =>
          ⟨fun hall => hall si hseg, fun htext sj hj => hsame sj hj ▸ htext⟩
        have hseg : ((s.sock si).raddr = 0 ∨ (s.sock si).rport = 0 →
            (s.sock si).parent = true) → IsSegment s iphdr m.data si := fun hopen =>
          ⟨hlen, Nat.not_lt.mp hshort, hget, hopen⟩
        split at h
        · rename_i hfree
          split at h
          · rename_i hpar
            cases h
            refine ⟨fun _ sj hj => ?_, fun _ => by simpa using mbuffree_fate s (mbuftrim _ _)⟩
            have := hj.open_
            rw [hsame sj hj, hpar] at this
            exact absurd (this hfree) (by simp)
          · rename_i hpar
            rw [honly (hseg fun _ => by simpa using hpar)]
            split at h
            · cases h
            · rename_i hlisten
              have hlisten : (s.sock si).tcpcb.state = .listen := by simpa using hlisten
              split at h
              · cases h
              · rename_i s₁ hupd
                obtain ⟨hl, htcb⟩ := sockHashtableUpdate_spec hupd
                have hfate := segmentArrives_fate h fun ht =>
                  absurd ht (not_textTaken_of_listen (htcb ▸ hlisten))
                rw [TakesText, ← htcb]
                refine Iff.trans ⟨fun hone => ?_, fun hone => ?_⟩ hfate
                · simpa using hone.congr hl (.refl s')
                · simpa using hone.congr hl.symm (.refl s')
        · rename_i hpeer
          rw [honly (hseg fun h => absurd h hpeer)]
          have hpeer : (s.sock si).raddr ≠ 0 ∧ (s.sock si).rport ≠ 0 := by
            simpa [not_or] using hpeer
          have hfate := segmentArrives_fate h fun _ => ⟨hget, hpeer⟩
          simpa [TakesText, textLen] using hfate

/-! ## Frames -/

/-- The IP header of a frame -/
def iphdrOf (frame : List UInt8) : List UInt8 := (frame.drop sizeofEth).take sizeofIp

/-- What follows the IP header of a frame -/
def payloadOf (frame : List UInt8) : List UInt8 := (frame.drop sizeofEth).drop sizeofIp

/-- The frame passes the tests of `net_rx` and `net_rx_ip`, and carries TCP. -/
structure CarriesTcp (frame : List UInt8) : Prop where
  length : sizeofEth + sizeofIp ≤ frame.length
  type : bswaps (uint16At (frame.take sizeofEth) 12) = ETHTYPE_IP
  vhl : (iphdrOf frame).getD 0 0 = 0x45
  cksum : inCksum (iphdrOf frame) = 0
  whole : bswaps (uint16At (iphdrOf frame) 6) = 0
  dst : bswapl (uint32At (iphdrOf frame) 16) = localIp
  proto : (iphdrOf frame).getD 9 0 = IPPROTO_TCP

/-- Every segment that the frame may carry for a socket has its text taken by it. -/
def TextQueued (s : State) (frame : List UInt8) : Prop :=
  CarriesTcp frame → ∀ si, IsSegment s (iphdrOf frame) (payloadOf frame) si →
    TakesText s (iphdrOf frame) (payloadOf frame) si

theorem netRxIp_fate {rand : UInt32} {s s' : State} {m : Mbuf} {frame : List UInt8}
    (h : netRxIp rand s m = .ok s') (hdata : m.data = frame.drop sizeofEth)
    (hlen : sizeofEth ≤ frame.length)
    (htype : bswaps (uint16At (frame.take sizeofEth) 12) = ETHTYPE_IP) :
    OneFate s s' m.addr ↔ TextQueued s frame := by
  -- a frame without a TCP segment satisfies the right side, so its buffer needs a fate
  have hother : ∀ {s' : State}, OneFate s s' m.addr → ¬ CarriesTcp frame →
      (OneFate s s' m.addr ↔ TextQueued s frame) := fun hone hno =>
    ⟨fun _ hc => absurd hc hno, fun _ => hone⟩
  unfold netRxIp at h
  split at h
  · rename_i hp
    cases h
    have hshort := mbufpull_none.mp hp
    rw [hdata, List.length_drop] at hshort
    exact hother (mbuffree_fate s m) fun hc => by have := hc.length; omega
  · rename_i iphdr m' hp
    obtain ⟨hlong, rfl, rfl⟩ := mbufpull_some hp
    rw [hdata, List.length_drop] at hlong
    have hip : m.data.take sizeofIp = iphdrOf frame := by rw [hdata]; rfl
    rw [hip] at h
    split at h
    · cases h
      exact hother (mbuffree_fate s _) fun hc => absurd hc.vhl ‹_›
    · split at h
      · cases h
        exact hother (mbuffree_fate s _) fun hc => absurd hc.cksum ‹_›
      · split at h
        · cases h
          exact hother (mbuffree_fate s _) fun hc => absurd hc.whole ‹_›
        · split at h
          · cases h
            exact hother (mbuffree_fate s _) fun hc => absurd hc.dst ‹_›
          · have hudp : (iphdrOf frame).getD 9 0 = IPPROTO_UDP → ¬ CarriesTcp frame := by
              intro hp hc
              exact absurd (hp.symm.trans hc.proto) (by decide)
            have hicmp : (iphdrOf frame).getD 9 0 = IPPROTO_ICMP → ¬ CarriesTcp frame := by
              intro hp hc
              exact absurd (hp.symm.trans hc.proto) (by decide)
            dsimp only at h
            split at h
            · cases h
              exact hother (netRxUdp_fate s _ _ _) (hudp ‹_›)
            · split at h
              · rename_i hproto
                have hc : CarriesTcp frame :=
                  ⟨by omega, htype, not_not.mp ‹_›, not_not.mp ‹_›, not_not.mp ‹_›, not_not.mp ‹_›,
                    hproto⟩
                have hpay : m.data.drop sizeofIp = payloadOf frame := by rw [hdata]; rfl
                have hfate := netRxTcp_fate h
                rw [hpay] at hfate
                exact hfate.trans ⟨fun hall _ => hall, fun hall => hall hc⟩
              · split at h
                · have hone := netRxIcmp_fate h
                  exact hother hone (hicmp ‹_›)
                · cases h
                  exact hother (mbuffree_fate s _) fun hc => absurd hc.proto ‹_›

/-- **A received buffer meets exactly one fate if and only if the text of the TCP segment
    that it may carry is taken.** A segment for an open socket that has no text, or whose
    text the state of the connection does not take, leaks its buffer; every other frame is
    freed or queued. -/
theorem net_rx_fate_iff (rand : UInt32) (s s' : State) (m : Mbuf)
    (h : netRx rand s m = .ok s') : OneFate s s' m.addr ↔ TextQueued s m.data := by
  unfold netRx at h
  split at h
  · rename_i hp
    cases h
    have hshort := mbufpull_none.mp hp
    exact ⟨fun _ hc => by have := hc.length; omega, fun _ => mbuffree_fate s m⟩
  · rename_i ethhdr m' hp
    obtain ⟨hlen, rfl, rfl⟩ := mbufpull_some hp
    dsimp only at h
    split at h
    · have hfate := netRxIp_fate h rfl hlen ‹_›
      exact hfate
    · rename_i hip
      split at h
      · cases h
        exact ⟨fun _ hc => absurd hc.type hip, fun _ => netRxArp_fate s _⟩
      · cases h
        exact ⟨fun _ hc => absurd hc.type hip, fun _ => mbuffree_fate s _⟩

/-! ## An acknowledgment and a segment with text -/

/-- The stack with one socket: port 2000, connected to port 80 of 10.0.2.2. -/
def oneConnection : State where
  sockets := fun key => if key = hash 2000 then [1] else []
  sock := fun _ =>
    { raddr := 0x0a000202, lport := 2000, rport := 80, parent := false
      tcpcb := ⟨.established, 1000, 100, ⟨1001, 1001⟩, ⟨101, 2048⟩⟩, rxq := [] }
  arpCache := fun _ => ⟨0, []⟩
  freeArpIdx := 0
  freed := []
  tx := []
  wakeups := []

/-- A segment with acknowledgment number 1001 for that connection: Ethernet header, the IP
    header with its length and checksum, the TCP header, and the text -/
def segmentFrame (ipLen ipSum : UInt16) (text : List UInt8) : List UInt8 :=
  [0x52, 0x54, 0, 0x12, 0x34, 0x56, 0x52, 0x55, 10, 0, 2, 2, 8, 0] ++
  ([0x45, 0] ++ uint16Bytes (bswaps ipLen) ++ [0, 0, 0, 0, 64, 6] ++ uint16Bytes (bswaps ipSum) ++
    [10, 0, 2, 2, 10, 0, 2, 15]) ++
  [0, 80, 0x07, 0xd0, 0, 0, 0, 101, 0, 0, 0x03, 0xe9, 0x50, 0x18, 0xff, 0xff, 0, 0, 0, 0] ++ text

/-- The segment without text, an acknowledgment -/
def ackBuffer : Mbuf := { addr := 0x87000000, data := segmentFrame 40 0x62c0 [] }

/-- The segment with the text "hi" -/
def textBuffer : Mbuf := { addr := 0x87000000, data := segmentFrame 42 0x62be [0x68, 0x69] }

theorem exists_ok_of_isOk {ε α : Type} {x : Except ε α} (h : x.isOk = true) :
    ∃ a, x = .ok a := by
  cases x with
  | error e => cases h
  | ok a => exact ⟨a, rfl⟩

/-- The buffer of an acknowledgment leaks. -/
theorem acknowledgment_leaks :
    ¬ ∀ (rand : UInt32) (s s' : State) (m : Mbuf), netRx rand s m = .ok s' →
      OneFate s s' m.addr := by
  intro hall
  obtain ⟨s', h⟩ := exists_ok_of_isOk
    (show (netRx 7 oneConnection ackBuffer).isOk = true by decide +kernel)
  have hone := hall 7 oneConnection s' ackBuffer h
  have hip : netRxIp 7 oneConnection { ackBuffer with data := ackBuffer.data.drop sizeofEth } =
      .ok s' := by rw [← h]; rfl
  have htext := (netRxIp_fate hip rfl (by decide) (by decide)).mp hone
  have hseg : IsSegment oneConnection (iphdrOf ackBuffer.data) (payloadOf ackBuffer.data) 1 :=
    ⟨by decide, by decide, by decide, by decide⟩
  have htcp : CarriesTcp ackBuffer.data :=
    ⟨by decide, by decide, by decide, by decide, by decide, by decide, by decide⟩
  exact (htext htcp 1 hseg).text (by decide)

/-- The buffer of the segment with text has one fate. -/
theorem text_has_one_fate :
    ∃ s', netRx 7 oneConnection textBuffer = .ok s' ∧ OneFate oneConnection s' 0x87000000 := by
  obtain ⟨s', h⟩ := exists_ok_of_isOk
    (show (netRx 7 oneConnection textBuffer).isOk = true by decide +kernel)
  refine ⟨s', h, (net_rx_fate_iff 7 oneConnection s' textBuffer h).mpr ?_⟩
  intro _ si hseg
  have hfound := hseg.found
  have hsi : si = 1 := by
    have : sockHashtableGet oneConnection
      (bswaps (uint16At ((payloadOf textBuffer.data).take sizeofTcp) 2))
      (bswapl (uint32At (iphdrOf textBuffer.data) 12))
      (bswaps (uint16At ((payloadOf textBuffer.data).take sizeofTcp) 0)) = some 1 := by decide
    exact Option.some_inj.mp (hfound.symm.trans this)
  subst hsi
  exact ⟨.inr (by decide), by decide, by decide, by decide, by decide, by decide, by decide⟩

end Xv6.Kernel.Net
