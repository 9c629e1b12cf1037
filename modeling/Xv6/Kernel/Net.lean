import Mathlib
import Xv6.Kernel.Tcp

/-!
# Packet Input

The receive side of the network stack, from `net_rx` through ARP, IP, UDP, TCP and
ICMP to the receive queues of the sockets, with the hash table of sockets that each
protocol looks its socket up in.

A frame is the bytes of its `mbuf` from `head` on, and a header is read out of them
at the offsets of its `struct`, low byte first. The buffers handed to `mbuffree` and
the packets sent in reply are recorded in the order of the calls; the buffers of
outgoing packets are buffers of their own and are not modelled.
-/

namespace Xv6.Kernel.Net

open Xv6.Kernel.Tcp (TcpState TcpCb TcpHdr Signal Chan tcpSegmentsArrives)

/-! ## Buffers -/

/-- `MBUF_SIZE` -/
def MBUF_SIZE : ℕ := 2048

/-- `struct mbuf` at `addr`: the bytes of the buffer and where they came from -/
structure Mbuf where
  addr : ℕ
  data : List UInt8
  sip : UInt32 := 0
  sport : UInt16 := 0

/-- `mbufpull(m, len)`: the bytes stripped from the start, and the rest -/
def mbufpull (m : Mbuf) (len : ℕ) : Option (List UInt8 × Mbuf) :=
  if m.data.length < len then none
  else some (m.data.take len, { m with data := m.data.drop len })

/-- `mbuftrim(m, len)` -/
def mbuftrim (m : Mbuf) (len : ℕ) : Mbuf :=
  if len > m.data.length then m
  else { m with data := m.data.take (m.data.length - len) }

/-- `mbufput(m, len)`, with the bytes that the caller stores there -/
def mbufput (m : Mbuf) (bytes : List UInt8) : Except String Mbuf :=
  if m.data.length + bytes.length > MBUF_SIZE then .error "mbufput"
  else .ok { m with data := m.data ++ bytes }

/-! ## Byte order and headers -/

/-- The `uint16` at offset `i` of a header -/
def uint16At (b : List UInt8) (i : ℕ) : UInt16 :=
  (b.getD i 0).toUInt16 ||| ((b.getD (i + 1) 0).toUInt16 <<< 8)

/-- The `uint32` at offset `i` of a header -/
def uint32At (b : List UInt8) (i : ℕ) : UInt32 :=
  (uint16At b i).toUInt32 ||| ((uint16At b (i + 2)).toUInt32 <<< 16)

/-- `bswaps`, which is `ntohs` and `htons` -/
def bswaps (val : UInt16) : UInt16 := ((val &&& 0x00ff) <<< 8) ||| ((val &&& 0xff00) >>> 8)

/-- `bswapl`, which is `ntohl` and `htonl` -/
def bswapl (val : UInt32) : UInt32 :=
  ((val &&& 0x000000ff) <<< 24) ||| ((val &&& 0x0000ff00) <<< 8) |||
    ((val &&& 0x00ff0000) >>> 8) ||| ((val &&& 0xff000000) >>> 24)

/-- The loop of `in_cksum`: the sum of the 16-bit words, and of the odd byte -/
def inCksumLoop : List UInt8 → UInt32 → UInt32
  | a :: b :: w, sum => inCksumLoop w (sum + (uint16At [a, b] 0).toUInt32)
  | [a], sum => sum + a.toUInt32
  | [], sum => sum

/-- `in_cksum` -/
def inCksum (addr : List UInt8) : UInt16 :=
  let sum : UInt32 := inCksumLoop addr 0
  let sum : UInt32 := (sum &&& (0xffff : UInt32)) + (sum >>> (16 : UInt32))
  let sum : UInt32 := sum + (sum >>> (16 : UInt32))
  (~~~sum).toUInt16

def ETHTYPE_IP : UInt16 := 0x0800
def ETHTYPE_ARP : UInt16 := 0x0806
def IPPROTO_ICMP : UInt8 := 1
def IPPROTO_TCP : UInt8 := 6
def IPPROTO_UDP : UInt8 := 17
def ARP_HRD_ETHER : UInt16 := 1
def ARP_OP_REQUEST : UInt16 := 1
def ARP_OP_REPLY : UInt16 := 2
def ETHADDR_LEN : ℕ := 6
def ICMP_ECHOREPLY : UInt8 := 0

/-- `sizeof(struct eth)`, and of the other headers -/
def sizeofEth : ℕ := 14
def sizeofIp : ℕ := 20
def sizeofUdp : ℕ := 8
def sizeofTcp : ℕ := 20
def sizeofIcmp : ℕ := 8
def sizeofArp : ℕ := 28

/-- `local_ip`, 10.0.2.15 -/
def localIp : UInt32 := 0x0a00020f

/-- The fields of a `struct tcp` in host byte order -/
def tcpHdr (h : List UInt8) : TcpHdr where
  seq := bswapl (uint32At h 4)
  ack := bswapl (uint32At h 8)
  off := h.getD 12 0
  flags := h.getD 13 0
  win := bswaps (uint16At h 14)

/-! ## Sockets -/

/-- `SOCK_HASHTABLE_SIZE` -/
def SOCK_HASHTABLE_SIZE : ℕ := 128

/-- `ARP_MAX_ENTRIES` -/
def ARP_MAX_ENTRIES : ℕ := 64

/-- `struct sock`; `parent` says whether `tcpcb.parent` is set. -/
structure Sock where
  raddr : UInt32
  lport : UInt16
  rport : UInt16
  parent : Bool
  tcpcb : TcpCb
  rxq : List Mbuf

/-- `struct arp_entry` -/
structure ArpEntry where
  ip : UInt32
  mac : List UInt8

/-- A packet sent while a frame is received -/
inductive Tx where
  /-- `net_tx_tcp_signal(si, seq, ack, flags)` -/
  | tcp (si : ℕ) (signal : Signal)
  /-- `net_tx_arp(op, dmac, dip)` -/
  | arp (op : UInt16) (dmac : List UInt8) (dip : UInt32)
  /-- `send_remove_arpq(dip)`: the packets that waited for the address of `dip` -/
  | arpq (dip : UInt32)

/-- The network stack. A chain of the hash table is the list of the addresses of its
    sockets. -/
structure State where
  sockets : ℕ → List ℕ
  sock : ℕ → Sock
  arpCache : ℕ → ArpEntry
  freeArpIdx : ℕ
  /-- The buffers passed to `mbuffree` -/
  freed : List ℕ
  tx : List Tx
  wakeups : List (ℕ × Chan)

namespace State

/-- `mbuffree(m)` -/
def mbuffree (s : State) (m : Mbuf) : State := { s with freed := s.freed ++ [m.addr] }

/-- Store into the `struct sock` at `si`. -/
def setSock (s : State) (si : ℕ) (so : Sock) : State :=
  { s with sock := Function.update s.sock si so }

/-- `mbufq_pushtail(&si->rxq, m)` -/
def mbufqPushtail (s : State) (si : ℕ) (m : Mbuf) : State :=
  s.setSock si { s.sock si with rxq := (s.sock si).rxq ++ [m] }

/-- `wakeup` on a channel of the socket `si` -/
def wakeup (s : State) (si : ℕ) (chan : Chan) : State :=
  { s with wakeups := s.wakeups ++ [(si, chan)] }

end State

/-- `hash(i)` -/
def hash (i : UInt16) : ℕ := i.toNat % SOCK_HASHTABLE_SIZE

/-- The walk of `sock_hashtable_get` along a chain; `backup` is the first socket seen that
    is bound to no peer. -/
def sockHashtableGetLoop (sock : ℕ → Sock) (lport : UInt16) (raddr : UInt32) (rport : UInt16) :
    List ℕ → Option ℕ → Option ℕ
  | [], backup => backup
  | si :: chain, backup =>
    if (sock si).lport = lport then
      if (sock si).raddr = raddr ∧ (sock si).rport = rport then some si
      else if backup = none ∧ (sock si).raddr = 0 ∧ (sock si).rport = 0 then
        sockHashtableGetLoop sock lport raddr rport chain (some si)
      else sockHashtableGetLoop sock lport raddr rport chain backup
    else sockHashtableGetLoop sock lport raddr rport chain backup

/-- `sock_hashtable_get(lport, raddr, rport, &si)` -/
def sockHashtableGet (s : State) (lport : UInt16) (raddr : UInt32) (rport : UInt16) : Option ℕ :=
  sockHashtableGetLoop s.sock lport raddr rport (s.sockets (hash lport)) none

/-- `sock_hashtable_update(si, raddr, rport)`; `none` for -1 -/
def sockHashtableUpdate (s : State) (si : ℕ) (raddr : UInt32) (rport : UInt16) : Option State :=
  if si ∈ s.sockets (hash (s.sock si).lport) then
    some (s.setSock si { s.sock si with raddr := raddr, rport := rport })
  else none

/-! ## UDP, TCP and ICMP -/

/-- `sockrecvudp(m, raddr, lport, rport)` -/
def sockrecvudp (s : State) (m : Mbuf) (raddr : UInt32) (lport rport : UInt16) : State :=
  match sockHashtableGet s lport raddr rport with
  | none => s.mbuffree m
  | some si => (s.mbufqPushtail si { m with sip := raddr, sport := rport }).wakeup si .rxq

/-- `net_rx_udp(m, len, iphdr)` -/
def netRxUdp (s : State) (m : Mbuf) (len : UInt16) (iphdr : List UInt8) : State :=
  match mbufpull m sizeofUdp with
  | none => s.mbuffree m
  | some (udphdr, m) =>
    if bswaps (uint16At udphdr 4) ≠ len then s.mbuffree m
    else
      let len := len - 8
      if len.toNat > m.data.length then s.mbuffree m
      else
        let m := mbuftrim m (m.data.length - len.toNat)
        sockrecvudp s m (bswapl (uint32At iphdr 12)) (bswaps (uint16At udphdr 2))
          (bswaps (uint16At udphdr 0))

/-- `sockrecvtcp(m, raddr, lport, rport, ispush)` -/
def sockrecvtcp (s : State) (m : Mbuf) (raddr : UInt32) (lport rport : UInt16) (ispush : Bool) :
    State :=
  match sockHashtableGet s lport raddr rport with
  | none => s.mbuffree m
  | some si =>
    if (s.sock si).raddr ≠ 0 ∧ (s.sock si).rport ≠ 0 then
      let s := s.mbufqPushtail si { m with sip := raddr, sport := rport }
      if ispush then s.wakeup si .rxq else s
    else s.mbuffree m

/-- `tcp_segments_arrives` on the socket `si`, with what it does to the buffer -/
def segmentArrives (rand : UInt32) (s : State) (si : ℕ) (hdr : TcpHdr) (m : Mbuf)
    (raddr : UInt32) (lport rport len : UInt16) : Except String State :=
  match tcpSegmentsArrives rand (s.sock si).tcpcb hdr len.toUInt32 with
  | .error e => .error e
  | .ok r =>
    let s :=
      match r.queued with
      | none => s
      | some ispush => sockrecvtcp s m raddr lport rport ispush
    let s := s.setSock si { s.sock si with tcpcb := r.cb }
    .ok { s with
      tx := s.tx ++ r.signals.map (.tcp si)
      wakeups := s.wakeups ++ r.wakeups.map (si, ·) }

/-- `net_rx_tcp(m, len, iphdr)` -/
def netRxTcp (rand : UInt32) (s : State) (m : Mbuf) (len : UInt16) (iphdr : List UInt8) :
    Except String State :=
  match mbufpull m sizeofTcp with
  | none => .ok (s.mbuffree m)
  | some (tcphdr, m) =>
    let len := len - 20
    if len.toNat > m.data.length then .ok (s.mbuffree m)
    else
      let m := mbuftrim m (m.data.length - len.toNat)
      let sip := bswapl (uint32At iphdr 12)
      let dport := bswaps (uint16At tcphdr 2)
      let sport := bswaps (uint16At tcphdr 0)
      match sockHashtableGet s dport sip sport with
      | none => .ok (s.mbuffree m)
      | some si =>
        if (s.sock si).raddr = 0 ∨ (s.sock si).rport = 0 then
          -- the socket of an `accept` takes on the peer of the segment
          if (s.sock si).parent = false then .ok (s.mbuffree m)
          else if (s.sock si).tcpcb.state ≠ .listen then .error "tcp accept1"
          else
            match sockHashtableUpdate s si sip sport with
            | none => .error "tcp accept2"
            | some s => segmentArrives rand s si (tcpHdr tcphdr) m sip dport sport len
        else segmentArrives rand s si (tcpHdr tcphdr) m sip dport sport len

/-- `sockrecvicmp(m, raddr)` -/
def sockrecvicmp (s : State) (m : Mbuf) (raddr : UInt32) : State :=
  match sockHashtableGet s 0 raddr 0 with
  | none => s.mbuffree m
  | some si => (s.mbufqPushtail si m).wakeup si .rxq

/-- The low and the high byte of a `uint16` -/
def uint16Bytes (x : UInt16) : List UInt8 := [x.toUInt8, (x >>> 8).toUInt8]

/-- `net_rx_icmp(m, len, iphdr)` -/
def netRxIcmp (s : State) (m : Mbuf) (len : UInt16) (iphdr : List UInt8) : Except String State :=
  match mbufpull m sizeofIcmp with
  | none => .ok (s.mbuffree m)
  | some (icmphdr, m) =>
    let len := len - 8
    if len.toNat > m.data.length then .ok (s.mbuffree m)
    else
      let padding := UInt16.ofNat (m.data.length - len.toNat)
      let m := mbuftrim m padding.toNat
      -- `ntohs` of a byte, stored into a byte again
      let type := (bswaps (icmphdr.getD 0 0).toUInt16).toUInt8
      if type = ICMP_ECHOREPLY then
        match mbufput m (uint16Bytes (padding + 20 + 14 + 8)) with
        | .error e => .error e
        | .ok m =>
          match mbufput m [iphdr.getD 8 0] with
          | .error e => .error e
          | .ok m => .ok (sockrecvicmp s m (bswapl (uint32At iphdr 12)))
      else .error "net_rx_icmp"

/-! ## ARP, IP and Ethernet -/

/-- The entry that `update_arp(ip, mac)` finds -/
def State.arpIndex (s : State) (ip : UInt32) : Option ℕ :=
  (List.range (min s.freeArpIdx ARP_MAX_ENTRIES)).find? fun i => (s.arpCache i).ip = ip

/-- `update_arp(ip, mac)` and its result -/
def updateArp (s : State) (ip : UInt32) (mac : List UInt8) : State × Bool :=
  match s.arpIndex ip with
  | none => (s, false)
  | some i => ({ s with arpCache := Function.update s.arpCache i ⟨ip, mac⟩ }, true)

/-- `add_arp(ip, mac)` -/
def addArp (s : State) (ip : UInt32) (mac : List UInt8) : State :=
  { s with
    arpCache := Function.update s.arpCache (s.freeArpIdx % ARP_MAX_ENTRIES) ⟨ip, mac⟩
    freeArpIdx := s.freeArpIdx + 1 }

/-- Record a packet that is sent. -/
def State.send (s : State) (p : Tx) : State := { s with tx := s.tx ++ [p] }

/-- `net_rx_arp(m)` up to `done` -/
def arpInput (s : State) (arphdr : List UInt8) : State :=
  if bswaps (uint16At arphdr 0) ≠ ARP_HRD_ETHER ∨ bswaps (uint16At arphdr 2) ≠ ETHTYPE_IP ∨
      (arphdr.getD 4 0).toNat ≠ ETHADDR_LEN ∨ (arphdr.getD 5 0).toNat ≠ 4 then s
  else
    let smac := (arphdr.drop 8).take ETHADDR_LEN
    let sip := bswapl (uint32At arphdr 14)
    let (s, merged) := updateArp s sip smac
    if bswapl (uint32At arphdr 24) ≠ localIp then s
    else
      let s := if merged then s else addArp s sip smac
      if bswaps (uint16At arphdr 6) = ARP_OP_REQUEST then s.send (.arp ARP_OP_REPLY smac sip)
      else s.send (.arpq sip)

/-- `net_rx_arp(m)` -/
def netRxArp (s : State) (m : Mbuf) : State :=
  match mbufpull m sizeofArp with
  | none => s.mbuffree m
  | some (arphdr, m) => (arpInput s arphdr).mbuffree m

/-- `net_rx_ip(m)` -/
def netRxIp (rand : UInt32) (s : State) (m : Mbuf) : Except String State :=
  match mbufpull m sizeofIp with
  | none => .ok (s.mbuffree m)
  | some (iphdr, m) =>
    if iphdr.getD 0 0 ≠ 0x45 then .ok (s.mbuffree m)
    else if inCksum iphdr ≠ 0 then .ok (s.mbuffree m)
    else if bswaps (uint16At iphdr 6) ≠ 0 then .ok (s.mbuffree m)
    else if bswapl (uint32At iphdr 16) ≠ localIp then .ok (s.mbuffree m)
    else
      let len := bswaps (uint16At iphdr 2) - 20
      if iphdr.getD 9 0 = IPPROTO_UDP then .ok (netRxUdp s m len iphdr)
      else if iphdr.getD 9 0 = IPPROTO_TCP then netRxTcp rand s m len iphdr
      else if iphdr.getD 9 0 = IPPROTO_ICMP then netRxIcmp s m len iphdr
      else .ok (s.mbuffree m)

/-- `net_rx(m)` -/
def netRx (rand : UInt32) (s : State) (m : Mbuf) : Except String State :=
  match mbufpull m sizeofEth with
  | none => .ok (s.mbuffree m)
  | some (ethhdr, m) =>
    let type := bswaps (uint16At ethhdr 12)
    if type = ETHTYPE_IP then netRxIp rand s m
    else if type = ETHTYPE_ARP then .ok (netRxArp s m)
    else .ok (s.mbuffree m)

end Xv6.Kernel.Net
