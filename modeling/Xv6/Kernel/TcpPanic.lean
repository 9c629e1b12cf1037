import Mathlib
import Xv6.Lib.TransitionSystem
import Xv6.Kernel.SockTable
import Xv6.Kernel.TcpWakeup
import Xv6.Kernel.ProtocolIsolation

/-!
# Panics of the TCP Input Path

The sockets from `connect` and `accept` to `close`, and `net_rx_tcp` beside them. A call
gives way where it sleeps and between the table and `tcplock`, and so does `net_rx_tcp`
after the lookup and before the state machine.

The panics of the input path say that a socket without a peer listens, and that
`SND.UNA` is the initial sequence number in `SYN_SENT`. Both hold until an `accept` copies
a control block that does not listen, or a connection is opened from address or port 0.

- `netRxTcp_eq`: the three parts of `net_rx_tcp`, one after the other;
- `exec_inv`: what every safe step preserves;
- `tcp_input_no_panic`: in runs of safe steps no step panics.
-/

namespace Xv6.Kernel.TcpPanic

open Xv6.Lib
open Xv6.Kernel.Net hiding State
open Xv6.Kernel.Tcp hiding Sock Mbuf tcpApiReceive
open Xv6.Kernel.TcpWakeup (initClient closeState)

/-! ## The table and the control block -/

/-- What the table reads of the sockets -/
def table (s : Net.State) : SockTable.State where
  sock := fun si =>
    let so := s.sock si
    { lport := so.lport, raddr := so.raddr, rport := so.rport, parent := so.parent }
  chain := s.sockets

/-- `sock_hashtable_add(lport, raddr, rport, si)`; `none` for -1 -/
def sockHashtableAdd (s : Net.State) (lport : UInt16) (raddr : UInt32) (rport : UInt16) (si : ℕ) :
    Option Net.State :=
  match (table s).sockHashtableAdd lport raddr rport si with
  | (t, true) => some { s with sockets := t.chain }
  | (_, false) => none

/-- `sock_hashtable_remove(si)` -/
def sockHashtableRemove (s : Net.State) (si : ℕ) : Net.State :=
  { s with sockets := ((table s).sockHashtableRemove si).1.chain }

/-- The socket is in the chain for its port, and in no other one. -/
theorem sockHashtableRemove_sockets {s : Net.State} {si : ℕ}
    (hhash : ∀ key, si ∈ s.sockets key → key = Net.hash (s.sock si).lport) (key : ℕ) :
    (sockHashtableRemove s si).sockets key = (s.sockets key).erase si := by
  unfold sockHashtableRemove SockTable.State.sockHashtableRemove
  dsimp only
  split
  · change Function.update s.sockets (SockTable.hash ((table s).sock si).lport) _ key = _
    by_cases hkey : key = SockTable.hash ((table s).sock si).lport
    · rw [hkey, Function.update_self]
      rfl
    · rw [Function.update_of_ne hkey, List.erase_of_not_mem]
      exact fun hmem => hkey (hhash key hmem)
  · next hout =>
    refine (List.erase_of_not_mem fun hmem => hout ?_).symm
    rw [hhash key hmem] at hmem
    exact hmem

/-- The control block in a page that `kalloc` has filled with bytes 5 -/
def junkTcpcb : TcpCb where
  state := .finWait1
  iss := 0x05050505
  irs := 0x05050505
  snd := ⟨0x05050505, 0x05050505⟩
  rcv := ⟨0x05050505, 0x0505⟩

/-- What `tcp_api_send` does: the control block afterwards, the segments without text, and
    whether it returns 0 -/
structure Sent where
  cb : TcpCb
  signals : List Signal
  ok : Bool

/-- `tcp_api_send(m, si, flag, len)`; `rand` is the initial send sequence number. -/
def tcpApiSend (rand : UInt32) (so : Sock) (len : UInt32) : Sent :=
  let cb := so.tcpcb
  match cb.state with
  | .listen =>
    if so.raddr ≠ 0 then
      { cb := { cb with iss := rand, state := .synSent, snd := ⟨rand + 1, rand⟩ }
        signals := [⟨rand, 0, TCP_FLG_SYN⟩]
        ok := true }
    else ⟨cb, [], false⟩
  | .established => ⟨{ cb with snd := { cb.snd with nxt := cb.snd.nxt + len } }, [], true⟩
  | _ => ⟨cb, [], false⟩

/-- `tcp_api_close(si)` up to its `sleep` -/
def tcpApiClose (cb : TcpCb) : TcpCb × List Signal :=
  match closeState cb.state with
  | none => (cb, [])
  | some st =>
    ({ cb with state := st, snd := { cb.snd with nxt := cb.snd.nxt + 1 } },
      [⟨cb.snd.nxt, cb.rcv.nxt, TCP_FLG_FIN ||| TCP_FLG_ACK⟩])

/-- `tcp_api_receive` on a socket whose buffers are whole `mbuf`s; `none` if it sleeps. -/
def tcpApiReceive (so : Sock) (slept killed : Bool) (copyout : ℕ → Option ℕ) (n : ℕ) :
    Option Sock :=
  (Tcp.tcpApiReceive ⟨so.tcpcb, so.rxq.map Mbuf.data⟩ slept killed copyout n).map fun r =>
    { so with
      tcpcb := r.si.tcpcb
      rxq :=
        (so.rxq.drop (so.rxq.length - r.si.rxq.length)).zipWith (fun m data => { m with data := data })
          r.si.rxq }

/-! ## The parts of `net_rx_tcp` -/

/-- A segment that has been parsed -/
structure Segment where
  hdr : TcpHdr
  m : Mbuf
  raddr : UInt32
  lport : UInt16
  rport : UInt16
  len : UInt16

/-- `net_rx_tcp` up to the lookup -/
def parseTcp (m : Mbuf) (len : UInt16) (iphdr : List UInt8) : Option Segment :=
  match mbufpull m sizeofTcp with
  | none => none
  | some (tcphdr, m) =>
    let len := len - 20
    if len.toNat > m.data.length then none
    else
      some
        { hdr := tcpHdr tcphdr
          m := mbuftrim m (m.data.length - len.toNat)
          raddr := bswapl (uint32At iphdr 12)
          lport := bswaps (uint16At tcphdr 2)
          rport := bswaps (uint16At tcphdr 0)
          len := len }

/-- `sock_hashtable_get` -/
def Segment.find (seg : Segment) (s : Net.State) : Option ℕ :=
  sockHashtableGet s seg.lport seg.raddr seg.rport

/-- The tests of the socket that was found; `none` for `fail` -/
def Segment.bind (seg : Segment) (s : Net.State) (si : ℕ) : Except String (Option Net.State) :=
  if (s.sock si).raddr = 0 ∨ (s.sock si).rport = 0 then
    if (s.sock si).parent = false then .ok none
    else if (s.sock si).tcpcb.state ≠ .listen then .error "tcp accept1"
    else
      match sockHashtableUpdate s si seg.raddr seg.rport with
      | none => .error "tcp accept2"
      | some s => .ok (some s)
  else .ok (some s)

/-- The section under `tcplock` -/
def Segment.arrive (seg : Segment) (rand : UInt32) (s : Net.State) (si : ℕ) :
    Except String Net.State :=
  segmentArrives rand s si seg.hdr seg.m seg.raddr seg.lport seg.rport seg.len

theorem mbuffree_addr (s : Net.State) {m m' : Mbuf} (h : m.addr = m'.addr) :
    s.mbuffree m = s.mbuffree m' := by
  rw [Net.State.mbuffree, Net.State.mbuffree, h]

/-- `net_rx_tcp` runs the parts one after the other. -/
theorem netRxTcp_eq (rand : UInt32) (s : Net.State) (m : Mbuf) (len : UInt16)
    (iphdr : List UInt8) : netRxTcp rand s m len iphdr =
      match parseTcp m len iphdr with
      | none => .ok (s.mbuffree m)
      | some seg =>
        match seg.find s with
        | none => .ok (s.mbuffree m)
        | some si =>
          match seg.bind s si with
          | .error e => .error e
          | .ok none => .ok (s.mbuffree m)
          | .ok (some s) => seg.arrive rand s si := by
  unfold netRxTcp parseTcp
  -- The parts fail in the order in which `net_rx_tcp` makes its checks.
  cases hp : mbufpull m sizeofTcp with
  | none => rfl
  | some p =>
    obtain ⟨-, -, hm⟩ := mbufpull_some (show mbufpull m sizeofTcp = some (p.1, p.2) from hp)
    have haddr : p.2.addr = m.addr := by rw [hm]
    dsimp only
    split
    · exact congrArg Except.ok (mbuffree_addr s haddr)
    -- Trimming the buffer does not change the page that it frees.
    have hfree : s.mbuffree (mbuftrim p.2 (p.2.data.length - (len - 20).toNat)) = s.mbuffree m :=
      mbuffree_addr s ((mbuftrim_addr _ _).trans haddr)
    rw [hfree]
    dsimp only [Segment.find]
    cases hget : sockHashtableGet s (bswaps (uint16At p.1 2)) (bswapl (uint32At iphdr 12))
        (bswaps (uint16At p.1 0)) with
    | none => rfl
    | some si =>
      simp only [Segment.bind]
      by_cases hopen : (s.sock si).raddr = 0 ∨ (s.sock si).rport = 0
      -- A socket without a peer is bound only if it listens and has no parent.
      · rw [if_pos hopen, if_pos hopen]
        by_cases hparent : (s.sock si).parent = false
        · rw [if_pos hparent, if_pos hparent]
        · rw [if_neg hparent, if_neg hparent]
          by_cases hlisten : (s.sock si).tcpcb.state ≠ .listen
          · rw [if_pos hlisten, if_pos hlisten]
          · rw [if_neg hlisten, if_neg hlisten]
            cases sockHashtableUpdate s si (bswapl (uint32At iphdr 12)) (bswaps (uint16At p.1 0)) with
            | none => rfl
            | some s' => rfl
      · rw [if_neg hopen, if_neg hopen]
        rfl

/-! ## The system -/

/-- How far the calls have got with a socket -/
inductive Stage where
  /-- No socket is in this page. -/
  | free
  /-- In the table, before `tcp_init_client` or `tcp_init_server` -/
  | fresh (isClient : Bool)
  /-- In `tcp_init_client` -/
  | connecting
  /-- In `tcp_api_accept` -/
  | accepting
  /-- A process has a descriptor. -/
  | opened
  /-- In `sockclose` -/
  | closing
  deriving DecidableEq

/-- How far `net_rx_tcp` has got -/
inductive Rx where
  | idle
  | found (si : ℕ) (seg : Segment)
  | bound (si : ℕ) (seg : Segment)

structure State where
  net : Net.State
  /-- `si->type` -/
  type : ℕ → UInt8
  stage : ℕ → Stage
  rx : Rx

/-- The socket that `net_rx_tcp` holds a pointer to -/
def Rx.holds : Rx → ℕ → Prop
  | .idle, _ => False
  | .found si _, sj => sj = si
  | .bound si _, sj => sj = si

/-- What `sys_accept` finds at `f->sock`: it does not ask if the file is a socket. -/
inductive Listener where
  | sock (osi : ℕ)
  /-- The file is none, and this is in memory where it points. -/
  | stray (type : UInt8) (so : Sock)

inductive Act where
  /-- `sockalloc(f, raddr, lport, rport, sock_type, is_client)` up to `sock_hashtable_add` -/
  | connect (si : ℕ) (raddr : UInt32) (lport rport : UInt16) (sockType : UInt32) (isClient : Bool)
  /-- `tcp_init_client` or `tcp_init_server` -/
  | init (si : ℕ) (rand : UInt32)
  /-- `tcp_init_client` returns, and its caller. -/
  | connected (si : ℕ)
  /-- `sockaccept(osi, f)` up to `sock_hashtable_add` -/
  | accept (osi : Listener) (si : ℕ)
  /-- `tcp_api_accept` returns 0. -/
  | accepted (si : ℕ)
  | send (si : ℕ) (rand len : UInt32)
  | receive (si : ℕ) (slept killed : Bool) (copyout : ℕ → Option ℕ) (n : ℕ)
  /-- `sockclose(si)` up to the end of `tcp_api_close` -/
  | close (si : ℕ)
  /-- The rest of `sockclose(si)` -/
  | release (si : ℕ)
  /-- `net_rx_tcp(m, len, iphdr)` up to the lookup -/
  | segment (m : Mbuf) (len : UInt16) (iphdr : List UInt8)
  /-- The tests of the socket that was found -/
  | bind
  /-- `tcp_segments_arrives` -/
  | arrive (rand : UInt32)

namespace State

variable (s : State)

def setSock (si : ℕ) (so : Sock) : State := { s with net := s.net.setSock si so }

def setStage (si : ℕ) (stage : Stage) : State :=
  { s with stage := Function.update s.stage si stage }

/-- Put a new socket into the table. Where `sock_hashtable_add` fails, `bad` frees the
    socket, closes it after that, and faults on its queue. -/
def add (si : ℕ) (type : UInt8) (stage : Stage) (so : Sock) : Option State :=
  (sockHashtableAdd (s.net.setSock si so) so.lport so.raddr so.rport si).map fun net =>
    { s with net := net, type := Function.update s.type si type }.setStage si stage

/-- Store the control block of `si` and send. -/
def setTcpcb (si : ℕ) (cb : TcpCb) (signals : List Signal) : State :=
  { s with net :=
    { s.net.setSock si { s.net.sock si with tcpcb := cb } with
      tx := s.net.tx ++ signals.map (.tcp si) } }

end State

/-- The type and the `struct sock` that `sockaccept` reads; a socket is open while one of
    its descriptors is passed. -/
def Listener.read (s : State) : Listener → Option (UInt8 × Sock)
  | .sock osi => if s.stage osi = .opened then some (s.type osi, s.net.sock osi) else none
  | .stray type so => some (type, so)

/-- `sockaccept` takes the socket for one that listens. -/
def Listens (type : UInt8) (so : Sock) : Prop :=
  type = SOCK_STREAM ∧ so.rport = 0 ∧ so.raddr = 0 ∧ so.parent = false

instance (type : UInt8) (so : Sock) : Decidable (Listens type so) :=
  inferInstanceAs (Decidable (_ ∧ _ ∧ _ ∧ _))

/-- The socket that `sockaccept` makes -/
def acceptSock (so : Sock) : Sock where
  raddr := 0
  lport := so.lport
  rport := 0
  parent := true
  tcpcb := so.tcpcb
  rxq := []

/-- A step, an error if it panics, or `none` where it cannot be taken -/
def exec (s : State) : Act → Option (Except String State)
  | .connect si raddr lport rport sockType isClient =>
    if s.stage si = .free then
      -- the type is stored in a `uint8`, but compared as it was passed
      let stage := if sockType = SOCK_STREAM.toUInt32 then .fresh isClient else .opened
      (s.add si sockType.toUInt8 stage ⟨raddr, lport, rport, false, junkTcpcb, []⟩).map .ok
    else none
  | .init si rand =>
    let cb := (s.net.sock si).tcpcb
    match s.stage si with
    | .fresh true =>
      some (.ok ((s.setTcpcb si (initClient cb rand) [⟨rand, 0, TCP_FLG_SYN⟩]).setStage si
        .connecting))
    | .fresh false =>
      some (.ok ((s.setTcpcb si { cb with state := .listen } []).setStage si .opened))
    | _ => none
  | .connected si =>
    if s.stage si = .connecting ∧ (s.net.sock si).tcpcb.state ≠ .synSent then
      some (.ok (s.setStage si .opened))
    else none
  | .accept osi si =>
    match osi.read s with
    | none => none
    | some (type, so) =>
      if s.stage si = .free then
        if Listens type so then (s.add si type .accepting (acceptSock so)).map .ok
        else some (.ok s)
      else none
  | .accepted si =>
    if s.stage si = .accepting ∧ (s.net.sock si).tcpcb.state ≠ .listen then
      some (.ok (s.setStage si .opened))
    else none
  | .send si rand len =>
    if s.stage si = .opened ∧ s.type si = SOCK_STREAM then
      let sent := tcpApiSend rand (s.net.sock si) len
      some (.ok (s.setTcpcb si sent.cb sent.signals))
    else none
  | .receive si slept killed copyout n =>
    if s.stage si = .opened ∧ s.type si = SOCK_STREAM then
      match tcpApiReceive (s.net.sock si) slept killed copyout n with
      | none => some (.ok s)
      | some so => some (.ok (s.setSock si so))
    else none
  | .close si =>
    -- a process that has been killed in `tcp_init_client` closes the socket as it exits
    if s.stage si = .opened ∨ s.stage si = .connecting then
      if s.type si = SOCK_STREAM then
        let (cb, signals) := tcpApiClose (s.net.sock si).tcpcb
        some (.ok ((s.setTcpcb si cb signals).setStage si .closing))
      else some (.ok (s.setStage si .closing))
    else none
  | .release si =>
    if s.stage si = .closing then
      let net := sockHashtableRemove s.net si
      let net := { net with freed := net.freed ++ (net.sock si).rxq.map Mbuf.addr }
      some (.ok ({ s with net := net }.setStage si .free))
    else none
  | .segment m len iphdr =>
    match s.rx with
    | .idle =>
      match parseTcp m len iphdr with
      | none => some (.ok { s with net := s.net.mbuffree m })
      | some seg =>
        match seg.find s.net with
        | none => some (.ok { s with net := s.net.mbuffree m })
        | some si => some (.ok { s with rx := .found si seg })
    | _ => none
  | .bind =>
    match s.rx with
    | .found si seg =>
      match seg.bind s.net si with
      | .error e => some (.error e)
      | .ok none => some (.ok { s with net := s.net.mbuffree seg.m, rx := .idle })
      | .ok (some net) => some (.ok { s with net := net, rx := .bound si seg })
    | _ => none
  | .arrive rand =>
    match s.rx with
    | .bound si seg =>
      match seg.arrive rand s.net si with
      | .error e => some (.error e)
      | .ok net => some (.ok { s with net := net, rx := .idle })
    | _ => none

/-- No sockets -/
structure Init (s : State) : Prop where
  stage : ∀ si, s.stage si = .free
  sockets : ∀ key, s.net.sockets key = []
  rx : s.rx = .idle

/-- The sockets of the system and its `net_rx_tcp` -/
def system : System State Act where
  init := Init
  step := fun s a =>
    match exec s a with
    | some (.ok s') => some s'
    | _ => none

/-! ## Safe steps -/

/-- A segment that opens a connection in `LISTEN` -/
def Segment.Opens (seg : Segment) : Prop :=
  flgIsset seg.hdr.flags TCP_FLG_SYN = true ∧ flgIsset seg.hdr.flags TCP_FLG_RST = false ∧
    flgIsset seg.hdr.flags TCP_FLG_ACK = false

/-- An `accept` copies a control block that listens, no connection is opened with address
    or port 0, and no socket is freed while `net_rx_tcp` is at work on it. -/
def Safe (s : State) : Act → Prop
  | .accept osi _ => ∀ type so, osi.read s = some (type, so) → Listens type so →
      so.tcpcb.state = .listen
  | .arrive _ => ∀ si seg, s.rx = .bound si seg →
      (s.net.sock si).raddr = 0 ∨ (s.net.sock si).rport = 0 → ¬ seg.Opens
  | .release si => ¬ s.rx.holds si
  | _ => True

/-! ## What a segment does to the control block -/

section Arrives

variable {rand : UInt32} {cb : TcpCb} {hdr : TcpHdr} {len : UInt32} {r : Arrival}

/-- No synchronized state is left for `LISTEN` or `SYN_SENT`. -/
theorem synchronizedArrives_state (h : cb.state.synchronized = true) :
    (synchronizedArrives cb hdr len).cb.state ≠ .listen ∧
      (synchronizedArrives cb hdr len).cb.state ≠ .synSent := by
  have hkeep : cb.state ≠ .listen ∧ cb.state ≠ .synSent :=
    ⟨fun heq => by simp [heq, TcpState.synchronized] at h,
      fun heq => by simp [heq, TcpState.synchronized] at h⟩
  unfold synchronizedArrives
  split_ifs
  · exact hkeep
  · exact ⟨by rintro ⟨⟩, by rintro ⟨⟩⟩
  · exact ⟨by rintro ⟨⟩, by rintro ⟨⟩⟩
  · exact hkeep
  · split
    · next r hstop =>
      rcases ackField_stop_state hstop with hst | ⟨-, hst | ⟨-, ⟨-, hst⟩ | ⟨-, hst⟩⟩⟩
      · exact hst ▸ hkeep
      all_goals rw [hst]; exact ⟨by rintro ⟨⟩, by rintro ⟨⟩⟩
    · next cb' signals ws hgo =>
      have hst : cb'.state ≠ .listen ∧ cb'.state ≠ .synSent := by
        rcases (ackField_goOn_state hgo).2 with hst | ⟨-, hst, -⟩ | ⟨-, -, hst⟩
        · exact hst ▸ hkeep
        all_goals rw [hst]; exact ⟨by rintro ⟨⟩, by rintro ⟨⟩⟩
      rw [(finBit_spec _ _).2.1, (segmentText_spec ⟨cb', signals, none, ws⟩ hdr len rfl).2.1]
      split
      · revert hst
        cases cb'.state <;> simp [finState]
      · exact hst

/-- A segment in `LISTEN` leaves the block alone or opens a connection. -/
theorem listenArrives_state (rand : UInt32) (cb : TcpCb) (hdr : TcpHdr) :
    (listenArrives rand cb hdr).cb = cb ∨
      (listenArrives rand cb hdr).cb.state = .synRcvd ∧ flgIsset hdr.flags TCP_FLG_SYN = true ∧
        flgIsset hdr.flags TCP_FLG_RST = false ∧ flgIsset hdr.flags TCP_FLG_ACK = false := by
  unfold listenArrives
  split_ifs with hrst hack hsyn
  · exact .inl rfl
  · exact .inl rfl
  · exact .inr ⟨rfl, hsyn, by simpa using hrst, by simpa using hack⟩
  · exact .inl rfl

/-- A segment in `SYN_SENT` keeps the send sequence numbers or leaves the state. -/
theorem synSentArrives_state (h : synSentArrives cb hdr = .ok r) (hcb : cb.state = .synSent) :
    r.cb.state ≠ .listen ∧
      (r.cb.state = .synSent → r.cb.snd.una = cb.snd.una ∧ r.cb.iss = cb.iss) := by
  have hkeep : cb.state ≠ .listen ∧
      (cb.state = .synSent → cb.snd.una = cb.snd.una ∧ cb.iss = cb.iss) :=
    ⟨by simp [hcb], fun _ => ⟨rfl, rfl⟩⟩
  unfold synSentArrives at h
  dsimp only at h
  split at h
  · cases h
    exact hkeep
  split at h
  · cases h
    split
    · exact ⟨nofun, nofun⟩
    · exact hkeep
  split at h
  · cases h
  split at h
  · split_ifs at h <;> cases h <;> exact ⟨nofun, nofun⟩
  · cases h
    exact hkeep

/-- What a segment keeps of the two states that the panics are about -/
structure Keeps (cb cb' : TcpCb) : Prop where
  listen : cb'.state = .listen → cb.state = .listen
  synSent : cb'.state = .synSent → cb.state = .synSent ∧ cb'.snd.una = cb.snd.una ∧
    cb'.iss = cb.iss

theorem Keeps.of_eq {cb' : TcpCb} (hst : cb'.state = cb.state) (hsnd : cb'.snd.una = cb.snd.una)
    (hiss : cb'.iss = cb.iss) : Keeps cb cb' :=
  ⟨fun h => hst ▸ h, fun h => ⟨hst ▸ h, hsnd, hiss⟩⟩

theorem Keeps.of_ne {cb' : TcpCb} (h : cb'.state ≠ .listen ∧ cb'.state ≠ .synSent) :
    Keeps cb cb' :=
  ⟨fun h' => absurd h' h.1, fun h' => absurd h' h.2⟩

theorem listenArrives_keeps (rand : UInt32) (cb : TcpCb) (hdr : TcpHdr) :
    Keeps cb (listenArrives rand (withWindow cb hdr) hdr).cb := by
  rcases listenArrives_state rand (withWindow cb hdr) hdr with heq | ⟨hrcvd, -⟩
  · rw [heq]
    exact .of_eq rfl rfl rfl
  · exact .of_ne (hrcvd ▸ ⟨nofun, nofun⟩)

theorem tcpSegmentsArrives_eq (rand : UInt32) (cb : TcpCb) (hdr : TcpHdr) (len : UInt32) :
    tcpSegmentsArrives rand cb hdr len =
      match cb.state with
      | .closed => .ok (closedArrives rand (withWindow cb hdr) hdr len)
      | .listen => .ok (listenArrives rand (withWindow cb hdr) hdr)
      | .synSent => synSentArrives (withWindow cb hdr) hdr
      | _ => .ok (synchronizedArrives (withWindow cb hdr) hdr len) := rfl

theorem arrives_keeps (h : tcpSegmentsArrives rand cb hdr len = .ok r) : Keeps cb r.cb := by
  rw [tcpSegmentsArrives_eq] at h
  cases hst : cb.state with
  | closed =>
    simp only [hst, Except.ok.injEq] at h
    exact h ▸ listenArrives_keeps rand cb hdr
  | listen =>
    simp only [hst, Except.ok.injEq] at h
    exact h ▸ listenArrives_keeps rand cb hdr
  | synSent =>
    simp only [hst] at h
    obtain ⟨hlisten, hsent⟩ := synSentArrives_state h hst
    exact ⟨fun h' => absurd h' hlisten, fun h' => ⟨hst, hsent h'⟩⟩
  | _ =>
    simp only [hst, Except.ok.injEq] at h
    exact h ▸ .of_ne (synchronizedArrives_state (by simp [withWindow, hst, TcpState.synchronized]))

/-- A socket that listens goes on to, unless the segment opens a connection. -/
theorem arrives_listen (h : tcpSegmentsArrives rand cb hdr len = .ok r) (hst : cb.state = .listen)
    (hopens : ¬ (flgIsset hdr.flags TCP_FLG_SYN = true ∧ flgIsset hdr.flags TCP_FLG_RST = false ∧
      flgIsset hdr.flags TCP_FLG_ACK = false)) : r.cb.state = .listen := by
  rw [tcpSegmentsArrives_eq] at h
  simp only [hst, Except.ok.injEq] at h
  rcases listenArrives_state rand (withWindow cb hdr) hdr with heq | ⟨-, hopen⟩
  · rw [← h, heq]
    exact hst
  · exact absurd hopen hopens

end Arrives

/-! ## The invariant -/

/-- What holds of a socket -/
structure SockInv (stage : Stage) (so : Sock) : Prop where
  /-- Nothing has been acknowledged in `SYN_SENT`. -/
  synSent : so.tcpcb.state = .synSent → so.tcpcb.snd.una = so.tcpcb.iss
  /-- The socket of an `accept` listens until it has a peer. -/
  unbound : so.parent = true → so.raddr = 0 ∨ so.rport = 0 → so.tcpcb.state = .listen
  /-- Its descriptor is returned once it does not listen any more. -/
  accepted : so.parent = true → stage ≠ .accepting → so.tcpcb.state ≠ .listen
  fresh : ∀ isClient, stage = .fresh isClient → so.parent = false

structure Inv (s : State) : Prop where
  sock : ∀ si, s.stage si ≠ .free → SockInv (s.stage si) (s.net.sock si)
  linked : ∀ si key, si ∈ s.net.sockets key ↔
    s.stage si ≠ .free ∧ key = Net.hash (s.net.sock si).lport
  nodup : ∀ key, (s.net.sockets key).Nodup
  rx : ∀ si, s.rx.holds si → s.stage si ≠ .free
  /-- A socket that is given to the state machine without a peer is one of an `accept`. -/
  bound : ∀ si seg, s.rx = .bound si seg → (s.net.sock si).raddr = 0 ∨ (s.net.sock si).rport = 0 →
    (s.net.sock si).parent = true

theorem inv_init {s : State} (h : Init s) : Inv s where
  sock := fun si hne => absurd (h.stage si) hne
  linked := fun si key => by simp [h.stage, h.sockets]
  nodup := fun key => by simp [h.sockets]
  rx := fun si hold => by simp [h.rx, Rx.holds] at hold
  bound := fun si seg heq => by cases h.rx.symm.trans heq

/-- Stores into one socket and into the queues of others -/
structure Touches (s s' : State) (si : ℕ) : Prop where
  stage : ∀ sj, sj ≠ si → s'.stage sj = s.stage sj
  sock : ∀ sj, sj ≠ si → ∃ rxq, s'.net.sock sj = { s.net.sock sj with rxq := rxq }
  sockets : s'.net.sockets = s.net.sockets
  rx : s'.rx = s.rx ∨ s'.rx = .idle

theorem Rx.holds_bound {s : State} {si : ℕ} {seg : Segment} (h : s.rx = .bound si seg) :
    s.rx.holds si := by
  rw [h]
  rfl

/-- A socket that keeps its addresses -/
theorem Inv.touch {s s' : State} {si : ℕ} (h : Inv s) (ht : Touches s s' si)
    (hfree : s.stage si ≠ .free) (hfree' : s'.stage si ≠ .free) {cb : TcpCb} {rxq : List Mbuf}
    (hsock : s'.net.sock si = { s.net.sock si with tcpcb := cb, rxq := rxq })
    (hinv : SockInv (s'.stage si) (s'.net.sock si)) : Inv s' := by
  -- Addresses and parents stay for every socket: the touched one is changed in two other fields.
  have hkept : ∀ sj, (s'.net.sock sj).lport = (s.net.sock sj).lport ∧
      (s'.net.sock sj).raddr = (s.net.sock sj).raddr ∧
      (s'.net.sock sj).rport = (s.net.sock sj).rport ∧
      (s'.net.sock sj).parent = (s.net.sock sj).parent := by
    intro sj
    by_cases hj : sj = si
    · rw [hj, hsock]
      exact ⟨rfl, rfl, rfl, rfl⟩
    · obtain ⟨rxq, hsj⟩ := ht.sock sj hj
      rw [hsj]
      exact ⟨rfl, rfl, rfl, rfl⟩
  have hstage : ∀ sj, s.stage sj ≠ .free ↔ s'.stage sj ≠ .free := by
    intro sj
    by_cases hj : sj = si
    · rw [hj]
      exact ⟨fun _ => hfree', fun _ => hfree⟩
    · rw [ht.stage sj hj]
  refine ⟨fun sj hne => ?_, fun sj key => ?_, ht.sockets ▸ h.nodup, fun sj hold => ?_,
    fun sj seg heq hzero => ?_⟩
  -- The clauses about one socket: it is the touched one, or only its queue has changed.
  · by_cases hj : sj = si
    · exact hj ▸ hinv
    · obtain ⟨rxq, hsj⟩ := ht.sock sj hj
      have hi := h.sock sj ((hstage sj).mpr hne)
      rw [ht.stage sj hj, hsj]
      exact ⟨hi.synSent, hi.unbound, hi.accepted, hi.fresh⟩
  · rw [ht.sockets, (hkept sj).1, ← hstage sj]
    exact h.linked sj key
  · refine (hstage sj).mp (h.rx sj ?_)
    -- The segment in flight is the same, or there is none any more.
    rcases ht.rx with hrx | hrx <;> rw [hrx] at hold
    · exact hold
    · exact hold.elim
  · obtain ⟨-, hraddr, hrport, hparent⟩ := hkept sj
    rw [hraddr, hrport] at hzero
    rw [hparent]
    rcases ht.rx with hrx | hrx <;> rw [hrx] at heq
    · exact h.bound sj seg heq hzero
    · cases heq

/-- A step of another kind keeps the sockets. -/
theorem Inv.congr {s s' : State} (h : Inv s) (hnet : s'.net.sock = s.net.sock)
    (hsockets : s'.net.sockets = s.net.sockets) (hstage : s'.stage = s.stage)
    (hrx : ∀ si, s'.rx.holds si → s.stage si ≠ .free)
    (hbound : ∀ si seg, s'.rx = .bound si seg →
      (s.net.sock si).raddr = 0 ∨ (s.net.sock si).rport = 0 → (s.net.sock si).parent = true) :
    Inv s' := by
  refine ⟨?_, ?_, hsockets ▸ h.nodup, ?_, ?_⟩
  · rw [hnet, hstage]
    exact h.sock
  · rw [hnet, hstage, hsockets]
    exact h.linked
  · rw [hstage]
    exact hrx
  · rw [hnet]
    exact hbound

/-- The calls of a process touch the socket only. -/
theorem touches_setTcpcb (s : State) (si : ℕ) (cb : TcpCb) (signals : List Signal) (stage : Stage) :
    Touches s ((s.setTcpcb si cb signals).setStage si stage) si where
  stage := fun sj hne => Function.update_of_ne hne _ _
  sock := fun sj hne => ⟨(s.net.sock sj).rxq, by
    simp [State.setStage, State.setTcpcb, Net.State.setSock, Function.update_of_ne hne]⟩
  sockets := rfl
  rx := .inl rfl

theorem touches_setStage (s : State) (si : ℕ) (stage : Stage) :
    Touches s (s.setStage si stage) si where
  stage := fun _ hne => Function.update_of_ne hne _ _
  sock := fun _ _ => ⟨_, rfl⟩
  sockets := rfl
  rx := .inl rfl

/-- A call that stores a control block and goes on to another stage -/
theorem Inv.setTcpcb {s : State} {si : ℕ} (h : Inv s) (hfree : s.stage si ≠ .free) {cb : TcpCb}
    (signals : List Signal) {stage : Stage} (hfree' : stage ≠ .free)
    (hinv : SockInv stage { s.net.sock si with tcpcb := cb }) :
    Inv ((s.setTcpcb si cb signals).setStage si stage) := by
  have hstage : ((s.setTcpcb si cb signals).setStage si stage).stage si = stage :=
    Function.update_self _ _ _
  have hsock : ((s.setTcpcb si cb signals).setStage si stage).net.sock si =
      { s.net.sock si with tcpcb := cb } := Function.update_self _ _ _
  refine h.touch (touches_setTcpcb s si cb signals stage) hfree (by rwa [hstage]) hsock ?_
  rw [hstage, hsock]
  exact hinv

/-- A call that goes on to another stage -/
theorem Inv.setStage {s : State} {si : ℕ} (h : Inv s) (hfree : s.stage si ≠ .free)
    {stage : Stage} (hfree' : stage ≠ .free) (hinv : SockInv stage (s.net.sock si)) :
    Inv (s.setStage si stage) := by
  have hstage : (s.setStage si stage).stage si = stage := Function.update_self _ _ _
  refine h.touch (touches_setStage s si stage) hfree (by rwa [hstage]) rfl ?_
  rw [hstage]
  exact hinv

/-! ## New sockets and closed ones -/

theorem add_spec {s s' : State} {si : ℕ} {type : UInt8} {stage : Stage} {so : Sock}
    (h : s.add si type stage so = some s') :
    s'.rx = s.rx ∧ s'.stage = Function.update s.stage si stage ∧
      s'.net.sock = Function.update s.net.sock si so ∧
      s'.net.sockets = Function.update s.net.sockets (hash so.lport)
        (si :: s.net.sockets (hash so.lport)) := by
  rw [State.add, Option.map_eq_some_iff] at h
  obtain ⟨net, hadd, rfl⟩ := h
  have hlport : ((table (s.net.setSock si so)).sock si).lport = so.lport := by
    simp [table, Net.State.setSock]
  unfold sockHashtableAdd at hadd
  split at hadd
  · next t ht =>
    cases hadd
    unfold SockTable.State.sockHashtableAdd at ht
    dsimp only at ht
    split at ht
    · cases ht
    · cases ht
      rw [hlport]
      exact ⟨rfl, rfl, rfl, rfl⟩
  · cases hadd

/-- A new socket -/
theorem Inv.add {s s' : State} {si : ℕ} {type : UInt8} {stage : Stage} {so : Sock} (h : Inv s)
    (hfree : s.stage si = .free) (hadd : s.add si type stage so = some s')
    (hstage' : stage ≠ .free) (hinv : SockInv stage so) : Inv s' := by
  obtain ⟨hrx, hstage, hsock, hsockets⟩ := add_spec hadd
  -- A socket that is not in use is neither held by a segment nor linked.
  have hold : ∀ sj, s.rx.holds sj → sj ≠ si := fun sj hold heq => h.rx sj hold (heq ▸ hfree)
  have hnew : ∀ key, si ∉ s.net.sockets key := fun key hmem => ((h.linked si key).mp hmem).1 hfree
  refine ⟨fun sj hne => ?_, fun sj key => ?_, fun key => ?_, fun sj hh => ?_, fun sj seg heq => ?_⟩
  · by_cases hj : sj = si
    · subst hj
      rw [hstage, hsock, Function.update_self, Function.update_self]
      exact hinv
    · rw [hstage, Function.update_of_ne hj] at hne ⊢
      rw [hsock, Function.update_of_ne hj]
      exact h.sock sj hne
  · rw [hsockets, hstage, hsock]
    -- The new socket is put at the head of its own list.
    by_cases hj : sj = si
    · subst hj
      rw [Function.update_self, Function.update_self]
      by_cases hkey : key = Net.hash so.lport
      · subst hkey
        have hne : stage ≠ .free := hstage'
        simp [hne]
      · simpa [Function.update_of_ne hkey, hkey] using hnew key
    · rw [Function.update_of_ne hj, Function.update_of_ne hj, ← h.linked sj key]
      by_cases hkey : key = Net.hash so.lport
      · subst hkey
        simp [hj]
      · rw [Function.update_of_ne hkey]
  · rw [hsockets]
    by_cases hkey : key = Net.hash so.lport
    · subst hkey
      rw [Function.update_self]
      -- It was in no list before.
      exact List.nodup_cons.mpr ⟨hnew _, h.nodup _⟩
    · rw [Function.update_of_ne hkey]
      exact h.nodup key
  · rw [hrx] at hh
    rw [hstage, Function.update_of_ne (hold sj hh)]
    exact h.rx sj hh
  · rw [hrx] at heq
    rw [hsock, Function.update_of_ne (hold sj (Rx.holds_bound heq))]
    exact h.bound sj seg heq

/-- A socket that is freed -/
theorem Inv.release {s : State} {si : ℕ} (h : Inv s) (hrx : ¬ s.rx.holds si) {freed : List ℕ} :
    Inv ({ s with net := { sockHashtableRemove s.net si with freed := freed } }.setStage si .free) := by
  have hne : ∀ sj, (Function.update s.stage si Stage.free) sj ≠ .free → sj ≠ si := by
    rintro sj hne rfl
    exact hne (Function.update_self _ _ _)
  have hsockets := sockHashtableRemove_sockets fun key hmem => ((h.linked si key).mp hmem).2
  refine ⟨fun sj hj => ?_, fun sj key => ?_, fun key => ?_, fun sj hold => ?_, h.bound⟩
  · have hsj := Function.update_of_ne (hne sj hj) Stage.free s.stage
    change SockInv (Function.update s.stage si .free sj) _
    rw [hsj]
    exact h.sock sj (hsj ▸ hj)
  · change sj ∈ (sockHashtableRemove s.net si).sockets key ↔
      Function.update s.stage si .free sj ≠ .free ∧ key = Net.hash (s.net.sock sj).lport
    rw [hsockets, (h.nodup key).mem_erase_iff]
    by_cases hj : sj = si
    · subst hj
      simp
    · rw [Function.update_of_ne hj, h.linked sj key]
      simp [hj]
  · change ((sockHashtableRemove s.net si).sockets key).Nodup
    rw [hsockets]
    exact (h.nodup key).erase si
  · have hsj : sj ≠ si := by
      rintro rfl
      exact hrx hold
    change Function.update s.stage si .free sj ≠ .free
    rw [Function.update_of_ne hsj]
    exact h.rx sj hold

/-! ## Segments -/

/-- `sockrecvtcp` changes queues only. -/
theorem sockrecvtcp_sock (s : Net.State) (m : Mbuf) (raddr : UInt32) (lport rport : UInt16)
    (ispush : Bool) : (sockrecvtcp s m raddr lport rport ispush).sockets = s.sockets ∧
      ∀ sj, ∃ rxq, (sockrecvtcp s m raddr lport rport ispush).sock sj =
        { s.sock sj with rxq := rxq } := by
  unfold sockrecvtcp
  split
  · exact ⟨rfl, fun _ => ⟨_, rfl⟩⟩
  next si _ =>
  split
  swap
  · exact ⟨rfl, fun _ => ⟨_, rfl⟩⟩
  have hpush : ∀ sj, ∃ rxq, (s.mbufqPushtail si { m with sip := raddr, sport := rport }).sock sj =
      { s.sock sj with rxq := rxq } := fun sj => by
    by_cases hj : sj = si
    · subst hj
      exact ⟨_, Function.update_self _ _ _⟩
    · exact ⟨(s.sock sj).rxq, by simp [Net.State.mbufqPushtail, Net.State.setSock, hj]⟩
  cases ispush <;> exact ⟨rfl, hpush⟩

/-- The state machine runs on the control block of its socket. -/
theorem segmentArrives_spec {rand : UInt32} {s s' : Net.State} {si : ℕ} {hdr : TcpHdr} {m : Mbuf}
    {raddr : UInt32} {lport rport len : UInt16}
    (h : segmentArrives rand s si hdr m raddr lport rport len = .ok s') :
    ∃ r, tcpSegmentsArrives rand (s.sock si).tcpcb hdr len.toUInt32 = .ok r ∧
      (∃ rxq, s'.sock si = { s.sock si with tcpcb := r.cb, rxq := rxq }) ∧
      (∀ sj, sj ≠ si → ∃ rxq, s'.sock sj = { s.sock sj with rxq := rxq }) ∧
      s'.sockets = s.sockets := by
  unfold segmentArrives at h
  split at h
  · cases h
  next r hr =>
  refine ⟨r, hr, ?_⟩
  cases h
  -- Queueing the text changes queues only; the control block is stored after it.
  have hqueue : ∀ s₁ : Net.State, s₁.sockets = s.sockets →
      (∀ sj, ∃ rxq, s₁.sock sj = { s.sock sj with rxq := rxq }) →
      (∃ rxq, (s₁.setSock si { s₁.sock si with tcpcb := r.cb }).sock si =
        { s.sock si with tcpcb := r.cb, rxq := rxq }) ∧
      (∀ sj, sj ≠ si → ∃ rxq, (s₁.setSock si { s₁.sock si with tcpcb := r.cb }).sock sj =
        { s.sock sj with rxq := rxq }) ∧ s₁.sockets = s.sockets := by
    intro s₁ hsockets hsock
    refine ⟨?_, fun sj hne => ?_, hsockets⟩
    · obtain ⟨rxq, hsi⟩ := hsock si
      exact ⟨rxq, by simp [Net.State.setSock, hsi]⟩
    · obtain ⟨rxq, hsj⟩ := hsock sj
      exact ⟨rxq, by simp [Net.State.setSock, hne, hsj]⟩
  cases r.queued with
  | none => exact hqueue s rfl fun sj => ⟨_, rfl⟩
  | some ispush =>
    obtain ⟨hsockets, hsock⟩ := sockrecvtcp_sock s m raddr lport rport ispush
    exact hqueue _ hsockets hsock

theorem Inv.segment {s s' : State} {m : Mbuf} {len : UInt16} {iphdr : List UInt8} (h : Inv s)
    (hstep : exec s (.segment m len iphdr) = some (.ok s')) : Inv s' := by
  simp only [exec] at hstep
  split at hstep
  swap
  · cases hstep
  split at hstep
  · cases hstep
    exact h.congr rfl rfl rfl h.rx h.bound
  next seg _ =>
  split at hstep
  · cases hstep
    exact h.congr rfl rfl rfl h.rx h.bound
  next si hget =>
  cases hstep
  refine h.congr rfl rfl rfl (fun sj hold => ?_) nofun
  have hsj : sj = si := hold
  exact hsj ▸ ((h.linked si _).mp (sockHashtableGet_mem hget)).1

/-- The tests of a socket that is not free do not panic, and leave a socket without a peer
    only to an `accept`. -/
theorem Inv.bind_spec {s : State} {si : ℕ} (h : Inv s) (hfree : s.stage si ≠ .free)
    (seg : Segment) : seg.bind s.net si = .ok none ∨
      ∃ raddr rport, seg.bind s.net si = .ok (some (s.net.setSock si
        { s.net.sock si with raddr := raddr, rport := rport })) ∧
        (raddr = 0 ∨ rport = 0 → (s.net.sock si).parent = true) ∧
        ((raddr = (s.net.sock si).raddr ∧ rport = (s.net.sock si).rport) ∨
          (s.net.sock si).parent = true ∧ (s.net.sock si).tcpcb.state = .listen) := by
  unfold Segment.bind
  split
  · next hzero =>
    split
    · exact .inl rfl
    next hparent =>
    have hparent : (s.net.sock si).parent = true := by simpa using hparent
    have hlisten := (h.sock si hfree).unbound hparent hzero
    rw [if_neg (not_not.mpr hlisten), sockHashtableUpdate,
      if_pos ((h.linked si _).mpr ⟨hfree, rfl⟩)]
    exact .inr ⟨_, _, rfl, fun _ => hparent, .inr ⟨hparent, hlisten⟩⟩
  · next hpeer =>
    refine .inr ⟨_, _, ?_, fun hzero => absurd hzero hpeer, .inl ⟨rfl, rfl⟩⟩
    simp [Net.State.setSock]

theorem Inv.bind {s s' : State} (h : Inv s) (hstep : exec s .bind = some (.ok s')) : Inv s' := by
  simp only [exec] at hstep
  split at hstep
  swap
  · cases hstep
  next si seg hrx =>
  have hfree : s.stage si ≠ .free := h.rx si (by rw [hrx]; rfl)
  -- A segment whose socket is gone is dropped; else the socket may get its peer.
  rcases h.bind_spec hfree seg with heq | ⟨raddr, rport, heq, hopen, hkind⟩
  · rw [heq] at hstep
    cases hstep
    exact h.congr rfl rfl rfl (fun _ hold => hold.elim) nofun
  rw [heq] at hstep
  cases hstep
  refine ⟨fun sj hne => ?_, fun sj key => ?_, h.nodup, fun sj hold => ?_, ?_⟩
  -- The bound socket: if it had none of its own, it listens.
  · by_cases hj : sj = si
    · subst hj
      have hi := h.sock sj hfree
      simp only [Net.State.setSock, Function.update_self]
      refine ⟨hi.synSent, fun hp hzero => ?_, hi.accepted, hi.fresh⟩
      rcases hkind with ⟨hraddr, hrport⟩ | ⟨-, hlisten⟩
      · exact hi.unbound hp (hraddr ▸ hrport ▸ hzero)
      · exact hlisten
    · simpa [Net.State.setSock, hj] using h.sock sj hne
  -- The lists are by local port, which binding leaves.
  · have hlport : ((s.net.setSock si { s.net.sock si with raddr := raddr, rport := rport }).sock
        sj).lport = (s.net.sock sj).lport := by
      by_cases hj : sj = si
      · subst hj
        simp [Net.State.setSock]
      · simp [Net.State.setSock, hj]
    rw [hlport]
    exact h.linked sj key
  · have hsj : sj = si := hold
    exact hsj ▸ hfree
  · rintro sj seg' heq' hzero
    cases heq'
    simp only [Net.State.setSock, Function.update_self] at hzero ⊢
    exact hopen hzero

theorem Inv.arrive {s s' : State} {rand : UInt32} (h : Inv s) (hsafe : Safe s (.arrive rand))
    (hstep : exec s (.arrive rand) = some (.ok s')) : Inv s' := by
  simp only [exec] at hstep
  split at hstep
  swap
  · cases hstep
  next si seg hrx =>
  have hfree : s.stage si ≠ .free := h.rx si (Rx.holds_bound hrx)
  split at hstep
  · cases hstep
  next net harrive =>
  cases hstep
  obtain ⟨r, hr, ⟨rxq, hsi⟩, hsj, hsockets⟩ := segmentArrives_spec harrive
  have hi := h.sock si hfree
  have hkeep := arrives_keeps hr
  refine h.touch ⟨fun _ _ => rfl, hsj, hsockets, .inr rfl⟩ hfree hfree hsi ?_
  change SockInv (s.stage si) (net.sock si)
  rw [hsi]
  refine ⟨fun hst => ?_, fun hp hzero => ?_, fun hp hstage hst => ?_, hi.fresh⟩
  · obtain ⟨hsent, huna, hiss⟩ := hkeep.synSent hst
    exact huna.trans ((hi.synSent hsent).trans hiss.symm)
  · exact arrives_listen hr (hi.unbound hp hzero) (hsafe si seg hrx hzero)
  · exact hi.accepted hp hstage (hkeep.listen hst)

/-- A read changes the receive window only. -/
theorem receiveLoop_tcpcb (copyout : ℕ → Option ℕ) (cb : TcpCb) (i : ℕ) (rxq : List Tcp.Mbuf)
    (n len : ℕ) : ∃ wnd, (receiveLoop copyout cb i rxq n len).si.tcpcb =
      { cb with rcv := { cb.rcv with wnd := wnd } } := by
  induction rxq generalizing cb i n len with
  | nil => exact ⟨cb.rcv.wnd, rfl⟩
  | cons m rxq ih =>
    unfold receiveLoop
    dsimp only
    split
    · exact ⟨cb.rcv.wnd, rfl⟩
    · split_ifs
      all_goals
        first
        | exact ⟨_, rfl⟩
        | exact ih _ _ _ _

theorem tcpApiReceive_spec {so so' : Sock} {slept killed : Bool} {copyout : ℕ → Option ℕ} {n : ℕ}
    (h : tcpApiReceive so slept killed copyout n = some so') : ∃ wnd rxq,
      so' = { so with tcpcb := { so.tcpcb with rcv := { so.tcpcb.rcv with wnd := wnd } }, rxq := rxq } := by
  rw [tcpApiReceive, Option.map_eq_some_iff] at h
  obtain ⟨r, hr, rfl⟩ := h
  have hcb : ∃ wnd, r.si.tcpcb = { so.tcpcb with rcv := { so.tcpcb.rcv with wnd := wnd } } := by
    unfold Tcp.tcpApiReceive at hr
    split_ifs at hr <;> cases hr
    · exact ⟨so.tcpcb.rcv.wnd, rfl⟩
    · exact ⟨so.tcpcb.rcv.wnd, rfl⟩
    · exact receiveLoop_tcpcb _ _ _ _ _ _
  obtain ⟨wnd, hcb⟩ := hcb
  exact ⟨wnd, _, by rw [hcb]⟩

/-- A call on a socket that is not listening, and does not make it listen -/
theorem SockInv.of_ne {stage stage' : Stage} {so : Sock} {cb : TcpCb} (h : SockInv stage so)
    (hlisten : so.tcpcb.state ≠ .listen) (hcb : cb.state ≠ .listen)
    (hsent : cb.state = .synSent → cb.snd.una = cb.iss)
    (hfresh : ∀ isClient, stage' ≠ .fresh isClient) :
    SockInv stage' { so with tcpcb := cb } where
  synSent := hsent
  unbound := fun hp hzero => absurd (h.unbound hp hzero) hlisten
  accepted := fun _ _ => hcb
  fresh := fun isClient heq => absurd heq (hfresh isClient)

/-- `tcp_api_send` keeps what holds of an open socket. -/
theorem sent_inv {so : Sock} (h : SockInv .opened so) (rand len : UInt32) :
    SockInv .opened { so with tcpcb := (tcpApiSend rand so len).cb } := by
  unfold tcpApiSend
  dsimp only
  split
  · next hst =>
    -- an open socket that listens is none of `accept`
    have hparent : so.parent ≠ true := fun hp => h.accepted hp nofun hst
    split
    · exact ⟨fun _ => rfl, fun hp => absurd hp hparent, fun hp => absurd hp hparent, nofun⟩
    · exact h
  · next hst =>
    exact h.of_ne (hst ▸ nofun) (by simp [hst]) (by simp [hst]) nofun
  · exact h

/-- `tcp_api_close` keeps what holds of a socket with no process in `accept`. -/
theorem closed_inv {stage : Stage} {so : Sock} (h : SockInv stage so) (hstage : stage ≠ .accepting) :
    SockInv .closing { so with tcpcb := (tcpApiClose so.tcpcb).1 } := by
  unfold tcpApiClose
  split
  · exact ⟨h.synSent, h.unbound, fun hp _ => h.accepted hp hstage, nofun⟩
  · next st hst =>
    have hne : so.tcpcb.state ≠ .listen ∧ st ≠ .listen ∧ st ≠ .synSent := by
      cases hcb : so.tcpcb.state <;> simp [closeState, hcb] at hst <;> subst hst <;> simp
    exact h.of_ne hne.1 hne.2.1 (fun heq => absurd heq hne.2.2) nofun

/-- **What a safe step preserves.** -/
theorem exec_inv {s s' : State} {a : Act} (h : Inv s) (hsafe : Safe s a)
    (hstep : exec s a = some (.ok s')) : Inv s' := by
  -- Each call keeps what the invariant says of its own socket; `h.touch` does so for the others.
  cases a with
  | connect si raddr lport rport sockType isClient =>
    simp only [exec] at hstep
    split at hstep
    swap
    · cases hstep
    next hfree =>
    rw [Option.map_eq_some_iff] at hstep
    obtain ⟨s₁, hadd, heq⟩ := hstep
    cases heq
    refine h.add hfree hadd (by split <;> rintro ⟨⟩) ?_
    exact ⟨by rintro ⟨⟩, by rintro ⟨⟩, by rintro ⟨⟩, fun _ _ => rfl⟩
  | init si rand =>
    simp only [exec] at hstep
    split at hstep
    · next hst =>
      cases hstep
      -- A socket that is being opened has no parent, since only `accept` gives it one.
      have hparent := (h.sock si (hst ▸ (by rintro ⟨⟩))).fresh true hst
      exact h.setTcpcb (hst ▸ (by rintro ⟨⟩)) _ (by rintro ⟨⟩) ⟨fun _ => rfl, by simp [hparent], by simp [hparent],
        (by rintro _ ⟨⟩)⟩
    · next hst =>
      cases hstep
      have hparent := (h.sock si (hst ▸ (by rintro ⟨⟩))).fresh false hst
      exact h.setTcpcb (hst ▸ (by rintro ⟨⟩)) _ (by rintro ⟨⟩)
        ⟨by rintro ⟨⟩, by simp [hparent], by simp [hparent], by rintro _ ⟨⟩⟩
    · cases hstep
  | connected si =>
    simp only [exec] at hstep
    split at hstep
    swap
    · cases hstep
    next hst =>
    cases hstep
    have hi := h.sock si (hst.1 ▸ (by rintro ⟨⟩))
    exact h.setStage (hst.1 ▸ (by rintro ⟨⟩)) (by rintro ⟨⟩) ⟨hi.synSent, hi.unbound,
      fun hp _ => hi.accepted hp (hst.1 ▸ (by rintro ⟨⟩)), by rintro _ ⟨⟩⟩
  | accept osi si =>
    simp only [exec] at hstep
    split at hstep
    · cases hstep
    next type so hread =>
    split at hstep
    swap
    · cases hstep
    next hfree =>
    split at hstep
    swap
    · cases hstep
      exact h
    next hlistens =>
    rw [Option.map_eq_some_iff] at hstep
    obtain ⟨s₁, hadd, heq⟩ := hstep
    cases heq
    -- An accepted socket was seen to listen when its parent's structure was read.
    have hlisten := hsafe type so hread hlistens
    refine h.add hfree hadd (by rintro ⟨⟩) ⟨fun hst => ?_, fun _ _ => hlisten, by simp, by rintro _ ⟨⟩⟩
    cases hlisten.symm.trans hst
  | accepted si =>
    simp only [exec] at hstep
    split at hstep
    swap
    · cases hstep
    next hst =>
    cases hstep
    have hi := h.sock si (hst.1 ▸ (by rintro ⟨⟩))
    exact h.setStage (hst.1 ▸ (by rintro ⟨⟩)) (by rintro ⟨⟩) ⟨hi.synSent, hi.unbound, fun _ _ => hst.2, by rintro _ ⟨⟩⟩
  | send si rand len =>
    simp only [exec] at hstep
    split at hstep
    swap
    · cases hstep
    next hst =>
    cases hstep
    have hfree : s.stage si ≠ .free := hst.1 ▸ (by rintro ⟨⟩)
    -- The control block that sends keeps its state; its stage stays `opened`.
    have hsent := sent_inv (hst.1 ▸ h.sock si hfree) rand len
    have hstage : ∀ t : State, t.stage = s.stage → t.setStage si .opened = t := fun t ht => by
      rw [State.setStage, ht, ← hst.1, Function.update_eq_self, ← ht]
    exact hstage (s.setTcpcb si _ _) rfl ▸ h.setTcpcb hfree _ (by rintro ⟨⟩) hsent
  | receive si slept killed copyout n =>
    simp only [exec] at hstep
    split at hstep
    swap
    · cases hstep
    next hst =>
    split at hstep
    · cases hstep
      exact h
    next so' hreceive =>
    cases hstep
    have hfree : s.stage si ≠ .free := hst.1 ▸ (by rintro ⟨⟩)
    have hi := h.sock si hfree
    obtain ⟨wnd, rxq, rfl⟩ := tcpApiReceive_spec hreceive
    -- A read touches one socket.
    have ht : ∀ so, Touches s (s.setSock si so) si := fun so =>
      ⟨fun _ _ => rfl, fun sj hne => ⟨_, Function.update_of_ne hne _ _⟩, rfl, .inl rfl⟩
    refine h.touch (ht _) hfree hfree (Function.update_self _ _ _) ?_
    simp only [State.setSock, Net.State.setSock, Function.update_self]
    exact ⟨hi.synSent, hi.unbound, hi.accepted, hi.fresh⟩
  | close si =>
    simp only [exec] at hstep
    split at hstep
    swap
    · cases hstep
    next hst =>
    have hfree : s.stage si ≠ .free := by rcases hst with hst | hst <;> simp [hst]
    have hstage : s.stage si ≠ .accepting := by rcases hst with hst | hst <;> simp [hst]
    have hi := h.sock si hfree
    split at hstep
    · cases hstep
      exact h.setTcpcb hfree _ (by rintro ⟨⟩) (closed_inv hi hstage)
    · cases hstep
      exact h.setStage hfree (by rintro ⟨⟩) ⟨hi.synSent, hi.unbound, fun hp _ => hi.accepted hp hstage, by rintro _ ⟨⟩⟩
  | release si =>
    simp only [exec] at hstep
    split at hstep
    · cases hstep
      exact h.release hsafe
    · cases hstep
  | segment m len iphdr => exact h.segment hstep
  | bind => exact h.bind hstep
  | arrive rand => exact h.arrive hsafe hstep

/-- The system before the first call -/
def noSocks : State where
  net :=
    { sockets := fun _ => []
      sock := fun _ => ⟨0, 0, 0, false, junkTcpcb, []⟩
      arpCache := fun _ => ⟨0, []⟩
      freeArpIdx := 0
      freed := []
      tx := []
      wakeups := [] }
  type := fun _ => 0
  stage := fun _ => .free
  rx := .idle

theorem noSocks_init : system.init noSocks := ⟨fun _ => rfl, fun _ => rfl, rfl⟩

end Xv6.Kernel.TcpPanic
