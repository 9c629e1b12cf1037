import Mathlib
import Xv6.Lib.TransitionSystem
import Xv6.Kernel.TcpPanic

/-!
# Closing a Socket while Packets Arrive

`sockclose` beside the input of UDP, TCP and ICMP packets on any number of CPUs. A handler
looks the socket up in the table, gives the lock of the bucket back, and goes on with the
bare pointer; `sockclose` takes the socket out of the table, frees the buffers that wait in
its queue one after the other, and frees the socket. A section under the lock of a bucket,
under `si->lock` or under `tcplock` is one step, and so is each access outside of them.

- `netRxUdp_eq`, `netRxIcmp_eq`: the handlers run their parts one after the other;
- `Inv.handler`, `Inv.closes`: what the steps of a handler and of `sockclose` preserve;
- `unused_after_close`: no handler touches a socket that has been freed, and every buffer of
  its queue has been freed, in runs in which no packet is queued behind the end that
  `sockclose` has seen, and no socket is freed that a handler goes on to touch.
-/

namespace Xv6.Kernel.SockClose

open Xv6.Lib
open Xv6.Kernel.Net hiding State
open Xv6.Kernel.Tcp (TcpCb TcpHdr Signal Chan Arrival tcpSegmentsArrives)
open Xv6.Kernel.TcpPanic (Segment parseTcp sockHashtableRemove tcpApiClose table)
open Xv6.Kernel.TcpWakeup (closeState)

/-! ## The parts of `net_rx_udp` and `net_rx_icmp` -/

/-- A packet that has been parsed: the buffer that goes into the queue, and what the socket is
    looked up by -/
structure Datagram where
  m : Mbuf
  raddr : UInt32
  lport : UInt16
  rport : UInt16

/-- `net_rx_udp` up to the lookup -/
def parseUdp (m : Mbuf) (len : UInt16) (iphdr : List UInt8) : Option Datagram :=
  match mbufpull m sizeofUdp with
  | none => none
  | some (udphdr, m) =>
    if bswaps (uint16At udphdr 4) ≠ len then none
    else
      let len := len - 8
      if len.toNat > m.data.length then none
      else
        let m := mbuftrim m (m.data.length - len.toNat)
        let raddr := bswapl (uint32At iphdr 12)
        let rport := bswaps (uint16At udphdr 0)
        some
          { m := { m with sip := raddr, sport := rport }
            raddr := raddr
            lport := bswaps (uint16At udphdr 2)
            rport := rport }

/-- `net_rx_icmp` up to the lookup -/
def parseIcmp (m : Mbuf) (len : UInt16) (iphdr : List UInt8) : Except String (Option Datagram) :=
  match mbufpull m sizeofIcmp with
  | none => .ok none
  | some (icmphdr, m) =>
    let len := len - 8
    if len.toNat > m.data.length then .ok none
    else
      let padding := UInt16.ofNat (m.data.length - len.toNat)
      let m := mbuftrim m padding.toNat
      let type := (bswaps (icmphdr.getD 0 0).toUInt16).toUInt8
      if type = ICMP_ECHOREPLY then
        match mbufput m (uint16Bytes (padding + 20 + 14 + 8)) with
        | .error e => .error e
        | .ok m =>
          match mbufput m [iphdr.getD 8 0] with
          | .error e => .error e
          | .ok m => .ok (some ⟨m, bswapl (uint32At iphdr 12), 0, 0⟩)
      else .error "net_rx_icmp"

/-- `sock_hashtable_get` -/
def Datagram.find (d : Datagram) (s : Net.State) : Option ℕ :=
  sockHashtableGet s d.lport d.raddr d.rport

/-- The section under `si->lock` -/
def deliver (s : Net.State) (si : ℕ) (m : Mbuf) : Net.State :=
  (s.mbufqPushtail si m).wakeup si .rxq

theorem mbufput_addr {m m' : Mbuf} {bytes : List UInt8} (h : mbufput m bytes = .ok m') :
    m'.addr = m.addr := by
  unfold mbufput at h
  split at h
  · cases h
  · cases h
    rfl

/-- `net_rx_udp` runs the parts one after the other. -/
theorem netRxUdp_eq (s : Net.State) (m : Mbuf) (len : UInt16) (iphdr : List UInt8) :
    netRxUdp s m len iphdr =
      match parseUdp m len iphdr with
      | none => s.mbuffree m
      | some d =>
        match d.find s with
        | none => s.mbuffree m
        | some si => deliver s si d.m := by
  unfold netRxUdp parseUdp
  cases hp : mbufpull m sizeofUdp with
  | none => rfl
  | some p =>
    obtain ⟨-, -, hm⟩ := mbufpull_some (show mbufpull m sizeofUdp = some (p.1, p.2) from hp)
    have haddr : p.2.addr = m.addr := by rw [hm]
    have hfree : s.mbuffree p.2 = s.mbuffree m := TcpPanic.mbuffree_addr s haddr
    have htrim : s.mbuffree (mbuftrim p.2 (p.2.data.length - (len - 8).toNat)) = s.mbuffree m :=
      TcpPanic.mbuffree_addr s ((mbuftrim_addr _ _).trans haddr)
    dsimp only
    split
    · exact hfree
    split
    · exact hfree
    dsimp only [sockrecvudp, Datagram.find]
    rw [htrim]
    rfl

/-- `net_rx_icmp` runs the parts one after the other. -/
theorem netRxIcmp_eq (s : Net.State) (m : Mbuf) (len : UInt16) (iphdr : List UInt8) :
    netRxIcmp s m len iphdr =
      match parseIcmp m len iphdr with
      | .error e => .error e
      | .ok none => .ok (s.mbuffree m)
      | .ok (some d) =>
        match d.find s with
        | none => .ok (s.mbuffree m)
        | some si => .ok (deliver s si d.m) := by
  unfold netRxIcmp parseIcmp
  cases hp : mbufpull m sizeofIcmp with
  -- Too short for the header: `parseIcmp` says so as well.
  | none => rfl
  | some p =>
    obtain ⟨-, -, hm⟩ := mbufpull_some (show mbufpull m sizeofIcmp = some (p.1, p.2) from hp)
    have haddr : p.2.addr = m.addr := by rw [hm]
    dsimp only
    generalize UInt16.ofNat (p.2.data.length - (len - 8).toNat) = padding
    -- A packet that is too short is dropped; one of another type panics.
    split
    · exact congrArg Except.ok (TcpPanic.mbuffree_addr s haddr)
    split
    swap
    · rfl
    cases hm₁ : mbufput (mbuftrim p.2 padding.toNat) (uint16Bytes (padding + 20 + 14 + 8)) with
    | error e => rfl
    | ok m₁ =>
      dsimp only
      cases hm₂ : mbufput m₁ [iphdr.getD 8 0] with
      | error e => rfl
      | ok m₂ =>
        -- The pulls and puts move the head of the buffer, not the page that it frees.
        have hfree : s.mbuffree m₂ = s.mbuffree m :=
          TcpPanic.mbuffree_addr s
            ((mbufput_addr hm₂).trans ((mbufput_addr hm₁).trans ((mbuftrim_addr _ _).trans haddr)))
        dsimp only [sockrecvicmp, Datagram.find]
        rw [hfree]
        cases sockHashtableGet s 0 (bswapl (uint32At iphdr 12)) 0 with
        | none => rfl
        | some si => rfl

/-! ## What the handlers read -/

/-- The sockets that `sock_hashtable_get` reads: the chain up to the one that matches -/
def getReads (s : Net.State) (lport : UInt16) (raddr : UInt32) (rport : UInt16) : List ℕ :=
  let chain := s.sockets (Net.hash lport)
  chain.take (chain.findIdx (fun si => (s.sock si).HasKey lport raddr rport) + 1)

/-- The sockets that the walk of `sock_hashtable_update` comes to -/
def updateReads (s : Net.State) (si : ℕ) : List ℕ :=
  let chain := s.sockets (Net.hash (s.sock si).lport)
  chain.take (chain.idxOf si + 1)

/-- The sockets that `tcp_segments_arrives` touches: its own, and those that `sockrecvtcp`
    comes to as it looks the socket up again -/
def arriveReads (seg : Segment) (rand : UInt32) (s : Net.State) (si : ℕ) : List ℕ :=
  si ::
    match tcpSegmentsArrives rand (s.sock si).tcpcb seg.hdr seg.len.toUInt32 with
    | .ok r => if r.queued.isSome then getReads s seg.lport seg.raddr seg.rport else []
    | .error _ => []

/-! ## The system -/

/-- How far `net_rx_tcp` has got after the lookup -/
inductive Point where
  -- `si->raddr == 0 || si->rport == 0`
  | raddr
  | rport
  -- the tests of a socket without a peer
  | parent
  | state
  -- `sock_hashtable_update`: `hash(si->lport)`, and the section
  | lport
  | update
  /-- `tcp_segments_arrives` -/
  | arrive
  deriving DecidableEq

/-- How far `sockclose` has got -/
inductive Stage where
  /-- `tcp_api_close` -/
  | tcp
  /-- In the `sleep` of `tcp_api_close`; `since` is the number of wakeups before it. -/
  | asleep (since : ℕ)
  /-- `sock_hashtable_remove` -/
  | remove
  /-- `mbufq_empty` -/
  | empty
  /-- `mbufq_pophead`, up to its store -/
  | pop
  /-- The store to `q->head`; `last` says that `head->next` was null. -/
  | store (m : Mbuf) (last : Bool)
  /-- `kfree` -/
  | free

/-- What a process or an interrupt is at -/
inductive Task where
  | idle
  /-- `sockrecvudp` or `sockrecvicmp`, after the lookup -/
  | deliver (si : ℕ) (m : Mbuf)
  | segment (at' : Point) (si : ℕ) (seg : Segment)
  | close (stage : Stage) (si : ℕ)

structure State (τ : Type*) where
  net : Net.State
  /-- `si->type` -/
  type : ℕ → UInt8
  task : τ → Task
  /-- `sockclose` has been called. -/
  closed : ℕ → Bool
  /-- The socket has been passed to `kfree`. -/
  gone : ℕ → Bool
  panicked : Bool
  /-- The freed sockets that a handler has touched -/
  stale : List ℕ
  /-- The buffers linked into `rxq` so far, and those that `sockclose` has taken out and freed -/
  linked : ℕ → List Mbuf
  drained : ℕ → List Mbuf

inductive Act (τ : Type*) where
  /-- `net_rx_udp(m, len, iphdr)` up to the lookup -/
  | udp (t : τ) (m : Mbuf) (len : UInt16) (iphdr : List UInt8)
  /-- `net_rx_icmp(m, len, iphdr)` up to the lookup -/
  | icmp (t : τ) (m : Mbuf) (len : UInt16) (iphdr : List UInt8)
  /-- `net_rx_tcp(m, len, iphdr)` up to the lookup -/
  | tcp (t : τ) (m : Mbuf) (len : UInt16) (iphdr : List UInt8)
  /-- `sockclose(si)` is called: the last descriptor of the socket is closed. -/
  | close (t : τ) (si : ℕ)
  /-- A `sleep` returns, after a `wakeup` or because the process is killed. -/
  | wake (t : τ) (killed : Bool)
  /-- The next step of a handler or of `sockclose` -/
  | run (t : τ) (rand : UInt32)

variable {τ : Type*} [DecidableEq τ]

namespace State

variable (s : State τ)

def setTask (t : τ) (task : Task) : State τ := { s with task := Function.update s.task t task }

/-- A handler touches sockets. -/
def touch (sis : List ℕ) : State τ := { s with stale := s.stale ++ sis.filter s.gone }

/-- The network stack after a step of a handler, which only adds to the queues -/
def setNet (net : Net.State) : State τ :=
  { s with
    net := net
    linked := fun si => s.linked si ++ (net.sock si).rxq.drop (s.net.sock si).rxq.length }

def panic : State τ := { s with panicked := true }

/-- `mbuffree(m)` in a handler, which is done -/
def discard (t : τ) (m : Mbuf) : State τ := (s.setNet (s.net.mbuffree m)).setTask t .idle

/-- The lookup of a handler, which goes on to `next` with the socket that it finds -/
def lookup (t : τ) (lport : UInt16) (raddr : UInt32) (rport : UInt16) (m : Mbuf)
    (next : ℕ → Task) : State τ :=
  let s₁ := s.touch (getReads s.net lport raddr rport)
  match sockHashtableGet s.net lport raddr rport with
  | none => s₁.discard t m
  | some si => s₁.setTask t (next si)

/-- A step of `net_rx_tcp` after the lookup -/
def segment (rand : UInt32) (t : τ) (si : ℕ) (seg : Segment) : Point → State τ
  | .raddr =>
    (s.touch [si]).setTask t
      (.segment (if (s.net.sock si).raddr = 0 then .parent else .rport) si seg)
  | .rport =>
    (s.touch [si]).setTask t
      (.segment (if (s.net.sock si).rport = 0 then .parent else .arrive) si seg)
  | .parent =>
    if (s.net.sock si).parent = false then (s.touch [si]).discard t seg.m
    else (s.touch [si]).setTask t (.segment .state si seg)
  | .state =>
    if (s.net.sock si).tcpcb.state ≠ .listen then (s.touch [si]).panic
    else (s.touch [si]).setTask t (.segment .lport si seg)
  | .lport => (s.touch [si]).setTask t (.segment .update si seg)
  | .update =>
    let s₁ := s.touch (updateReads s.net si)
    match sockHashtableUpdate s.net si seg.raddr seg.rport with
    | none => s₁.panic
    | some net => (s₁.setNet net).setTask t (.segment .arrive si seg)
  | .arrive =>
    let s₁ := s.touch (arriveReads seg rand s.net si)
    match seg.arrive rand s.net si with
    | .error _ => s₁.panic
    | .ok net => (s₁.setNet net).setTask t .idle

/-- The section of `tcp_api_close`, up to its `sleep` -/
def closeTcp (t : τ) (si : ℕ) : State τ :=
  let so := s.net.sock si
  match closeState so.tcpcb.state with
  | none => s.setTask t (.close .remove si)
  | some _ =>
    let (cb, signals) := tcpApiClose so.tcpcb
    let net := s.net.setSock si { so with tcpcb := cb }
    { s with net := { net with tx := net.tx ++ signals.map (Tx.tcp si) } }.setTask t
      (.close (.asleep net.wakeups.length) si)

/-- The store of `mbufq_pophead`, and `mbuffree` -/
def storeHead (t : τ) (si : ℕ) (m : Mbuf) (last : Bool) : State τ :=
  let so := s.net.sock si
  let net := s.net.setSock si { so with rxq := if last then [] else so.rxq.tail }
  { s with
    net := net.mbuffree m
    drained := Function.update s.drained si (s.drained si ++ [m]) }.setTask t (.close .empty si)

/-- A step of `sockclose`; `none` while it sleeps -/
def close (t : τ) (si : ℕ) : Stage → Option (State τ)
  | .tcp => some (s.closeTcp t si)
  | .asleep _ => none
  | .remove =>
    some ({ s with net := sockHashtableRemove s.net si }.setTask t (.close .empty si))
  | .empty =>
    some (s.setTask t (.close (if (s.net.sock si).rxq.isEmpty then .free else .pop) si))
  | .pop =>
    match (s.net.sock si).rxq with
    | [] => some s.panic
    | m :: rest => some (s.setTask t (.close (.store m rest.isEmpty) si))
  | .store m last => some (s.storeHead t si m last)
  | .free => some ({ s with gone := Function.update s.gone si true }.setTask t .idle)

/-- The call of a handler, for a packet that has been parsed -/
def input (t : τ) (m : Mbuf) : Except String (Option Datagram) → State τ
  | .error _ => s.panic
  | .ok none => s.discard t m
  | .ok (some d) => s.lookup t d.lport d.raddr d.rport d.m fun si => .deliver si d.m

end State

/-- The task of `t` is idle. -/
def Task.isIdle : Task → Bool
  | .idle => true
  | _ => false

/-- A step; a panic stops all of them. -/
def exec (s : State τ) (a : Act τ) : Option (State τ) :=
  if s.panicked then none
  else
    match a with
    | .udp t m len iphdr =>
      if (s.task t).isIdle then some (s.input t m (.ok (parseUdp m len iphdr))) else none
    | .icmp t m len iphdr =>
      if (s.task t).isIdle then some (s.input t m (parseIcmp m len iphdr)) else none
    | .tcp t m len iphdr =>
      if (s.task t).isIdle then
        match parseTcp m len iphdr with
        | none => some (s.discard t m)
        | some seg =>
          some (s.lookup t seg.lport seg.raddr seg.rport seg.m fun si => .segment .raddr si seg)
      else none
    | .close t si =>
      if (s.task t).isIdle ∧ s.closed si = false then
        let stage : Stage := if s.type si = SOCK_STREAM then .tcp else .remove
        some ({ s with closed := Function.update s.closed si true }.setTask t (.close stage si))
      else none
    | .wake t killed =>
      match s.task t with
      | .close (.asleep since) si =>
        if killed ∨ (si, Chan.cb) ∈ s.net.wakeups.drop since then
          some (s.setTask t (.close .remove si))
        else none
      | _ => none
    | .run t rand =>
      match s.task t with
      | .idle => none
      | .deliver si m => some (((s.touch [si]).setNet (deliver s.net si m)).setTask t .idle)
      | .segment p si seg => some (s.segment rand t si seg p)
      | .close stage si => s.close t si stage

/-- Sockets in the table, and nobody at work on them -/
structure Init (s : State τ) : Prop where
  hashed : ∀ key si, si ∈ s.net.sockets key → key = Net.hash (s.net.sock si).lport
  nodup : ∀ key, (s.net.sockets key).Nodup
  task : ∀ t, s.task t = .idle
  gone : ∀ si, s.gone si = false
  stale : s.stale = []
  linked : ∀ si, s.linked si = (s.net.sock si).rxq
  drained : ∀ si, s.drained si = []

/-- Handlers and `sockclose` on any number of CPUs -/
def system (τ : Type*) [DecidableEq τ] : System (State τ) (Act τ) where
  init := Init
  step := exec

/-! ## The condition -/

/-- `sockclose` has seen the end of the queue: its last buffer, or that it is empty. -/
def Stage.seenEnd : Stage → Bool
  | .store _ last => last
  | .free => true
  | _ => false

/-- `sockclose` has taken the socket out of the table. -/
def Stage.unlinked : Stage → Bool
  | .empty | .pop | .store _ _ | .free => true
  | _ => false

/-- A handler goes on to touch the socket. `sock_hashtable_update` does so only if it finds the
    socket in its chain. -/
def Task.Uses : Task → ℕ → Prop
  | .deliver si _, sj => sj = si
  | .segment at' si _, sj => at' ≠ .update ∧ sj = si
  | _, _ => False

/-- The next step of `sockclose` sees the end of the queue: that it is empty, or that
    `head->next` is null. -/
def Stage.SeesEnd : Stage → List Mbuf → Prop
  | .empty, rxq => rxq = []
  | .pop, rxq => rxq.length = 1
  | _, _ => False

/-- As `sockclose` sees the end of the queue, no handler has found the socket and is yet to put
    a packet into it; and as it frees the socket, no handler goes on to touch it. -/
structure Clear (s : State τ) (a : Act τ) : Prop where
  seesEnd : ∀ t rand stage si, a = .run t rand → s.task t = .close stage si →
    stage.SeesEnd (s.net.sock si).rxq → ∀ t' m, s.task t' ≠ .deliver si m
  free : ∀ t rand si, a = .run t rand → s.task t = .close .free si → ∀ t', ¬ (s.task t').Uses si

/-! ## The invariant -/

/-- What holds of a socket while `sockclose` works on it -/
structure Closing (s : State τ) (stage : Stage) (si : ℕ) : Prop where
  closed : s.closed si = true
  here : s.gone si = false
  unlinked : stage.unlinked = true → ∀ key, si ∉ s.net.sockets key
  store : ∀ m last, stage = .store m last →
    ∃ rest, (s.net.sock si).rxq = m :: rest ∧ (last = true → rest = [])
  free : stage = .free → (s.net.sock si).rxq = []
  /-- No packet is on its way to a queue whose end has been seen. -/
  quiet : stage.seenEnd = true → ∀ t m, s.task t ≠ .deliver si m

structure Inv (s : State τ) : Prop where
  hashed : ∀ key si, si ∈ s.net.sockets key → key = Net.hash (s.net.sock si).lport
  nodup : ∀ key, (s.net.sockets key).Nodup
  stale : s.stale = []
  /-- No handler has a socket that has been freed. -/
  uses : ∀ t si, (s.task t).Uses si → s.gone si = false
  closing : ∀ t stage si, s.task t = .close stage si → Closing s stage si
  once : ∀ t t' stage stage' si, s.task t = .close stage si → s.task t' = .close stage' si → t = t'
  gone : ∀ si, s.gone si = true →
    s.closed si = true ∧ (∀ key, si ∉ s.net.sockets key) ∧ (s.net.sock si).rxq = []
  /-- What has been queued has been taken out again or is in the queue. -/
  linked : ∀ si, s.linked si = s.drained si ++ (s.net.sock si).rxq

omit [DecidableEq τ] in
theorem inv_init {s : State τ} (h : Init s) : Inv s where
  hashed := h.hashed
  nodup := h.nodup
  stale := h.stale
  uses := fun t si hu => by simp [h.task, Task.Uses] at hu
  closing := fun t stage si ht => by simp [h.task] at ht
  once := fun t t' stage stage' si ht => by simp [h.task] at ht
  gone := fun si hg => by simp [h.gone] at hg
  linked := fun si => by rw [h.linked, h.drained, List.nil_append]

theorem Stage.unlinked_of_seenEnd {stage : Stage} (h : stage.seenEnd = true) :
    stage.unlinked = true := by
  cases stage with
  | store => rfl
  | free => rfl
  | _ => cases h

/-- A socket to which a packet may be queued -/
def Open (s : State τ) (si : ℕ) : Prop :=
  s.gone si = false ∧ ∀ t stage, s.task t = .close stage si → stage.seenEnd = false

omit [DecidableEq τ] in
/-- A socket in the table is one. -/
theorem Inv.open_of_mem {s : State τ} (h : Inv s) {key si : ℕ} (hmem : si ∈ s.net.sockets key) :
    Open s si := by
  refine ⟨?_, fun t stage ht => ?_⟩
  · by_contra hgone
    exact (h.gone si (by simpa using hgone)).2.1 key hmem
  · by_contra hend
    have hunlinked := Stage.unlinked_of_seenEnd (by simpa using hend)
    exact (h.closing t stage si ht).unlinked hunlinked key hmem

/-! ## Steps of the handlers -/

/-- The network stack with more buffers in the queues of some sockets -/
structure Adds (s s' : Net.State) (dst : ℕ → Prop) : Prop where
  sockets : s'.sockets = s.sockets
  lport : ∀ si, (s'.sock si).lport = (s.sock si).lport
  rxq : ∀ si, ∃ new, (s'.sock si).rxq = (s.sock si).rxq ++ new ∧ (new ≠ [] → dst si)

/-- Nothing is queued. -/
theorem Adds.of_eq {s s' : Net.State} {dst : ℕ → Prop} (hsockets : s'.sockets = s.sockets)
    (hlport : ∀ si, (s'.sock si).lport = (s.sock si).lport)
    (hrxq : ∀ si, (s'.sock si).rxq = (s.sock si).rxq) : Adds s s' dst where
  sockets := hsockets
  lport := hlport
  rxq := fun si => ⟨[], by rw [hrxq, List.append_nil], fun hne => absurd rfl hne⟩

theorem adds_push (s : Net.State) (si : ℕ) (m : Mbuf) :
    Adds s (s.mbufqPushtail si m) fun sj => sj = si where
  sockets := rfl
  lport := fun sj => by
    by_cases hj : sj = si
    · subst hj
      simp [Net.State.mbufqPushtail, Net.State.setSock]
    · simp [Net.State.mbufqPushtail, Net.State.setSock, hj]
  rxq := fun sj => by
    by_cases hj : sj = si
    · subst hj
      exact ⟨[m], by simp [Net.State.mbufqPushtail, Net.State.setSock], fun _ => rfl⟩
    · exact ⟨[], by simp [Net.State.mbufqPushtail, Net.State.setSock, hj],
        fun hne => absurd rfl hne⟩

/-- A store into a socket that keeps a field -/
theorem setSock_keeps {α : Type} (f : Sock → α) {s : Net.State} {si : ℕ} {so : Sock}
    (h : f so = f (s.sock si)) (sj : ℕ) : f ((s.setSock si so).sock sj) = f (s.sock sj) := by
  by_cases hj : sj = si
  · subst hj
    simpa [Net.State.setSock]
  · simp [Net.State.setSock, hj]

/-- A store that keeps the port and the queue -/
theorem adds_setSock {s : Net.State} {si : ℕ} {so : Sock} {dst : ℕ → Prop}
    (hlport : so.lport = (s.sock si).lport) (hrxq : so.rxq = (s.sock si).rxq) :
    Adds s (s.setSock si so) dst :=
  .of_eq rfl (setSock_keeps Sock.lport hlport) (setSock_keeps Sock.rxq hrxq)

theorem Adds.mono {s s' : Net.State} {dst dst' : ℕ → Prop} (h : Adds s s' dst)
    (hdst : ∀ si, dst si → dst' si) : Adds s s' dst' where
  sockets := h.sockets
  lport := h.lport
  rxq := fun si =>
    let ⟨new, heq, hne⟩ := h.rxq si
    ⟨new, heq, fun hnew => hdst si (hne hnew)⟩

theorem Adds.trans {s s₁ s₂ : Net.State} {dst : ℕ → Prop} (h₁ : Adds s s₁ dst)
    (h₂ : Adds s₁ s₂ dst) : Adds s s₂ dst where
  sockets := h₂.sockets.trans h₁.sockets
  lport := fun si => (h₂.lport si).trans (h₁.lport si)
  rxq := fun si => by
    obtain ⟨new₁, heq₁, hdst₁⟩ := h₁.rxq si
    obtain ⟨new₂, heq₂, hdst₂⟩ := h₂.rxq si
    refine ⟨new₁ ++ new₂, by rw [heq₂, heq₁, List.append_assoc], fun hne => ?_⟩
    by_cases hnew : new₁ = []
    · exact hdst₂ fun hnil => hne (by rw [hnew, hnil]; rfl)
    · exact hdst₁ hnew

/-- `sockrecvtcp` queues on a socket that it has found in the table. -/
theorem adds_sockrecvtcp (s : Net.State) (m : Mbuf) (raddr : UInt32) (lport rport : UInt16)
    (ispush : Bool) : Adds s (sockrecvtcp s m raddr lport rport ispush)
      fun si => si ∈ s.sockets (Net.hash lport) := by
  unfold sockrecvtcp
  split
  · exact .of_eq rfl (fun _ => rfl) fun _ => rfl
  next si hfind =>
  split
  swap
  · exact .of_eq rfl (fun _ => rfl) fun _ => rfl
  have hmem : si ∈ s.sockets (Net.hash lport) := sockHashtableGet_mem hfind
  have hpush : Adds s (s.mbufqPushtail si { m with sip := raddr, sport := rport })
      fun sj => sj ∈ s.sockets (Net.hash lport) :=
    (adds_push s si _).mono fun sj hj => by rwa [hj]
  cases ispush with
  | false => exact hpush
  | true => exact ⟨hpush.sockets, hpush.lport, hpush.rxq⟩

/-- `tcp_segments_arrives` does so too. -/
theorem adds_arrive {seg : Segment} {rand : UInt32} {s net : Net.State} {si : ℕ}
    (h : seg.arrive rand s si = .ok net) :
    Adds s net fun sj => sj ∈ s.sockets (Net.hash seg.lport) := by
  unfold Segment.arrive segmentArrives at h
  split at h
  · cases h
  next r _ =>
  cases h
  have hstore : ∀ s₁ : Net.State, Adds s s₁ (fun sj => sj ∈ s.sockets (Net.hash seg.lport)) →
      Adds s (s₁.setSock si { s₁.sock si with tcpcb := r.cb })
        fun sj => sj ∈ s.sockets (Net.hash seg.lport) :=
    fun s₁ h₁ => h₁.trans (adds_setSock rfl rfl)
  cases r.queued with
  | none =>
    have hkeep := hstore s (.of_eq rfl (fun _ => rfl) fun _ => rfl)
    exact ⟨hkeep.sockets, hkeep.lport, hkeep.rxq⟩
  | some ispush =>
    have hqueue := hstore _ (adds_sockrecvtcp s seg.m seg.raddr seg.lport seg.rport ispush)
    exact ⟨hqueue.sockets, hqueue.lport, hqueue.rxq⟩

/-- `sock_hashtable_update` finds its socket in the table. -/
theorem update_some {s net : Net.State} {si : ℕ} {raddr : UInt32} {rport : UInt16}
    (h : sockHashtableUpdate s si raddr rport = some net) (dst : ℕ → Prop) :
    si ∈ s.sockets (Net.hash (s.sock si).lport) ∧ Adds s net dst := by
  unfold sockHashtableUpdate at h
  split at h
  · next hmem =>
    cases h
    exact ⟨hmem, adds_setSock rfl rfl⟩
  · cases h

omit [DecidableEq τ] in
theorem touch_stale {s : State τ} {sis : List ℕ} (h : ∀ si ∈ sis, s.gone si = false) :
    (s.touch sis).stale = s.stale := by
  have hnil : sis.filter s.gone = [] :=
    List.filter_eq_nil_iff.mpr fun si hmem => by simp [h si hmem]
  rw [State.touch, hnil, List.append_nil]

/-- **A step of a handler.** It touches sockets that are there, queues on open ones, and goes on
    with a socket that is there. -/
theorem Inv.handler {s : State τ} (h : Inv s) {t : τ} {task : Task} {net : Net.State}
    {sis : List ℕ} {dst : ℕ → Prop} (hadds : Adds s.net net dst) (hopen : ∀ si, dst si → Open s si)
    (hsis : ∀ si ∈ sis, s.gone si = false) (huses : ∀ si, task.Uses si → s.gone si = false)
    (htask : ∀ stage si, task ≠ .close stage si)
    (hdeliver : ∀ si m, task = .deliver si m → Open s si) :
    Inv (((s.touch sis).setNet net).setTask t task) := by
  set s' := ((s.touch sis).setNet net).setTask t task with hs'
  have hself : s'.task t = task := Function.update_self _ _ _
  have hother : ∀ t', t' ≠ t → s'.task t' = s.task t' := fun t' hne =>
    Function.update_of_ne hne _ _
  -- a call of `sockclose` in the new state is one in the old state
  have hclose : ∀ t' stage si, s'.task t' = .close stage si → s.task t' = .close stage si := by
    intro t' stage si ht'
    by_cases ht : t' = t
    · rw [ht, hself] at ht'
      exact absurd ht' (htask stage si)
    · rwa [hother t' ht] at ht'
  -- what is queued goes to open sockets
  have hquiet : ∀ si, ¬ Open s si → (net.sock si).rxq = (s.net.sock si).rxq := by
    intro si hnot
    obtain ⟨new, heq, hnew⟩ := hadds.rxq si
    have hnil : new = [] := by
      by_contra hne
      exact hnot (hopen si (hnew hne))
    rw [heq, hnil, List.append_nil]
  constructor
  case hashed =>
    intro key si hmem
    change si ∈ net.sockets key at hmem
    change key = Net.hash (net.sock si).lport
    rw [hadds.sockets] at hmem
    rw [hadds.lport]
    exact h.hashed key si hmem
  case nodup =>
    intro key
    change (net.sockets key).Nodup
    rw [hadds.sockets]
    exact h.nodup key
  case stale => exact (touch_stale hsis).trans h.stale
  case uses =>
    intro t' si hu
    by_cases ht : t' = t
    · rw [ht, hself] at hu
      exact huses si hu
    · rw [hother t' ht] at hu
      exact h.uses t' si hu
  case closing =>
    intro t' stage si ht'
    have hold := h.closing t' stage si (hclose t' stage si ht')
    have hend : stage.seenEnd = true → (net.sock si).rxq = (s.net.sock si).rxq := fun hend =>
      hquiet si fun hop => by simp [hop.2 t' stage (hclose t' stage si ht')] at hend
    refine ⟨hold.closed, hold.here, fun hun key => ?_, fun m last hstage => ?_, fun hstage => ?_,
      fun hend t₁ m h₁ => ?_⟩
    · change si ∉ net.sockets key
      rw [hadds.sockets]
      exact hold.unlinked hun key
    · obtain ⟨rest, heq, hlast⟩ := hold.store m last hstage
      obtain ⟨new, hnew, -⟩ := hadds.rxq si
      refine ⟨rest ++ new, by rw [← List.cons_append, ← heq]; exact hnew, fun hl => ?_⟩
      have hsame := hend (by rw [hstage]; exact hl)
      rw [hnew] at hsame
      rw [hlast hl, List.append_eq_nil_iff.mpr ⟨rfl, List.append_right_eq_self.mp hsame⟩]
    · have hsame := hend (by rw [hstage]; rfl)
      exact hsame.trans (hold.free hstage)
    · by_cases ht : t₁ = t
      · rw [ht, hself] at h₁
        simp [(hdeliver si m h₁).2 t' stage (hclose t' stage si ht')] at hend
      · rw [hother t₁ ht] at h₁
        exact hold.quiet hend t₁ m h₁
  case once =>
    intro t₁ t₂ st₁ st₂ si h₁ h₂
    exact h.once t₁ t₂ st₁ st₂ si (hclose t₁ st₁ si h₁) (hclose t₂ st₂ si h₂)
  case gone =>
    intro si hgone
    obtain ⟨hclosed, hmem, hrxq⟩ := h.gone si hgone
    refine ⟨hclosed, fun key => ?_, ?_⟩
    · change si ∉ net.sockets key
      rw [hadds.sockets]
      exact hmem key
    · have hsame := hquiet si fun hop => by
        have hno : s.gone si = true := hgone
        simp [hop.1] at hno
      exact hsame.trans hrxq
  case linked =>
    intro si
    obtain ⟨new, hnew, -⟩ := hadds.rxq si
    change s.linked si ++ (net.sock si).rxq.drop (s.net.sock si).rxq.length =
      s.drained si ++ (net.sock si).rxq
    rw [hnew, List.drop_left, h.linked si, List.append_assoc]

omit [DecidableEq τ] in
@[simp] theorem setNet_self (s : State τ) : s.setNet s.net = s := by
  simp [State.setNet]

/-- A step of a handler that leaves the network stack alone -/
theorem Inv.advance {s : State τ} (h : Inv s) {t : τ} {task : Task} {sis : List ℕ}
    (hsis : ∀ si ∈ sis, s.gone si = false) (huses : ∀ si, task.Uses si → s.gone si = false)
    (htask : ∀ stage si, task ≠ .close stage si)
    (hdeliver : ∀ si m, task = .deliver si m → Open s si) :
    Inv ((s.touch sis).setTask t task) := by
  have hkeep : Adds s.net s.net fun _ => False := .of_eq rfl (fun _ => rfl) fun _ => rfl
  have hinv := h.handler (t := t) hkeep (fun _ hno => hno.elim) hsis huses htask hdeliver
  rwa [show (s.touch sis).setNet s.net = s.touch sis from setNet_self (s.touch sis)] at hinv

theorem Inv.discard {s : State τ} (h : Inv s) (t : τ) (m : Mbuf) {sis : List ℕ}
    (hsis : ∀ si ∈ sis, s.gone si = false) : Inv ((s.touch sis).discard t m) := by
  have hkeep : Adds s.net (s.net.mbuffree m) fun _ => False :=
    .of_eq rfl (fun _ => rfl) fun _ => rfl
  exact h.handler hkeep (fun _ hno => hno.elim) hsis (fun _ hu => hu.elim) nofun nofun

omit [DecidableEq τ] in
theorem Inv.panic {s : State τ} (h : Inv s) {sis : List ℕ} (hsis : ∀ si ∈ sis, s.gone si = false) :
    Inv (s.touch sis).panic where
  hashed := h.hashed
  nodup := h.nodup
  stale := (touch_stale hsis).trans h.stale
  uses := h.uses
  closing := fun t stage si ht =>
    let hold := h.closing t stage si ht
    ⟨hold.closed, hold.here, hold.unlinked, hold.store, hold.free, hold.quiet⟩
  once := h.once
  gone := h.gone
  linked := h.linked

omit [DecidableEq τ] in
/-- The walks along a chain come to sockets that are there. -/
theorem Inv.getReads {s : State τ} (h : Inv s) {lport : UInt16} {raddr : UInt32} {rport : UInt16} :
    ∀ si ∈ getReads s.net lport raddr rport, s.gone si = false := fun _ hmem =>
  (h.open_of_mem (List.mem_of_mem_take hmem)).1

omit [DecidableEq τ] in
theorem Inv.updateReads {s : State τ} (h : Inv s) (si : ℕ) :
    ∀ sj ∈ updateReads s.net si, s.gone sj = false := fun _ hmem =>
  (h.open_of_mem (List.mem_of_mem_take hmem)).1

omit [DecidableEq τ] in
theorem Inv.arriveReads {s : State τ} (h : Inv s) (seg : Segment) (rand : UInt32) {si : ℕ}
    (hsi : s.gone si = false) : ∀ sj ∈ arriveReads seg rand s.net si, s.gone sj = false := by
  intro sj hmem
  rcases List.mem_cons.mp hmem with rfl | hmem
  · exact hsi
  · split at hmem
    · split at hmem
      · exact h.getReads sj hmem
      · cases hmem
    · cases hmem

/-- The socket that a lookup finds is there. -/
theorem Inv.lookup {s : State τ} (h : Inv s) (t : τ) (lport : UInt16) (raddr : UInt32)
    (rport : UInt16) (m : Mbuf) {next : ℕ → Task} (huses : ∀ si sj, (next si).Uses sj → sj = si)
    (hnext : ∀ si stage sj, next si ≠ .close stage sj)
    (hdeliver : ∀ si sj m, next si = .deliver sj m → sj = si) :
    Inv (s.lookup t lport raddr rport m next) := by
  unfold State.lookup
  dsimp only
  split
  · exact h.discard t m h.getReads
  next si hget =>
  have hopen := h.open_of_mem (sockHashtableGet_mem hget)
  refine h.advance h.getReads (fun sj hu => ?_) (hnext si) fun sj m heq => ?_
  · rw [huses si sj hu]
    exact hopen.1
  · rw [hdeliver si sj m heq]
    exact hopen

omit [DecidableEq τ] in
theorem touch_nil (s : State τ) : s.touch [] = s := by
  rw [State.touch, List.filter_nil, List.append_nil]

theorem Inv.input {s : State τ} (h : Inv s) (t : τ) (m : Mbuf)
    (parsed : Except String (Option Datagram)) : Inv (s.input t m parsed) := by
  have hnone : ∀ si ∈ ([] : List ℕ), s.gone si = false := nofun
  unfold State.input
  split
  · have hinv := h.panic hnone
    rwa [touch_nil] at hinv
  · have hinv := h.discard t m hnone
    rwa [touch_nil] at hinv
  · exact h.lookup _ _ _ _ _ (fun _ _ hu => hu) nofun fun si sj m heq => by cases heq; rfl

/-- The section under `si->lock` -/
theorem Inv.deliver {s : State τ} (h : Inv s) {t : τ} {si : ℕ} {m : Mbuf}
    (ht : s.task t = .deliver si m) :
    Inv (((s.touch [si]).setNet (SockClose.deliver s.net si m)).setTask t .idle) := by
  have hgone : s.gone si = false := h.uses t si (by rw [ht]; exact rfl)
  have hend : ∀ t' stage, s.task t' = .close stage si → stage.seenEnd = false := by
    intro t' stage ht'
    by_contra hend
    exact (h.closing t' stage si ht').quiet (by simpa using hend) t m ht
  have hadds : Adds s.net (SockClose.deliver s.net si m) fun sj => sj = si :=
    ⟨(adds_push s.net si m).sockets, (adds_push s.net si m).lport, (adds_push s.net si m).rxq⟩
  refine h.handler hadds (fun sj hj => ?_) (fun sj hj => ?_) (fun _ hu => hu.elim) nofun nofun
  · rw [hj]
    exact ⟨hgone, hend⟩
  · rwa [List.mem_singleton.mp hj]

/-- The steps of `net_rx_tcp` -/
theorem Inv.segment {s : State τ} (h : Inv s) {t : τ} {si : ℕ} {at' : Point} {seg : Segment}
    (ht : s.task t = .segment at' si seg) (rand : UInt32) : Inv (s.segment rand t si seg at') := by
  -- at each point but `update` the handler has the socket
  have hhere : at' ≠ .update → s.gone si = false := fun hne =>
    h.uses t si (by rw [ht]; exact ⟨hne, rfl⟩)
  have hone : at' ≠ .update → ∀ sj ∈ [si], s.gone sj = false := fun hne sj hmem => by
    rw [List.mem_singleton.mp hmem]
    exact hhere hne
  have hnext : ∀ at₂, at' ≠ .update → ∀ sj, (Task.segment at₂ si seg).Uses sj → s.gone sj = false :=
    fun _ hne sj hu => by rw [hu.2]; exact hhere hne
  cases at' with
  | raddr => exact h.advance (hone nofun) (hnext _ nofun) nofun nofun
  | rport => exact h.advance (hone nofun) (hnext _ nofun) nofun nofun
  | parent =>
    dsimp only [State.segment]
    split
    · exact h.discard t seg.m (hone nofun)
    · exact h.advance (hone nofun) (hnext _ nofun) nofun nofun
  | state =>
    dsimp only [State.segment]
    split
    · exact h.panic (hone nofun)
    · exact h.advance (hone nofun) (hnext _ nofun) nofun nofun
  | lport => exact h.advance (hone nofun) (hnext _ nofun) nofun nofun
  | update =>
    dsimp only [State.segment]
    split
    · exact h.panic (h.updateReads si)
    next net hupdate =>
    obtain ⟨hmem, hadds⟩ := update_some hupdate fun _ => False
    refine h.handler hadds (fun _ hno => hno.elim) (h.updateReads si) (fun sj hu => ?_) nofun
      nofun
    -- the socket was in its chain under the lock, so it has not been freed
    rw [hu.2]
    exact (h.open_of_mem hmem).1
  | arrive =>
    dsimp only [State.segment]
    split
    · exact h.panic (h.arriveReads seg rand (hhere nofun))
    next net harrive =>
    exact h.handler (adds_arrive harrive) (fun _ hmem => h.open_of_mem hmem)
      (h.arriveReads seg rand (hhere nofun)) (fun _ hu => hu.elim) nofun nofun

/-! ## Steps of `sockclose` -/

/-- What a step of `sockclose(si)` leaves of the rest -/
structure Advances (s s' : State τ) (t : τ) (si : ℕ) (stage : Stage) : Prop where
  task : s'.task = Function.update s.task t (.close stage si)
  sockets : ∀ key, (s'.net.sockets key).Sublist (s.net.sockets key)
  lport : ∀ sj, (s'.net.sock sj).lport = (s.net.sock sj).lport
  rxq : ∀ sj, sj ≠ si → (s'.net.sock sj).rxq = (s.net.sock sj).rxq
  closed : ∀ sj, sj ≠ si → s'.closed sj = s.closed sj
  drained : ∀ sj, sj ≠ si → s'.drained sj = s.drained sj
  gone : s'.gone = s.gone
  stale : s'.stale = s.stale
  linked : s'.linked = s.linked

theorem Advances.deliver {s s' : State τ} {t : τ} {si : ℕ} {stage : Stage}
    (ha : Advances s s' t si stage) {t' : τ} {sj : ℕ} {m : Mbuf}
    (h : s'.task t' = .deliver sj m) : s.task t' = .deliver sj m := by
  rw [ha.task] at h
  by_cases ht : t' = t
  · rw [ht, Function.update_self] at h
    cases h
  · rwa [Function.update_of_ne ht] at h

/-- **A step of `sockclose`**, except the last one -/
theorem Inv.closes {s s' : State τ} (h : Inv s) (t : τ) (si : ℕ) (stage : Stage)
    (ha : Advances s s' t si stage) (honly : ∀ t' stage', s.task t' = .close stage' si → t' = t)
    (hclosing : Closing s' stage si)
    (hlinked : s.linked si = s'.drained si ++ (s'.net.sock si).rxq) : Inv s' := by
  have hself : s'.task t = .close stage si := by rw [ha.task, Function.update_self]
  have hother : ∀ t', t' ≠ t → s'.task t' = s.task t' := fun t' hne => by
    rw [ha.task, Function.update_of_ne hne]
  -- a call at work on another socket is none of ours
  have hapart : ∀ t' stage' sj, t' ≠ t → s.task t' = .close stage' sj → sj ≠ si := by
    rintro t' stage' sj hne ht' rfl
    exact hne (honly t' stage' ht')
  constructor
  case hashed =>
    intro key sj hmem
    rw [ha.lport]
    exact h.hashed key sj ((ha.sockets key).mem hmem)
  case nodup => exact fun key => (h.nodup key).sublist (ha.sockets key)
  case stale => exact ha.stale.trans h.stale
  case uses =>
    intro t' sj hu
    rw [ha.gone]
    by_cases ht : t' = t
    · rw [ht, hself] at hu
      exact hu.elim
    · rw [hother t' ht] at hu
      exact h.uses t' sj hu
  case closing =>
    intro t' stage' sj ht'
    by_cases ht : t' = t
    · rw [ht, hself] at ht'
      cases ht'
      exact hclosing
    · rw [hother t' ht] at ht'
      have hne := hapart t' stage' sj ht ht'
      have hold := h.closing t' stage' sj ht'
      refine ⟨(ha.closed sj hne).trans hold.closed, by rw [ha.gone]; exact hold.here,
        fun hun key hmem => hold.unlinked hun key ((ha.sockets key).mem hmem), ?_, ?_,
        fun hend t₁ m h₁ => hold.quiet hend t₁ m (ha.deliver h₁)⟩
      · rw [ha.rxq sj hne]
        exact hold.store
      · rw [ha.rxq sj hne]
        exact hold.free
  case once =>
    intro t₁ t₂ st₁ st₂ sj h₁ h₂
    by_cases ht₁ : t₁ = t
    · subst ht₁
      rw [hself] at h₁
      cases h₁
      by_contra hne
      have ht₂ := h₂
      rw [hother t₂ (Ne.symm hne)] at ht₂
      exact hne (honly t₂ st₂ ht₂).symm
    · rw [hother t₁ ht₁] at h₁
      have hne := hapart t₁ st₁ sj ht₁ h₁
      by_cases ht₂ : t₂ = t
      · rw [ht₂, hself] at h₂
        cases h₂
        exact absurd rfl hne
      · rw [hother t₂ ht₂] at h₂
        exact h.once t₁ t₂ st₁ st₂ sj h₁ h₂
  case gone =>
    intro sj hgone
    rw [ha.gone] at hgone
    have hne : sj ≠ si := by
      rintro rfl
      have hhere := hclosing.here
      rw [ha.gone, hgone] at hhere
      cases hhere
    obtain ⟨hclosed, hmem, hrxq⟩ := h.gone sj hgone
    exact ⟨(ha.closed sj hne).trans hclosed, fun key hm => hmem key ((ha.sockets key).mem hm),
      (ha.rxq sj hne).trans hrxq⟩
  case linked =>
    intro sj
    rw [ha.linked]
    by_cases hj : sj = si
    · rw [hj]
      exact hlinked
    · rw [ha.drained sj hj, ha.rxq sj hj]
      exact h.linked sj

/-- A step that goes on to the next stage only -/
theorem Inv.goOn {s : State τ} (h : Inv s) {t : τ} {si : ℕ} {stage : Stage}
    (honly : ∀ t' stage', s.task t' = .close stage' si → t' = t) (hclosing : Closing s stage si) :
    Inv (s.setTask t (.close stage si)) := by
  have ha : Advances s (s.setTask t (.close stage si)) t si stage :=
    ⟨rfl, fun _ => List.Sublist.refl _, fun _ => rfl, fun _ _ => rfl, fun _ _ => rfl,
      fun _ _ => rfl, rfl, rfl, rfl⟩
  exact h.closes t si stage ha honly
    ⟨hclosing.closed, hclosing.here, hclosing.unlinked, hclosing.store, hclosing.free,
      fun hend t₁ m h₁ => hclosing.quiet hend t₁ m (ha.deliver h₁)⟩ (h.linked si)

/-- The call of `sockclose` -/
theorem Inv.call {s : State τ} (h : Inv s) {t : τ} {si : ℕ} (hclosed : s.closed si = false)
    {stage : Stage} (hstage : stage = .tcp ∨ stage = .remove) :
    Inv ({ s with closed := Function.update s.closed si true }.setTask t (.close stage si)) := by
  refine h.closes t si stage
    ⟨rfl, fun _ => List.Sublist.refl _, fun _ => rfl, fun _ _ => rfl,
      fun sj hne => Function.update_of_ne hne _ _, fun _ _ => rfl, rfl, rfl, rfl⟩
    (fun t' stage' ht' => ?_) ⟨Function.update_self _ _ _, ?_, ?_, ?_, ?_, ?_⟩ (h.linked si)
  · rw [(h.closing t' stage' si ht').closed] at hclosed
    cases hclosed
  · change s.gone si = false
    by_contra hgone
    rw [(h.gone si (by simpa using hgone)).1] at hclosed
    cases hclosed
  all_goals rcases hstage with rfl | rfl <;> nofun

/-- The section of `tcp_api_close` -/
theorem Inv.closeTcp {s : State τ} (h : Inv s) {t : τ} {si : ℕ}
    (honly : ∀ t' stage', s.task t' = .close stage' si → t' = t) (hclosed : s.closed si = true)
    (hhere : s.gone si = false) : Inv (s.closeTcp t si) := by
  unfold State.closeTcp
  dsimp only
  split
  · exact h.goOn honly ⟨hclosed, hhere, nofun, nofun, nofun, nofun⟩
  · set so : Sock := { s.net.sock si with tcpcb := (tcpApiClose (s.net.sock si).tcpcb).1 } with hso
    have hrxq : ∀ sj, ((s.net.setSock si so).sock sj).rxq = (s.net.sock sj).rxq :=
      setSock_keeps Sock.rxq rfl
    have hlport : ∀ sj, ((s.net.setSock si so).sock sj).lport = (s.net.sock sj).lport :=
      setSock_keeps Sock.lport rfl
    refine h.closes t si (.asleep s.net.wakeups.length)
      ⟨rfl, fun _ => List.Sublist.refl _, hlport, fun sj _ => hrxq sj, fun _ _ => rfl,
        fun _ _ => rfl, rfl, rfl, rfl⟩ honly ⟨hclosed, hhere, nofun, nofun, nofun, nofun⟩ ?_
    exact (h.linked si).trans (congrArg (s.drained si ++ ·) (hrxq si).symm)

/-- `sock_hashtable_remove` -/
theorem Inv.remove {s : State τ} (h : Inv s) {t : τ} {si : ℕ}
    (honly : ∀ t' stage', s.task t' = .close stage' si → t' = t) (hclosed : s.closed si = true)
    (hhere : s.gone si = false) :
    Inv ({ s with net := sockHashtableRemove s.net si }.setTask t (.close .empty si)) := by
  have hremoved := TcpPanic.sockHashtableRemove_sockets fun key => h.hashed key si
  refine h.closes t si .empty
    ⟨rfl, fun key => ?_, fun _ => rfl, fun _ _ => rfl, fun _ _ => rfl, fun _ _ => rfl, rfl, rfl,
      rfl⟩ honly ⟨hclosed, hhere, fun _ key => ?_, nofun, nofun, nofun⟩ (h.linked si)
  · change List.Sublist ((sockHashtableRemove s.net si).sockets key) _
    rw [hremoved]
    exact List.erase_sublist
  · change si ∉ (sockHashtableRemove s.net si).sockets key
    rw [hremoved]
    exact (h.nodup key).not_mem_erase

/-- The store of `mbufq_pophead` takes out the buffer that was first. Where `head->next` was
    null when it was read, nothing has been queued behind that buffer since. -/
theorem Inv.storeHead {s : State τ} (h : Inv s) {t : τ} {si : ℕ} {m : Mbuf} {last : Bool}
    (honly : ∀ t' stage', s.task t' = .close stage' si → t' = t)
    (hold : Closing s (.store m last) si) : Inv (s.storeHead t si m last) := by
  obtain ⟨rest, hrxq, hlast⟩ := hold.store m last rfl
  have hself : ((s.storeHead t si m last).net.sock si).rxq = rest := by
    simp only [State.storeHead, State.setTask, Net.State.mbuffree, Net.State.setSock,
      Function.update_self, hrxq, List.tail_cons]
    cases last with
    | false => rfl
    | true => exact (hlast rfl).symm
  have hother : ∀ sj, sj ≠ si → (s.storeHead t si m last).net.sock sj = s.net.sock sj :=
    fun sj hne => Function.update_of_ne hne _ _
  refine h.closes t si .empty
    ⟨rfl, fun _ => List.Sublist.refl _, fun sj => ?_, fun sj hne => by rw [hother sj hne],
      fun _ _ => rfl, fun sj hne => Function.update_of_ne hne _ _, rfl, rfl, rfl⟩ honly
    ⟨hold.closed, hold.here, hold.unlinked, by simp, by rintro ⟨⟩, by rintro ⟨⟩⟩ ?_
  · by_cases hj : sj = si
    · subst hj
      simp [State.storeHead, State.setTask, Net.State.mbuffree, Net.State.setSock]
    · rw [hother sj hj]
  · have hdrained : (s.storeHead t si m last).drained si = s.drained si ++ [m] :=
      Function.update_self _ _ _
    rw [hself, hdrained, h.linked si, hrxq, List.append_assoc]
    rfl

/-- `kfree` -/
theorem Inv.free {s : State τ} (h : Inv s) {t : τ} {si : ℕ} (ht : s.task t = .close .free si)
    (hunused : ∀ t', ¬ (s.task t').Uses si) :
    Inv ({ s with gone := Function.update s.gone si true }.setTask t .idle) := by
  set s' := { s with gone := Function.update s.gone si true }.setTask t .idle with hs'
  have hself : s'.task t = .idle := Function.update_self _ _ _
  have hother : ∀ t', t' ≠ t → s'.task t' = s.task t' := fun t' hne =>
    Function.update_of_ne hne _ _
  have hclose : ∀ t' stage sj, s'.task t' = .close stage sj →
      t' ≠ t ∧ s.task t' = .close stage sj := by
    intro t' stage sj ht'
    have hne : t' ≠ t := by
      rintro rfl
      rw [hself] at ht'
      cases ht'
    exact ⟨hne, (hother t' hne) ▸ ht'⟩
  have hgone : ∀ sj, sj ≠ si → s'.gone sj = s.gone sj := fun sj hne =>
    Function.update_of_ne hne _ _
  constructor
  case hashed => exact h.hashed
  case nodup => exact h.nodup
  case stale => exact h.stale
  case linked => exact h.linked
  case uses =>
    intro t' sj hu
    by_cases htt : t' = t
    · rw [htt, hself] at hu
      exact hu.elim
    · rw [hother t' htt] at hu
      have hne : sj ≠ si := by
        rintro rfl
        exact hunused t' hu
      rw [hgone sj hne]
      exact h.uses t' sj hu
  case closing =>
    intro t' stage sj ht'
    obtain ⟨htt, hold⟩ := hclose t' stage sj ht'
    have hc := h.closing t' stage sj hold
    -- no other call of `sockclose` is at work on the socket
    have hne : sj ≠ si := by
      rintro rfl
      exact htt (h.once t' t stage .free sj hold ht)
    refine ⟨hc.closed, by rw [hgone sj hne]; exact hc.here, hc.unlinked, hc.store, hc.free,
      fun hend t₁ m h₁ => ?_⟩
    have ht₁ : t₁ ≠ t := by
      rintro rfl
      rw [hself] at h₁
      cases h₁
    exact hc.quiet hend t₁ m (hother t₁ ht₁ ▸ h₁)
  case once =>
    intro t₁ t₂ st₁ st₂ sj h₁ h₂
    exact h.once t₁ t₂ st₁ st₂ sj (hclose t₁ st₁ sj h₁).2 (hclose t₂ st₂ sj h₂).2
  case gone =>
    intro sj hg
    by_cases hj : sj = si
    · subst hj
      have hc := h.closing t .free sj ht
      exact ⟨hc.closed, hc.unlinked rfl, hc.free rfl⟩
    · rw [hgone sj hj] at hg
      exact h.gone sj hg

/-- The steps of `sockclose` -/
theorem Inv.close {s s' : State τ} (h : Inv s) {t : τ} {si : ℕ} {stage : Stage}
    (ht : s.task t = .close stage si)
    (hend : stage.SeesEnd (s.net.sock si).rxq → ∀ t' m, s.task t' ≠ .deliver si m)
    (hfree : stage = .free → ∀ t', ¬ (s.task t').Uses si)
    (hstep : s.close t si stage = some s') : Inv s' := by
  have hold := h.closing t stage si ht
  have honly : ∀ t' stage', s.task t' = .close stage' si → t' = t := fun t' stage' ht' =>
    h.once t' t stage' stage si ht' ht
  -- the condition is used where the end of the queue is seen, and at `kfree`
  cases stage with
  | tcp =>
    cases hstep
    exact h.closeTcp honly hold.closed hold.here
  | asleep => cases hstep
  | remove =>
    cases hstep
    exact h.remove honly hold.closed hold.here
  | empty =>
    cases hstep
    cases hrxq : (s.net.sock si).rxq with
    | nil =>
      exact h.goOn honly ⟨hold.closed, hold.here, fun _ => hold.unlinked rfl, nofun, fun _ => hrxq,
        fun _ => hend hrxq⟩
    | cons m rest =>
      exact h.goOn honly ⟨hold.closed, hold.here, fun _ => hold.unlinked rfl, nofun, nofun, nofun⟩
  | pop =>
    dsimp only [State.close] at hstep
    split at hstep
    · cases hstep
      have hnone : ∀ sj ∈ ([] : List ℕ), s.gone sj = false := nofun
      have hinv := h.panic hnone
      rwa [touch_nil] at hinv
    · next m rest hrxq =>
      cases hstep
      refine h.goOn honly ⟨hold.closed, hold.here, fun _ => hold.unlinked rfl, ?_, nofun,
        fun hlast => hend ?_⟩
      · rintro m' last heq
        cases heq
        exact ⟨rest, hrxq, fun hl => by simpa using hl⟩
      · have hnil : rest = [] := by simpa [Stage.seenEnd] using hlast
        rw [hrxq, hnil]
        rfl
  | store m last =>
    cases hstep
    exact h.storeHead honly hold
  | free =>
    cases hstep
    exact h.free ht (hfree rfl)

/-- A step under the condition preserves the invariant. -/
theorem exec_inv {s s' : State τ} {a : Act τ} (h : Inv s) (hclear : Clear s a)
    (hstep : exec s a = some s') : Inv s' := by
  unfold exec at hstep
  split at hstep
  · cases hstep
  cases a with
  | udp t m len iphdr =>
    dsimp only at hstep
    split at hstep <;> cases hstep
    exact h.input t m _
  | icmp t m len iphdr =>
    dsimp only at hstep
    split at hstep <;> cases hstep
    exact h.input t m _
  | tcp t m len iphdr =>
    dsimp only at hstep
    split at hstep
    swap
    · cases hstep
    split at hstep <;> cases hstep
    · exact h.input t m (.ok none)
    · exact h.lookup _ _ _ _ _ (fun _ _ hu => hu.2) nofun nofun
  | close t si =>
    dsimp only at hstep
    split at hstep
    swap
    · cases hstep
    next hcall =>
    cases hstep
    refine h.call hcall.2 ?_
    split
    · exact .inl rfl
    · exact .inr rfl
  | wake t killed =>
    dsimp only at hstep
    split at hstep
    swap
    · cases hstep
    next since si ht =>
    split at hstep <;> cases hstep
    have hold := h.closing t _ si ht
    exact h.goOn (fun t' stage' ht' => h.once t' t stage' _ si ht' ht)
      ⟨hold.closed, hold.here, nofun, nofun, nofun, nofun⟩
  | run t rand =>
    dsimp only at hstep
    split at hstep
    · cases hstep
    · next si m ht =>
      cases hstep
      exact h.deliver ht
    · next at' si seg ht =>
      cases hstep
      exact h.segment ht rand
    · next stage si ht =>
      refine h.close ht (hclear.seesEnd t rand stage si rfl ht) (fun hfree => ?_) hstep
      subst hfree
      exact hclear.free t rand si rfl ht

theorem inv_reachable {s : State τ} (h : (system τ).ReachableUnder Clear s) : Inv s :=
  System.invariant Inv (fun _ => inv_init) (fun _ _ _ hi hc hs => exec_inv hi hc hs) h

/-- **Sockets are not used after close.** No handler touches a socket that has been freed, and
    whatever was linked into the queue of a socket that has been freed has been freed too. -/
theorem unused_after_close {s : State τ} (h : (system τ).ReachableUnder Clear s) :
    s.stale = [] ∧ ∀ si, s.gone si = true → s.linked si = s.drained si := by
  have hinv := inv_reachable h
  refine ⟨hinv.stale, fun si hgone => ?_⟩
  rw [hinv.linked si, (hinv.gone si hgone).2.2, List.append_nil]

omit [DecidableEq τ] in
/-- Where nothing runs at the same time, every step meets the condition. -/
theorem clear_of_subsingleton [Subsingleton τ] (s : State τ) (a : Act τ) : Clear s a := by
  have hclose : ∀ t t' stage si, s.task t = .close stage si → s.task t' = .close stage si :=
    fun t t' stage si ht => by rwa [Subsingleton.elim t' t]
  refine ⟨fun t rand stage si _ ht _ t' m ht' => ?_, fun t rand si _ ht t' hu => ?_⟩
  · rw [hclose t t' stage si ht] at ht'
    cases ht'
  · rw [hclose t t' .free si ht] at hu
    exact hu

/-! ## Runs -/

/-- One UDP socket, bound to port 2000 -/
def bound (τ : Type*) : State τ where
  net :=
    { sockets := fun key => if key = 80 then [7] else []
      sock := fun _ => ⟨0, 2000, 0, false, TcpPanic.junkTcpcb, []⟩
      arpCache := fun _ => ⟨0, []⟩
      freeArpIdx := 0
      freed := []
      tx := []
      wakeups := [] }
  type := fun _ => 2
  task := fun _ => .idle
  closed := fun _ => false
  gone := fun _ => false
  panicked := false
  stale := []
  linked := fun _ => []
  drained := fun _ => []

theorem init_bound (τ : Type*) : Init (bound τ) where
  hashed := fun key si hmem => by
    by_cases hkey : key = 80
    · rw [hkey]
      change 80 = Net.hash 2000
      decide
    · simp [bound, hkey] at hmem
  nodup := fun key => by
    by_cases hkey : key = 80 <;> simp [bound, hkey]
  task := fun _ => rfl
  gone := fun _ => rfl
  stale := rfl
  linked := fun _ => rfl
  drained := fun _ => rfl

/-- The IP header of a datagram from 10.0.2.2, with one byte of text for port 2000 -/
def iphdr : List UInt8 := [0x45, 0, 0, 29, 0, 0, 0, 0, 64, 17, 0, 0, 10, 0, 2, 2, 10, 0, 2, 15]

def packet : Mbuf := ⟨1, [0x30, 0x39, 0x07, 0xd0, 0, 9, 0, 0, 65], 0, 0⟩

theorem unused_after_close_queued : ∃ s, (system Unit).ReachableUnder Clear s ∧
    (s.linked 7).length = 1 ∧ s.gone 7 = true ∧
      s.stale = [] ∧ ∀ si, s.gone si = true → s.linked si = s.drained si := by
  have hrun : ((system Unit).run (bound Unit)
      [.udp () packet 9 iphdr, .run () 0, .close () 7, .run () 0, .run () 0, .run () 0, .run () 0,
        .run () 0, .run () 0]).any (fun s => (s.linked 7).length == 1 && s.gone 7) = true := by
    decide +kernel
  obtain ⟨s, hs, hp⟩ := System.exists_reachable_of_run (init_bound Unit) hrun
  have hclear := hs.mono fun s a _ => clear_of_subsingleton s a
  rw [Bool.and_eq_true, beq_iff_eq] at hp
  exact ⟨s, hclear, hp.1, hp.2, unused_after_close hclear⟩

/-- The descriptor of a socket is closed between the lookup of a handler and its use of the
    socket. -/
theorem late_packet : ¬ ∀ s, (system Bool).Reachable s →
    s.stale = [] ∧ ∀ si, s.gone si = true → s.linked si = s.drained si := by
  intro hall
  have hrun : ((system Bool).run (bound Bool)
      [.udp false packet 9 iphdr, .close true 7, .run true 0, .run true 0, .run true 0,
        .run false 0]).any (fun s => s.stale == [7]) = true := by
    decide +kernel
  obtain ⟨s, hs, hstale⟩ := System.exists_reachable_of_run (init_bound Bool) hrun
  rw [(hall s hs).1] at hstale
  cases hstale

end Xv6.Kernel.SockClose
