import Mathlib
import Xv6.Lib.TransitionSystem
import Xv6.Kernel.TcpClosed

/-!
# Who Claims the Socket of an `accept`

`net_rx_tcp` stores the peer of a segment in the socket of an `accept` before the state machine looks
at the flags. The state machine takes the socket out of `LISTEN` for a SYN only: any other segment
leaves it in `LISTEN` with a peer, and no other peer finds it any more.

- `sock_step`, `rx_step`: what a step does to the addresses of a socket and to `net_rx_tcp`;
- `claims_step`: the steps after which sockets that listen are still free for everyone;
- `one_peer`: the segments that a socket of an `accept` is given come from one peer;
- `accept_iff`: the runs in which only a SYN claims such a socket.
-/

namespace Xv6.Kernel.TcpAccept

open Xv6.Lib
open Xv6.Kernel.Net hiding State
open Xv6.Kernel.Tcp hiding Sock Mbuf tcpApiReceive
open Xv6.Kernel.TcpPanic
open Xv6.Kernel.TcpClosed

/-! ## What has to hold -/

/-- The socket in the page `si` is one of `accept`. -/
def Accepting (s : State) (si : ℕ) : Prop := s.stage si ≠ .free ∧ (s.net.sock si).parent = true

/-- **Only a SYN claims the socket**: one of an `accept` that listens has no peer, unless `net_rx_tcp`
    is about to give it a segment that opens a connection. -/
def Unclaimed (s : State) (si : ℕ) : Prop :=
  Accepting s si → (s.net.sock si).tcpcb.state = .listen →
    (s.net.sock si).raddr = 0 ∧ (s.net.sock si).rport = 0 ∨ ∃ seg, s.rx = .bound si seg ∧ seg.Opens

/-- An `accept` waits, and every segment to its port finds the socket if no other one fits better. -/
structure Available (s : State) (si : ℕ) : Prop where
  stage : s.stage si = .accepting
  parent : (s.net.sock si).parent = true
  listen : (s.net.sock si).tcpcb.state = .listen
  raddr : (s.net.sock si).raddr = 0
  rport : (s.net.sock si).rport = 0
  linked : si ∈ s.net.sockets (Net.hash (s.net.sock si).lport)

/-- The step is one of `net_rx_tcp` on a segment that does not open a connection. -/
def Stray (s : State) (a : Act) : Prop :=
  (a = .bind ∨ ∃ rand, a = .arrive rand) ∧
    ∀ si seg, s.rx = .found si seg ∨ s.rx = .bound si seg → ¬ seg.Opens

/-- A stray segment leaves every socket available. -/
def Spares (s : State) (a : Act) : Prop :=
  ∀ s', exec s a = some (.ok s') → Stray s a → ∀ si, Available s si → Available s' si

/-- `net_rx_tcp` has found the socket of an `accept` without a peer, and is going to give it the one
    of the segment. -/
def Claims (s : State) (si : ℕ) (seg : Segment) : Prop :=
  s.rx = .found si seg ∧ Accepting s si ∧ ((s.net.sock si).raddr = 0 ∨ (s.net.sock si).rport = 0)

/-- The segment that claims a socket opens a connection, or comes from address and port 0. -/
def Fair (s : State) (a : Act) : Prop :=
  a = .bind → ∀ si seg, Claims s si seg → seg.Opens ∨ seg.raddr = 0 ∧ seg.rport = 0

/-! ## Steps -/

section Steps

variable {s s' : State} {a : Act} {si sj : ℕ} {seg : Segment}

/-- The peer of the segment is stored. -/
structure Binds (s s' : State) (si : ℕ) (seg : Segment) : Prop where
  found : s.rx = .found si seg
  unbound : (s.net.sock si).raddr = 0 ∨ (s.net.sock si).rport = 0
  parent : (s.net.sock si).parent = true
  listen : (s.net.sock si).tcpcb.state = .listen
  bound : s'.rx = .bound si seg
  sock : s'.net.sock si = { s.net.sock si with raddr := seg.raddr, rport := seg.rport }

/-- What a step does to a socket that it does not begin with -/
structure SockStep (s s' : State) (a : Act) (si : ℕ) : Prop where
  stage : s'.stage si ≠ .free → s.stage si ≠ .free
  fresh : ∀ isClient, s'.stage si = .fresh isClient → s.stage si = .fresh isClient
  sock : (∃ cb rxq, s'.net.sock si = { s.net.sock si with tcpcb := cb, rxq := rxq }) ∨
    a = .bind ∧ ∃ seg, Binds s s' si seg

theorem SockStep.of_eq (hstage : s'.stage = s.stage) (hsock : s'.net.sock = s.net.sock) :
    SockStep s s' a si :=
  ⟨fun h => hstage ▸ h, fun _ h => hstage ▸ h,
    .inl ⟨(s.net.sock si).tcpcb, (s.net.sock si).rxq, by rw [hsock]⟩⟩

theorem sockStep_add {type : UInt8} {stage : Stage} {so : Sock} (hne : si ≠ sj)
    (h : s.add sj type stage so = some s') : SockStep s s' a si := by
  obtain ⟨-, hstage, hsock, -⟩ := add_spec h
  have hsi : s'.stage si = s.stage si := by rw [hstage, Function.update_of_ne hne]
  refine ⟨fun h => hsi ▸ h, fun _ h => hsi ▸ h, .inl ⟨(s.net.sock si).tcpcb, (s.net.sock si).rxq, ?_⟩⟩
  rw [hsock, Function.update_of_ne hne]

theorem setTcpcb_sock (s : State) (sj : ℕ) (cb : TcpCb) (signals : List Signal) (si : ℕ) :
    ∃ cb' rxq, (s.setTcpcb sj cb signals).net.sock si =
      { s.net.sock si with tcpcb := cb', rxq := rxq } := by
  by_cases heq : si = sj
  · subst heq
    exact ⟨cb, (s.net.sock si).rxq, Function.update_self _ _ _⟩
  · exact ⟨_, _, Function.update_of_ne heq _ _⟩

/-- A call that goes on to a stage of a socket in use, and leaves the addresses alone -/
theorem sockStep_setStage {t : State} {stage : Stage} (ht : t.stage = s.stage)
    (hsock : ∃ cb rxq, t.net.sock si = { s.net.sock si with tcpcb := cb, rxq := rxq })
    (hfree : stage ≠ .free → s.stage sj ≠ .free) (hfresh : ∀ isClient, stage ≠ .fresh isClient) :
    SockStep s (t.setStage sj stage) a si := by
  by_cases heq : si = sj
  · subst heq
    have hstage : (t.setStage si stage).stage si = stage := Function.update_self _ _ _
    exact ⟨fun h => hfree (hstage ▸ h), fun c h => absurd (hstage ▸ h) (hfresh c), .inl hsock⟩
  · have hstage : (t.setStage sj stage).stage si = s.stage si :=
      (Function.update_of_ne heq _ _).trans (congrFun ht si)
    exact ⟨fun h => hstage ▸ h, fun _ h => hstage ▸ h, .inl hsock⟩

/-- The socket that was found is passed on, and takes the peer of the segment if it has none. -/
theorem bind_spec {net : Net.State} (h : seg.bind s.net sj = .ok (some net)) :
    ((s.net.sock sj).raddr ≠ 0 ∧ (s.net.sock sj).rport ≠ 0 ∧ net = s.net) ∨
      (((s.net.sock sj).raddr = 0 ∨ (s.net.sock sj).rport = 0) ∧ (s.net.sock sj).parent = true ∧
        (s.net.sock sj).tcpcb.state = .listen ∧
        net = s.net.setSock sj { s.net.sock sj with raddr := seg.raddr, rport := seg.rport }) := by
  unfold Segment.bind at h
  by_cases hopen : (s.net.sock sj).raddr = 0 ∨ (s.net.sock sj).rport = 0
  · rw [if_pos hopen] at h
    by_cases hparent : (s.net.sock sj).parent = false
    · rw [if_pos hparent] at h
      cases h
    rw [if_neg hparent] at h
    by_cases hlisten : (s.net.sock sj).tcpcb.state = .listen
    · rw [if_neg (not_not.mpr hlisten), sockHashtableUpdate] at h
      split at h
      · cases h
      next net' hupdate =>
      split at hupdate
      · cases h
        cases hupdate
        exact .inr ⟨hopen, by simpa using hparent, hlisten, rfl⟩
      · cases hupdate
    · rw [if_pos hlisten] at h
      cases h
  · rw [if_neg hopen] at h
    cases h
    obtain ⟨hraddr, hrport⟩ := not_or.mp hopen
    exact .inl ⟨hraddr, hrport, rfl⟩

/-- **What a step does to a socket** that it does not begin with -/
theorem sock_step (hstep : exec s a = some (.ok s')) (hbegins : ¬ Begins si a) :
    SockStep s s' a si := by
  -- One case for each action. The socket of the action keeps its addresses but for `bind`; those of
  -- the others only have their queue touched.
  cases a with
  | connect sj raddr lport rport sockType isClient =>
    simp only [exec] at hstep
    split at hstep
    swap
    · cases hstep
    rw [Option.map_eq_some_iff] at hstep
    obtain ⟨s₁, hadd, heq⟩ := hstep
    cases heq
    exact sockStep_add (fun heq => hbegins heq.symm) hadd
  | init sj rand =>
    simp only [exec] at hstep
    split at hstep
    · next hst =>
      cases hstep
      exact sockStep_setStage rfl (setTcpcb_sock ..) (fun _ => hst ▸ (by rintro ⟨⟩)) (by rintro _ ⟨⟩)
    · next hst =>
      cases hstep
      exact sockStep_setStage rfl (setTcpcb_sock ..) (fun _ => hst ▸ (by rintro ⟨⟩)) (by rintro _ ⟨⟩)
    · cases hstep
  | connected sj =>
    simp only [exec] at hstep
    split at hstep
    swap
    · cases hstep
    next hst =>
    cases hstep
    exact sockStep_setStage rfl ⟨_, _, rfl⟩ (fun _ => hst.1 ▸ (by rintro ⟨⟩)) (by rintro _ ⟨⟩)
  | accept osi sj =>
    simp only [exec] at hstep
    split at hstep
    · cases hstep
    split at hstep
    swap
    · cases hstep
    split at hstep
    · rw [Option.map_eq_some_iff] at hstep
      obtain ⟨s₁, hadd, heq⟩ := hstep
      cases heq
      exact sockStep_add (fun heq => hbegins heq.symm) hadd
    · cases hstep
      exact .of_eq rfl rfl
  | accepted sj =>
    simp only [exec] at hstep
    split at hstep
    swap
    · cases hstep
    next hst =>
    cases hstep
    exact sockStep_setStage rfl ⟨_, _, rfl⟩ (fun _ => hst.1 ▸ (by rintro ⟨⟩)) (by rintro _ ⟨⟩)
  | send sj rand len =>
    simp only [exec] at hstep
    split at hstep
    swap
    · cases hstep
    cases hstep
    exact ⟨id, fun _ => id, .inl (setTcpcb_sock ..)⟩
  | receive sj slept killed copyout n =>
    simp only [exec] at hstep
    split at hstep
    swap
    · cases hstep
    split at hstep
    · cases hstep
      exact .of_eq rfl rfl
    next so' hreceive =>
    cases hstep
    obtain ⟨wnd, rxq, rfl⟩ := tcpApiReceive_spec hreceive
    -- Reading takes from the socket's own queue, and opens its window.
    refine ⟨id, fun _ => id, .inl ?_⟩
    by_cases heq : si = sj
    · subst heq
      exact ⟨_, rxq, Function.update_self _ _ _⟩
    · exact ⟨_, _, Function.update_of_ne heq _ _⟩
  | close sj =>
    simp only [exec] at hstep
    split at hstep
    swap
    · cases hstep
    next hst =>
    have hfree : s.stage sj ≠ .free := by rcases hst with hst | hst <;> simp [hst]
    split at hstep
    · cases hstep
      exact sockStep_setStage rfl (setTcpcb_sock ..) (fun _ => hfree) (by rintro _ ⟨⟩)
    · cases hstep
      exact sockStep_setStage rfl ⟨_, _, rfl⟩ (fun _ => hfree) (by rintro _ ⟨⟩)
  | release sj =>
    simp only [exec] at hstep
    split at hstep
    · cases hstep
      have hsock : (sockHashtableRemove s.net sj).sock = s.net.sock := rfl
      exact sockStep_setStage rfl ⟨_, _, congrFun hsock si⟩ (fun h => absurd rfl h) (by rintro _ ⟨⟩)
    · cases hstep
  | segment m len iphdr =>
    simp only [exec] at hstep
    split at hstep
    swap
    · cases hstep
    split at hstep
    · cases hstep
      exact .of_eq rfl rfl
    split at hstep
    · cases hstep
      exact .of_eq rfl rfl
    · cases hstep
      exact .of_eq rfl rfl
  | bind =>
    simp only [exec] at hstep
    split at hstep
    swap
    · cases hstep
    next sj seg hrx =>
    split at hstep
    · cases hstep
    · cases hstep
      exact .of_eq rfl rfl
    · next net hbind =>
      cases hstep
      rcases bind_spec hbind with ⟨-, -, rfl⟩ | ⟨hopen, hparent, hlisten, rfl⟩
      · exact .of_eq rfl rfl
      refine ⟨id, fun _ => id, ?_⟩
      -- The one step that gives a socket a peer: its segment said which.
      by_cases heq : si = sj
      · subst heq
        exact .inr ⟨rfl, seg, hrx, hopen, hparent, hlisten, rfl, Function.update_self _ _ _⟩
      · exact .inl ⟨_, _, Function.update_of_ne heq _ _⟩
  | arrive rand =>
    simp only [exec] at hstep
    split at hstep
    swap
    · cases hstep
    next sj seg hrx =>
    split at hstep
    · cases hstep
    next net harrive =>
    cases hstep
    obtain ⟨r, hr, ⟨rxq, hsj⟩, hother, -⟩ := segmentArrives_spec harrive
    -- A segment changes the control block of the socket it was found for, and queues its text.
    refine ⟨id, fun _ => id, .inl ?_⟩
    by_cases heq : si = sj
    · subst heq
      exact ⟨r.cb, rxq, hsj⟩
    · obtain ⟨rxq', hsi⟩ := hother si heq
      exact ⟨_, rxq', hsi⟩

/-- **What a step does to `net_rx_tcp`** -/
inductive RxStep (s : State) : Act → Rx → Prop where
  | other {a : Act} : a ≠ .bind → (∀ rand, a ≠ .arrive rand) → RxStep s a s.rx
  | found {m : Mbuf} {len : UInt16} {iphdr : List UInt8} {si : ℕ} {seg : Segment} : s.rx = .idle →
      seg.find s.net = some si → RxStep s (.segment m len iphdr) (.found si seg)
  | bound {si : ℕ} {seg : Segment} : s.rx = .found si seg → RxStep s .bind (.bound si seg)
  | missed {si : ℕ} {seg : Segment} : s.rx = .found si seg → RxStep s .bind .idle
  | arrived {rand : UInt32} {si : ℕ} {seg : Segment} : s.rx = .bound si seg →
      RxStep s (.arrive rand) .idle

theorem rx_step (hstep : exec s a = some (.ok s')) : RxStep s a s'.rx := by
  cases a with
  | connect sj raddr lport rport sockType isClient =>
    simp only [exec] at hstep
    split at hstep
    swap
    · cases hstep
    rw [Option.map_eq_some_iff] at hstep
    obtain ⟨s₁, hadd, heq⟩ := hstep
    cases heq
    rw [(add_spec hadd).1]
    exact .other (by rintro ⟨⟩) (by rintro _ ⟨⟩)
  | accept osi sj =>
    simp only [exec] at hstep
    split at hstep
    · cases hstep
    split at hstep
    swap
    · cases hstep
    split at hstep
    · rw [Option.map_eq_some_iff] at hstep
      obtain ⟨s₁, hadd, heq⟩ := hstep
      cases heq
      rw [(add_spec hadd).1]
      exact .other (by rintro ⟨⟩) (by rintro _ ⟨⟩)
    · cases hstep
      exact .other (by rintro ⟨⟩) (by rintro _ ⟨⟩)
  | segment m len iphdr =>
    simp only [exec] at hstep
    split at hstep
    swap
    · cases hstep
    next hidle =>
    split at hstep
    · cases hstep
      exact .other (by rintro ⟨⟩) (by rintro _ ⟨⟩)
    split at hstep
    · cases hstep
      exact .other (by rintro ⟨⟩) (by rintro _ ⟨⟩)
    -- A segment is held only from the step that looks its socket up.
    · next hget =>
      cases hstep
      exact .found hidle hget
  | bind =>
    simp only [exec] at hstep
    split at hstep
    swap
    · cases hstep
    next hrx =>
    split at hstep
    · cases hstep
    · cases hstep
      exact .missed hrx
    · cases hstep
      exact .bound hrx
  | arrive rand =>
    simp only [exec] at hstep
    split at hstep
    swap
    · cases hstep
    next hrx =>
    split at hstep
    · cases hstep
    · cases hstep
      exact .arrived hrx
  -- The other actions do not look at the segment in flight.
  | _ =>
    simp only [exec] at hstep
    repeat' split at hstep
    all_goals cases hstep
    all_goals exact .other (by rintro ⟨⟩) (by rintro _ ⟨⟩)

/-- A segment that opens a connection takes a socket out of `LISTEN`. -/
theorem arrives_opens {rand : UInt32} {cb : TcpCb} {len : UInt32} {r : Arrival}
    (h : tcpSegmentsArrives rand cb seg.hdr len = .ok r) (hst : cb.state = .listen)
    (hopens : seg.Opens) : r.cb.state = .synRcvd := by
  obtain ⟨hsyn, hrst, hack⟩ := hopens
  rw [tcpSegmentsArrives_eq] at h
  simp only [hst, Except.ok.injEq] at h
  rw [← h]
  simp [listenArrives, hrst, hack, hsyn, drop]

/-- A socket that listens after a step has listened before it, and the step does not open a
    connection on it. -/
theorem listen_back {cb : TcpCb} (h : TcbStep s si a cb) (hlisten : cb.state = .listen) :
    (s.net.sock si).tcpcb.state = .listen ∧ ∀ seg, Handles si s a seg → ¬ seg.Opens := by
  cases h with
  | kept h => exact ⟨hlisten, fun seg hseg => absurd hseg (h seg)⟩
  | receive wnd => exact ⟨hlisten, by rintro _ ⟨⟨_, ⟨⟩⟩, _⟩⟩
  | send rand len =>
    refine ⟨?_, by rintro _ ⟨⟨_, ⟨⟩⟩, _⟩⟩
    unfold tcpApiSend at hlisten
    dsimp only at hlisten
    split at hlisten
    · assumption
    · exact hlisten
    · exact hlisten
  | close =>
    refine ⟨?_, by rintro _ ⟨⟨_, ⟨⟩⟩, _⟩⟩
    unfold tcpApiClose at hlisten
    split at hlisten
    · exact hlisten
    · next st hst =>
      cases hcb : (s.net.sock si).tcpcb.state <;> simp [TcpWakeup.closeState, hcb] at hst <;> subst hst <;>
        cases hlisten
  | @arrive rand seg r hrx hr =>
    have hst := (arrives_keeps hr).listen hlisten
    refine ⟨hst, ?_⟩
    rintro seg' ⟨_, hrx'⟩ hopens
    rw [hrx] at hrx'
    cases hrx'
    rw [arrives_opens hr hst hopens] at hlisten
    cases hlisten

/-! ## The claim of a socket -/

/-- A socket is one of `accept` only after `sock_hashtable_add`. -/
def Founded (s : State) : Prop :=
  ∀ si isClient, s.stage si = .fresh isClient → (s.net.sock si).parent = false

/-- What a step begins with a page -/
inductive Begun (s s' : State) (si : ℕ) : Prop where
  /-- A socket for `connect` or `listen` -/
  | connect : (s'.net.sock si).parent = false → Begun s s' si
  /-- Its control block -/
  | init (isClient : Bool) : s.stage si = .fresh isClient →
      (s'.net.sock si).parent = (s.net.sock si).parent → (∀ isClient, s'.stage si ≠ .fresh isClient) →
      Begun s s' si
  | accept : (s'.net.sock si).raddr = 0 → (s'.net.sock si).rport = 0 →
      (∀ isClient, s'.stage si ≠ .fresh isClient) → Begun s s' si
  /-- `sockaccept` refuses. -/
  | none : s' = s → Begun s s' si

theorem begun_step (hstep : exec s a = some (.ok s')) (hbegins : Begins si a) : Begun s s' si := by
  cases a with
  | connect sj raddr lport rport sockType isClient =>
    cases hbegins
    simp only [exec] at hstep
    split at hstep
    swap
    · cases hstep
    rw [Option.map_eq_some_iff] at hstep
    obtain ⟨s₁, hadd, heq⟩ := hstep
    cases heq
    refine .connect ?_
    rw [(add_spec hadd).2.2.1, Function.update_self]
  | init sj rand =>
    cases hbegins
    simp only [exec] at hstep
    -- What the control block becomes is the socket's only change.
    have hsock : ∀ cb signals stage, (((s.setTcpcb si cb signals).setStage si stage).net.sock
        si).parent = (s.net.sock si).parent := fun cb signals stage => by
      simp [State.setStage, State.setTcpcb, Net.State.setSock]
    have hstage : ∀ cb signals stage, ((s.setTcpcb si cb signals).setStage si stage).stage si = stage :=
      fun _ _ _ => Function.update_self _ _ _
    split at hstep
    · next hst =>
      cases hstep
      exact .init true hst (hsock ..) (by rw [hstage]; rintro _ ⟨⟩)
    · next hst =>
      cases hstep
      exact .init false hst (hsock ..) (by rw [hstage]; rintro _ ⟨⟩)
    · cases hstep
  | accept osi sj =>
    cases hbegins
    simp only [exec] at hstep
    split at hstep
    · cases hstep
    split at hstep
    swap
    · cases hstep
    split at hstep
    · rw [Option.map_eq_some_iff] at hstep
      obtain ⟨s₁, hadd, heq⟩ := hstep
      cases heq
      obtain ⟨-, hstage, hsock, -⟩ := add_spec hadd
      refine .accept ?_ ?_ ?_
      -- The new socket takes the addresses of the connection, and its parent.
      · rw [hsock, Function.update_self]
        rfl
      · rw [hsock, Function.update_self]
        rfl
      · rw [hstage, Function.update_self]
        rintro _ ⟨⟩
    · cases hstep
      exact .none rfl
  | _ => exact hbegins.elim

theorem founded_step (h : Founded s) (hstep : exec s a = some (.ok s')) : Founded s' := by
  intro si isClient hst
  by_cases hbegins : Begins si a
  · cases begun_step hstep hbegins with
    | connect hparent => exact hparent
    | init _ _ _ hne => exact absurd hst (hne isClient)
    | accept _ _ hne => exact absurd hst (hne isClient)
    | none heq =>
      rw [heq] at hst ⊢
      exact h si isClient hst
  · have hsock := sock_step hstep hbegins
    have hparent := h si isClient (hsock.fresh isClient hst)
    rcases hsock.sock with ⟨cb, rxq, heq⟩ | ⟨-, seg, hbinds⟩
    · rw [heq]
      exact hparent
    · rw [hbinds.sock]
      exact hparent

/-- A socket that is claimed takes the peer of the segment. -/
theorem binds_of_claims (hclaims : Claims s si seg) (hstep : exec s .bind = some (.ok s')) :
    Binds s s' si seg ∧ s'.stage = s.stage := by
  obtain ⟨hrx, ⟨-, hparent⟩, hopen⟩ := hclaims
  simp only [exec, hrx] at hstep
  split at hstep
  · cases hstep
  · next hbind =>
    -- it is one of `accept`
    simp [Segment.bind, hopen, hparent] at hbind
    split_ifs at hbind
    split at hbind <;> cases hbind
  · next net hbind =>
    cases hstep
    rcases bind_spec hbind with ⟨hraddr, hrport, -⟩ | ⟨-, -, hlisten, rfl⟩
    · exact absurd hopen (not_or.mpr ⟨hraddr, hrport⟩)
    · exact ⟨⟨hrx, hopen, hparent, hlisten, rfl, Function.update_self _ _ _⟩, rfl⟩

/-- A page with which a step begins something is not claimed. -/
theorem Begun.unclaimed (h : Begun s s' si) (hfounded : Founded s) (hs : Unclaimed s si) :
    Unclaimed s' si := by
  cases h with
  | connect hparent => exact fun hacc => nomatch hparent.symm.trans hacc.2
  | init isClient hst hparent _ =>
    have hno := hparent.trans (hfounded si isClient hst)
    exact fun hacc => nomatch hno.symm.trans hacc.2
  | accept hraddr hrport _ => exact fun _ _ => .inl ⟨hraddr, hrport⟩
  | none heq => exact heq ▸ hs

/-- A fair step leaves a socket unclaimed. -/
theorem unclaimed_step (hfounded : Founded s) (hs : Unclaimed s si) (hfair : Fair s a)
    (hstep : exec s a = some (.ok s')) : Unclaimed s' si := by
  by_cases hbegins : Begins si a
  · exact (begun_step hstep hbegins).unclaimed hfounded hs
  intro hacc hlisten
  obtain ⟨hlisten', hno⟩ := listen_back (tcb_step hstep hbegins) hlisten
  have hsock := sock_step hstep hbegins
  have hfree := hsock.stage hacc.1
  rcases hsock.sock with ⟨cb, rxq, heq⟩ | ⟨rfl, seg, hbinds⟩
  · have hparent : (s.net.sock si).parent = true := by
      have h := hacc.2
      rwa [heq] at h
    rcases hs ⟨hfree, hparent⟩ hlisten' with hzero | ⟨seg, hrx, hopens⟩
    · left
      rw [heq]
      exact hzero
    · -- the segment that opens the connection is still on its way
      have hr := rx_step hstep
      generalize hr' : s'.rx = rx' at hr
      cases hr with
      | other => exact .inr ⟨seg, hrx, hopens⟩
      | found hidle => exact nomatch hidle.symm.trans hrx
      | bound hfound => exact nomatch hfound.symm.trans hrx
      | missed hfound => exact nomatch hfound.symm.trans hrx
      | arrived hbound => exact absurd hopens (hno seg ⟨⟨_, rfl⟩, hrx⟩)
  · rcases hfair rfl si seg ⟨hbinds.found, ⟨hfree, hbinds.parent⟩, hbinds.unbound⟩ with hopens | hzero
    · exact .inr ⟨seg, hbinds.bound, hopens⟩
    · left
      rw [hbinds.sock]
      exact hzero

/-- **A step claims a socket with a segment that does not open a connection** if and only if it is not
    fair. -/
theorem claims_step (hfounded : Founded s) (hs : ∀ si, Unclaimed s si)
    (hstep : exec s a = some (.ok s')) : (∀ si, Unclaimed s' si) ↔ Fair s a := by
  constructor
  · rintro h rfl si seg hclaims
    obtain ⟨hbinds, hstage⟩ := binds_of_claims hclaims hstep
    have hacc : Accepting s' si := by
      refine ⟨?_, ?_⟩
      · rw [hstage]
        exact hclaims.2.1.1
      · rw [hbinds.sock]
        exact hbinds.parent
    have hlisten : (s'.net.sock si).tcpcb.state = .listen := by
      rw [hbinds.sock]
      exact hbinds.listen
    rcases h si hacc hlisten with hzero | ⟨seg', hrx, hopens⟩
    · rw [hbinds.sock] at hzero
      exact .inr hzero
    · rw [hbinds.bound] at hrx
      cases hrx
      exact .inl hopens
  · exact fun hfair si => unclaimed_step hfounded (hs si) hfair hstep

/-- The steps of `net_rx_tcp` on a segment leave the table alone. -/
theorem rx_table (hstep : exec s a = some (.ok s')) (hwhich : a = .bind ∨ ∃ rand, a = .arrive rand) :
    s'.stage = s.stage ∧ s'.net.sockets = s.net.sockets := by
  rcases hwhich with rfl | ⟨rand, rfl⟩
  · simp only [exec] at hstep
    split at hstep
    swap
    · cases hstep
    split at hstep
    · cases hstep
    · cases hstep
      exact ⟨rfl, rfl⟩
    · next net hbind =>
      cases hstep
      rcases bind_spec hbind with ⟨-, -, rfl⟩ | ⟨-, -, -, rfl⟩
      · exact ⟨rfl, rfl⟩
      · exact ⟨rfl, rfl⟩
  · simp only [exec] at hstep
    split at hstep
    swap
    · cases hstep
    split at hstep
    · cases hstep
    next net harrive =>
    cases hstep
    obtain ⟨-, -, -, -, hsockets⟩ := segmentArrives_spec harrive
    exact ⟨rfl, hsockets⟩

/-- A stray segment leaves a socket in `LISTEN`. -/
theorem stray_listen {cb : TcpCb} (hstray : Stray s a) (h : TcbStep s si a cb)
    (hlisten : (s.net.sock si).tcpcb.state = .listen) : cb.state = .listen := by
  obtain ⟨hwhich, hno⟩ := hstray
  cases h with
  | kept _ => exact hlisten
  | @arrive rand seg r hrx hr => exact arrives_listen hr hlisten (hno si seg (.inr hrx))
  | _ => rcases hwhich with ha | ⟨rand, ha⟩ <;> cases ha

/-- A fair step spares the sockets that are available. -/
theorem spares_of_fair (hfair : Fair s a) : Spares s a := by
  intro s' hstep hstray si hav
  have hbegins : ¬ Begins si a := by
    rcases hstray.1 with rfl | ⟨rand, rfl⟩ <;> exact id
  obtain ⟨hstage, hsockets⟩ := rx_table hstep hstray.1
  have hlisten := stray_listen hstray (tcb_step hstep hbegins) hav.listen
  rcases (sock_step hstep hbegins).sock with ⟨cb, rxq, heq⟩ | ⟨rfl, seg, hbinds⟩
  · refine ⟨by rw [hstage]; exact hav.stage, ?_, hlisten, ?_, ?_, ?_⟩ <;> rw [heq]
    · exact hav.parent
    · exact hav.raddr
    · exact hav.rport
    · rw [hsockets]
      exact hav.linked
  · have hacc : Accepting s si := ⟨hav.stage ▸ nofun, hav.parent⟩
    rcases hfair rfl si seg ⟨hbinds.found, hacc, hbinds.unbound⟩ with hopens | ⟨hraddr, hrport⟩
    · exact absurd hopens (hstray.2 si seg (.inl hbinds.found))
    · refine ⟨by rw [hstage]; exact hav.stage, ?_, hlisten, ?_, ?_, ?_⟩ <;> rw [hbinds.sock]
      · exact hav.parent
      · exact hraddr
      · exact hrport
      · rw [hsockets]
        exact hav.linked

/-! ## One peer -/

/-- The socket that `net_rx_tcp` has got to belongs to the peer of the segment, once it has a peer. -/
def Met (s : State) : Prop :=
  ∀ si seg, s.rx = .found si seg ∨ s.rx = .bound si seg → (s.net.sock si).parent = true →
    (s.net.sock si).raddr ≠ 0 → (s.net.sock si).rport ≠ 0 →
    (s.net.sock si).raddr = seg.raddr ∧ (s.net.sock si).rport = seg.rport

theorem find_peer (h : seg.find s.net = some si) (hraddr : (s.net.sock si).raddr ≠ 0) :
    (s.net.sock si).raddr = seg.raddr ∧ (s.net.sock si).rport = seg.rport := by
  rcases sockHashtableGet_iff.mp h with hsel | ⟨-, hsel⟩
  · exact hsel.1.2
  · exact absurd hsel.1.2.1 hraddr

theorem met_step (hfounded : Founded s) (h : Met s) (hstep : exec s a = some (.ok s')) : Met s' := by
  intro si seg hrx hparent hraddr hrport
  by_cases hbegins : Begins si a
  · cases begun_step hstep hbegins with
    | connect hno => exact nomatch hno.symm.trans hparent
    | init isClient hst heq _ => exact nomatch (heq.trans (hfounded si isClient hst)).symm.trans hparent
    | accept hzero _ _ => exact absurd hzero hraddr
    | none heq =>
      rw [heq] at hrx hparent hraddr hrport ⊢
      exact h si seg hrx hparent hraddr hrport
  rcases (sock_step hstep hbegins).sock with ⟨cb, rxq, heq⟩ | ⟨rfl, seg', hbinds⟩
  · rw [heq] at hparent hraddr hrport ⊢
    have hr := rx_step hstep
    generalize s'.rx = rx' at hr hrx
    cases hr with
    | other => exact h si seg hrx hparent hraddr hrport
    | found hidle hfind =>
      rcases hrx with hrx | hrx <;> cases hrx
      exact find_peer hfind hraddr
    | bound hfound =>
      rcases hrx with hrx | hrx <;> cases hrx
      exact h si seg (.inl hfound) hparent hraddr hrport
    | missed _ => rcases hrx with hrx | hrx <;> cases hrx
    | arrived _ => rcases hrx with hrx | hrx <;> cases hrx
  · rw [hbinds.bound] at hrx
    rcases hrx with hrx | hrx <;> cases hrx
    rw [hbinds.sock]
    exact ⟨rfl, rfl⟩

/-- A socket that does not listen is passed on only with a peer. -/
theorem bind_peer (hrx : s.rx = .found si seg) (hlisten : (s.net.sock si).tcpcb.state ≠ .listen)
    (hstep : exec s .bind = some (.ok s')) (hbound : s'.rx = .bound si seg) :
    (s.net.sock si).raddr ≠ 0 ∧ (s.net.sock si).rport ≠ 0 := by
  simp only [exec, hrx] at hstep
  split at hstep
  · cases hstep
  · cases hstep
    cases hbound
  · next net hbind =>
    rcases bind_spec hbind with ⟨hraddr, hrport, -⟩ | ⟨-, -, hst, -⟩
    · exact ⟨hraddr, hrport⟩
    · exact absurd hst hlisten

/-- The socket of an `accept` that has left `LISTEN` with this peer -/
structure Taken (s : State) (si : ℕ) (raddr : UInt32) (rport : UInt16) : Prop where
  parent : (s.net.sock si).parent = true
  listen : (s.net.sock si).tcpcb.state ≠ .listen
  peer : (s.net.sock si).raddr = raddr ∧ (s.net.sock si).rport = rport
  bound : ∀ seg, s.rx = .bound si seg → raddr ≠ 0 ∧ rport ≠ 0

/-- It keeps the peer. -/
theorem taken_step {raddr : UInt32} {rport : UInt16} (h : Taken s si raddr rport)
    (hstep : exec s a = some (.ok s')) (hbegins : ¬ Begins si a) : Taken s' si raddr rport := by
  rcases (sock_step hstep hbegins).sock with ⟨cb, rxq, heq⟩ | ⟨rfl, seg, hbinds⟩
  swap
  · exact absurd hbinds.listen h.listen
  refine ⟨?_, fun hst => h.listen (listen_back (tcb_step hstep hbegins) hst).1, ?_, fun seg hrx => ?_⟩
  · rw [heq]
    exact h.parent
  · rw [heq]
    exact h.peer
  · have hr := rx_step hstep
    generalize hr' : s'.rx = rx' at hr hrx
    cases hr with
    | other => exact h.bound seg hrx
    | found => cases hrx
    | bound hfound =>
      cases hrx
      rw [← h.peer.1, ← h.peer.2]
      exact bind_peer hfound h.listen hstep hr'
    | missed => cases hrx
    | arrived => cases hrx

/-- The segment is given to the socket of an `accept`, which does not listen any more behind it. -/
def Serves (s : State) (si : ℕ) (a : Act) (seg : Segment) : Prop :=
  (s.net.sock si).parent = true ∧ Handles si s a seg ∧
    ∃ s', exec s a = some (.ok s') ∧ (s'.net.sock si).tcpcb.state ≠ .listen

end Steps

/-! ## Runs -/

section Runs

variable {s s' t : State} {a b : Act} {si : ℕ} {seg seg' : Segment}

theorem exec_of_step (h : system.step s a = some s') : exec s a = some (.ok s') := by
  unfold system at h
  dsimp only at h
  split at h
  · next hexec => rw [hexec, Option.some.inj h]
  · cases h

/-- What holds in every state reached -/
def Sound (s : State) : Prop := Founded s ∧ Met s

theorem sound_init (h : system.init s) : Sound s := by
  refine ⟨fun si isClient hst => ?_, fun si seg hrx => ?_⟩
  · rw [h.stage si] at hst
    cases hst
  · rw [h.rx] at hrx
    rcases hrx with hrx | hrx <;> cases hrx

theorem sound_step (h : Sound s) (hstep : system.step s a = some s') : Sound s' :=
  ⟨founded_step h.1 (exec_of_step hstep), met_step h.1 h.2 (exec_of_step hstep)⟩

theorem sound_of_reachable (h : system.Reachable s) : Sound s :=
  System.invariant Sound (fun _ => sound_init) (fun _ _ _ h _ => sound_step h) h

/-- **The segments that the socket of an `accept` is given after it has left `LISTEN`, and the one with
    which it leaves it, come from one peer.** -/
theorem one_peer (hs : system.Reachable s) (hserves : Serves s si a seg)
    (hstep : system.step s a = some s') {bs : List Act} (hbegins : ∀ b ∈ bs, ¬ Begins si b)
    (hrun : system.run s' bs = some t) (hserves' : Serves t si b seg') :
    seg'.raddr = seg.raddr ∧ seg'.rport = seg.rport := by
  obtain ⟨hparent, hhandles, s₁, hexec, hlisten⟩ := hserves
  obtain ⟨⟨rand, rfl⟩, hrx⟩ := hhandles
  have hexec' := exec_of_step hstep
  rw [hexec'] at hexec
  cases hexec
  have htaken : Taken s' si (s.net.sock si).raddr (s.net.sock si).rport := by
    have hr := rx_step hexec'
    rcases (sock_step hexec' (id : ¬ Begins si (.arrive rand))).sock with ⟨cb, rxq, heq⟩ | ⟨hbind, -⟩
    · refine ⟨by rw [heq]; exact hparent, hlisten, by rw [heq]; exact ⟨rfl, rfl⟩, fun seg₁ hrx₁ => ?_⟩
      generalize s'.rx = rx' at hr hrx₁
      cases hr with
      | other _ hne => exact absurd rfl (hne rand)
      | arrived => cases hrx₁
    · cases hbind
  have hreach' : system.Reachable s' := .step hs trivial hstep
  have htaken' := System.run_invariant (I := fun u => Taken u si _ _)
    (fun u u' c hc hu hu' => taken_step hu (exec_of_step hu') (hbegins c hc)) htaken hrun
  obtain ⟨-, ⟨-, hrx'⟩, -⟩ := hserves'
  obtain ⟨hraddr, hrport⟩ := htaken'.bound seg' hrx'
  have hmet := (sound_of_reachable hs).2 si seg (.inr hrx) hparent hraddr hrport
  have hmet' := (sound_of_reachable (System.reachable_of_run hreach' hrun)).2 si seg' (.inr hrx')
    htaken'.parent (htaken'.peer.1 ▸ hraddr) (htaken'.peer.2 ▸ hrport)
  rw [htaken'.peer.1, htaken'.peer.2] at hmet'
  exact ⟨hmet'.1.symm.trans hmet.1, hmet'.2.symm.trans hmet.2⟩

/-- In the states and steps of a schedule only a SYN claims the socket of an `accept`, and a stray
    segment leaves those that are available alone. -/
def OnlySyn (s : State) (as : List Act) : Prop :=
  system.Throughout (fun t => ∀ si, Unclaimed t si) s as ∧ system.Takes Spares s as

/-- **Only a SYN claims a socket** if and only if every segment that claims one is fair, and no two
    peers are served by one socket. -/
theorem accept_iff (s : State) (as : List Act) :
    (system.Reachable s → ∀ si a seg, Serves s si a seg → ∀ s', system.step s a = some s' →
      ∀ bs : List Act, (∀ b ∈ bs, ¬ Begins si b) → ∀ t, system.run s' bs = some t →
        ∀ b seg', Serves t si b seg' → seg'.raddr = seg.raddr ∧ seg'.rport = seg.rport) ∧
    (system.init s → (OnlySyn s as ↔ system.Takes Fair s as)) := by
  refine ⟨fun hs si a seg h s' hstep bs hbegins t hrun b seg' h' =>
    one_peer hs h hstep hbegins hrun h', fun h0 => ?_⟩
  have hiff : system.Throughout (fun t => Founded t ∧ ∀ si, Unclaimed t si) s as ↔
      system.Takes Fair s as := by
    refine System.throughout_iff (fun t t' a _ ht hstep => ?_) ⟨(sound_init h0).1, fun si hacc => ?_⟩
    · have hexec := exec_of_step hstep
      rw [← claims_step ht.1 ht.2 hexec]
      exact and_iff_right (founded_step ht.1 hexec)
    · exact absurd (h0.stage si) hacc.1
  rw [OnlySyn, ← hiff]
  constructor
  · rintro ⟨hunclaimed, -⟩
    exact hunclaimed.and_invariant (fun t a t' ht hstep => founded_step ht (exec_of_step hstep))
      (sound_init h0).1
  · intro h
    exact ⟨h.mono fun _ => And.right, (hiff.mp h).mono fun _ _ => spares_of_fair⟩

end Runs

/-! ## A stray segment -/

/-- A segment without text from port 80 of 10.0.2.2 to port 2000 -/
def segment80 (seq ack flags : UInt8) : Act :=
  .segment
    { addr := 0x87000000
      data := [0, 80, 0x07, 0xd0, 0, 0, 0, seq, 0, 0, 0, ack, 0x50, flags, 0xff, 0xff, 0, 0, 0, 0] }
    20 [0x45, 0, 0, 40, 0, 0, 0, 0, 64, 6, 0, 0, 10, 0, 2, 2, 10, 0, 2, 15]

/-- A process accepts on port 2000. -/
def waiting : List Act := [.connect 1 0 2000 0 1 false, .init 1 0, .accept (.sock 1) 2]

/-- A FIN with ACK comes to the socket that waits in `accept`. -/
def strayFin : List Act := waiting ++ [segment80 100 0 0x11, .bind, .arrive 7]

/-- A test for states in which `net_rx_tcp` does not run -/
def rxIdle (s : State) : Bool :=
  match s.rx with
  | .idle => true
  | _ => false

theorem stray_claims : ¬ ∀ s, system.init s → ∀ as, OnlySyn s as := by
  intro hall
  have hrun : (system.run noSocks strayFin).any (fun t =>
      decide (t.stage 2 = .accepting) && (t.net.sock 2).parent && decide ((t.net.sock 2).raddr ≠ 0) &&
        decide ((t.net.sock 2).tcpcb.state = .listen) && rxIdle t) = true := by decide +kernel
  cases ht : system.run noSocks strayFin with
  | none =>
    rw [ht] at hrun
    cases hrun
  | some t =>
    rw [ht, Option.any_some] at hrun
    simp only [Bool.and_eq_true, decide_eq_true_eq] at hrun
    obtain ⟨⟨⟨⟨hstage, hparent⟩, hraddr⟩, hlisten⟩, hidle⟩ := hrun
    rcases (hall noSocks noSocks_init strayFin).1.of_run ht 2 ⟨hstage ▸ (by rintro ⟨⟩), hparent⟩ hlisten with
      hzero | ⟨seg, hbound, -⟩
    · exact hraddr hzero.1
    · rw [rxIdle, hbound] at hidle
      cases hidle

/-- A test for steps that are fair -/
def isFair (s : State) : Act → Bool
  | .bind =>
    match s.rx with
    | .found _ seg =>
      flgIsset seg.hdr.flags TCP_FLG_SYN && !flgIsset seg.hdr.flags TCP_FLG_RST &&
        !flgIsset seg.hdr.flags TCP_FLG_ACK
    | _ => true
  | _ => true

theorem fair_of_isFair (s : State) (a : Act) (h : isFair s a = true) : Fair s a := by
  rintro rfl si seg ⟨hrx, -, -⟩
  simp only [isFair, hrx, Bool.and_eq_true, Bool.not_eq_true'] at h
  exact .inl ⟨h.1.1, h.1.2, h.2⟩

/-- A test for `arrive` on the socket of an `accept`, which does not listen any more -/
def isServed (s : State) (si : ℕ) (rand : UInt32) : Bool :=
  (s.net.sock si).parent &&
    (match s.rx with
    | .bound sj _ => decide (sj = si)
    | _ => false) &&
    match exec s (.arrive rand) with
    | some (.ok s') => decide ((s'.net.sock si).tcpcb.state ≠ .listen)
    | _ => false

theorem serves_of_isServed {s : State} {si : ℕ} {rand : UInt32} (h : isServed s si rand = true) :
    ∃ seg, Serves s si (.arrive rand) seg := by
  unfold isServed at h
  simp only [Bool.and_eq_true] at h
  obtain ⟨⟨hparent, hrx⟩, hexec⟩ := h
  split at hrx
  · next sj seg hbound =>
    split at hexec
    · next s' hok =>
      exact ⟨seg, hparent, ⟨⟨rand, rfl⟩, of_decide_eq_true hrx ▸ hbound⟩, s', hok,
        of_decide_eq_true hexec⟩
    · cases hexec
  · cases hrx

/-- A handshake: the socket is claimed by the SYN, and the acknowledgment comes from the same peer. -/
theorem handshake_claims : OnlySyn noSocks (waiting ++ [segment80 100 0 2, .bind, .arrive 7]) ∧
    ∃ s t seg seg', Serves s 2 (.arrive 7) seg ∧ Serves t 2 (.arrive 7) seg' ∧
      seg'.raddr = seg.raddr ∧ seg'.rport = seg.rport := by
  have hfair : (system.runUnder isFair noSocks (waiting ++ [segment80 100 0 2, .bind,
      .arrive 7])).isSome = true := by decide +kernel
  obtain ⟨t, ht⟩ := Option.isSome_iff_exists.mp hfair
  refine ⟨((accept_iff noSocks _).2 noSocks_init).mpr (System.takes_of_runUnder fair_of_isFair ht), ?_⟩
  have hrun : (system.run noSocks (waiting ++ [segment80 100 0 2, .bind])).any (fun s =>
      isServed s 2 7 && (system.run s [.arrive 7, segment80 101 8 0x10, .bind]).any fun t =>
        isServed t 2 7) = true := by decide +kernel
  obtain ⟨s, hs, hp⟩ := System.exists_reachable_of_run noSocks_init hrun
  rw [Bool.and_eq_true] at hp
  obtain ⟨seg, hserves⟩ := serves_of_isServed hp.1
  cases hrun' : system.run s [.arrive 7, segment80 101 8 0x10, .bind] with
  | none =>
    rw [hrun'] at hp
    cases hp.2
  | some t =>
    rw [hrun', Option.any_some] at hp
    obtain ⟨seg', hserves'⟩ := serves_of_isServed hp.2
    obtain ⟨s', hstep, hrest⟩ := System.run_cons.mp hrun'
    refine ⟨s, t, seg, seg', hserves, hserves', ?_⟩
    refine (accept_iff s []).1 hs 2 _ seg hserves s' hstep _ (fun b hb => ?_) t hrest _ seg' hserves'
    simp only [List.mem_cons, List.not_mem_nil, or_false] at hb
    rcases hb with rfl | rfl <;> exact id

end Xv6.Kernel.TcpAccept
