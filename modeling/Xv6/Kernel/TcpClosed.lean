import Mathlib
import Xv6.Lib.TransitionSystem
import Xv6.Kernel.TcpPanic

/-!
# The CLOSED State

A segment for a connection in `CLOSED` is answered with a reset and discarded, says the rule that
the code quotes. The case for `CLOSED` does not end with `break`: it goes on with the one for
`LISTEN`, which sends a reset again or opens the connection.

- `refused_iff`: the segments that are treated as the rule says;
- `tcb_step`: what a step of the system does to a control block;
- `closed_iff`: the runs in which a connection stays closed.
-/

namespace Xv6.Kernel.TcpClosed

open Xv6.Lib
open Xv6.Kernel.Net hiding State
open Xv6.Kernel.Tcp hiding Sock Mbuf tcpApiReceive
open Xv6.Kernel.TcpWakeup (initClient closeState)
open Xv6.Kernel.TcpPanic

/-! ## One segment -/

/-- The reset of the rule: `<SEQ=0><ACK=SEG.SEQ+SEG.LEN><CTL=RST,ACK>` if the ACK bit is off, and
    `<SEQ=SEG.ACK><CTL=RST>` otherwise. -/
def resetOf (hdr : TcpHdr) (len : UInt32) : Signal :=
  if flgIsset hdr.flags TCP_FLG_ACK then ⟨hdr.ack, 0, TCP_FLG_RST⟩
  else ⟨0, hdr.seq + len, TCP_FLG_RST ||| TCP_FLG_ACK⟩

/-- The segment is discarded, with one reset unless it is one itself. -/
def Refused (cb : TcpCb) (hdr : TcpHdr) (len : UInt32) (r : Except String Arrival) : Prop :=
  ∃ a, r = .ok a ∧ a.cb = cb ∧ a.queued = none ∧
    a.signals = if flgIsset hdr.flags TCP_FLG_RST then [] else [resetOf hdr len]

/-- The segment is a reset, or has neither ACK nor SYN, and its window is the one of the control
    block. -/
def Harmless (cb : TcpCb) (hdr : TcpHdr) : Prop :=
  hdr.win = cb.rcv.wnd ∧ (flgIsset hdr.flags TCP_FLG_RST = true ∨
    flgIsset hdr.flags TCP_FLG_ACK = false ∧ flgIsset hdr.flags TCP_FLG_SYN = false)

section Segments

variable {rand : UInt32} {cb : TcpCb} {hdr : TcpHdr} {len : UInt32}

theorem closedArrives_rst (h : flgIsset hdr.flags TCP_FLG_RST = true) :
    closedArrives rand cb hdr len = drop cb [] := by
  simp [closedArrives, listenArrives, h, drop]

theorem closedArrives_ack (hrst : flgIsset hdr.flags TCP_FLG_RST = false)
    (h : flgIsset hdr.flags TCP_FLG_ACK = true) :
    closedArrives rand cb hdr len = drop cb [resetOf hdr len, resetOf hdr len] := by
  simp [closedArrives, listenArrives, hrst, h, drop, resetOf]

theorem closedArrives_text (hrst : flgIsset hdr.flags TCP_FLG_RST = false)
    (hack : flgIsset hdr.flags TCP_FLG_ACK = false) (h : flgIsset hdr.flags TCP_FLG_SYN = false) :
    closedArrives rand cb hdr len = drop cb [resetOf hdr len] := by
  simp [closedArrives, listenArrives, hrst, hack, h, drop, resetOf]

theorem closedArrives_syn (hrst : flgIsset hdr.flags TCP_FLG_RST = false)
    (hack : flgIsset hdr.flags TCP_FLG_ACK = false) (h : flgIsset hdr.flags TCP_FLG_SYN = true) :
    (closedArrives rand cb hdr len).cb.state = .synRcvd := by
  simp [closedArrives, listenArrives, hrst, hack, h, drop]

theorem tcpSegmentsArrives_closed (h : cb.state = .closed) :
    tcpSegmentsArrives rand cb hdr len =
      .ok (closedArrives rand { cb with rcv := { cb.rcv with wnd := hdr.win } } hdr len) := by
  simp [tcpSegmentsArrives, h]

/-- A segment changes the window, whatever it is. -/
theorem window_eq_iff : ({ cb with rcv := { cb.rcv with wnd := hdr.win } } : TcpCb) = cb ↔
    hdr.win = cb.rcv.wnd := by
  constructor
  · intro h
    exact congrArg (fun cb : TcpCb => cb.rcv.wnd) h
  · intro h
    rw [h]

/-- **A segment in `CLOSED` is refused if and only if it is harmless.** -/
theorem refused_iff (h : cb.state = .closed) :
    Refused cb hdr len (tcpSegmentsArrives rand cb hdr len) ↔ Harmless cb hdr := by
  unfold Refused Harmless
  rw [tcpSegmentsArrives_closed h, ← window_eq_iff]
  set cb' : TcpCb := { cb with rcv := { cb.rcv with wnd := hdr.win } } with hcb'
  cases hrst : flgIsset hdr.flags TCP_FLG_RST with
  | true =>
    rw [closedArrives_rst hrst, if_pos rfl]
    constructor
    · rintro ⟨a, ha, hcb, -, -⟩
      cases ha
      exact ⟨hcb, .inl rfl⟩
    · exact fun hc => ⟨_, rfl, hc.1, rfl, rfl⟩
  | false =>
    rw [if_neg Bool.false_ne_true]
    cases hack : flgIsset hdr.flags TCP_FLG_ACK with
    | true =>
      -- the reset is sent twice
      rw [closedArrives_ack hrst hack]
      refine iff_of_false ?_ (by rintro ⟨-, h | ⟨h, -⟩⟩ <;> cases h)
      rintro ⟨a, ha, -, -, hsignals⟩
      cases ha
      cases hsignals
    | false =>
      cases hsyn : flgIsset hdr.flags TCP_FLG_SYN with
      | true =>
        refine iff_of_false ?_ (by rintro ⟨-, h | ⟨-, h⟩⟩ <;> cases h)
        rintro ⟨a, ha, hcb, -, -⟩
        cases ha
        have hstate := congrArg TcpCb.state hcb
        rw [closedArrives_syn hrst hack hsyn, h] at hstate
        cases hstate
      | false =>
        rw [closedArrives_text hrst hack hsyn]
        constructor
        · rintro ⟨a, ha, hcb, -, -⟩
          cases ha
          exact ⟨hcb, .inr ⟨rfl, rfl⟩⟩
        · exact fun hc => ⟨_, rfl, hc.1, rfl, rfl⟩

/-- A segment takes a connection out of `CLOSED` if and only if it would open one. -/
theorem closed_arrives_iff {r : Arrival} {seg : Segment} (h : cb.state = .closed)
    (hr : tcpSegmentsArrives rand cb seg.hdr len = .ok r) : r.cb.state = .closed ↔ ¬ seg.Opens := by
  rw [tcpSegmentsArrives_closed h] at hr
  cases hr
  unfold Segment.Opens
  cases hrst : flgIsset seg.hdr.flags TCP_FLG_RST with
  | true =>
    rw [closedArrives_rst hrst]
    exact iff_of_true h fun hc => nomatch hc.2.1
  | false =>
    cases hack : flgIsset seg.hdr.flags TCP_FLG_ACK with
    | true =>
      rw [closedArrives_ack hrst hack]
      exact iff_of_true h fun hc => nomatch hc.2.2
    | false =>
      cases hsyn : flgIsset seg.hdr.flags TCP_FLG_SYN with
      | true =>
        rw [closedArrives_syn hrst hack hsyn]
        exact iff_of_false nofun fun hc => hc ⟨rfl, rfl, rfl⟩
      | false =>
        rw [closedArrives_text hrst hack hsyn]
        exact iff_of_true h fun hc => nomatch hc.1

end Segments

/-! ## Runs -/

/-- The step makes a socket in the page `si`, or initialises its control block: it belongs to
    another connection than before. -/
def Begins (si : ℕ) : Act → Prop
  | .connect sj _ _ _ _ _ => sj = si
  | .init sj _ => sj = si
  | .accept _ sj => sj = si
  | _ => False

/-- The step is the section under `tcplock` for the segment `seg` and the socket `si`. -/
def Handles (si : ℕ) (s : State) (a : Act) (seg : Segment) : Prop :=
  (∃ rand, a = .arrive rand) ∧ s.rx = .bound si seg

/-- **What a step does to a control block** that it does not begin with -/
inductive TcbStep (s : State) (si : ℕ) : Act → TcpCb → Prop where
  | kept {a : Act} : (∀ seg, ¬ Handles si s a seg) → TcbStep s si a (s.net.sock si).tcpcb
  | receive {slept killed : Bool} {copyout : ℕ → Option ℕ} {n : ℕ} (wnd : UInt16) :
      TcbStep s si (.receive si slept killed copyout n)
        { (s.net.sock si).tcpcb with rcv := { (s.net.sock si).tcpcb.rcv with wnd := wnd } }
  | send (rand len : UInt32) : TcbStep s si (.send si rand len) (tcpApiSend rand (s.net.sock si) len).cb
  | close : TcbStep s si (.close si) (tcpApiClose (s.net.sock si).tcpcb).1
  | arrive {rand : UInt32} {seg : Segment} {r : Arrival} : s.rx = .bound si seg →
      tcpSegmentsArrives rand (s.net.sock si).tcpcb seg.hdr seg.len.toUInt32 = .ok r →
      TcbStep s si (.arrive rand) r.cb

section Runs

variable {s s' t : State} {a : Act} {si sj : ℕ}

theorem tcb_setSock (net : Net.State) (sj : ℕ) (so : Sock) (si : ℕ) :
    ((net.setSock sj so).sock si).tcpcb = if si = sj then so.tcpcb else (net.sock si).tcpcb := by
  unfold Net.State.setSock
  dsimp only
  by_cases h : si = sj
  · rw [if_pos h, h, Function.update_self]
  · rw [if_neg h, Function.update_of_ne h]

theorem tcb_add {type : UInt8} {stage : Stage} {so : Sock} (hne : si ≠ sj)
    (h : s.add sj type stage so = some s') : (s'.net.sock si).tcpcb = (s.net.sock si).tcpcb := by
  obtain ⟨-, -, hsock, -⟩ := add_spec h
  rw [hsock, Function.update_of_ne hne]

/-- The tests of the socket that was found change its addresses only. -/
theorem tcb_bind {seg : Segment} {net net' : Net.State} (h : seg.bind net sj = .ok (some net')) :
    (net'.sock si).tcpcb = (net.sock si).tcpcb := by
  unfold Segment.bind at h
  split at h
  · split at h
    · cases h
    split at h
    · cases h
    split at h
    · cases h
    next hupdate =>
    cases h
    unfold sockHashtableUpdate at hupdate
    split at hupdate
    · cases hupdate
      rw [tcb_setSock]
      split
      · next heq => rw [heq]
      · rfl
    · cases hupdate
  · cases h
    rfl

theorem tcb_setTcpcb (s : State) (sj : ℕ) (cb : TcpCb) (signals : List Signal) (si : ℕ) :
    ((s.setTcpcb sj cb signals).net.sock si).tcpcb =
      if si = sj then cb else (s.net.sock si).tcpcb := by
  exact tcb_setSock s.net sj _ si

/-- The step is not one for a segment. -/
theorem TcbStep.other (h : ∀ rand, a ≠ .arrive rand) : TcbStep s si a (s.net.sock si).tcpcb :=
  .kept fun _ ⟨⟨rand, ha⟩, _⟩ => h rand ha

theorem tcb_step (hstep : exec s a = some (.ok s')) (hbegins : ¬ Begins si a) :
    TcbStep s si a (s'.net.sock si).tcpcb := by
  -- Each call works on the control block of its own socket; a segment on that of the socket it was
  -- found for.
  cases a with
  | connect sj raddr lport rport sockType isClient =>
    simp only [exec] at hstep
    split at hstep
    swap
    · cases hstep
    rw [Option.map_eq_some_iff] at hstep
    obtain ⟨s₁, hadd, heq⟩ := hstep
    cases heq
    rw [tcb_add (fun heq => hbegins heq.symm) hadd]
    exact .other (by rintro _ ⟨⟩)
  | init sj rand =>
    simp only [exec] at hstep
    have hne : si ≠ sj := fun heq => hbegins heq.symm
    split at hstep
    · cases hstep
      rw [State.setStage, tcb_setTcpcb, if_neg hne]
      exact .other (by rintro _ ⟨⟩)
    · cases hstep
      rw [State.setStage, tcb_setTcpcb, if_neg hne]
      exact .other (by rintro _ ⟨⟩)
    · cases hstep
  | connected sj =>
    simp only [exec] at hstep
    split at hstep
    swap
    · cases hstep
    cases hstep
    exact .other (by rintro _ ⟨⟩)
  | accept osi sj =>
    simp only [exec] at hstep
    split at hstep
    · cases hstep
    split at hstep
    swap
    · cases hstep
    split at hstep
    · rw [Option.map_eq_some_iff] at hstep
      obtain ⟨s₁, hadd, heq⟩ := hstep
      cases heq
      rw [tcb_add (fun heq => hbegins heq.symm) hadd]
      exact .other (by rintro _ ⟨⟩)
    · cases hstep
      exact .other (by rintro _ ⟨⟩)
  | accepted sj =>
    simp only [exec] at hstep
    split at hstep
    swap
    · cases hstep
    cases hstep
    exact .other (by rintro _ ⟨⟩)
  | send sj rand len =>
    simp only [exec] at hstep
    split at hstep
    swap
    · cases hstep
    cases hstep
    rw [tcb_setTcpcb]
    split
    · next heq =>
      subst heq
      exact .send rand len
    · exact .other (by rintro _ ⟨⟩)
  | receive sj slept killed copyout n =>
    simp only [exec] at hstep
    split at hstep
    swap
    · cases hstep
    split at hstep
    · cases hstep
      exact .other (by rintro _ ⟨⟩)
    next so' hreceive =>
    cases hstep
    -- A read opens the receive window.
    obtain ⟨wnd, rxq, rfl⟩ := tcpApiReceive_spec hreceive
    rw [TcpPanic.State.setSock, tcb_setSock]
    split
    · next heq =>
      subst heq
      exact .receive wnd
    · exact .other (by rintro _ ⟨⟩)
  | close sj =>
    simp only [exec] at hstep
    split at hstep
    swap
    · cases hstep
    split at hstep
    · cases hstep
      rw [State.setStage, tcb_setTcpcb]
      split
      · next heq =>
        subst heq
        exact .close
      · exact .other (by rintro _ ⟨⟩)
    · cases hstep
      exact .other (by rintro _ ⟨⟩)
  | release sj =>
    simp only [exec] at hstep
    split at hstep
    · cases hstep
      exact .other (by rintro _ ⟨⟩)
    · cases hstep
  | segment m len iphdr =>
    simp only [exec] at hstep
    split at hstep
    swap
    · cases hstep
    split at hstep
    · cases hstep
      exact .other (by rintro _ ⟨⟩)
    split at hstep
    · cases hstep
      exact .other (by rintro _ ⟨⟩)
    · cases hstep
      exact .other (by rintro _ ⟨⟩)
  | bind =>
    simp only [exec] at hstep
    split at hstep
    swap
    · cases hstep
    split at hstep
    · cases hstep
    · cases hstep
      exact .other (by rintro _ ⟨⟩)
    · next net hbind =>
      cases hstep
      rw [tcb_bind hbind]
      exact .other (by rintro _ ⟨⟩)
  | arrive rand =>
    simp only [exec] at hstep
    split at hstep
    swap
    · cases hstep
    next sj seg hrx =>
    split at hstep
    · cases hstep
    next net harrive =>
    cases hstep
    -- Of the socket the segment was found for the machine runs; the others keep their control
    -- blocks.
    obtain ⟨r, hr, ⟨rxq, hsj⟩, hother, -⟩ := segmentArrives_spec harrive
    by_cases heq : si = sj
    · subst heq
      rw [hsj]
      exact .arrive hrx hr
    · obtain ⟨rxq', hsi⟩ := hother si heq
      rw [hsi]
      refine .kept ?_
      rintro seg' ⟨_, h⟩
      refine heq ?_
      rw [hrx] at h
      cases h
      rfl

/-- The step is the arrival of a segment that opens a connection, for the socket `si`. -/
def Reopens (si : ℕ) (s : State) (a : Act) : Prop := ∃ seg, Handles si s a seg ∧ seg.Opens

/-- A step takes a connection out of `CLOSED` if and only if it reopens it. -/
theorem closed_step (hclosed : (s.net.sock si).tcpcb.state = .closed)
    (hstep : exec s a = some (.ok s')) (hbegins : ¬ Begins si a) :
    (s'.net.sock si).tcpcb.state = .closed ↔ ¬ Reopens si s a := by
  have hother : (∀ rand, a ≠ .arrive rand) → ¬ Reopens si s a :=
    fun h ⟨_, ⟨⟨rand, ha⟩, _⟩, _⟩ => h rand ha
  have htcb := tcb_step hstep hbegins
  generalize (s'.net.sock si).tcpcb = cb' at htcb
  cases htcb with
  | kept h => exact iff_of_true hclosed fun ⟨seg, hseg, _⟩ => h seg hseg
  | receive wnd => exact iff_of_true hclosed (hother nofun)
  | send rand len =>
    refine iff_of_true ?_ (hother nofun)
    simp [tcpApiSend, hclosed]
  | close =>
    refine iff_of_true ?_ (hother nofun)
    simp [tcpApiClose, closeState, hclosed]
  | @arrive rand seg r hrx hr =>
    rw [closed_arrives_iff hclosed hr]
    refine not_congr ⟨fun h => ⟨seg, ⟨⟨rand, rfl⟩, hrx⟩, h⟩, ?_⟩
    rintro ⟨seg', ⟨-, hrx'⟩, hopens⟩
    rw [hrx] at hrx'
    cases hrx'
    exact hopens

/-- **A connection stays closed**: a segment that arrives in `CLOSED` is refused if and only if it is
    harmless, and the states of a run, from one in `CLOSED` and without a new connection in its
    place, are all in `CLOSED` if and only if no segment on the way reopens it. -/
theorem closed_iff (si : ℕ) (s : State) (as : List Act) :
    (∀ rand cb hdr len, cb.state = .closed →
      (Refused cb hdr len (tcpSegmentsArrives rand cb hdr len) ↔ Harmless cb hdr)) ∧
    ((s.net.sock si).tcpcb.state = .closed → (∀ a ∈ as, ¬ Begins si a) →
      (system.Throughout (fun t => (t.net.sock si).tcpcb.state = .closed) s as ↔
        system.Takes (fun t a => ¬ Reopens si t a) s as)) := by
  refine ⟨fun _ _ _ _ => refused_iff, fun hclosed hbegins => ?_⟩
  refine System.throughout_iff (fun t t' a ha ht hstep => ?_) hclosed
  refine closed_step ht ?_ (hbegins a ha)
  unfold system at hstep
  dsimp only at hstep
  split at hstep
  · next hexec => rw [hexec, Option.some.inj hstep]
  · cases hstep

end Runs

/-! ## A segment that reopens a connection -/

/-- The control block of a connection that has been reset -/
def resetTcpcb : TcpCb where
  state := .closed
  iss := 7
  irs := 99
  snd := ⟨8, 8⟩
  rcv := ⟨100, 2048⟩

/-- A SYN for a closed connection opens it, and one with ACK gets two resets. -/
theorem closed_reopens :
    ¬ ∀ rand cb hdr len, cb.state = .closed →
      Refused cb hdr len (tcpSegmentsArrives rand cb hdr len) := by
  intro h
  obtain ⟨a, ha, hcb, -⟩ := h 7 resetTcpcb ⟨500, 0, 0x50, TCP_FLG_SYN, 2048⟩ 0 rfl
  have hopened : tcpSegmentsArrives 7 resetTcpcb ⟨500, 0, 0x50, TCP_FLG_SYN, 2048⟩ 0 =
      .ok ⟨⟨.synRcvd, 7, 500, ⟨8, 7⟩, ⟨501, 2048⟩⟩,
        [⟨0, 500, TCP_FLG_RST ||| TCP_FLG_ACK⟩, ⟨7, 501, TCP_FLG_SYN ||| TCP_FLG_ACK⟩], none, []⟩ := by
    decide
  rw [hopened] at ha
  cases ha
  cases hcb

end Xv6.Kernel.TcpClosed
