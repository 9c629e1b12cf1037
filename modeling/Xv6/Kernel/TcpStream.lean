import Mathlib
import Xv6.Lib.TransitionSystem
import Xv6.Kernel.Tcp

/-!
# The Received Byte Stream

An established connection on which the peer's segments arrive in any order, again
and again and in any cut, with or without header options, while a process reads.

The code queues the whole buffer of every acceptable segment, options included,
and sets `RCV.NXT` behind the segment. So the reader sees the peer's stream as
long as each segment whose text is accepted starts where the last one ended and
has no options; the acceptability test asks for neither.

- `arrives_established`: what a segment does to an established connection;
- `receiveLoop_bytes`: reading moves bytes from the queue to the reader, in order;
- `tcp_stream_in_order`: runs in which accepted text comes in order deliver a prefix
  of the stream.
-/

namespace Xv6.Kernel.TcpStream

open Xv6.Lib Tcp

/-! ## The system -/

/-- `k` bytes of the peer's stream from position `o` on. -/
def text (stream : ℕ → UInt8) (o k : ℕ) : List UInt8 := (List.range' o k).map stream

/-- A connection, with the bytes copied out to the reader and the number of payload
    bytes queued so far. -/
structure State where
  si : Sock
  delivered : List UInt8
  queued : ℕ
  deriving DecidableEq

inductive Act where
  /-- The peer's segment with `k` bytes from position `o` of its stream arrives, with
      the given header and header options -/
  | segment (rand : UInt32) (hdr : TcpHdr) (options : List UInt8) (o k : ℕ)
  /-- A process calls `tcp_api_receive`, or returns to it from `sleep` -/
  | receive (slept killed : Bool) (copyout : ℕ → Option ℕ) (n : ℕ)

/-- The segment is one of the peer's: its sequence number is that of its first byte,
    counted from `IRS + 1`, and its header length covers its options. -/
def FromPeer (irs : UInt32) (hdr : TcpHdr) (options : List UInt8) (o k : ℕ) : Prop :=
  hdr.seq = irs + 1 + UInt32.ofNat o ∧ hdr.length = tcpHdrSize + options.length ∧
    options.length + k < 2 ^ 16

instance (irs : UInt32) (hdr : TcpHdr) (options : List UInt8) (o k : ℕ) :
    Decidable (FromPeer irs hdr options o k) := inferInstanceAs (Decidable (_ ∧ _ ∧ _))

/-- A segment arrives or a process reads. A connection that is closed takes no more of
    the peer's segments. -/
def step (stream : ℕ → UInt8) (irs : UInt32) (s : State) : Act → Option State
  | .segment rand hdr options o k =>
    if FromPeer irs hdr options o k ∧ s.si.tcpcb.state ≠ .closed then
      match s.si.arrives rand hdr (options ++ text stream o k) with
      | .error _ => none
      | .ok (si, r) =>
        some { s with si := si, queued := if r.queued.isSome then s.queued + k else s.queued }
    else none
  | .receive slept killed copyout n =>
    match tcpApiReceive s.si slept killed copyout n with
    | none => none
    | some r => some { s with si := r.si, delivered := s.delivered ++ r.bytes }

/-- A connection just established: nothing queued, nothing read. -/
structure Init (irs : UInt32) (s : State) : Prop where
  established : s.si.tcpcb.state = .established
  irsEq : s.si.tcpcb.irs = irs
  nxtEq : s.si.tcpcb.rcv.nxt = irs + 1
  rxq : s.si.rxq = []
  delivered : s.delivered = []
  queued : s.queued = 0

/-- The connection of a peer with the initial sequence number `irs` and the stream
    `stream`. -/
def system (stream : ℕ → UInt8) (irs : UInt32) : System State Act where
  init := Init irs
  step := step stream irs

/-- The segment passes the tests of an established connection and has text, by the
    code's reckoning: something behind the fixed header. -/
def Accepted (cb : TcpCb) (hdr : TcpHdr) (len : UInt32) : Prop :=
  cb.state = .established ∧
    acceptable { cb with rcv := { cb.rcv with wnd := hdr.win } } hdr.seq len = true ∧
    flgIsset hdr.flags TCP_FLG_RST = false ∧ flgIsset hdr.flags TCP_FLG_SYN = false ∧
    flgIsset hdr.flags TCP_FLG_ACK = true ∧ hdr.ack ≤ cb.snd.nxt ∧ len ≠ 0

/-- Accepted text has no header options before it and starts with the first byte not
    yet queued; no `copyout` fails. -/
def InOrder (s : State) : Act → Prop
  | .segment _ hdr options o k =>
    Accepted s.si.tcpcb hdr (UInt32.ofNat (options.length + k)) → options = [] ∧ o = s.queued
  | .receive _ _ copyout _ => ∀ i, copyout i = none

/-! ## What a segment does -/

/-- The states of a connection that was established. -/
def Live (st : TcpState) : Prop := st = .established ∨ st = .closeWait ∨ st = .closed

theorem finBit_established {r : Arrival} (hdr : TcpHdr) (h : r.cb.state = .established) :
    (finBit r hdr).queued = r.queued ∧ (finBit r hdr).cb.irs = r.cb.irs ∧
      Live (finBit r hdr).cb.state ∧
      ((finBit r hdr).cb.state = .established → (finBit r hdr).cb.rcv.nxt = r.cb.rcv.nxt) := by
  unfold finBit
  split
  · simp [h, Live]
  · exact ⟨rfl, rfl, .inl h, fun _ => rfl⟩

/-- The check of the ACK field drops the segment if it acknowledges what was not sent,
    and otherwise changes `SND.UNA` at most. -/
theorem ackField_spec {cb : TcpCb} (hdr : TcpHdr)
    (h : cb.state = .established ∨ cb.state = .closeWait) :
    (¬ hdr.ack ≤ cb.snd.nxt ∧
      ackField cb hdr = .stop ⟨cb, [⟨cb.snd.nxt, cb.rcv.nxt, TCP_FLG_ACK⟩], none, []⟩) ∨
    (hdr.ack ≤ cb.snd.nxt ∧ ∃ cb₁ : TcpCb, ackField cb hdr = .goOn cb₁ [] [] ∧
      cb₁.state = cb.state ∧ cb₁.irs = cb.irs ∧ cb₁.rcv = cb.rcv) := by
  have hfield : ackField cb hdr = ackEstablished cb hdr [] := by
    rw [ackField]
    rcases h with h | h <;> simp only [h]
  rw [hfield, ackEstablished]
  by_cases hle : hdr.ack ≤ cb.snd.nxt
  · right
    have hgt : ¬ hdr.ack > cb.snd.nxt := UInt32.not_lt.mpr hle
    rw [if_neg (by simp [hgt])]
    set cb₁ : TcpCb := if (decide (cb.snd.una < hdr.ack) && decide (hdr.ack ≤ cb.snd.nxt)) = true
      then { cb with snd := { cb.snd with una := hdr.ack } } else cb with hcb₁
    have hsame : cb₁.state = cb.state ∧ cb₁.irs = cb.irs ∧ cb₁.rcv = cb.rcv := by
      rw [hcb₁]
      split
      · exact ⟨rfl, rfl, rfl⟩
      · exact ⟨rfl, rfl, rfl⟩
    refine ⟨hle, cb₁, ?_, hsame⟩
    rcases h with h | h <;> simp only [hsame.1, h]
  · left
    have hgt : hdr.ack > cb.snd.nxt := UInt32.not_le.mp hle
    rw [if_pos (by simp [hle, hgt])]
    exact ⟨hle, rfl⟩

/-- The text and the FIN bit of a segment whose ACK field passed. -/
theorem text_established {cb : TcpCb} {hdr : TcpHdr} {len : UInt32} {r : Arrival}
    (h : cb.state = .established)
    (hr : finBit (segmentText ⟨cb, [], none, []⟩ hdr len) hdr = r) :
    r.cb.irs = cb.irs ∧ Live r.cb.state ∧
      ((r.queued = none ∧ len = 0 ∧ (r.cb.state = .established → r.cb.rcv.nxt = cb.rcv.nxt)) ∨
       (r.queued.isSome = true ∧ len ≠ 0 ∧
          (r.cb.state = .established → r.cb.rcv.nxt = hdr.seq + len))) := by
  subst hr
  rw [segmentText]
  split
  · next htext =>
    obtain ⟨hq, hirs, hlive, hnxt⟩ := finBit_established
      (r := { cb := { cb with rcv := ⟨hdr.seq + len, cb.rcv.wnd - len.toUInt16⟩ }
              signals := [] ++ [⟨cb.snd.nxt, hdr.seq + len, TCP_FLG_ACK⟩]
              queued := some (flgIsset hdr.flags TCP_FLG_PSH)
              wakeups := [] }) hdr h
    exact ⟨hirs, hlive, .inr ⟨by rw [hq]; rfl, htext.1, hnxt⟩⟩
  · next htext =>
    obtain ⟨hq, hirs, hlive, hnxt⟩ := finBit_established (r := ⟨cb, [], none, []⟩) hdr h
    have hzero : len = 0 := by
      by_contra hne
      exact htext ⟨hne, by simp [h, TcpState.takesText]⟩
    exact ⟨hirs, hlive, .inl ⟨hq, hzero, hnxt⟩⟩

/-- A segment in a state after the handshake. -/
theorem tcpSegmentsArrives_synchronized {rand : UInt32} {cb : TcpCb} {hdr : TcpHdr}
    {len : UInt32} (h : cb.state = .established ∨ cb.state = .closeWait) :
    tcpSegmentsArrives rand cb hdr len =
      .ok (synchronizedArrives { cb with rcv := { cb.rcv with wnd := hdr.win } } hdr len) := by
  rw [tcpSegmentsArrives]
  rcases h with h | h <;> simp only [h]

/-- A segment on an established connection: either nothing is queued and `RCV.NXT`
    stays, or it was accepted and `RCV.NXT` is behind it, while the connection stays
    established. -/
theorem arrives_established {rand : UInt32} {cb : TcpCb} {hdr : TcpHdr} {len : UInt32}
    {r : Arrival} (h : cb.state = .established)
    (hr : tcpSegmentsArrives rand cb hdr len = .ok r) :
    r.cb.irs = cb.irs ∧ Live r.cb.state ∧
      ((r.queued = none ∧ (r.cb.state = .established → r.cb.rcv.nxt = cb.rcv.nxt)) ∨
       (r.queued.isSome = true ∧ Accepted cb hdr len ∧
          (r.cb.state = .established → r.cb.rcv.nxt = hdr.seq + len))) := by
  rw [tcpSegmentsArrives_synchronized (.inl h), Except.ok.injEq, synchronizedArrives] at hr
  -- The checks before the ACK field: the segment is dropped, or it closes the connection.
  split at hr
  · subst hr
    exact ⟨rfl, .inl h, .inl ⟨rfl, fun _ => rfl⟩⟩
  next hacc =>
  split at hr
  · subst hr
    exact ⟨rfl, .inr (.inr rfl), .inl ⟨rfl, nofun⟩⟩
  next hrst =>
  split at hr
  · subst hr
    exact ⟨rfl, .inr (.inr rfl), .inl ⟨rfl, nofun⟩⟩
  next hsyn =>
  split at hr
  · subst hr
    exact ⟨rfl, .inl h, .inl ⟨rfl, fun _ => rfl⟩⟩
  next hack =>
  set cb₀ : TcpCb := { cb with rcv := { cb.rcv with wnd := hdr.win } } with hcb₀
  have h₀ : cb₀.state = .established := h
  -- An ACK of something not sent yet is answered and dropped; any other leaves the connection as it
  -- is.
  rcases ackField_spec hdr (.inl h₀) with ⟨hnot, hstop⟩ | ⟨hle, cb₁, hgo, hst, hirs, hrcv⟩
  · rw [hstop] at hr
    subst hr
    exact ⟨rfl, .inl h, .inl ⟨rfl, fun _ => rfl⟩⟩
  · rw [hgo] at hr
    obtain ⟨hirs', hlive, hcases⟩ := text_established (hst.trans h) hr
    refine ⟨hirs'.trans hirs, hlive, ?_⟩
    -- Text is queued if there is some.
    rcases hcases with ⟨hq, -, hnxt⟩ | ⟨hq, hlen, hnxt⟩
    · exact .inl ⟨hq, fun he => by rw [hnxt he, hrcv]⟩
    · refine .inr ⟨hq, ⟨h, by simpa using hacc, by simpa using hrst, by simpa using hsyn,
        by simpa using hack, hle, hlen⟩, hnxt⟩

/-- After the peer's FIN no text is taken. -/
theorem arrives_closeWait {rand : UInt32} {cb : TcpCb} {hdr : TcpHdr} {len : UInt32}
    {r : Arrival} (h : cb.state = .closeWait)
    (hr : tcpSegmentsArrives rand cb hdr len = .ok r) :
    r.cb.irs = cb.irs ∧ (r.cb.state = .closeWait ∨ r.cb.state = .closed) ∧ r.queued = none := by
  rw [tcpSegmentsArrives_synchronized (.inr h), Except.ok.injEq, synchronizedArrives] at hr
  -- The checks before the ACK field, which do not queue.
  split at hr
  · subst hr
    exact ⟨rfl, .inl h, rfl⟩
  split at hr
  · subst hr
    exact ⟨rfl, .inr rfl, rfl⟩
  split at hr
  · subst hr
    exact ⟨rfl, .inr rfl, rfl⟩
  split at hr
  · subst hr
    exact ⟨rfl, .inl h, rfl⟩
  set cb₀ : TcpCb := { cb with rcv := { cb.rcv with wnd := hdr.win } } with hcb₀
  have h₀ : cb₀.state = .closeWait := h
  rcases ackField_spec hdr (.inr h₀) with ⟨-, hstop⟩ | ⟨-, cb₁, hgo, hst, hirs, -⟩
  · rw [hstop] at hr
    subst hr
    exact ⟨rfl, .inl h, rfl⟩
  · rw [hgo] at hr
    have hst : cb₁.state = .closeWait := hst.trans h
    -- `CLOSE_WAIT` takes no text.
    have htext : segmentText ⟨cb₁, [], none, []⟩ hdr len = ⟨cb₁, [], none, []⟩ := by
      simp [segmentText, hst, TcpState.takesText]
    simp only [htext, finBit, hst] at hr
    subst hr
    split
    · exact ⟨hirs, .inl rfl, rfl⟩
    · exact ⟨hirs, .inl hst, rfl⟩

/-! ## What reading does -/

/-- Reading moves bytes from the head of the queue to the reader and leaves the state and
    the sequence numbers of the connection alone. -/
theorem receiveLoop_bytes {copyout : ℕ → Option ℕ} (hok : ∀ i, copyout i = none) (cb : TcpCb)
    (i : ℕ) (rxq : List Mbuf) (n len : ℕ) :
    (receiveLoop copyout cb i rxq n len).bytes ++
        (receiveLoop copyout cb i rxq n len).si.rxq.flatten = rxq.flatten ∧
      (receiveLoop copyout cb i rxq n len).si.tcpcb.state = cb.state ∧
      (receiveLoop copyout cb i rxq n len).si.tcpcb.irs = cb.irs ∧
      (receiveLoop copyout cb i rxq n len).si.tcpcb.rcv.nxt = cb.rcv.nxt := by
  induction rxq generalizing cb i n len with
  | nil => exact ⟨rfl, rfl, rfl, rfl⟩
  | cons m rxq ih =>
    rw [receiveLoop, hok i]
    simp only
    generalize hrecv : (if n > m.length then m.length else n) = recvSz
    split
    · next hpart =>
      -- the buffer is read in part
      rw [if_neg (by omega)] at hrecv
      subst hrecv
      refine ⟨?_, rfl, rfl, rfl⟩
      simp only [List.flatten_cons, ← List.append_assoc, List.take_append_drop]
    · next hall =>
      have htake : m.take recvSz = m := by
        apply List.take_of_length_le
        rw [← hrecv]
        split <;> omega
      rw [htake]
      split
      · exact ⟨rfl, rfl, rfl, rfl⟩
      · obtain ⟨hbytes, hst, hirs, hnxt⟩ :=
          ih { cb with rcv := { cb.rcv with wnd := cb.rcv.wnd + UInt16.ofNat recvSz } } (i + 1)
            (n - recvSz) (len + recvSz)
        refine ⟨?_, hst, hirs, hnxt⟩
        rw [List.append_assoc, hbytes, List.flatten_cons]

theorem tcpApiReceive_bytes {si : Sock} {slept killed : Bool} {copyout : ℕ → Option ℕ} {n : ℕ}
    {r : Received} (hok : ∀ i, copyout i = none)
    (h : tcpApiReceive si slept killed copyout n = some r) :
    r.bytes ++ r.si.rxq.flatten = si.rxq.flatten ∧ r.si.tcpcb.state = si.tcpcb.state ∧
      r.si.tcpcb.irs = si.tcpcb.irs ∧ r.si.tcpcb.rcv.nxt = si.tcpcb.rcv.nxt := by
  rw [tcpApiReceive] at h
  split at h
  · cases h
    exact ⟨rfl, rfl, rfl, rfl⟩
  split at h
  · cases h
    exact ⟨rfl, rfl, rfl, rfl⟩
  split at h
  · cases h
  · cases h
    exact receiveLoop_bytes hok _ _ _ _ _

/-! ## The stream -/

theorem text_append (stream : ℕ → UInt8) (o j k : ℕ) :
    text stream o j ++ text stream (o + j) k = text stream o (j + k) := by
  rw [text, text, text, ← List.map_append, List.range'_append_1]

theorem text_length (stream : ℕ → UInt8) (o k : ℕ) : (text stream o k).length = k := by
  simp [text]

/-- Nothing is skipped or repeated, and `RCV.NXT` counts what was queued. -/
structure Inv (stream : ℕ → UInt8) (irs : UInt32) (s : State) : Prop where
  live : Live s.si.tcpcb.state
  irsEq : s.si.tcpcb.irs = irs
  bytes : s.delivered ++ s.si.rxq.flatten = text stream 0 s.queued
  nxtEq : s.si.tcpcb.state = .established →
    s.si.tcpcb.rcv.nxt = irs + 1 + UInt32.ofNat s.queued

variable {stream : ℕ → UInt8} {irs : UInt32}

theorem inv_init {s : State} (h : Init irs s) : Inv stream irs s where
  live := .inl h.established
  irsEq := h.irsEq
  bytes := by rw [h.delivered, h.rxq, h.queued]; rfl
  nxtEq := fun _ => by rw [h.nxtEq, h.queued]; simp

/-- `RCV.NXT` behind accepted text counts it. -/
theorem nxt_add (irs : UInt32) (o k : ℕ) :
    irs + 1 + UInt32.ofNat o + UInt32.ofNat k = irs + 1 + UInt32.ofNat (o + k) := by
  rw [UInt32.ofNat_add, UInt32.add_assoc]

/-- Where the buffer of a segment goes. -/
theorem sock_arrives {si si' : Sock} {rand : UInt32} {hdr : TcpHdr} {body : Mbuf} {r : Arrival}
    (h : si.arrives rand hdr body = .ok (si', r)) :
    ∃ r₀, tcpSegmentsArrives rand si.tcpcb hdr (UInt32.ofNat body.length) = .ok r₀ ∧
      si'.tcpcb = r₀.cb ∧ r.queued = r₀.queued ∧
      si'.rxq = if r₀.queued.isSome then si.rxq ++ [body] else si.rxq := by
  rw [Sock.arrives] at h
  split at h
  · cases h
  next r₀ hr₀ =>
  refine ⟨r₀, hr₀, ?_⟩
  split at h
  · next hq =>
    cases h
    simp [hq]
  · next ispush hq =>
    cases h
    refine ⟨rfl, ?_, by simp [hq]⟩
    split <;> rfl

theorem inv_segment {s : State} {rand : UInt32} {hdr : TcpHdr} {options : List UInt8} {o k : ℕ}
    {si : Sock} {r : Arrival} (hi : Inv stream irs s) (hpeer : FromPeer irs hdr options o k)
    (hlive : s.si.tcpcb.state ≠ .closed)
    (horder : InOrder s (.segment rand hdr options o k))
    (h : s.si.arrives rand hdr (options ++ text stream o k) = .ok (si, r)) :
    Inv stream irs
      { s with si := si, queued := if r.queued.isSome then s.queued + k else s.queued } := by
  obtain ⟨r₀, hr₀, hcb, hq, hrxq⟩ := sock_arrives h
  rw [List.length_append, text_length] at hr₀
  rw [hq]
  rcases hi.live with hest | hclose | hclosed
  · obtain ⟨hirs, hst, hcases⟩ := arrives_established hest hr₀
    rw [← hcb] at hirs hst hcases
    rcases hcases with ⟨hnone, hnxt⟩ | ⟨hsome, hacc, hnxt⟩
    · -- the segment is dropped
      rw [hnone] at hrxq ⊢
      exact ⟨hst, hirs.trans hi.irsEq, by rw [hrxq]; exact hi.bytes,
        fun he => (hnxt he).trans (hi.nxtEq hest)⟩
    · -- its text is the next piece of the stream
      rw [hsome, if_pos rfl] at hrxq
      rw [hsome, if_pos rfl]
      obtain ⟨rfl, rfl⟩ := horder hacc
      refine ⟨hst, hirs.trans hi.irsEq, ?_, fun he => ?_⟩
      · have hpiece := text_append stream 0 s.queued k
        rw [Nat.zero_add] at hpiece
        rw [hrxq, List.flatten_append, List.flatten_singleton, List.nil_append,
          ← List.append_assoc, hi.bytes, hpiece]
      · rw [hnxt he, hpeer.1, List.length_nil, Nat.zero_add, nxt_add]
  · obtain ⟨hirs, hst, hnone⟩ := arrives_closeWait hclose hr₀
    rw [← hcb] at hirs hst
    rw [hnone] at hrxq ⊢
    refine ⟨.inr hst, hirs.trans hi.irsEq, by rw [hrxq]; exact hi.bytes, fun he => ?_⟩
    rcases hst with hst | hst <;> rw [hst] at he <;> cases he
  · exact absurd hclosed hlive

theorem inv_step {s s' : State} {a : Act} (hi : Inv stream irs s) (horder : InOrder s a)
    (h : step stream irs s a = some s') : Inv stream irs s' := by
  cases a with
  | segment rand hdr options o k =>
    simp only [step] at h
    split at h
    · next hpeer =>
      split at h
      · cases h
      · next si r harr =>
        cases h
        exact inv_segment hi hpeer.1 hpeer.2 horder harr
    · cases h
  | receive slept killed copyout n =>
    simp only [step] at h
    split at h
    · cases h
    · next r hr =>
      cases h
      obtain ⟨hbytes, hst, hirs, hnxt⟩ := tcpApiReceive_bytes horder hr
      refine ⟨by rw [hst]; exact hi.live, hirs.trans hi.irsEq, ?_, fun he => ?_⟩
      · simp only [List.append_assoc, hbytes, hi.bytes]
      · rw [hst] at he
        rw [hnxt, hi.nxtEq he]

theorem inv_of_reachable {s : State} (h : (system stream irs).ReachableUnder InOrder s) :
    Inv stream irs s :=
  System.invariant (Inv stream irs) (fun _ => inv_init) (fun _ _ _ => inv_step) h

variable (stream irs)

/-- **The reader sees the peer's stream, as long as accepted text comes in order.** In
    every run in which accepted text has no options before it and starts with the next
    byte, what was copied out is a prefix of the stream, and `RCV.NXT` is `IRS + 1` plus
    the payload bytes queued while the connection is established. -/
theorem tcp_stream_in_order :
    (∀ s, (system stream irs).ReachableUnder InOrder s →
      s.delivered = text stream 0 s.delivered.length) ∧
    (∀ s, (system stream irs).ReachableUnder InOrder s → s.si.tcpcb.state = .established →
      s.si.tcpcb.rcv.nxt = irs + 1 + UInt32.ofNat s.queued) := by
  refine ⟨fun s hs => ?_, fun s hs => (inv_of_reachable hs).nxtEq⟩
  have hbytes := (inv_of_reachable hs).bytes
  have hlen : s.delivered.length ≤ s.queued := by
    rw [← text_length stream 0 s.queued, ← hbytes, List.length_append]
    exact Nat.le_add_right _ _
  -- the prefix of a piece of the stream is a piece of the stream
  have htake : text stream 0 s.queued = text stream 0 s.delivered.length ++
      text stream (0 + s.delivered.length) (s.queued - s.delivered.length) := by
    rw [text_append, Nat.add_sub_cancel' hlen]
  rw [htake] at hbytes
  exact (List.append_inj hbytes (text_length _ _ _).symm).1

/-- A connection just established, whose peer started at sequence number 0. -/
def fresh : State where
  si := ⟨⟨.established, 100, 0, ⟨101, 101⟩, ⟨1, 2048⟩⟩, []⟩
  delivered := []
  queued := 0

/-- The second byte of the stream overtakes the first and is read. -/
def overtaking : List Act :=
  [.segment 0 ⟨2, 101, 0x50, TCP_FLG_ACK, 2048⟩ [] 1 1, .receive false false (fun _ => none) 1]

/-- The reader gets the second byte first. -/
theorem second_byte_first :
    ¬ ∀ stream irs s, (system stream irs).Reachable s →
      s.delivered = text stream 0 s.delivered.length := by
  intro h
  have hrun : ((system (fun o => UInt8.ofNat o) 0).run fresh overtaking).any
      (fun s => decide (s.delivered = [1])) = true := by
    decide +kernel
  have hinit : Init 0 fresh := ⟨rfl, rfl, rfl, rfl, rfl, rfl⟩
  obtain ⟨s, hs, hp⟩ := System.exists_reachable_of_run hinit hrun
  have hprefix := h _ _ s hs
  rw [of_decide_eq_true hp] at hprefix
  exact absurd hprefix (by decide)

end Xv6.Kernel.TcpStream
