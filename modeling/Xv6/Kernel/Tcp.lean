import Mathlib

/-!
# TCP Input

The transmission control block of a connection, `tcp_segments_arrives` with all
its states, and the receive queue with `tcp_api_receive`.

Sequence numbers are `UInt32` and windows `UInt16`, with the comparisons the code
makes on them. A segment is handled under `tcplock`, so it is one function from the
control block to the new one, the segments it sends, the wakeups it issues and what
becomes of the segment's text. An `mbuf` on the receive queue is the list of its
remaining bytes.
-/

namespace Xv6.Kernel.Tcp

/-! ## Control block and segments -/

/-- `TCP_CB_STATE_*` -/
inductive TcpState where
  | closed
  | listen
  | synSent
  | synRcvd
  | established
  | finWait1
  | finWait2
  | closing
  | timeWait
  | closeWait
  | lastAck
  deriving DecidableEq

/-- `cb->snd` -/
structure Snd where
  nxt : UInt32
  una : UInt32
  deriving DecidableEq

/-- `cb->rcv` -/
structure Rcv where
  nxt : UInt32
  wnd : UInt16
  deriving DecidableEq

/-- `struct tcp_cb` -/
structure TcpCb where
  state : TcpState
  iss : UInt32
  irs : UInt32
  snd : Snd
  rcv : Rcv
  deriving DecidableEq

/-- The fields of `struct tcp` that input processing reads, in host byte order. -/
structure TcpHdr where
  seq : UInt32
  ack : UInt32
  off : UInt8
  flags : UInt8
  win : UInt16
  deriving DecidableEq

/-- `sizeof(struct tcp)` -/
def tcpHdrSize : ℕ := 20

/-- `(off >> 4) * 4`, the length of the header with its options. -/
def TcpHdr.length (hdr : TcpHdr) : ℕ := (hdr.off >>> 4).toNat * 4

def TCP_FLG_FIN : UInt8 := 0x01
def TCP_FLG_SYN : UInt8 := 0x02
def TCP_FLG_RST : UInt8 := 0x04
def TCP_FLG_PSH : UInt8 := 0x08
def TCP_FLG_ACK : UInt8 := 0x10

/-- `TCP_FLG_ISSET(x, y)` -/
def flgIsset (x y : UInt8) : Bool := (x &&& 0x3f) &&& y != 0

/-- A segment without text: `net_tx_tcp_signal(si, seq, ack, flags)`. -/
structure Signal where
  seq : UInt32
  ack : UInt32
  flags : UInt8
  deriving DecidableEq

/-- What a sleeping process waits for. -/
inductive Chan where
  /-- `&si->tcpcb` -/
  | cb
  /-- `&si->rxq` -/
  | rxq
  deriving DecidableEq

/-- What the arrival of a segment does. -/
structure Arrival where
  cb : TcpCb
  /-- Segments sent in reply -/
  signals : List Signal
  /-- `some ispush` if the text goes to `sockrecvtcp` -/
  queued : Option Bool
  wakeups : List Chan
  deriving DecidableEq

/-- Drop the segment. -/
def drop (cb : TcpCb) (signals : List Signal) : Arrival := ⟨cb, signals, none, []⟩

/-! ## Segment arrival -/

/-- The case `TCP_CB_STATE_LISTEN`; `rand` is the initial send sequence number. -/
def listenArrives (rand : UInt32) (cb : TcpCb) (hdr : TcpHdr) : Arrival :=
  if flgIsset hdr.flags TCP_FLG_RST then drop cb []
  else if flgIsset hdr.flags TCP_FLG_ACK then drop cb [⟨hdr.ack, 0, TCP_FLG_RST⟩]
  else if flgIsset hdr.flags TCP_FLG_SYN then
    drop
      { cb with
        rcv := { cb.rcv with nxt := hdr.seq + 1 }
        irs := hdr.seq
        iss := rand
        snd := ⟨rand + 1, rand⟩
        state := .synRcvd }
      [⟨rand, hdr.seq + 1, TCP_FLG_SYN ||| TCP_FLG_ACK⟩]
  else drop cb []

/-- The case `TCP_CB_STATE_CLOSED`, which falls through to `TCP_CB_STATE_LISTEN`. -/
def closedArrives (rand : UInt32) (cb : TcpCb) (hdr : TcpHdr) (len : UInt32) : Arrival :=
  let reset : List Signal :=
    if !flgIsset hdr.flags TCP_FLG_RST then
      if !flgIsset hdr.flags TCP_FLG_ACK then [⟨0, hdr.seq + len, TCP_FLG_RST ||| TCP_FLG_ACK⟩]
      else [⟨hdr.ack, 0, TCP_FLG_RST⟩]
    else []
  let r := listenArrives rand cb hdr
  { r with signals := reset ++ r.signals }

/-- The case `TCP_CB_STATE_SYN_SENT`. -/
def synSentArrives (cb : TcpCb) (hdr : TcpHdr) : Except String Arrival :=
  let isAck := flgIsset hdr.flags TCP_FLG_ACK
  let isRst := flgIsset hdr.flags TCP_FLG_RST
  if isAck && (decide (hdr.ack ≤ cb.iss) || decide (hdr.ack > cb.snd.nxt)) then
    .ok (drop cb (if isRst then [] else [⟨hdr.ack, 0, TCP_FLG_RST⟩]))
  else
    let ackAcceptable := isAck && decide (hdr.ack ≥ cb.snd.una) && decide (hdr.ack ≤ cb.snd.nxt)
    if isRst then
      .ok (drop (if ackAcceptable then { cb with state := .closed } else cb) [])
    else if !ackAcceptable && !(!isAck && !isRst) then .error "TCP_CB_STATE_SYN_SENT error"
    else if flgIsset hdr.flags TCP_FLG_SYN then
      let cb₁ : TcpCb :=
        { cb with
          rcv := { cb.rcv with nxt := hdr.seq + 1 }
          irs := hdr.seq
          snd := if ackAcceptable then { cb.snd with una := hdr.ack } else cb.snd }
      if cb₁.snd.una > cb₁.iss then
        .ok ⟨{ cb₁ with state := .established }, [⟨cb₁.snd.nxt, cb₁.rcv.nxt, TCP_FLG_ACK⟩],
          none, [.cb]⟩
      else
        .ok (drop { cb₁ with state := .synRcvd }
          [⟨cb₁.iss, cb₁.rcv.nxt, TCP_FLG_SYN ||| TCP_FLG_ACK⟩])
    else .ok (drop cb [])

/-- The test of the sequence number against the receive window. `tmp` is an `int`
    that is compared with unsigned numbers. -/
def acceptable (cb : TcpCb) (seq len : UInt32) : Bool :=
  let wnd := cb.rcv.wnd.toUInt32
  let inWindow := fun x : UInt32 => decide (x ≥ cb.rcv.nxt) && decide (x < cb.rcv.nxt + wnd)
  let tmp := seq + len - 1
  (len == 0 && wnd == 0 && seq == cb.rcv.nxt) ||
    (len == 0 && decide (wnd > 0) && inWindow seq) ||
    (decide (len > 0) && decide (wnd > 0) && (inWindow seq || inWindow tmp))

/-- The outcome of the check of the ACK field. -/
inductive AckOutcome where
  /-- `return` -/
  | stop (r : Arrival)
  /-- Go on with the text -/
  | goOn (cb : TcpCb) (signals : List Signal) (wakeups : List Chan)

/-- The ACK field in `ESTABLISHED`, `FIN_WAIT1`, `FIN_WAIT2`, `CLOSE_WAIT` and
    `CLOSING`. -/
def ackEstablished (cb : TcpCb) (hdr : TcpHdr) (wakeups : List Chan) : AckOutcome :=
  if !(decide (cb.snd.una < hdr.ack) && decide (hdr.ack ≤ cb.snd.nxt)) &&
      decide (hdr.ack > cb.snd.nxt) then
    .stop ⟨cb, [⟨cb.snd.nxt, cb.rcv.nxt, TCP_FLG_ACK⟩], none, wakeups⟩
  else
    let cb₁ : TcpCb :=
      if decide (cb.snd.una < hdr.ack) && decide (hdr.ack ≤ cb.snd.nxt) then
        { cb with snd := { cb.snd with una := hdr.ack } }
      else cb
    match cb₁.state with
    | .finWait1 =>
      .goOn (if hdr.ack == cb₁.snd.nxt then { cb₁ with state := .finWait2 } else cb₁) [] wakeups
    | .closing =>
      if hdr.ack == cb₁.snd.nxt then
        .stop ⟨{ cb₁ with state := .timeWait }, [], none, wakeups ++ [.cb]⟩
      else .stop ⟨cb₁, [], none, wakeups⟩
    | _ => .goOn cb₁ [] wakeups

/-- The check of the ACK field. -/
def ackField (cb : TcpCb) (hdr : TcpHdr) : AckOutcome :=
  match cb.state with
  | .synRcvd =>
    if cb.snd.una ≤ hdr.ack ∧ hdr.ack ≤ cb.snd.nxt then
      ackEstablished { cb with state := .established } hdr [.cb]
    else .goOn cb [⟨hdr.ack, 0, TCP_FLG_RST⟩] []
  | .established | .finWait1 | .finWait2 | .closeWait | .closing => ackEstablished cb hdr []
  | .lastAck =>
    .stop ⟨if hdr.ack == cb.snd.nxt then { cb with state := .closed } else cb, [], none, [.cb]⟩
  | _ => .goOn cb [] []

/-- The states in which text is taken. -/
def TcpState.takesText : TcpState → Bool
  | .established | .finWait1 | .finWait2 => true
  | _ => false

/-- The segment text: the whole buffer is queued and `RCV.NXT` set behind it. -/
def segmentText (r : Arrival) (hdr : TcpHdr) (len : UInt32) : Arrival :=
  if len ≠ 0 ∧ r.cb.state.takesText = true then
    let cb : TcpCb := { r.cb with rcv := ⟨hdr.seq + len, r.cb.rcv.wnd - len.toUInt16⟩ }
    { r with
      cb := cb
      signals := r.signals ++ [⟨cb.snd.nxt, cb.rcv.nxt, TCP_FLG_ACK⟩]
      queued := some (flgIsset hdr.flags TCP_FLG_PSH) }
  else r

/-- The FIN bit. -/
def finBit (r : Arrival) (hdr : TcpHdr) : Arrival :=
  if flgIsset hdr.flags TCP_FLG_FIN then
    match r.cb.state with
    | .closed | .listen | .synSent => r
    | _ =>
      let cb : TcpCb := { r.cb with rcv := { r.cb.rcv with nxt := r.cb.rcv.nxt + 1 } }
      let r := { r with cb := cb, signals := r.signals ++ [⟨cb.snd.nxt, cb.rcv.nxt, TCP_FLG_ACK⟩] }
      match cb.state with
      | .synRcvd | .established =>
        { r with cb := { cb with state := .closeWait }, wakeups := r.wakeups ++ [.rxq] }
      | .finWait1 => { r with cb := { cb with state := .closing } }
      | .finWait2 => { r with cb := { cb with state := .timeWait }, wakeups := r.wakeups ++ [.cb] }
      | _ => r
  else r

/-- `tcp_segments_arrives` in the synchronized states. -/
def synchronizedArrives (cb : TcpCb) (hdr : TcpHdr) (len : UInt32) : Arrival :=
  if !acceptable cb hdr.seq len then drop cb [⟨cb.snd.nxt, cb.rcv.nxt, TCP_FLG_ACK⟩]
  else if flgIsset hdr.flags TCP_FLG_RST then drop { cb with state := .closed } []
  else if flgIsset hdr.flags TCP_FLG_SYN then
    drop { cb with state := .closed } [⟨hdr.ack, 0, TCP_FLG_RST⟩]
  else if !flgIsset hdr.flags TCP_FLG_ACK then drop cb []
  else
    match ackField cb hdr with
    | .stop r => r
    | .goOn cb signals wakeups => finBit (segmentText ⟨cb, signals, none, wakeups⟩ hdr len) hdr

/-- `tcp_segments_arrives(si, hdr, m, raddr, lport, rport, len)`, where `len` is the
    length of what follows the fixed header. -/
def tcpSegmentsArrives (rand : UInt32) (cb : TcpCb) (hdr : TcpHdr) (len : UInt32) :
    Except String Arrival :=
  let cb : TcpCb := { cb with rcv := { cb.rcv with wnd := hdr.win } }
  match cb.state with
  | .closed => .ok (closedArrives rand cb hdr len)
  | .listen => .ok (listenArrives rand cb hdr)
  | .synSent => synSentArrives cb hdr
  | _ => .ok (synchronizedArrives cb hdr len)

/-! ## The receive queue -/

/-- The bytes of a buffer from `m->head` on. -/
abbrev Mbuf := List UInt8

/-- A connected socket. -/
structure Sock where
  tcpcb : TcpCb
  rxq : List Mbuf
  deriving DecidableEq

/-- `tcp_segments_arrives` for a buffer with the bytes `body`: `sockrecvtcp` finds the
    socket it was called for and appends the buffer to its queue. -/
def Sock.arrives (si : Sock) (rand : UInt32) (hdr : TcpHdr) (body : Mbuf) :
    Except String (Sock × Arrival) :=
  match tcpSegmentsArrives rand si.tcpcb hdr (UInt32.ofNat body.length) with
  | .error e => .error e
  | .ok r =>
    match r.queued with
    | none => .ok (⟨r.cb, si.rxq⟩, r)
    | some ispush =>
      .ok (⟨r.cb, si.rxq ++ [body]⟩, if ispush then { r with wakeups := .rxq :: r.wakeups } else r)

/-- What a call of `tcp_api_receive` does: the bytes copied out, the socket afterwards
    and the value returned, `none` for -1. -/
structure Received where
  bytes : List UInt8
  si : Sock
  ret : Option ℕ
  deriving DecidableEq

/-- The copying loop of `tcp_api_receive`, in which `len` bytes have been copied. The
    `i`-th `copyout` fails after `k` bytes if `copyout i = some k`; `n` is compared as an
    unsigned number. -/
def receiveLoop (copyout : ℕ → Option ℕ) : TcpCb → ℕ → List Mbuf → ℕ → ℕ → Received
  | cb, _, [], _, len => ⟨[], ⟨cb, []⟩, some len⟩
  | cb, i, m :: rxq, n, len =>
    let recvSz := if n > m.length then m.length else n
    match copyout i with
    | some k => ⟨m.take (min k recvSz), ⟨cb, rxq⟩, none⟩
    | none =>
      let cb : TcpCb :=
        { cb with rcv := { cb.rcv with wnd := cb.rcv.wnd + UInt16.ofNat recvSz } }
      -- a buffer read in part goes back to the head of the queue, and nothing is left to copy
      if n < m.length then ⟨m.take recvSz, ⟨cb, m.drop n :: rxq⟩, some (len + recvSz)⟩
      else if n - recvSz = 0 ∨ rxq = [] then ⟨m.take recvSz, ⟨cb, rxq⟩, some (len + recvSz)⟩
      else
        let r := receiveLoop copyout cb (i + 1) rxq (n - recvSz) (len + recvSz)
        { r with bytes := m.take recvSz ++ r.bytes }

/-- `tcp_api_receive(si, addr, n, pr)` from its start, or from the return of its `sleep`
    if `slept`; `none` if the process goes to sleep. -/
def tcpApiReceive (si : Sock) (slept killed : Bool) (copyout : ℕ → Option ℕ) (n : ℕ) :
    Option Received :=
  if (slept || si.rxq.isEmpty) && si.tcpcb.state == .closeWait then some ⟨[], si, some 0⟩
  else if killed then some ⟨[], si, none⟩
  else if si.rxq.isEmpty then none
  else some (receiveLoop copyout si.tcpcb 0 si.rxq n 0)

end Xv6.Kernel.Tcp
