import Mathlib
import Xv6.Kernel.Tcp

/-!
# Segment Arrival, Branch by Branch

What `tcp_segments_arrives` makes of a segment: which text it takes, which state the
connection goes to, and which wakeups it issues.

- `ackEstablished_eq`: the check of the ACK field, with one outcome for each state;
- `queued_iff`: the segments whose text is taken;
- `announced`: entering `ESTABLISHED`, `CLOSED` or `TIME_WAIT` wakes those that wait on
  the control block, except by a reset;
- `wakes_reader`: the segments that wake the readers.
-/

namespace Xv6.Kernel.Tcp

/-! ## The ACK field -/

/-- `SND.UNA <- SEG.ACK` if `SND.UNA < SEG.ACK =< SND.NXT`. -/
def advanceUna (cb : TcpCb) (hdr : TcpHdr) : TcpCb :=
  if cb.snd.una < hdr.ack ∧ hdr.ack ≤ cb.snd.nxt then { cb with snd := { cb.snd with una := hdr.ack } }
  else cb

@[simp] theorem advanceUna_state (cb : TcpCb) (hdr : TcpHdr) :
    (advanceUna cb hdr).state = cb.state := by
  unfold advanceUna
  split <;> rfl

@[simp] theorem advanceUna_nxt (cb : TcpCb) (hdr : TcpHdr) :
    (advanceUna cb hdr).snd.nxt = cb.snd.nxt := by
  unfold advanceUna
  split <;> rfl

/-- The check of the ACK field, by the state it is made in. -/
theorem ackEstablished_eq (cb : TcpCb) (hdr : TcpHdr) (wakeups : List Chan) :
    ackEstablished cb hdr wakeups =
      if cb.snd.nxt < hdr.ack then .stop ⟨cb, [⟨cb.snd.nxt, cb.rcv.nxt, TCP_FLG_ACK⟩], none, wakeups⟩
      else
        match cb.state with
        | .finWait1 =>
          .goOn (if hdr.ack = cb.snd.nxt then { advanceUna cb hdr with state := .finWait2 }
            else advanceUna cb hdr) [] wakeups
        | .closing =>
          if hdr.ack = cb.snd.nxt then
            .stop ⟨{ advanceUna cb hdr with state := .timeWait }, [], none, wakeups ++ [.cb]⟩
          else .stop ⟨advanceUna cb hdr, [], none, wakeups⟩
        | _ => .goOn (advanceUna cb hdr) [] wakeups := by
  unfold ackEstablished
  by_cases hlt : cb.snd.nxt < hdr.ack
  · have hle : ¬ hdr.ack ≤ cb.snd.nxt := UInt32.not_le.mpr hlt
    rw [if_pos (by simp [hlt, hle]), if_pos hlt]
  · rw [if_neg (by simp [hlt]), if_neg hlt]
    have hcb : (if (decide (cb.snd.una < hdr.ack) && decide (hdr.ack ≤ cb.snd.nxt)) = true
        then { cb with snd := { cb.snd with una := hdr.ack } } else cb) = advanceUna cb hdr := by
      simp [advanceUna]
    simp only [hcb]
    cases hstate : cb.state <;> simp only [hstate, advanceUna_state, advanceUna_nxt, beq_iff_eq]

/-- A check that returns takes no text. It leaves the state alone, or ends `CLOSING` with a
    wakeup of the closing process. -/
theorem ackEstablished_stop {cb : TcpCb} {hdr : TcpHdr} {ws : List Chan} {r : Arrival}
    (h : ackEstablished cb hdr ws = .stop r) :
    r.queued = none ∧ (r.cb.state = cb.state ∧ r.wakeups = ws ∨
      cb.state = .closing ∧ hdr.ack = cb.snd.nxt ∧ r.cb.state = .timeWait ∧
        r.wakeups = ws ++ [.cb]) := by
  rw [ackEstablished_eq] at h
  split at h
  · cases h
    exact ⟨rfl, .inl ⟨rfl, rfl⟩⟩
  · split at h
    · cases h
    · split at h
      · cases h
        exact ⟨rfl, .inr ⟨‹_›, ‹_›, rfl, rfl⟩⟩
      · cases h
        exact ⟨rfl, .inl ⟨advanceUna_state cb hdr, rfl⟩⟩
    · cases h

/-- A check that goes on leaves the state alone, or finds our FIN acknowledged. -/
theorem ackEstablished_goOn {cb cb' : TcpCb} {hdr : TcpHdr} {ws ws' : List Chan}
    {signals : List Signal} (h : ackEstablished cb hdr ws = .goOn cb' signals ws') :
    hdr.ack ≤ cb.snd.nxt ∧ ws' = ws ∧ cb.state ≠ .closing ∧
      (cb'.state = cb.state ∨
        cb.state = .finWait1 ∧ hdr.ack = cb.snd.nxt ∧ cb'.state = .finWait2) := by
  rw [ackEstablished_eq] at h
  split at h
  · cases h
  · have hle : hdr.ack ≤ cb.snd.nxt := UInt32.not_lt.mp ‹_›
    split at h
    · rename_i hst
      cases h
      refine ⟨hle, rfl, by simp [hst], ?_⟩
      split
      · exact .inr ⟨hst, ‹_›, rfl⟩
      · exact .inl (advanceUna_state cb hdr)
    · split at h <;> cases h
    · rename_i hst
      cases h
      exact ⟨hle, rfl, hst, .inl (advanceUna_state cb hdr)⟩

/-- The check of the ACK field lets a segment through to its text in a state that takes
    text exactly if the segment acknowledges nothing that was not sent. -/
theorem ackEstablished_text (cb : TcpCb) (hdr : TcpHdr) (wakeups : List Chan) :
    (∃ cb' signals ws, ackEstablished cb hdr wakeups = .goOn cb' signals ws ∧
      cb'.state.takesText = true) ↔ cb.state.takesText = true ∧ hdr.ack ≤ cb.snd.nxt := by
  rw [ackEstablished_eq]
  by_cases hlt : cb.snd.nxt < hdr.ack
  · simp [hlt]
  · rw [if_neg hlt]
    have hle : hdr.ack ≤ cb.snd.nxt := UInt32.not_lt.mp hlt
    cases hst : cb.state with
    | finWait1 =>
      have htakes : (if hdr.ack = cb.snd.nxt then { advanceUna cb hdr with state := .finWait2 }
          else advanceUna cb hdr).state.takesText = true := by
        split_ifs <;> simp [hst, TcpState.takesText]
      exact ⟨fun _ => ⟨rfl, hle⟩, fun _ => ⟨_, _, _, rfl, htakes⟩⟩
    | closing =>
      simp only [TcpState.takesText]
      split <;> simp
    | _ => simp [hst, hle, TcpState.takesText]

theorem ackField_text (cb : TcpCb) (hdr : TcpHdr) :
    (∃ cb' signals wakeups, ackField cb hdr = .goOn cb' signals wakeups ∧
      cb'.state.takesText = true) ↔
    (cb.state = .synRcvd ∧ cb.snd.una ≤ hdr.ack ∨ cb.state.takesText = true) ∧
      hdr.ack ≤ cb.snd.nxt := by
  unfold ackField
  have hest := ackEstablished_text cb hdr []
  cases hst : cb.state with
  | synRcvd =>
    have hsyn := ackEstablished_text { cb with state := .established } hdr [.cb]
    by_cases h : cb.snd.una ≤ hdr.ack ∧ hdr.ack ≤ cb.snd.nxt
    · simpa [h, TcpState.takesText] using hsyn
    · simp only [h, if_false]
      simpa [hst, TcpState.takesText] using h
  | established | finWait1 | finWait2 | closeWait | closing =>
    simpa [hst, TcpState.takesText] using hest
  | _ => simp [hst, TcpState.takesText]

/-- A check of the ACK field that returns takes no text. -/
theorem ackField_stop {cb : TcpCb} {hdr : TcpHdr} {r : Arrival} (h : ackField cb hdr = .stop r) :
    r.queued = none := by
  unfold ackField at h
  split at h
  · split at h
    · exact (ackEstablished_stop h).1
    · cases h
  · exact (ackEstablished_stop h).1
  · exact (ackEstablished_stop h).1
  · exact (ackEstablished_stop h).1
  · exact (ackEstablished_stop h).1
  · exact (ackEstablished_stop h).1
  · cases h
    rfl
  · cases h

/-! ## Text and FIN -/

/-- The state after a FIN that is taken in the state `st` -/
def finState : TcpState → TcpState
  | .synRcvd | .established => .closeWait
  | .finWait1 => .closing
  | .finWait2 => .timeWait
  | st => st

/-- The wakeups issued for it -/
def finWakeups : TcpState → List Chan
  | .synRcvd | .established => [.rxq]
  | .finWait2 => [.cb]
  | _ => []

theorem finBit_spec (r : Arrival) (hdr : TcpHdr) :
    (finBit r hdr).queued = r.queued ∧
      (finBit r hdr).cb.state =
        (if flgIsset hdr.flags TCP_FLG_FIN = true then finState r.cb.state else r.cb.state) ∧
      (finBit r hdr).wakeups =
        (if flgIsset hdr.flags TCP_FLG_FIN = true then r.wakeups ++ finWakeups r.cb.state
          else r.wakeups) := by
  unfold finBit
  cases flgIsset hdr.flags TCP_FLG_FIN with
  | false => simp
  | true => cases hst : r.cb.state <;> simp [hst, finState, finWakeups]

theorem segmentText_spec (r : Arrival) (hdr : TcpHdr) (len : UInt32) (h : r.queued = none) :
    (segmentText r hdr len).queued =
        (if len ≠ 0 ∧ r.cb.state.takesText = true then some (flgIsset hdr.flags TCP_FLG_PSH)
          else none) ∧
      (segmentText r hdr len).cb.state = r.cb.state ∧
      (segmentText r hdr len).wakeups = r.wakeups := by
  unfold segmentText
  split
  · exact ⟨rfl, rfl, rfl⟩
  · exact ⟨h, rfl, rfl⟩

/-! ## Which segments have their text taken -/

/-- The segment passes every test of `tcp_segments_arrives` in a state that takes text,
    and has text. -/
structure TextTaken (cb : TcpCb) (hdr : TcpHdr) (len : UInt32) : Prop where
  state : cb.state = .synRcvd ∧ cb.snd.una ≤ hdr.ack ∨ cb.state.takesText = true
  ackSent : hdr.ack ≤ cb.snd.nxt
  inWindow : acceptable { cb with rcv := { cb.rcv with wnd := hdr.win } } hdr.seq len = true
  noRst : flgIsset hdr.flags TCP_FLG_RST = false
  noSyn : flgIsset hdr.flags TCP_FLG_SYN = false
  isAck : flgIsset hdr.flags TCP_FLG_ACK = true
  text : len ≠ 0

theorem synchronizedArrives_queued (cb : TcpCb) (hdr : TcpHdr) (len : UInt32) :
    (synchronizedArrives cb hdr len).queued.isSome = true ↔
      ((cb.state = .synRcvd ∧ cb.snd.una ≤ hdr.ack ∨ cb.state.takesText = true) ∧
        hdr.ack ≤ cb.snd.nxt) ∧ acceptable cb hdr.seq len = true ∧
      flgIsset hdr.flags TCP_FLG_RST = false ∧ flgIsset hdr.flags TCP_FLG_SYN = false ∧
      flgIsset hdr.flags TCP_FLG_ACK = true ∧ len ≠ 0 := by
  rw [← ackField_text]
  unfold synchronizedArrives
  cases hacc : acceptable cb hdr.seq len with
  | false => simp [drop]
  | true =>
    cases hrst : flgIsset hdr.flags TCP_FLG_RST with
    | true => simp [drop]
    | false =>
      cases hsyn : flgIsset hdr.flags TCP_FLG_SYN with
      | true => simp [drop]
      | false =>
        cases hack : flgIsset hdr.flags TCP_FLG_ACK with
        | false => simp [drop]
        | true =>
          cases hf : ackField cb hdr with
          | stop r => simp [ackField_stop hf]
          | goOn cb' signals wakeups =>
            obtain ⟨hq, -⟩ := segmentText_spec ⟨cb', signals, none, wakeups⟩ hdr len rfl
            simp [(finBit_spec _ hdr).1, hq, and_comm]

theorem listenArrives_queued (rand : UInt32) (cb : TcpCb) (hdr : TcpHdr) :
    (listenArrives rand cb hdr).queued = none := by
  unfold listenArrives
  split_ifs <;> rfl

theorem synSentArrives_queued {cb : TcpCb} {hdr : TcpHdr} {r : Arrival}
    (h : synSentArrives cb hdr = .ok r) : r.queued = none := by
  unfold synSentArrives at h
  dsimp only at h
  split_ifs at h <;> cases h <;> rfl

/-- **The text of a segment is queued exactly in the states and for the segments of
    `TextTaken`.** -/
theorem queued_iff {rand : UInt32} {cb : TcpCb} {hdr : TcpHdr} {len : UInt32} {r : Arrival}
    (h : tcpSegmentsArrives rand cb hdr len = .ok r) :
    r.queued.isSome = true ↔ TextTaken cb hdr len := by
  have hsync : ∀ cb : TcpCb, (synchronizedArrives { cb with rcv := { cb.rcv with wnd := hdr.win } }
      hdr len).queued.isSome = true ↔ TextTaken cb hdr len := by
    intro cb
    rw [synchronizedArrives_queued]
    exact ⟨fun ⟨⟨h₁, h₂⟩, h₃, h₄, h₅, h₆, h₇⟩ => ⟨h₁, h₂, h₃, h₄, h₅, h₆, h₇⟩,
      fun h => ⟨⟨h.state, h.ackSent⟩, h.inWindow, h.noRst, h.noSyn, h.isAck, h.text⟩⟩
  -- before the connection is synchronized no text is taken
  have hbefore : (cb.state = .closed ∨ cb.state = .listen ∨ cb.state = .synSent) →
      r.queued = none → (r.queued.isSome = true ↔ TextTaken cb hdr len) := by
    intro hst hq
    rw [hq]
    refine ⟨fun h => by simp at h, fun ht => ?_⟩
    have := ht.state
    rcases hst with hst | hst | hst <;> simp [hst, TcpState.takesText] at this
  unfold tcpSegmentsArrives at h
  cases hst : cb.state with
  | closed =>
    simp only [hst, Except.ok.injEq] at h
    refine hbefore (.inl hst) ?_
    rw [← h, closedArrives]
    exact listenArrives_queued _ _ _
  | listen =>
    simp only [hst, Except.ok.injEq] at h
    exact hbefore (.inr (.inl hst)) (h ▸ listenArrives_queued _ _ _)
  | synSent =>
    simp only [hst] at h
    exact hbefore (.inr (.inr hst)) (synSentArrives_queued h)
  | _ =>
    simp only [hst, Except.ok.injEq] at h
    rw [← h, ← hst]
    exact hsync cb

/-! ## Which segments change the state, and whom they wake -/

/-- The control block that the tests are made on: `SND.WND` of the segment is stored first. -/
def withWindow (cb : TcpCb) (hdr : TcpHdr) : TcpCb :=
  { cb with rcv := { cb.rcv with wnd := hdr.win } }

/-- The states behind the `switch` on the state before a connection is synchronized -/
def TcpState.synchronized : TcpState → Bool
  | .closed | .listen | .synSent => false
  | _ => true

/-- The segment gets as far as the check of its ACK field. -/
structure ReachesAck (cb : TcpCb) (hdr : TcpHdr) (len : UInt32) : Prop where
  synchronized : cb.state.synchronized = true
  inWindow : acceptable (withWindow cb hdr) hdr.seq len = true
  noRst : flgIsset hdr.flags TCP_FLG_RST = false
  noSyn : flgIsset hdr.flags TCP_FLG_SYN = false
  isAck : flgIsset hdr.flags TCP_FLG_ACK = true

/-- The segment resets the connection: an acceptable RST or, once the connection is
    synchronized, an acceptable SYN. -/
def Resets (cb : TcpCb) (hdr : TcpHdr) (len : UInt32) : Prop :=
  (cb.state = .synSent ∧ flgIsset hdr.flags TCP_FLG_RST = true ∧
    flgIsset hdr.flags TCP_FLG_ACK = true ∧ cb.iss < hdr.ack ∧ cb.snd.una ≤ hdr.ack ∧
    hdr.ack ≤ cb.snd.nxt) ∨
  (cb.state.synchronized = true ∧ acceptable (withWindow cb hdr) hdr.seq len = true ∧
    (flgIsset hdr.flags TCP_FLG_RST = true ∨ flgIsset hdr.flags TCP_FLG_SYN = true))

/-- The segment finishes the connection: it acknowledges our FIN in `LAST_ACK` or
    `CLOSING`, or it is the peer's FIN and ours is acknowledged. -/
def Finishes (cb : TcpCb) (hdr : TcpHdr) (len : UInt32) : Prop :=
  ReachesAck cb hdr len ∧
    ((cb.state = .lastAck ∨ cb.state = .closing) ∧ hdr.ack = cb.snd.nxt ∨
      flgIsset hdr.flags TCP_FLG_FIN = true ∧
        (cb.state = .finWait2 ∧ hdr.ack ≤ cb.snd.nxt ∨
          cb.state = .finWait1 ∧ hdr.ack = cb.snd.nxt))

/-- The segment wakes readers: its text is taken and has PSH set, or it is the peer's FIN
    before our own. -/
def WakesReader (cb : TcpCb) (hdr : TcpHdr) (len : UInt32) : Prop :=
  TextTaken cb hdr len ∧ flgIsset hdr.flags TCP_FLG_PSH = true ∨
    ReachesAck cb hdr len ∧ flgIsset hdr.flags TCP_FLG_FIN = true ∧
      (cb.state = .synRcvd ∨ cb.state = .established ∧ hdr.ack ≤ cb.snd.nxt)

/-- What the check of the ACK field does to the state if it returns. -/
theorem ackField_stop_state {cb : TcpCb} {hdr : TcpHdr} {r : Arrival}
    (h : ackField cb hdr = .stop r) :
    r.cb.state = cb.state ∨
      .cb ∈ r.wakeups ∧ (r.cb.state = .established ∨
        hdr.ack = cb.snd.nxt ∧ (cb.state = .closing ∧ r.cb.state = .timeWait ∨
          cb.state = .lastAck ∧ r.cb.state = .closed)) := by
  unfold ackField at h
  -- In five of the states the check of `ESTABLISHED` comes first.
  have hest : ackEstablished cb hdr [] = .stop r → r.cb.state = cb.state ∨
      .cb ∈ r.wakeups ∧ (r.cb.state = .established ∨
        hdr.ack = cb.snd.nxt ∧ (cb.state = .closing ∧ r.cb.state = .timeWait ∨
          cb.state = .lastAck ∧ r.cb.state = .closed)) := by
    intro h
    rcases (ackEstablished_stop h).2 with ⟨hst, -⟩ | ⟨hst, hack, hst', hws⟩
    · exact .inl hst
    · exact .inr ⟨by simp [hws], .inr ⟨hack, .inl ⟨hst, hst'⟩⟩⟩
  -- One goal for each state: in `SYN-RECEIVED` the ACK may establish the connection.
  split at h
  · split at h
    · rcases (ackEstablished_stop h).2 with ⟨hst, hws⟩ | ⟨hst, -⟩
      · exact .inr ⟨by simp [hws], .inl hst⟩
      · cases hst
    · cases h
  · exact hest h
  · exact hest h
  · exact hest h
  · exact hest h
  · exact hest h
  -- In `LAST-ACK` the ACK of the FIN closes it.
  · rename_i hst
    cases h
    dsimp only
    by_cases hack : hdr.ack = cb.snd.nxt
    · exact .inr ⟨by simp, .inr ⟨hack, .inr ⟨hst, by simp [hack]⟩⟩⟩
    · exact .inl (by simp [hack])
  · cases h

/-- What it does to the state if it goes on to the text. -/
theorem ackField_goOn_state {cb cb' : TcpCb} {hdr : TcpHdr} {signals : List Signal}
    {ws : List Chan} (h : ackField cb hdr = .goOn cb' signals ws) :
    (cb.state = .finWait2 → hdr.ack ≤ cb.snd.nxt) ∧
      (cb'.state = cb.state ∨
        cb.state = .synRcvd ∧ cb'.state = .established ∧ .cb ∈ ws ∨
        cb.state = .finWait1 ∧ hdr.ack = cb.snd.nxt ∧ cb'.state = .finWait2) := by
  unfold ackField at h
  -- In five of the states the check of `ESTABLISHED` comes first.
  have hest : ackEstablished cb hdr [] = .goOn cb' signals ws →
      (cb.state = .finWait2 → hdr.ack ≤ cb.snd.nxt) ∧
      (cb'.state = cb.state ∨
        cb.state = .synRcvd ∧ cb'.state = .established ∧ .cb ∈ ws ∨
        cb.state = .finWait1 ∧ hdr.ack = cb.snd.nxt ∧ cb'.state = .finWait2) := by
    intro h
    obtain ⟨hle, -, -, hst | hst⟩ := ackEstablished_goOn h
    · exact ⟨fun _ => hle, .inl hst⟩
    · exact ⟨fun _ => hle, .inr (.inr hst)⟩
  -- One goal for each state; it goes on to the text from where that check leaves it.
  split at h
  · rename_i hst
    refine ⟨fun h => by simp [hst] at h, ?_⟩
    split at h
    · obtain ⟨-, hws, -, hst' | ⟨hst', -⟩⟩ := ackEstablished_goOn h
      · exact .inr (.inl ⟨hst, hst', by simp [hws]⟩)
      · cases hst'
    · cases h
      exact .inl rfl
  · exact hest h
  · exact hest h
  · exact hest h
  · exact hest h
  · exact hest h
  · cases h
  · rename_i hst
    cases h
    exact ⟨fun h => absurd h (by simp_all), .inl rfl⟩

/-- How the states in which waiting on the control block ends are entered: with a wakeup
    of those that wait, except by a reset. -/
structure Announced (cb : TcpCb) (hdr : TcpHdr) (len : UInt32) (r : Arrival) : Prop where
  established : r.cb.state = .established → cb.state = .established ∨ .cb ∈ r.wakeups
  closed : r.cb.state = .closed → cb.state = .closed ∨ Resets cb hdr len ∨
    Finishes cb hdr len ∧ .cb ∈ r.wakeups
  timeWait : r.cb.state = .timeWait → cb.state = .timeWait ∨
    Finishes cb hdr len ∧ .cb ∈ r.wakeups

/-- A segment that leaves the state alone announces it. -/
theorem Announced.of_eq {cb : TcpCb} {hdr : TcpHdr} {len : UInt32} {r : Arrival}
    (h : r.cb.state = cb.state) : Announced cb hdr len r :=
  ⟨fun h' => .inl (h ▸ h'), fun h' => .inl (h ▸ h'), fun h' => .inl (h ▸ h')⟩

/-- A segment that resets the connection. -/
theorem Announced.of_resets {cb : TcpCb} {hdr : TcpHdr} {len : UInt32} {r : Arrival}
    (h : Resets cb hdr len) (hst : r.cb.state = .closed) : Announced cb hdr len r :=
  ⟨fun h' => by simp [hst] at h', fun _ => .inr (.inl h), fun h' => by simp [hst] at h'⟩

theorem announced_of_stop {cb : TcpCb} {hdr : TcpHdr} {len : UInt32} {r : Arrival}
    (hreach : ReachesAck cb hdr len) (h : ackField (withWindow cb hdr) hdr = .stop r) :
    Announced cb hdr len r := by
  rcases ackField_stop_state h with hst | ⟨hcb, hst | ⟨hack, ⟨hst, hst'⟩ | ⟨hst, hst'⟩⟩⟩
  · exact .of_eq hst
  · exact ⟨fun _ => .inr hcb, fun h' => by simp [hst] at h', fun h' => by simp [hst] at h'⟩
  · exact ⟨fun _ => .inr hcb, fun h' => by simp [hst'] at h',
      fun _ => .inr ⟨⟨hreach, .inl ⟨.inr hst, hack⟩⟩, hcb⟩⟩
  · exact ⟨fun _ => .inr hcb, fun _ => .inr (.inr ⟨⟨hreach, .inl ⟨.inl hst, hack⟩⟩, hcb⟩),
      fun h' => by simp [hst'] at h'⟩

theorem announced_of_goOn {cb cb' : TcpCb} {hdr : TcpHdr} {len : UInt32} {signals : List Signal}
    {ws : List Chan} (hreach : ReachesAck cb hdr len)
    (h : ackField (withWindow cb hdr) hdr = .goOn cb' signals ws) :
    Announced cb hdr len (finBit (segmentText ⟨cb', signals, none, ws⟩ hdr len) hdr) := by
  obtain ⟨hle, hst⟩ := ackField_goOn_state h
  obtain ⟨-, htst, htws⟩ := segmentText_spec ⟨cb', signals, none, ws⟩ hdr len rfl
  obtain ⟨-, hfst, hfws⟩ := finBit_spec (segmentText ⟨cb', signals, none, ws⟩ hdr len) hdr
  rw [htst] at hfst hfws
  rw [htws] at hfws
  generalize finBit (segmentText ⟨cb', signals, none, ws⟩ hdr len) hdr = r at hfst hfws ⊢
  dsimp only at hfst hfws
  have hstate : (withWindow cb hdr).state = cb.state := rfl
  have hnxt : (withWindow cb hdr).snd.nxt = cb.snd.nxt := rfl
  rw [hstate, hnxt] at hst hle
  have hsync := hreach.synchronized
  cases hfin : flgIsset hdr.flags TCP_FLG_FIN with
  | false =>
    simp only [hfin, Bool.false_eq_true, if_false] at hfst hfws
    rcases hst with hst | ⟨hst, hst', hcb⟩ | ⟨hst, -, hst'⟩
    · exact .of_eq (hfst.trans hst)
    · rw [hst'] at hfst
      exact ⟨fun _ => .inr (hfws ▸ hcb), fun h' => by simp [hfst] at h',
        fun h' => by simp [hfst] at h'⟩
    · rw [hst'] at hfst
      exact ⟨fun h' => by simp [hfst] at h', fun h' => by simp [hfst] at h',
        fun h' => by simp [hfst] at h'⟩
  | true =>
    simp only [hfin, if_true] at hfst hfws
    rcases hst with hst | ⟨hst, hst', hcb⟩ | ⟨hst, hack, hst'⟩
    · rw [hst] at hfst hfws
      -- our FIN was acknowledged before; the peer's ends the connection in `FIN_WAIT2`
      cases hc : cb.state with
      | finWait2 =>
        simp only [hc, finState, finWakeups] at hfst hfws
        exact ⟨fun h' => by simp [hfst] at h', fun h' => by simp [hfst] at h',
          fun _ => .inr ⟨⟨hreach, .inr ⟨hfin, .inl ⟨hc, hle hc⟩⟩⟩, by simp [hfws]⟩⟩
      | synRcvd | established | finWait1 =>
        simp only [hc, finState] at hfst
        exact ⟨fun h' => by simp [hfst] at h', fun h' => by simp [hfst] at h',
          fun h' => by simp [hfst] at h'⟩
      | _ => exact .of_eq (by simp [hfst, hc, finState])
    · simp only [hst', finState] at hfst
      exact ⟨fun h' => by simp [hfst] at h', fun h' => by simp [hfst] at h',
        fun h' => by simp [hfst] at h'⟩
    · simp only [hst', finState, finWakeups] at hfst hfws
      exact ⟨fun h' => by simp [hfst] at h', fun h' => by simp [hfst] at h',
        fun _ => .inr ⟨⟨hreach, .inr ⟨hfin, .inr ⟨hst, hack⟩⟩⟩, by simp [hfws]⟩⟩

theorem announced_synchronized {cb : TcpCb} {hdr : TcpHdr} {len : UInt32}
    (hsync : cb.state.synchronized = true) :
    Announced cb hdr len (synchronizedArrives (withWindow cb hdr) hdr len) := by
  unfold synchronizedArrives
  cases hacc : acceptable (withWindow cb hdr) hdr.seq len with
  | false => exact .of_eq rfl
  | true =>
    cases hrst : flgIsset hdr.flags TCP_FLG_RST with
    | true => exact .of_resets (.inr ⟨hsync, hacc, .inl hrst⟩) rfl
    | false =>
      cases hsyn : flgIsset hdr.flags TCP_FLG_SYN with
      | true => exact .of_resets (.inr ⟨hsync, hacc, .inr hsyn⟩) rfl
      | false =>
        cases hack : flgIsset hdr.flags TCP_FLG_ACK with
        | false => exact .of_eq rfl
        | true =>
          have hreach : ReachesAck cb hdr len := ⟨hsync, hacc, hrst, hsyn, hack⟩
          cases hf : ackField (withWindow cb hdr) hdr with
          | stop r => simpa [hf] using announced_of_stop hreach hf
          | goOn cb' signals ws => simpa [hf] using announced_of_goOn hreach hf

theorem announced_listen (rand : UInt32) (cb : TcpCb) (hdr : TcpHdr) (len : UInt32) :
    Announced cb hdr len (listenArrives rand (withWindow cb hdr) hdr) := by
  unfold listenArrives
  split_ifs
  · exact .of_eq rfl
  · exact .of_eq rfl
  · exact ⟨fun h => by simp [drop] at h, fun h => by simp [drop] at h,
      fun h => by simp [drop] at h⟩
  · exact .of_eq rfl

theorem announced_synSent {cb : TcpCb} {hdr : TcpHdr} {len : UInt32} {r : Arrival}
    (hst : cb.state = .synSent) (h : synSentArrives (withWindow cb hdr) hdr = .ok r) :
    Announced cb hdr len r := by
  unfold synSentArrives at h
  dsimp only at h
  split at h
  · cases h
    exact .of_eq rfl
  · rename_i hgood
    split at h
    · rename_i hrst
      cases h
      split
      · rename_i hacc
        refine .of_resets (.inl ⟨hst, hrst, ?_⟩) rfl
        simp only [withWindow, Bool.and_eq_true] at hacc
        obtain ⟨⟨hack, hle⟩, hle'⟩ := hacc
        have hiss : cb.iss < hdr.ack := by
          simpa [withWindow, hack, UInt32.not_le] using fun h' : hdr.ack ≤ cb.iss =>
            hgood (by simp [withWindow, hack, h'])
        exact ⟨hack, hiss, of_decide_eq_true hle, of_decide_eq_true hle'⟩
      · exact .of_eq rfl
    · split at h
      · cases h
      · -- `ESTABLISHED` with a wakeup, `SYN_RCVD`, or the state it was in
        split_ifs at h <;> cases h
        all_goals
          first
          | exact .of_eq rfl
          | exact ⟨fun _ => .inr (by simp), fun h => by simp at h, fun h => by simp at h⟩
          | exact ⟨fun h => by simp [drop] at h, fun h => by simp [drop] at h,
              fun h => by simp [drop] at h⟩

/-- **A change to `ESTABLISHED`, `CLOSED` or `TIME_WAIT` is announced to those that wait on
    the control block, unless a reset makes it.** -/
theorem announced {rand : UInt32} {cb : TcpCb} {hdr : TcpHdr} {len : UInt32} {r : Arrival}
    (h : tcpSegmentsArrives rand cb hdr len = .ok r) : Announced cb hdr len r := by
  unfold tcpSegmentsArrives at h
  change (match cb.state with
    | .closed => Except.ok (closedArrives rand (withWindow cb hdr) hdr len)
    | .listen => .ok (listenArrives rand (withWindow cb hdr) hdr)
    | .synSent => synSentArrives (withWindow cb hdr) hdr
    | _ => .ok (synchronizedArrives (withWindow cb hdr) hdr len)) = .ok r at h
  cases hst : cb.state with
  | closed =>
    simp only [hst, Except.ok.injEq] at h
    have hl := announced_listen rand cb hdr len
    rw [← h, closedArrives]
    exact ⟨hl.established, hl.closed, hl.timeWait⟩
  | listen =>
    simp only [hst, Except.ok.injEq] at h
    exact h ▸ announced_listen rand cb hdr len
  | synSent =>
    simp only [hst] at h
    exact announced_synSent hst h
  | _ =>
    simp only [hst, Except.ok.injEq] at h
    exact h ▸ announced_synchronized (by simp [hst, TcpState.synchronized])

/-- In `SYN_RCVD`, and in `ESTABLISHED` if the segment acknowledges nothing that was not
    sent, the check goes on to the text in one of these two states. -/
theorem ackField_goes_on {cb : TcpCb} {hdr : TcpHdr}
    (h : cb.state = .synRcvd ∨ cb.state = .established ∧ hdr.ack ≤ cb.snd.nxt) :
    ∃ cb' signals ws, ackField cb hdr = .goOn cb' signals ws ∧
      (cb'.state = .synRcvd ∨ cb'.state = .established) := by
  unfold ackField
  rcases h with hst | ⟨hst, hle⟩
  · by_cases hack : cb.snd.una ≤ hdr.ack ∧ hdr.ack ≤ cb.snd.nxt
    · have hlt : ¬ cb.snd.nxt < hdr.ack := UInt32.not_lt.mpr hack.2
      simp only [hst, hack, and_self, if_true, ackEstablished_eq, if_neg hlt]
      exact ⟨_, _, _, rfl, .inr (by simp)⟩
    · simp only [hst, if_neg hack]
      exact ⟨_, _, _, rfl, .inl hst⟩
  · have hlt : ¬ cb.snd.nxt < hdr.ack := UInt32.not_lt.mpr hle
    simp only [hst, ackEstablished_eq, if_neg hlt]
    exact ⟨_, _, _, rfl, .inr (by simp [hst])⟩

/-- A segment that wakes readers does so: by its text with PSH, or by its FIN. -/
theorem wakes_reader {rand : UInt32} {cb : TcpCb} {hdr : TcpHdr} {len : UInt32} {r : Arrival}
    (h : tcpSegmentsArrives rand cb hdr len = .ok r) (hw : WakesReader cb hdr len) :
    r.queued = some true ∨ .rxq ∈ r.wakeups := by
  -- either way the segment is dealt with in a synchronized state
  have hreach : ReachesAck cb hdr len := by
    rcases hw with ⟨ht, -⟩ | ⟨hr, -⟩
    · refine ⟨?_, ht.inWindow, ht.noRst, ht.noSyn, ht.isAck⟩
      have := ht.state
      cases hst : cb.state <;> simp_all [TcpState.takesText, TcpState.synchronized]
    · exact hr
  have hr : r = synchronizedArrives (withWindow cb hdr) hdr len := by
    have hsync := hreach.synchronized
    unfold tcpSegmentsArrives at h
    cases hst : cb.state <;> simp_all [TcpState.synchronized, withWindow]
  have hgoes : ∀ cb' signals ws, ackField (withWindow cb hdr) hdr = .goOn cb' signals ws →
      r = finBit (segmentText ⟨cb', signals, none, ws⟩ hdr len) hdr := by
    intro cb' signals ws hf
    rw [hr, synchronizedArrives, hreach.inWindow, hreach.noRst, hreach.noSyn, hreach.isAck]
    simp [hf]
  rcases hw with ⟨ht, hpsh⟩ | ⟨-, hfin, hst⟩
  · left
    have hsome := (queued_iff h).mpr ht
    cases hf : ackField (withWindow cb hdr) hdr with
    | stop r' =>
      have : r = r' := by
        rw [hr, synchronizedArrives, hreach.inWindow, hreach.noRst, hreach.noSyn, hreach.isAck]
        simp [hf]
      rw [this, ackField_stop hf] at hsome
      cases hsome
    | goOn cb' signals ws =>
      rw [hgoes _ _ _ hf, (finBit_spec _ hdr).1, (segmentText_spec _ hdr len rfl).1] at hsome ⊢
      split at hsome
      · rw [if_pos ‹_›, hpsh]
      · cases hsome
  · right
    have hst : (withWindow cb hdr).state = .synRcvd ∨
        (withWindow cb hdr).state = .established ∧ hdr.ack ≤ (withWindow cb hdr).snd.nxt := hst
    obtain ⟨cb', signals, ws, hf, hst'⟩ := ackField_goes_on hst
    rw [hgoes _ _ _ hf, (finBit_spec _ hdr).2.2, if_pos hfin, (segmentText_spec _ hdr len rfl).2.1]
    rcases hst' with hst' | hst' <;> simp [hst', finWakeups]

end Xv6.Kernel.Tcp
