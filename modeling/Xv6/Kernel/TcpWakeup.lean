import Mathlib
import Xv6.Lib.TransitionSystem
import Xv6.Kernel.Tcp
import Xv6.Kernel.TcpArrival

/-!
# Wakeups of a TCP Connection

The processes that connect, accept, close and read on one socket, with the segments
that arrive for it. Each section under `tcplock` is one step, and `sleep` ends a step:
a sleeping process goes on in a later step, after a wakeup on its channel.

A process connects, accepts or closes asleep on the control block, and reads asleep on
the receive queue. The code wakes them when a connection is established or finished and
when text with PSH or the peer's first FIN arrives. It does not when a connection is
reset, when text without PSH arrives, or, for the readers, when it finishes.

- `arrives_answered`: a segment that the code answers with its wakeups leaves nobody
  asleep for nothing;
- `tcp_no_lost_wakeup`: in runs whose steps are all answered, nobody ever is.
-/

namespace Xv6.Kernel.TcpWakeup

open Xv6.Lib Tcp

/-! ## The system -/

/-- The call a process is in -/
inductive Call where
  | connect
  | accept
  | close
  | receive (copyout : ℕ → Option ℕ) (n : ℕ)

/-- The channel the call sleeps on -/
def Call.chan : Call → Chan
  | .connect | .accept | .close => .cb
  | .receive _ _ => .rxq

/-- A process in one of the calls: asleep, or woken and about to go on behind its
    `sleep`. -/
structure Task where
  call : Call
  asleep : Bool

/-- A socket and the processes that use it -/
structure State where
  si : Sock
  task : ℕ → Option Task
  killed : ℕ → Bool

inductive Act where
  /-- Process `t` calls `tcp_init_client`; `rand` is the initial send sequence number. -/
  | connect (t : ℕ) (rand : UInt32)
  /-- `tcp_api_accept` -/
  | accept (t : ℕ)
  /-- `tcp_api_close` -/
  | close (t : ℕ)
  /-- `tcp_api_receive` -/
  | receive (t : ℕ) (copyout : ℕ → Option ℕ) (n : ℕ)
  /-- Process `t`, woken, goes on behind its `sleep`. -/
  | resume (t : ℕ)
  /-- `kill` of process `t` -/
  | kill (t : ℕ)
  /-- A segment with the bytes `body` arrives. -/
  | segment (rand : UInt32) (hdr : TcpHdr) (body : Mbuf)

namespace State

def setTask (s : State) (t : ℕ) (x : Option Task) : State :=
  { s with task := Function.update s.task t x }

/-- `wakeup` on the channels `chans` -/
def wake (s : State) (chans : List Chan) : State :=
  { s with
    task := fun t => (s.task t).map fun x =>
      if x.call.chan ∈ chans then { x with asleep := false } else x }

/-- Process `t` calls `sleep` in `call`. -/
def sleep (s : State) (t : ℕ) (call : Call) : State := s.setTask t (some ⟨call, true⟩)

/-- Process `t` returns from its call. -/
def leave (s : State) (t : ℕ) : State := s.setTask t none

/-- The loop of `tcp_init_client` -/
def connectLoop (s : State) (t : ℕ) : State :=
  if s.si.tcpcb.state = .synSent ∧ s.killed t = false then s.sleep t .connect else s.leave t

/-- The loop of `tcp_api_accept` -/
def acceptLoop (s : State) (t : ℕ) : State :=
  if s.si.tcpcb.state = .listen ∧ s.killed t = false then s.sleep t .accept else s.leave t

/-- `tcp_api_receive`, from its start or from behind its `sleep` -/
def receiveFrom (s : State) (t : ℕ) (slept : Bool) (copyout : ℕ → Option ℕ) (n : ℕ) : State :=
  match tcpApiReceive s.si slept (s.killed t) copyout n with
  | none => s.sleep t (.receive copyout n)
  | some r => { s with si := r.si }.leave t

end State

/-- The control block that `tcp_init_client` sets up; `sizeof(cb->window)` is 2048. -/
def initClient (cb : TcpCb) (rand : UInt32) : TcpCb :=
  { cb with
    rcv := { cb.rcv with wnd := 2048 }
    iss := rand
    snd := ⟨rand + 1, rand⟩
    state := .synSent }

/-- The state that `tcp_api_close` enters, if it sends a FIN -/
def closeState : TcpState → Option TcpState
  | .synRcvd | .established => some .finWait1
  | .closeWait => some .lastAck
  | _ => none

/-- One section under `tcplock`. A process starts a call only when it is in none. -/
def step (s : State) : Act → Option State
  | .connect t rand =>
    if (s.task t).isSome then none
    else some ({ s with si := { s.si with tcpcb := initClient s.si.tcpcb rand } }.connectLoop t)
  | .accept t =>
    if (s.task t).isSome then none
    else if s.si.tcpcb.state = .listen then some (s.acceptLoop t) else some s
  | .close t =>
    if (s.task t).isSome then none
    else
      match closeState s.si.tcpcb.state with
      | none => some s
      | some st =>
        let cb : TcpCb := { s.si.tcpcb with state := st }
        let cb : TcpCb := { cb with snd := { cb.snd with nxt := cb.snd.nxt + 1 } }
        some ({ s with si := { s.si with tcpcb := cb } }.sleep t .close)
  | .receive t copyout n =>
    if (s.task t).isSome then none else some (s.receiveFrom t false copyout n)
  | .resume t =>
    match s.task t with
    | some ⟨call, false⟩ =>
      match call with
      | .connect => some (s.connectLoop t)
      | .accept => some (s.acceptLoop t)
      | .close => some (s.leave t)
      | .receive copyout n => some (s.receiveFrom t true copyout n)
    | _ => none
  | .kill t =>
    some { s with
      killed := Function.update s.killed t true
      task := Function.update s.task t ((s.task t).map fun x => { x with asleep := false }) }
  | .segment rand hdr body =>
    match s.si.arrives rand hdr body with
    | .error _ => none
    | .ok (si, r) => some ({ s with si := si }.wake r.wakeups)

/-- A socket that nobody uses yet, with an empty queue -/
structure Init (s : State) : Prop where
  idle : ∀ t, s.task t = none
  rxq : s.si.rxq = []

/-- A socket, its processes and its segments -/
def system : System State Act where
  init := Init
  step := step

/-! ## Lost wakeups -/

/-- Some process sleeps on `chan`. -/
def State.Asleep (s : State) (chan : Chan) : Prop :=
  ∃ t call, s.task t = some ⟨call, true⟩ ∧ call.chan = chan

/-- Nobody is asleep for nothing: on the control block of a connection that is
    established, refused, reset or finished, on a queue with text, or on the queue of a
    connection that is reset or finished. -/
structure NoLostWakeup (s : State) : Prop where
  cb : s.si.tcpcb.state = .established ∨ s.si.tcpcb.state = .closed ∨
    s.si.tcpcb.state = .timeWait → ¬ s.Asleep .cb
  text : s.si.rxq ≠ [] → ¬ s.Asleep .rxq
  ended : s.si.tcpcb.state = .closed ∨ s.si.tcpcb.state = .timeWait → ¬ s.Asleep .rxq

/-- The process goes to sleep on the empty queue of a connection that has ended. -/
def ReadsEnded (s : State) (t : ℕ) : Prop :=
  (s.si.tcpcb.state = .closed ∨ s.si.tcpcb.state = .timeWait) ∧ s.si.rxq = [] ∧
    s.killed t = false

/-- The code wakes whom it has to: nobody sleeps when a segment resets the connection, and
    no reader when a segment finishes it or brings text, unless that segment wakes readers;
    nobody reads on from the empty queue of a connection that has ended. -/
def Answered (s : State) : Act → Prop
  | .segment _ hdr body =>
    let len := UInt32.ofNat body.length
    (Resets s.si.tcpcb hdr len → ¬ s.Asleep .cb ∧ ¬ s.Asleep .rxq) ∧
      (TextTaken s.si.tcpcb hdr len ∨ Finishes s.si.tcpcb hdr len →
        ¬ s.Asleep .rxq ∨ WakesReader s.si.tcpcb hdr len)
  | .receive t _ _ => ¬ ReadsEnded s t
  | .resume t => (∃ copyout n, s.task t = some ⟨.receive copyout n, false⟩) → ¬ ReadsEnded s t
  | _ => True

/-! ## Who sleeps after a step -/

namespace State

@[simp] theorem setTask_si (s : State) (t : ℕ) (x : Option Task) : (s.setTask t x).si = s.si := rfl

theorem setTask_task_self (s : State) (t : ℕ) (x : Option Task) : (s.setTask t x).task t = x :=
  Function.update_self ..

theorem setTask_task_ne {s : State} {t u : ℕ} {x : Option Task} (h : u ≠ t) :
    (s.setTask t x).task u = s.task u := Function.update_of_ne h ..

@[simp] theorem wake_si (s : State) (chans : List Chan) : (s.wake chans).si = s.si := rfl

theorem asleep_of_setTask {s : State} {t : ℕ} {x : Option Task} {chan : Chan}
    (h : (s.setTask t x).Asleep chan) :
    s.Asleep chan ∨ ∃ call, x = some ⟨call, true⟩ ∧ call.chan = chan := by
  obtain ⟨u, call, hu, hc⟩ := h
  by_cases hut : u = t
  · subst hut
    rw [setTask_task_self] at hu
    exact .inr ⟨call, hu, hc⟩
  · rw [setTask_task_ne hut] at hu
    exact .inl ⟨u, call, hu, hc⟩

theorem asleep_of_leave {s : State} {t : ℕ} {chan : Chan} (h : (s.leave t).Asleep chan) :
    s.Asleep chan := by
  rcases asleep_of_setTask h with h | ⟨call, h, -⟩
  · exact h
  · cases h

theorem asleep_of_sleep {s : State} {t : ℕ} {call : Call} {chan : Chan}
    (h : (s.sleep t call).Asleep chan) : s.Asleep chan ∨ chan = call.chan := by
  rcases asleep_of_setTask h with h | ⟨call', h, hc⟩
  · exact .inl h
  · cases h
    exact .inr hc.symm

/-- Those that still sleep after a wakeup slept before, on another channel. -/
theorem asleep_of_wake {s : State} {chans : List Chan} {chan : Chan}
    (h : (s.wake chans).Asleep chan) : s.Asleep chan ∧ chan ∉ chans := by
  obtain ⟨u, call, hu, hc⟩ := h
  simp only [wake, Option.map_eq_some_iff] at hu
  obtain ⟨x, hx, hxu⟩ := hu
  split at hxu
  · cases hxu
  · rename_i hmem
    subst hxu
    exact ⟨⟨u, call, hx, hc⟩, hc ▸ hmem⟩

end State

/-! ## Reading -/

theorem receiveLoop_state (copyout : ℕ → Option ℕ) (cb : TcpCb) (i : ℕ) (rxq : List Mbuf)
    (n len : ℕ) : (receiveLoop copyout cb i rxq n len).si.tcpcb.state = cb.state := by
  induction rxq generalizing cb i n len with
  | nil => rfl
  | cons m rxq ih =>
    unfold receiveLoop
    dsimp only
    split
    · rfl
    · split_ifs
      all_goals
        first
        | rfl
        | exact ih _ _ _ _

/-- A read leaves the state of the connection alone, and an empty queue empty. -/
theorem tcpApiReceive_some {si : Sock} {slept killed : Bool} {copyout : ℕ → Option ℕ} {n : ℕ}
    {r : Received} (h : tcpApiReceive si slept killed copyout n = some r) :
    r.si.tcpcb.state = si.tcpcb.state ∧ (si.rxq = [] → r.si.rxq = []) := by
  unfold tcpApiReceive at h
  split_ifs at h with hwait hkilled hempty
  · cases h
    exact ⟨rfl, id⟩
  · cases h
    exact ⟨rfl, id⟩
  · cases h
    exact ⟨receiveLoop_state _ _ _ _ _ _, fun hnil => absurd (by simp [hnil]) hempty⟩

/-- A read goes to sleep only on an empty queue, and only if the process is not killed. -/
theorem tcpApiReceive_none {si : Sock} {slept killed : Bool} {copyout : ℕ → Option ℕ} {n : ℕ}
    (h : tcpApiReceive si slept killed copyout n = none) : si.rxq = [] ∧ killed = false := by
  unfold tcpApiReceive at h
  split_ifs at h with hwait hkilled hempty
  exact ⟨List.isEmpty_iff.mp hempty, by simpa using hkilled⟩

namespace NoLostWakeup

theorem leave {s : State} (h : NoLostWakeup s) (t : ℕ) : NoLostWakeup (s.leave t) :=
  ⟨fun hst hs => h.cb hst (State.asleep_of_leave hs),
    fun hq hs => h.text hq (State.asleep_of_leave hs),
    fun hst hs => h.ended hst (State.asleep_of_leave hs)⟩

/-- Going to sleep on the control block is safe in the states that the loops wait in. -/
theorem sleep_cb {s : State} (h : NoLostWakeup s) (t : ℕ) {call : Call} (hc : call.chan = .cb)
    (hst : ¬ (s.si.tcpcb.state = .established ∨ s.si.tcpcb.state = .closed ∨
      s.si.tcpcb.state = .timeWait)) : NoLostWakeup (s.sleep t call) := by
  have hrxq : (s.sleep t call).Asleep .rxq → s.Asleep .rxq := by
    intro hs
    rcases State.asleep_of_sleep hs with hs | hs
    · exact hs
    · rw [hc] at hs
      cases hs
  exact ⟨fun hst' => absurd hst' hst, fun hq hs => h.text hq (hrxq hs),
    fun hst' hs => h.ended hst' (hrxq hs)⟩

theorem receiveFrom {s : State} (h : NoLostWakeup s) (t : ℕ) (slept : Bool)
    (copyout : ℕ → Option ℕ) (n : ℕ) (hread : ¬ ReadsEnded s t) :
    NoLostWakeup (s.receiveFrom t slept copyout n) := by
  unfold State.receiveFrom
  cases hr : tcpApiReceive s.si slept (s.killed t) copyout n with
  | none =>
    obtain ⟨hq, hk⟩ := tcpApiReceive_none hr
    refine ⟨fun hst hs => ?_, fun hq' => absurd hq hq', fun hst => absurd ⟨hst, hq, hk⟩ hread⟩
    rcases State.asleep_of_sleep hs with hs | hs
    · exact h.cb hst hs
    · cases hs
  | some r =>
    obtain ⟨hst, hq⟩ := tcpApiReceive_some hr
    have h' : NoLostWakeup { s with si := r.si } :=
      ⟨fun hst' => h.cb (hst ▸ hst'), fun hq' => h.text fun hnil => hq' (hq hnil),
        fun hst' => h.ended (hst ▸ hst')⟩
    exact h'.leave t

end NoLostWakeup

/-! ## Segments -/

/-- What `Sock.arrives` adds to `tcp_segments_arrives`: the queue, and the wakeup of
    `sockrecvtcp`. -/
theorem arrives_spec {si si' : Sock} {rand : UInt32} {hdr : TcpHdr} {body : Mbuf} {r : Arrival}
    (h : si.arrives rand hdr body = .ok (si', r)) :
    ∃ r₀, tcpSegmentsArrives rand si.tcpcb hdr (UInt32.ofNat body.length) = .ok r₀ ∧
      si'.tcpcb = r₀.cb ∧ (∀ c, c ∈ r₀.wakeups → c ∈ r.wakeups) ∧
      (si'.rxq = si.rxq ∨ r₀.queued.isSome = true) ∧
      (r₀.queued = some true → .rxq ∈ r.wakeups) := by
  unfold Sock.arrives at h
  split at h
  · cases h
  · rename_i r₀ hr₀
    refine ⟨r₀, hr₀, ?_⟩
    split at h
    · rename_i hq
      cases h
      exact ⟨rfl, fun _ => id, .inl rfl, fun ht => by simp [hq] at ht⟩
    · rename_i ispush hq
      cases h
      refine ⟨rfl, fun c hc => ?_, .inr (by simp [hq]), fun ht => ?_⟩
      · split
        · exact List.mem_cons_of_mem _ hc
        · exact hc
      · have : ispush = true := by simpa [hq] using ht
        simp [this]

/-- **A segment that is answered leaves nobody asleep for nothing.** -/
theorem arrives_answered {s : State} {rand : UInt32} {hdr : TcpHdr} {body : Mbuf} {si : Sock}
    {r : Arrival} (h : NoLostWakeup s) (ha : Answered s (.segment rand hdr body))
    (hr : s.si.arrives rand hdr body = .ok (si, r)) :
    NoLostWakeup ({ s with si := si }.wake r.wakeups) := by
  obtain ⟨r₀, hr₀, hcb, hws, hq, hpush⟩ := arrives_spec hr
  obtain ⟨hreset, hreader⟩ := ha
  have hann := announced hr₀
  -- whoever still sleeps slept before, on a channel that the segment did not wake
  have hasleep : ∀ {chan}, ({ s with si := si }.wake r.wakeups).Asleep chan →
      s.Asleep chan ∧ chan ∉ r.wakeups := fun hs => State.asleep_of_wake hs
  have hwakes : WakesReader s.si.tcpcb hdr (UInt32.ofNat body.length) → .rxq ∈ r.wakeups := by
    intro hw
    rcases wakes_reader hr₀ hw with hw | hw
    · exact hpush hw
    · exact hws _ hw
  have hended : TextTaken s.si.tcpcb hdr (UInt32.ofNat body.length) ∨
      Finishes s.si.tcpcb hdr (UInt32.ofNat body.length) →
      ¬ ({ s with si := si }.wake r.wakeups).Asleep .rxq := by
    intro hcase hs
    obtain ⟨hs, hno⟩ := hasleep hs
    rcases hreader hcase with hr | hw
    · exact hr hs
    · exact hno (hwakes hw)
  refine ⟨fun hst hs => ?_, fun hne hs => ?_, fun hst hs => ?_⟩
  · obtain ⟨hs', hno⟩ := hasleep hs
    simp only [State.wake_si, hcb] at hst
    rcases hst with hst | hst | hst
    · rcases hann.established hst with hold | hw
      · exact h.cb (.inl hold) hs'
      · exact hno (hws _ hw)
    · rcases hann.closed hst with hold | hres | ⟨-, hw⟩
      · exact h.cb (.inr (.inl hold)) hs'
      · exact (hreset hres).1 hs'
      · exact hno (hws _ hw)
    · rcases hann.timeWait hst with hold | ⟨-, hw⟩
      · exact h.cb (.inr (.inr hold)) hs'
      · exact hno (hws _ hw)
  · rcases hq with hq | hq
    · have hne : s.si.rxq ≠ [] := by
        rw [← hq]
        exact hne
      exact h.text hne (hasleep hs).1
    · exact hended (.inl ((queued_iff hr₀).mp hq)) hs
  · simp only [State.wake_si, hcb] at hst
    rcases hst with hst | hst
    · rcases hann.closed hst with hold | hres | ⟨hfin, -⟩
      · exact h.ended (.inl hold) (hasleep hs).1
      · exact (hreset hres).2 (hasleep hs).1
      · exact hended (.inr hfin) hs
    · rcases hann.timeWait hst with hold | ⟨hfin, -⟩
      · exact h.ended (.inr hold) (hasleep hs).1
      · exact hended (.inr hfin) hs

/-! ## Every step -/

theorem noLostWakeup_init {s : State} (h : Init s) : NoLostWakeup s := by
  have hno : ∀ chan, ¬ s.Asleep chan := by
    rintro chan ⟨t, call, ht, -⟩
    rw [h.idle t] at ht
    cases ht
  exact ⟨fun _ => hno _, fun _ => hno _, fun _ => hno _⟩

theorem noLostWakeup_connectLoop {s : State} (t : ℕ) (h : NoLostWakeup s) :
    NoLostWakeup (s.connectLoop t) := by
  unfold State.connectLoop
  split
  · rename_i hst
    exact h.sleep_cb t rfl (by simp [hst.1])
  · exact h.leave t

theorem noLostWakeup_acceptLoop {s : State} (t : ℕ) (h : NoLostWakeup s) :
    NoLostWakeup (s.acceptLoop t) := by
  unfold State.acceptLoop
  split
  · rename_i hst
    exact h.sleep_cb t rfl (by simp [hst.1])
  · exact h.leave t

/-- A change of the control block to a state in which processes may wait on it. -/
theorem NoLostWakeup.setTcpcb {s : State} (h : NoLostWakeup s) {cb : TcpCb}
    (hst : ¬ (cb.state = .established ∨ cb.state = .closed ∨ cb.state = .timeWait)) :
    NoLostWakeup { s with si := { s.si with tcpcb := cb } } :=
  ⟨fun hst' => absurd hst' hst, h.text, fun hst' => absurd (.inr hst') hst⟩

theorem noLostWakeup_step {s s' : State} {a : Act} (h : NoLostWakeup s) (ha : Answered s a)
    (hs : step s a = some s') : NoLostWakeup s' := by
  cases a with
  | connect t rand =>
    simp only [step, Option.ite_none_left_eq_some, Option.some.injEq] at hs
    obtain ⟨-, rfl⟩ := hs
    exact noLostWakeup_connectLoop t (h.setTcpcb (by simp [initClient]))
  | accept t =>
    simp only [step, Option.ite_none_left_eq_some] at hs
    obtain ⟨-, hs⟩ := hs
    split at hs
    · cases hs
      exact noLostWakeup_acceptLoop t h
    · cases hs
      exact h
  | close t =>
    simp only [step, Option.ite_none_left_eq_some] at hs
    obtain ⟨-, hs⟩ := hs
    split at hs
    · cases hs
      exact h
    · rename_i st hst
      cases hs
      -- our FIN goes out: `FIN_WAIT1` or `LAST_ACK`
      have hst : ¬ (st = .established ∨ st = .closed ∨ st = .timeWait) := by
        unfold closeState at hst
        split at hst <;> cases hst <;> simp
      exact (h.setTcpcb hst).sleep_cb t rfl hst
  | receive t copyout n =>
    simp only [step, Option.ite_none_left_eq_some, Option.some.injEq] at hs
    obtain ⟨-, rfl⟩ := hs
    exact h.receiveFrom t false copyout n ha
  | resume t =>
    simp only [step] at hs
    split at hs
    · rename_i call htask
      split at hs
      · cases hs
        exact noLostWakeup_connectLoop t h
      · cases hs
        exact noLostWakeup_acceptLoop t h
      · cases hs
        exact h.leave t
      · cases hs
        exact h.receiveFrom t true _ _ (ha ⟨_, _, htask⟩)
    · cases hs
  | kill t =>
    simp only [step, Option.some.injEq] at hs
    subst hs
    have hasleep : ∀ {chan}, ({ s with
        killed := Function.update s.killed t true
        task := Function.update s.task t ((s.task t).map fun x => { x with asleep := false }) } :
        State).Asleep chan → s.Asleep chan := by
      intro chan hs
      rcases State.asleep_of_setTask hs with hs | ⟨call, hx, -⟩
      · exact hs
      · obtain ⟨x, -, hx⟩ := Option.map_eq_some_iff.mp hx
        cases hx
    exact ⟨fun hst hs => h.cb hst (hasleep hs), fun hq hs => h.text hq (hasleep hs),
      fun hst hs => h.ended hst (hasleep hs)⟩
  | segment rand hdr body =>
    simp only [step] at hs
    split at hs
    · cases hs
    · rename_i hr
      cases hs
      exact arrives_answered h ha hr

/-- **In every run whose steps are answered, nobody is ever asleep for nothing**: not on the
    control block of a connection that is established, refused, reset or finished, nor on a
    queue with text or of a connection that has ended. -/
theorem tcp_no_lost_wakeup {s : State} (hs : system.ReachableUnder Answered s) :
    NoLostWakeup s :=
  System.invariant NoLostWakeup (fun _ => noLostWakeup_init)
    (fun _ _ _ h ha hstep => noLostWakeup_step h ha hstep) hs

/-! ## A connection refused and a connection made -/

/-- A socket just allocated for a client -/
def clientSock : State where
  si := ⟨⟨.closed, 0, 0, ⟨0, 0⟩, ⟨0, 0⟩⟩, []⟩
  task := fun _ => none
  killed := fun _ => false

/-- The peer's answer to our SYN: acknowledgment number 1001 and the given flags -/
def synAnswer (flags : UInt8) : TcpHdr := ⟨500, 1001, 0x50, flags, 2048⟩

/-- A test for a thread that sleeps in `tcp_init_client` -/
def connectSleeps (s : State) : Bool :=
  match s.task 0 with
  | some ⟨.connect, true⟩ => true
  | _ => false

/-- The peer refuses the connection, and the process in `tcp_init_client` sleeps on. -/
theorem refused_connect_sleeps :
    ¬ ∀ s, system.Reachable s → NoLostWakeup s := by
  intro hall
  have hinit : system.init clientSock := ⟨fun _ => rfl, rfl⟩
  have hrun : (system.run clientSock [.connect 0 1000,
      .segment 0 (synAnswer (TCP_FLG_RST ||| TCP_FLG_ACK)) []]).any (fun s =>
        decide (s.si.tcpcb.state = .closed) && connectSleeps s) = true := by decide +kernel
  obtain ⟨s, hs, hp⟩ := System.exists_reachable_of_run hinit hrun
  simp only [Bool.and_eq_true, decide_eq_true_eq] at hp
  obtain ⟨hst, htask⟩ := hp
  unfold connectSleeps at htask
  split at htask
  · rename_i hsleep
    exact (hall s hs).cb (.inr (.inl hst)) ⟨0, .connect, hsleep, rfl⟩
  · cases htask

/-- The client, asleep in `tcp_init_client` after its SYN -/
def synSentSock : State :=
  { clientSock with
    si := { clientSock.si with tcpcb := initClient clientSock.si.tcpcb 1000 } }.sleep 0 .connect

/-- The peer accepts it. -/
theorem accepted_connect_wakes :
    ∃ s, system.ReachableUnder Answered s ∧ s.si.tcpcb.state = .established ∧ NoLostWakeup s := by
  have hinit : system.init clientSock := ⟨fun _ => rfl, rfl⟩
  have hcall : Answered clientSock (.connect 0 1000) := trivial
  have h₁ : system.ReachableUnder Answered synSentSock := .step (.init hinit) hcall rfl
  have hanswer : Answered synSentSock
      (.segment 0 (synAnswer (TCP_FLG_SYN ||| TCP_FLG_ACK)) []) := by
    refine ⟨fun hres => ?_, fun hend => ?_⟩
    · rcases hres with ⟨-, hrst, -⟩ | ⟨hsync, -⟩
      · exact absurd hrst (by decide)
      · exact absurd hsync (by decide)
    · rcases hend with ht | ⟨hr, -⟩
      · exact absurd ht.state (by decide)
      · exact absurd hr.synchronized (by decide)
  obtain ⟨s₂, hs₂, hst⟩ : ∃ s₂, step synSentSock
      (.segment 0 (synAnswer (TCP_FLG_SYN ||| TCP_FLG_ACK)) []) = some s₂ ∧
      s₂.si.tcpcb.state = .established := ⟨_, rfl, rfl⟩
  exact ⟨s₂, .step h₁ hanswer hs₂, hst, tcp_no_lost_wakeup (.step h₁ hanswer hs₂)⟩

end Xv6.Kernel.TcpWakeup
