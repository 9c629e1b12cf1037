import Mathlib
import Xv6.Lib.TransitionSystem
import Xv6.Kernel.Mbufq
import Xv6.Kernel.Tcp
import Xv6.Kernel.TcpArrival
import Xv6.Kernel.TcpWakeup

/-!
# The End of a TCP Stream

`tcp_api_receive` on the queue as the code has it, with the pointers of its buffers, next to the
segments that fill it. A reader that has slept does not look at the queue if the connection is in
`CLOSE_WAIT`: it returns 0, which says that there is no more data.

- `receiveLoop_refines`: the loop on the pointers does what the one on the list does;
- `inv_step`: the queue stays well formed, and `CLOSE_WAIT` means that a FIN has been taken;
- `eof_iff`: when a call returns what it has to.
-/

namespace Xv6.Kernel.TcpEof

open Xv6.Lib Tcp

/-! ## The queue in memory -/

/-- The receive queue and the memory of packet buffers -/
structure Rxq where
  q : Mbufq
  next : ℕ → Option ℕ
  /-- The bytes from `m->head` on -/
  data : ℕ → Mbuf
  /-- The buffers that are allocated -/
  used : ℕ → Bool

namespace Rxq

/-- `mbufq_pushtail(&si->rxq, m)` -/
def push (x : Rxq) (m : ℕ) : Rxq :=
  { x with q := (x.q.pushtail x.next m).1, next := (x.q.pushtail x.next m).2 }

/-- `mbuffree(m)`: `kfree` fills the page with bytes 1. -/
def free (x : Rxq) (m : ℕ) : Rxq :=
  { x with used := Function.update x.used m false, next := Function.update x.next m (some 0x0101010101010101) }

/-- The buffers of the queue -/
structure Holds (x : Rxq) (ms : List ℕ) : Prop where
  queue : x.q.Holds x.next ms
  used : ∀ m ∈ ms, x.used m = true

/-- The texts of these buffers -/
def texts (x : Rxq) (ms : List ℕ) : List Mbuf := ms.map x.data

end Rxq

/-- What a call of `tcp_api_receive` does: the bytes that are copied out, the socket afterwards and
    the value returned, `none` for -1 -/
structure Received where
  bytes : List UInt8
  cb : TcpCb
  rxq : Rxq
  ret : Option ℕ

/-- The loop of `tcp_api_receive`, in which `len` bytes have been copied; `none` if `fuel` is not
    enough. The `i`-th `copyout` fails after `k` bytes if `copyout i = some k`. -/
def receiveLoop (copyout : ℕ → Option ℕ) : ℕ → ℕ → TcpCb → Rxq → ℕ → ℕ → Option Received
  | 0, _, _, _, _, _ => none
  | fuel + 1, i, cb, x, n, len =>
    match x.q.pophead x.next with
    | (_, none) => none
    | (q, some m) =>
      let text := x.data m
      let recvSz := if n > text.length then text.length else n
      match copyout i with
      | some k => some ⟨text.take (min k recvSz), cb, { x with q := q }.free m, none⟩
      | none =>
        let cb : TcpCb :=
          { cb with rcv := { cb.rcv with wnd := cb.rcv.wnd + UInt16.ofNat recvSz } }
        let x : Rxq :=
          if n < text.length then
            { x with
              q := { q with head := some m }
              next := Function.update x.next m q.head
              data := Function.update x.data m (text.drop n) }
          else { x with q := q }.free m
        if n - recvSz = 0 ∨ x.q.empty = true then
          some ⟨text.take recvSz, cb, x, some (len + recvSz)⟩
        else
          (receiveLoop copyout fuel (i + 1) cb x (n - recvSz) (len + recvSz)).map fun r =>
            { r with bytes := text.take recvSz ++ r.bytes }

/-- `tcp_api_receive(si, addr, n, pr)` from its start, or from the return of its `sleep` if `slept`;
    `some none` if the process goes to sleep. -/
def tcpApiReceive (cb : TcpCb) (x : Rxq) (slept killed : Bool) (copyout : ℕ → Option ℕ) (n fuel : ℕ) :
    Option (Option Received) :=
  if (slept || x.q.empty) && cb.state == .closeWait then some (some ⟨[], cb, x, some 0⟩)
  else if killed then some (some ⟨[], cb, x, none⟩)
  else if x.q.empty then some none
  else (receiveLoop copyout fuel 0 cb x n 0).map some

/-! ## The queue and the list -/

section Refinement

variable {x : Rxq} {m : ℕ} {ms : List ℕ} {copyout : ℕ → Option ℕ} {fuel i n len : ℕ} {cb : TcpCb}
  {r : Received}

/-- The buffer that a segment comes in is not in the queue. -/
theorem Rxq.Holds.push (h : x.Holds ms) (hm : x.used m = false) (body : Mbuf) :
    ({ x with used := Function.update x.used m true, data := Function.update x.data m body }.push m).Holds
      (ms ++ [m]) := by
  have hmem : m ∉ ms := fun hmem => by
    rw [h.used m hmem] at hm
    cases hm
  have hne : ∀ a ∈ ms, a ≠ m := fun a ha heq => hmem (heq ▸ ha)
  refine ⟨Mbufq.holds_pushtail h.queue hmem, fun a ha => ?_⟩
  show Function.update x.used m true a = true
  rcases List.mem_append.mp ha with ha | ha
  · rw [Function.update_of_ne (hne a ha)]
    exact h.used a ha
  · rw [List.mem_singleton.mp ha]
    exact Function.update_self ..

/-- Popping and freeing the first buffer -/
theorem Rxq.Holds.free (h : x.Holds (m :: ms)) :
    ({ x with q := (x.q.pophead x.next).1 }.free m).Holds ms := by
  obtain ⟨-, hpop, -⟩ := Mbufq.holds_pophead h.queue
  have hm : m ∉ ms := (List.nodup_cons.mp h.queue.nodup).1
  have hne : ∀ a ∈ ms, a ≠ m := fun a ha heq => hm (heq ▸ ha)
  refine ⟨hpop.congr fun a ha => Function.update_of_ne (hne a ha) .., fun a ha => ?_⟩
  show Function.update x.used m false a = true
  rw [Function.update_of_ne (hne a ha)]
  exact h.used a (List.mem_cons_of_mem _ ha)

/-- Popping the first buffer and linking it in front again, with less text -/
theorem Rxq.Holds.putBack (h : x.Holds (m :: ms)) (text : Mbuf) :
    Rxq.Holds { x with
      q := { (x.q.pophead x.next).1 with head := some m }
      next := Function.update x.next m (x.q.pophead x.next).1.head
      data := Function.update x.data m text } (m :: ms) :=
  ⟨Mbufq.holds_putBack h.queue, h.used⟩

/-- The texts behind a buffer are not the ones that are changed. -/
theorem texts_update (hm : m ∉ ms) (text : Mbuf) :
    Rxq.texts { x with data := Function.update x.data m text } ms = x.texts ms := by
  have hne : ∀ a ∈ ms, a ≠ m := fun a ha heq => hm (heq ▸ ha)
  exact List.map_congr_left fun a ha => Function.update_of_ne (hne a ha) ..

/-- **The loop on the pointers** copies and returns what the one on the list does, and leaves a queue
    with the same texts. -/
theorem receiveLoop_refines (h : x.Holds ms) (hr : receiveLoop copyout fuel i cb x n len = some r) :
    r.bytes = (Tcp.receiveLoop copyout cb i (x.texts ms) n len).bytes ∧
    r.cb = (Tcp.receiveLoop copyout cb i (x.texts ms) n len).si.tcpcb ∧
    r.ret = (Tcp.receiveLoop copyout cb i (x.texts ms) n len).ret ∧
    ∃ ms', r.rxq.Holds ms' ∧
      r.rxq.texts ms' = (Tcp.receiveLoop copyout cb i (x.texts ms) n len).si.rxq := by
  -- by induction on the buffers: one turn takes one of them
  induction ms generalizing fuel i cb x n len r with
  | nil =>
    have hhead := h.queue.chain.head_eq
    cases fuel with
    | zero => cases hr
    | succ fuel =>
      rw [receiveLoop, Mbufq.pophead, hhead] at hr
      cases hr
  | cons m ms ih =>
    cases fuel with
    | zero => cases hr
    | succ fuel =>
      have hm : m ∉ ms := (List.nodup_cons.mp h.queue.nodup).1
      have hpop : x.q.pophead x.next = ((x.q.pophead x.next).1, some m) :=
        Prod.ext rfl (Mbufq.holds_pophead h.queue).1
      have htexts : x.texts (m :: ms) = x.data m :: x.texts ms := rfl
      rw [receiveLoop, hpop] at hr
      rw [htexts, Tcp.receiveLoop]
      dsimp only at hr ⊢
      cases hc : copyout i with
      | some k =>
        rw [hc] at hr
        cases hr
        exact ⟨rfl, rfl, rfl, ms, h.free, rfl⟩
      | none =>
        rw [hc] at hr
        dsimp only at hr ⊢
        by_cases hlt : n < (x.data m).length
        · -- the rest of the buffer goes back
          have hdone : n - (if n > (x.data m).length then (x.data m).length else n) = 0 := by
            rw [if_neg (by omega), Nat.sub_self]
          rw [if_pos hlt, if_pos (.inl hdone)] at hr
          rw [if_pos hlt]
          cases hr
          refine ⟨rfl, rfl, rfl, m :: ms, h.putBack _, ?_⟩
          exact congrArg₂ List.cons (Function.update_self ..) (texts_update hm _)
        · have hfree := h.free
          have hstop : ({ x with q := (x.q.pophead x.next).1 }.free m).q.empty = true ↔ x.texts ms = [] :=
            hfree.queue.empty_iff.trans (List.map_eq_nil_iff (f := x.data)).symm
          rw [if_neg hlt] at hr ⊢
          generalize (if n > (x.data m).length then (x.data m).length else n) = sz at hr ⊢
          by_cases hend : n - sz = 0 ∨ x.texts ms = []
          · rw [if_pos (hend.imp_right hstop.mpr)] at hr
            cases hr
            rw [if_pos hend]
            exact ⟨rfl, rfl, rfl, ms, hfree, rfl⟩
          · rw [if_neg fun h => hend (h.imp_right hstop.mp)] at hr
            rw [if_neg hend]
            obtain ⟨r', hr', rfl⟩ := Option.map_eq_some_iff.mp hr
            obtain ⟨hbytes, hcb, hret, ms', hholds, htexts'⟩ := ih hfree hr'
            exact ⟨congrArg _ hbytes, hcb, hret, ms', hholds, htexts'⟩

/-- Fuel for each buffer is enough. -/
theorem receiveLoop_isSome (h : x.Holds ms) (hne : ms ≠ []) (hfuel : ms.length ≤ fuel) :
    (receiveLoop copyout fuel i cb x n len).isSome = true := by
  induction ms generalizing fuel i cb x n len with
  | nil => exact absurd rfl hne
  | cons m ms ih =>
    cases fuel with
    | zero => exact absurd hfuel (by simp)
    | succ fuel =>
      have hpop : x.q.pophead x.next = ((x.q.pophead x.next).1, some m) :=
        Prod.ext rfl (Mbufq.holds_pophead h.queue).1
      rw [receiveLoop, hpop]
      dsimp only
      cases hc : copyout i with
      | some k => rfl
      | none =>
        dsimp only
        by_cases hlt : n < (x.data m).length
        · have hdone : n - (if n > (x.data m).length then (x.data m).length else n) = 0 := by
            rw [if_neg (by omega), Nat.sub_self]
          rw [if_pos (.inl hdone)]
          rfl
        · rw [if_neg hlt]
          generalize (if n > (x.data m).length then (x.data m).length else n) = sz
          split
          · rfl
          · next hgo =>
            rw [Option.isSome_map]
            have hne' : ms ≠ [] := fun hnil => hgo (.inr (h.free.queue.empty_iff.mpr hnil))
            exact ih h.free hne' (by simpa using hfuel)

end Refinement

/-! ## What a call returns -/

section Returns

variable {copyout : ℕ → Option ℕ} {i n len : ℕ} {cb : TcpCb} {rxq : List Mbuf}

/-- The number of buffers that are read for `n` bytes, one at least -/
def reached : ℕ → List Mbuf → ℕ
  | _, [] => 0
  | n, m :: rxq => if n ≤ m.length then 1 else 1 + reached (n - m.length) rxq

/-- The loop returns the number of bytes, or -1 if a `copyout` fails. -/
theorem receiveLoop_ret (hne : rxq ≠ []) (hn : 0 < n) (htext : ∀ m ∈ rxq, m ≠ []) :
    (∀ j < reached n rxq, copyout (i + j) = none) ∧
      (∃ k, (Tcp.receiveLoop copyout cb i rxq n len).ret = some (len + k) ∧ 1 ≤ k ∧ k ≤ n) ∨
    (¬ ∀ j < reached n rxq, copyout (i + j) = none) ∧
      (Tcp.receiveLoop copyout cb i rxq n len).ret = none := by
  induction rxq generalizing i n len cb with
  | nil => exact absurd rfl hne
  | cons m rxq ih =>
    obtain ⟨hm, hrest⟩ := List.forall_mem_cons.mp htext
    have hpos : 0 < m.length := List.length_pos_iff.mpr hm
    have hzero : 0 < reached n (m :: rxq) := by
      unfold reached
      split <;> omega
    unfold Tcp.receiveLoop
    dsimp only
    cases hc : copyout i with
    | some k =>
      refine .inr ⟨fun hall => ?_, rfl⟩
      rw [show copyout i = none from hall 0 hzero] at hc
      cases hc
    | none =>
      dsimp only
      by_cases hle : n ≤ m.length
      · -- the buffer has all that is wanted
        have hreached : ∀ j < reached n (m :: rxq), copyout (i + j) = none := by
          intro j hj
          rw [reached, if_pos hle, Nat.lt_one_iff] at hj
          rw [hj]
          exact hc
        have hsz : (if n > m.length then m.length else n) = n := if_neg (by omega)
        rw [hsz]
        refine .inl ⟨hreached, n, ?_, hn, le_rfl⟩
        split_ifs with hlt hend
        · rfl
        · rfl
        · exact absurd (.inl (Nat.sub_self n)) hend
      · have hsz : (if n > m.length then m.length else n) = m.length := if_pos (by omega)
        rw [hsz, if_neg (by omega)]
        by_cases hlast : rxq = []
        · subst hlast
          rw [if_pos (.inr rfl)]
          refine .inl ⟨fun j hj => ?_, m.length, rfl, hpos, by omega⟩
          rw [reached, if_neg hle, reached, Nat.lt_one_iff] at hj
          rw [hj]
          exact hc
        · rw [if_neg (not_or.mpr ⟨by omega, hlast⟩)]
          -- the other buffers, from the next `copyout` on
          have hshift : (∀ j < reached n (m :: rxq), copyout (i + j) = none) ↔
              ∀ j < reached (n - m.length) rxq, copyout (i + 1 + j) = none := by
            rw [reached, if_neg hle]
            constructor
            · intro h j hj
              rw [Nat.add_assoc]
              exact h (1 + j) (by omega)
            · intro h j hj
              cases j with
              | zero => exact hc
              | succ j =>
                rw [show i + (j + 1) = i + 1 + j by omega]
                exact h j (by omega)
          rw [hshift]
          rcases ih hlast (show 0 < n - m.length by omega) hrest with ⟨hall, k, hk, hone, hkn⟩ | hfail
          · exact .inl ⟨hall, m.length + k, by rw [hk, Nat.add_assoc], by omega, by omega⟩
          · exact .inr hfail

theorem receiveLoop_texts (htext : ∀ m ∈ rxq, m ≠ []) :
    ∀ m ∈ (Tcp.receiveLoop copyout cb i rxq n len).si.rxq, m ≠ [] := by
  induction rxq generalizing i n len cb with
  | nil => exact htext
  | cons m rxq ih =>
    obtain ⟨hm, hrest⟩ := List.forall_mem_cons.mp htext
    unfold Tcp.receiveLoop
    dsimp only
    split
    · exact hrest
    · generalize (if n > m.length then m.length else n) = sz
      split_ifs with hlt
      · refine List.forall_mem_cons.mpr ⟨?_, hrest⟩
        rw [Ne, List.drop_eq_nil_iff]
        omega
      · exact hrest
      · exact ih hrest

end Returns

/-! ## The system -/

/-- A process in `tcp_api_receive`: asleep, or woken and about to go on behind its `sleep` -/
structure Reader where
  copyout : ℕ → Option ℕ
  n : ℕ
  asleep : Bool

/-- A connected socket and the processes that read from it. -/
structure State where
  tcpcb : TcpCb
  rxq : Rxq
  reader : ℕ → Option Reader
  killed : ℕ → Bool
  /-- A FIN of the peer has been taken. -/
  fin : Prop

inductive Act where
  /-- A segment arrives in the buffer `m` that has just been allocated. -/
  | segment (rand : UInt32) (hdr : TcpHdr) (m : ℕ) (body : Mbuf)
  /-- Process `t` calls `tcp_api_receive`. -/
  | receive (t : ℕ) (copyout : ℕ → Option ℕ) (n fuel : ℕ)
  /-- Process `t`, woken, goes on behind its `sleep`. -/
  | resume (t fuel : ℕ)
  | kill (t : ℕ)
  /-- The state that `tcp_api_close` enters -/
  | close

/-- The segment gets as far as the check of its FIN bit, which is set. -/
def FinTaken (cb : TcpCb) (hdr : TcpHdr) (len : UInt32) : Prop :=
  ReachesAck cb hdr len ∧ flgIsset hdr.flags TCP_FLG_FIN = true ∧
    ∃ cb' signals wakeups, ackField (withWindow cb hdr) hdr = .goOn cb' signals wakeups

namespace State

def setReader (s : State) (t : ℕ) (x : Option Reader) : State :=
  { s with reader := Function.update s.reader t x }

/-- `wakeup(&si->rxq)` -/
def wakeReaders (s : State) : State :=
  { s with reader := fun t => (s.reader t).map fun x => { x with asleep := false } }

/-- `tcp_api_receive`, from its start or from behind its `sleep` -/
def receiveFrom (s : State) (t : ℕ) (slept : Bool) (copyout : ℕ → Option ℕ) (n fuel : ℕ) : Option State :=
  match tcpApiReceive s.tcpcb s.rxq slept (s.killed t) copyout n fuel with
  | none => none
  | some none => some (s.setReader t (some ⟨copyout, n, true⟩))
  | some (some r) => some ({ s with tcpcb := r.cb, rxq := r.rxq }.setReader t none)

end State

/-- One section under `tcplock` -/
def step (s : State) : Act → Option State
  | .segment rand hdr m body =>
    if s.rxq.used m then none
    else
      let x : Rxq := { s.rxq with
        used := Function.update s.rxq.used m true
        data := Function.update s.rxq.data m body }
      match tcpSegmentsArrives rand s.tcpcb hdr (UInt32.ofNat body.length) with
      | .error _ => none
      | .ok r =>
        let x := if r.queued.isSome then x.push m else x
        let s : State := { s with
          tcpcb := r.cb
          rxq := x
          fin := s.fin ∨ FinTaken s.tcpcb hdr (UInt32.ofNat body.length) }
        some (if r.queued = some true ∨ .rxq ∈ r.wakeups then s.wakeReaders else s)
  | .receive t copyout n fuel =>
    if (s.reader t).isSome then none else s.receiveFrom t false copyout n fuel
  | .resume t fuel =>
    match s.reader t with
    | some ⟨copyout, n, false⟩ => s.receiveFrom t true copyout n fuel
    | _ => none
  | .kill t =>
    some { s with
      killed := Function.update s.killed t true
      reader := Function.update s.reader t ((s.reader t).map fun x => { x with asleep := false }) }
  | .close =>
    match TcpWakeup.closeState s.tcpcb.state with
    | none => some s
    | some st =>
      some { s with tcpcb := { s.tcpcb with
        state := st, snd := { s.tcpcb.snd with nxt := s.tcpcb.snd.nxt + 1 } } }

/-- Nothing has been received yet, and nobody reads. -/
structure Init (s : State) : Prop where
  rxq : s.rxq.q.head = none
  reader : ∀ t, s.reader t = none
  fin : ¬ s.fin
  state : s.tcpcb.state ≠ .closeWait

def system : System State Act where
  init := Init
  step := step

/-! ## What holds in every state -/

section Invariant

variable {s s' : State} {a : Act} {cb : TcpCb} {hdr : TcpHdr} {len rand : UInt32} {r : Arrival}

/-- `CLOSE_WAIT` is entered by a FIN only. -/
theorem finTaken_of_closeWait (h : tcpSegmentsArrives rand cb hdr len = .ok r)
    (hst : r.cb.state = .closeWait) : cb.state = .closeWait ∨ FinTaken cb hdr len := by
  -- Neither `LISTEN` nor `CLOSED` leads to `CLOSE_WAIT`.
  have hlisten : ∀ cb : TcpCb, (listenArrives rand cb hdr).cb.state = .closeWait → cb.state = .closeWait := by
    intro cb h
    unfold listenArrives at h
    split_ifs at h <;> first | exact h | cases h
  -- In the synchronized states a segment is dropped, or reaches the check of its ACK field.
  have hsync : cb.state.synchronized = true →
      (synchronizedArrives (withWindow cb hdr) hdr len).cb.state = .closeWait →
      cb.state = .closeWait ∨ FinTaken cb hdr len := by
    intro hcb h
    unfold synchronizedArrives at h
    split at h
    · exact .inl h
    next hacc =>
    split at h
    · cases h
    next hrst =>
    split at h
    · cases h
    next hsyn =>
    split at h
    · exact .inl h
    next hack =>
    -- It passed the four checks before it.
    have hreach : ReachesAck cb hdr len := ⟨hcb, by simpa using hacc, by simpa using hrst,
      by simpa using hsyn, by simpa using hack⟩
    split at h
    · next r' hstop =>
      rcases ackField_stop_state hstop with heq | ⟨-, heq | ⟨-, ⟨-, heq⟩ | ⟨-, heq⟩⟩⟩
      · exact .inl (heq.symm.trans h)
      all_goals
        rw [heq] at h
        cases h
    -- Behind the ACK field only the FIN bit enters `CLOSE_WAIT`.
    · next cb' signals ws hgo =>
      rw [(finBit_spec _ _).2.1, (segmentText_spec ⟨cb', signals, none, ws⟩ hdr len rfl).2.1] at h
      split at h
      · next hfin => exact .inr ⟨hreach, hfin, cb', signals, ws, hgo⟩
      · rcases (ackField_goOn_state hgo).2 with heq | ⟨-, heq, -⟩ | ⟨-, -, heq⟩
        · exact .inl (heq.symm.trans h)
        all_goals
          rw [heq] at h
          cases h
  unfold tcpSegmentsArrives at h
  -- One case for each state that the segment meets.
  cases hcb : cb.state with
  | closed =>
    simp only [hcb, Except.ok.injEq] at h
    rw [← h] at hst
    exact absurd (hlisten _ hst) (by simp)
  | listen =>
    simp only [hcb, Except.ok.injEq] at h
    rw [← h] at hst
    exact absurd (hlisten _ hst) (by simp)
  | synSent =>
    simp only [hcb] at h
    unfold synSentArrives at h
    dsimp only at h
    split_ifs at h <;> cases h <;> simp [drop] at hst
  | closeWait => exact .inl rfl
  | _ =>
    simp only [hcb, Except.ok.injEq] at h
    rw [← hcb]
    refine hsync (by rw [hcb]; rfl) ?_
    rw [← hst, ← h, ← hcb]
    rfl

/-- The queue is well formed, and its buffers have text. -/
def Rxq.Good (x : Rxq) : Prop := ∃ ms, x.Holds ms ∧ ∀ text ∈ x.texts ms, text ≠ []

/-- The queue is well formed and its buffers have text, and `CLOSE_WAIT` means that a FIN has been
    taken. -/
structure Inv (s : State) : Prop where
  rxq : s.rxq.Good
  fin : s.tcpcb.state = .closeWait → s.fin

theorem inv_init (h : Init s) : Inv s := by
  refine ⟨⟨[], ⟨⟨?_, List.nodup_nil, nofun⟩, nofun⟩, nofun⟩, fun hst => absurd hst h.state⟩
  rw [h.rxq]
  exact .nil none

/-- A call leaves a good queue and keeps the state. -/
theorem tcpApiReceive_spec {x : Rxq} {slept killed : Bool} {copyout : ℕ → Option ℕ} {n fuel : ℕ}
    {r : Received} (hx : x.Good)
    (h : tcpApiReceive cb x slept killed copyout n fuel = some (some r)) :
    r.cb.state = cb.state ∧ r.rxq.Good := by
  unfold tcpApiReceive at h
  split_ifs at h
  · cases h
    exact ⟨rfl, hx⟩
  · cases h
    exact ⟨rfl, hx⟩
  · cases h
  · obtain ⟨r', hr, heq⟩ := Option.map_eq_some_iff.mp h
    cases heq
    obtain ⟨ms, hms, htext⟩ := hx
    obtain ⟨-, hcb, -, ms', hms', htexts⟩ := receiveLoop_refines hms hr
    refine ⟨?_, ms', hms', ?_⟩
    · rw [hcb]
      exact TcpWakeup.receiveLoop_state ..
    · rw [htexts]
      exact receiveLoop_texts htext

theorem Inv.receive (hi : Inv s) {t : ℕ} {slept : Bool} {copyout : ℕ → Option ℕ} {n fuel : ℕ}
    (h : s.receiveFrom t slept copyout n fuel = some s') : Inv s' := by
  unfold State.receiveFrom at h
  split at h
  · cases h
  · cases h
    exact ⟨hi.rxq, hi.fin⟩
  · next r hr =>
    cases h
    obtain ⟨hst, hgood⟩ := tcpApiReceive_spec hi.rxq hr
    exact ⟨hgood, fun hclose => hi.fin (hst.symm.trans hclose)⟩

/-- **What every step preserves** -/
theorem inv_step (hi : Inv s) (hstep : step s a = some s') : Inv s' := by
  cases a with
  | segment rand hdr m body =>
    simp only [step] at hstep
    split at hstep
    · cases hstep
    next hused =>
    have hused : s.rxq.used m = false := by simpa using hused
    split at hstep
    · cases hstep
    next r hr =>
    obtain ⟨ms, hms, htext⟩ := hi.rxq
    have hm : m ∉ ms := fun hmem => by
      rw [hms.used m hmem] at hused
      cases hused
    have hne : ∀ a ∈ ms, a ≠ m := fun a ha heq => hm (heq ▸ ha)
    have hgood : (if r.queued.isSome then
        { s.rxq with
          used := Function.update s.rxq.used m true
          data := Function.update s.rxq.data m body }.push m
        else { s.rxq with
          used := Function.update s.rxq.used m true
          data := Function.update s.rxq.data m body }).Good := by
      split
      · next hq =>
        -- text is queued only if there is some
        refine ⟨ms ++ [m], hms.push hused body, ?_⟩
        have hbody : body ≠ [] := fun hnil =>
          ((queued_iff hr).mp hq).text (by rw [hnil]; rfl)
        have htexts : Rxq.texts ({ s.rxq with
            used := Function.update s.rxq.used m true
            data := Function.update s.rxq.data m body }.push m) (ms ++ [m]) = s.rxq.texts ms ++ [body] := by
          refine (List.map_append ..).trans (congrArg₂ _ (texts_update hm body) ?_)
          exact congrArg (fun x => [x]) (Function.update_self ..)
        rw [htexts]
        intro text htext'
        rcases List.mem_append.mp htext' with h | h
        · exact htext text h
        · rw [List.mem_singleton.mp h]
          exact hbody
      · refine ⟨ms, ⟨hms.queue, fun a ha => ?_⟩, ?_⟩
        · exact (Function.update_of_ne (hne a ha) ..).trans (hms.used a ha)
        · intro text h
          refine htext text ?_
          rw [← texts_update hm body]
          exact h
    have hfin : r.cb.state = .closeWait → s.fin ∨ FinTaken s.tcpcb hdr (UInt32.ofNat body.length) :=
      fun hst => (finTaken_of_closeWait hr hst).imp_left hi.fin
    split at hstep
    · cases hstep
      exact ⟨hgood, hfin⟩
    · cases hstep
      exact ⟨hgood, hfin⟩
  | receive t copyout n fuel =>
    simp only [step] at hstep
    split at hstep
    · cases hstep
    · exact hi.receive hstep
  | resume t fuel =>
    simp only [step] at hstep
    split at hstep
    · exact hi.receive hstep
    · cases hstep
  | kill t =>
    cases hstep
    exact ⟨hi.rxq, hi.fin⟩
  | close =>
    simp only [step] at hstep
    split at hstep
    · cases hstep
      exact hi
    · next st hst =>
      cases hstep
      refine ⟨hi.rxq, fun h => ?_⟩
      have h : st = .closeWait := h
      subst h
      cases hcb : s.tcpcb.state <;> simp [TcpWakeup.closeState, hcb] at hst

theorem inv_of_reachable (h : system.Reachable s) : Inv s :=
  System.invariant Inv (fun _ => inv_init) (fun _ _ _ hi _ => inv_step hi) h

end Invariant

/-! ## The end of the stream -/

/-- The call returns 0 if the queue is empty and the peer's FIN has been taken, and otherwise the
    number of bytes that it has copied, 1 at least and `n` at most. -/
def Right (s : State) (n : ℕ) (r : Received) : Prop :=
  (r.ret = some 0 → s.rxq.q.empty = true ∧ s.fin) ∧
    (r.ret ≠ some 0 → ∃ k, r.ret = some k ∧ 1 ≤ k ∧ k ≤ n)

/-- The call does not come back from `sleep` to a queue with text in `CLOSE_WAIT`, and it can write
    what it reads. -/
def Clear (s : State) (ms : List ℕ) (slept : Bool) (copyout : ℕ → Option ℕ) (n : ℕ) : Prop :=
  (slept = true → s.tcpcb.state = .closeWait → ms = []) ∧
    ∀ i < reached n (s.rxq.texts ms), copyout i = none

section Eof

variable {s : State}

/-- A call of a process that has not been killed -/
theorem tcpApiReceive_eq {cb : TcpCb} {x : Rxq} {slept : Bool} {copyout : ℕ → Option ℕ} {n fuel : ℕ} :
    tcpApiReceive cb x slept false copyout n fuel =
      if (slept = true ∨ x.q.empty = true) ∧ cb.state = .closeWait then some (some ⟨[], cb, x, some 0⟩)
      else if x.q.empty = true then some none
      else (receiveLoop copyout fuel 0 cb x n 0).map some := by
  unfold tcpApiReceive
  simp

/-- What the list of the texts returns is right if and only if every `copyout` succeeds. -/
theorem loop_right_iff {ms : List ℕ} {slept : Bool} {copyout : ℕ → Option ℕ} {n : ℕ} {r : Received}
    (hne : ms ≠ []) (hn : 0 < n) (htext : ∀ text ∈ s.rxq.texts ms, text ≠ [])
    (hopen : slept = true → s.tcpcb.state = .closeWait → ms = [])
    (hret : r.ret = (Tcp.receiveLoop copyout s.tcpcb 0 (s.rxq.texts ms) n 0).ret) :
    Right s n r ↔ Clear s ms slept copyout n := by
  have hne' : s.rxq.texts ms ≠ [] := fun h => hne (List.map_eq_nil_iff.mp h)
  have hcases := @receiveLoop_ret copyout 0 n 0 s.tcpcb _ hne' hn htext
  simp only [Nat.zero_add] at hcases
  unfold Right Clear
  rcases hcases with ⟨hall, k, hk, hone, hkn⟩ | ⟨hfail, hnone⟩
  · rw [hret, hk]
    refine iff_of_true ⟨fun h => ?_, fun _ => ⟨k, rfl, hone, hkn⟩⟩ ⟨hopen, hall⟩
    exact absurd (Option.some.inj h) (by omega)
  · rw [hret, hnone]
    refine iff_of_false (fun h => ?_) fun h => hfail h.2
    obtain ⟨k, hk, -⟩ := h.2 nofun
    cases hk

/-- **End of file only after all data**: in every state that is reached, the queue is well formed,
    and a call returns, leaves such a queue, and returns the right value if and only if it is
    clear. -/
theorem eof_iff (hs : system.Reachable s) :
    ∃ ms, s.rxq.Holds ms ∧ ∀ (slept : Bool) (copyout : ℕ → Option ℕ) (n : ℕ), 0 < n →
      (∃ fuel o, tcpApiReceive s.tcpcb s.rxq slept false copyout n fuel = some o) ∧
      ∀ fuel r, tcpApiReceive s.tcpcb s.rxq slept false copyout n fuel = some (some r) →
        (∃ ms', r.rxq.Holds ms') ∧ (Right s n r ↔ Clear s ms slept copyout n) := by
  have hi := inv_of_reachable hs
  obtain ⟨ms, hms, htext⟩ := hi.rxq
  have hempty := hms.queue.empty_iff
  refine ⟨ms, hms, fun slept copyout n hn => ⟨⟨ms.length, ?_⟩, fun fuel r hr => ?_⟩⟩
  · rw [tcpApiReceive_eq]
    by_cases hclose : (slept = true ∨ s.rxq.q.empty = true) ∧ s.tcpcb.state = .closeWait
    · exact ⟨_, if_pos hclose⟩
    rw [if_neg hclose]
    by_cases hnil : s.rxq.q.empty = true
    · exact ⟨_, if_pos hnil⟩
    have hloop : (receiveLoop copyout ms.length 0 s.tcpcb s.rxq n 0).isSome = true :=
      receiveLoop_isSome hms (fun h => hnil (hempty.mpr h)) le_rfl
    obtain ⟨r, hr⟩ := Option.isSome_iff_exists.mp hloop
    exact ⟨some r, by rw [if_neg hnil, hr]; rfl⟩
  · obtain ⟨-, ms', hms', -⟩ := tcpApiReceive_spec hi.rxq hr
    refine ⟨⟨ms', hms'⟩, ?_⟩
    rw [tcpApiReceive_eq] at hr
    by_cases hclose : (slept = true ∨ s.rxq.q.empty = true) ∧ s.tcpcb.state = .closeWait
    · -- 0 is returned, which is right if the queue is empty
      rw [if_pos hclose] at hr
      cases hr
      by_cases hnil : ms = []
      · subst hnil
        exact iff_of_true ⟨fun _ => ⟨hempty.mpr rfl, hi.fin hclose.2⟩, fun h => absurd rfl h⟩
          ⟨fun _ _ => rfl, fun i hlt => absurd hlt (Nat.not_lt_zero i)⟩
      · have hslept : slept = true := hclose.1.resolve_right fun h => hnil (hempty.mp h)
        exact iff_of_false (fun h => hnil (hempty.mp (h.1 rfl).1)) fun h => hnil (h.1 hslept hclose.2)
    rw [if_neg hclose] at hr
    by_cases hnil : s.rxq.q.empty = true
    · rw [if_pos hnil] at hr
      cases hr
    rw [if_neg hnil] at hr
    obtain ⟨r', hr', heq⟩ := Option.map_eq_some_iff.mp hr
    cases heq
    obtain ⟨-, -, hret, -⟩ := receiveLoop_refines hms hr'
    exact loop_right_iff (fun h => hnil (hempty.mpr h)) hn htext
      (fun hslept hst => absurd ⟨.inl hslept, hst⟩ hclose) hret

end Eof

/-! ## Text and FIN in one segment -/

/-- A connection that is established, with an empty queue -/
def connected : State where
  tcpcb := ⟨.established, 7, 99, ⟨8, 8⟩, ⟨100, 2048⟩⟩
  rxq := ⟨⟨none, 0x05050505⟩, fun _ => none, fun _ => [], fun _ => false⟩
  reader := fun _ => none
  killed := fun _ => false
  fin := False

theorem connected_init : system.init connected := ⟨rfl, fun _ => rfl, id, nofun⟩

/-- The next two bytes, with these flags -/
def twoBytes (flags : UInt8) : Act :=
  .segment 0 ⟨100, 8, 0x50, flags, 2048⟩ 0x87000000 [104, 105]

/-- Two bytes that are read after a sleep -/
theorem text_read : ∃ s ms, system.Reachable s ∧ s.rxq.Holds ms ∧ ms ≠ [] ∧
    ∀ fuel r, tcpApiReceive s.tcpcb s.rxq true false (fun _ => none) 10 fuel = some (some r) →
      Right s 10 r := by
  have hrun : (system.run connected [.receive 1 (fun _ => none) 10 1,
      twoBytes (TCP_FLG_ACK ||| TCP_FLG_PSH)]).any (fun s =>
        decide (s.tcpcb.state = .established) && !s.rxq.q.empty) = true := by decide +kernel
  obtain ⟨s, hs, hp⟩ := System.exists_reachable_of_run connected_init hrun
  rw [Bool.and_eq_true, decide_eq_true_eq, Bool.not_eq_true'] at hp
  obtain ⟨ms, hms, hcall⟩ := eof_iff hs
  have hne : ms ≠ [] := fun hnil => by
    rw [hms.queue.empty_iff.mpr hnil] at hp
    cases hp.2
  refine ⟨s, ms, hs, hms, hne, fun fuel r hr => ?_⟩
  have hclear : Clear s ms true (fun _ => none) 10 := by
    refine ⟨fun _ hst => ?_, fun _ _ => rfl⟩
    rw [hp.1] at hst
    cases hst
  exact ((hcall true (fun _ => none) 10 (by decide)).2 fuel r hr).2.mpr hclear

/-- If the FIN comes with the bytes, the reader that they wake returns 0 and leaves them in the
    queue. -/
theorem text_lost : ¬ ∀ s, system.Reachable s → ∀ t copyout n, s.reader t = some ⟨copyout, n, false⟩ →
    0 < n → s.killed t = false → ∀ fuel r,
    tcpApiReceive s.tcpcb s.rxq true false copyout n fuel = some (some r) → Right s n r := by
  intro hall
  have hrun : (system.run connected [.receive 1 (fun _ => none) 10 1,
      twoBytes (TCP_FLG_ACK ||| TCP_FLG_PSH ||| TCP_FLG_FIN)]).any (fun s =>
        decide (s.tcpcb.state = .closeWait) && !s.rxq.q.empty && !s.killed 1 &&
          (s.reader 1).any fun x => decide (x.n = 10) && !x.asleep) = true := by decide +kernel
  obtain ⟨s, hs, hp⟩ := System.exists_reachable_of_run connected_init hrun
  simp only [Bool.and_eq_true, decide_eq_true_eq, Bool.not_eq_true', Option.any_eq_true] at hp
  obtain ⟨⟨⟨hst, hnonempty⟩, hkilled⟩, x, hreader, hn, hawake⟩ := hp
  obtain ⟨copyout, n, asleep⟩ := x
  dsimp only at hn hawake
  subst hn hawake
  have hr : tcpApiReceive s.tcpcb s.rxq true false copyout 10 0 =
      some (some ⟨[], s.tcpcb, s.rxq, some 0⟩) := by
    rw [tcpApiReceive_eq, if_pos ⟨.inl rfl, hst⟩]
  have hempty := ((hall s hs 1 copyout 10 hreader (by decide) hkilled 0 _ hr).1 rfl).1
  rw [hnonempty] at hempty
  cases hempty

end Xv6.Kernel.TcpEof
