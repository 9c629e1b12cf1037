import Mathlib
import Xv6.Lib.TransitionSystem
import Xv6.Kernel.TcpStream

/-!
# The Receive Window

`RCV.WND` tells the peer how much it may send. `tcp_segments_arrives` takes accepted text off it, and
`tcp_api_receive` adds what is read. Before that, every segment overwrites it with its own window field, which is
the window of the peer.

- `Conserves`: the window and what has not been read make up the buffer;
- `Advances`: the right edge of the window does not move to the left;
- `window_kept_iff`: the runs of a connection in which both hold.
-/

namespace Xv6.Kernel.TcpRcvWnd

open Xv6.Lib Tcp
open Xv6.Kernel.TcpStream (Accepted ackField_spec tcpSegmentsArrives_synchronized)

/-! ## The system -/

/-- `TCP_CB_WND_SIZE` -/
def TCP_CB_WND_SIZE : ℕ := 2048

inductive Act where
  /-- Any segment arrives, with the given bytes behind its header. -/
  | segment (rand : UInt32) (hdr : TcpHdr) (body : Mbuf)
  /-- A process calls `tcp_api_receive`, or returns to it from `sleep`. -/
  | receive (slept killed : Bool) (copyout : ℕ → Option ℕ) (n : ℕ)

/-- A step of a connection that is established, and stays so -/
def step (si : Sock) : Act → Option Sock
  | .segment rand hdr body =>
    if si.tcpcb.state = .established ∧ body.length < 2 ^ 16 then
      match si.arrives rand hdr body with
      | .error _ => none
      | .ok (si, _) => if si.tcpcb.state = .established then some si else none
    else none
  | .receive slept killed copyout n =>
    if si.tcpcb.state = .established then (tcpApiReceive si slept killed copyout n).map Received.si else none

def system : System Sock Act where
  init si := si.tcpcb.state = .established
  step := step

/-- A socket whose queue holds no empty buffers. A segment without text is not queued, and a buffer that has been read
    to its end is freed. -/
structure Conn where
  si : Sock
  filled : ∀ m ∈ si.rxq, m ≠ []

/-! ## What it is for -/

/-- The bytes that are queued and have not been read -/
def unread (si : Sock) : ℕ := si.rxq.flatten.length

/-- The right edge of the window: `RCV.NXT + RCV.WND` -/
def edge (si : Sock) : UInt32 := si.tcpcb.rcv.nxt + si.tcpcb.rcv.wnd.toUInt32

/-- **The window is conserved**: with what has not been read it is the size of the buffer. So it is at most that, and
    no subtraction has underflowed. -/
def Conserves (si : Sock) : Prop := si.tcpcb.rcv.wnd.toNat + unread si = TCP_CB_WND_SIZE

/-- **The right edge does not move to the left** in the step: in the arithmetic of sequence numbers the difference is
    not negative. -/
def Advances (si : Sock) (a : Act) : Prop := ∀ t, step si a = some t → (edge t - edge si).toNat < 2 ^ 31

/-- The buffers that a read of `n` bytes copies from -/
def copies : List Mbuf → ℕ → ℕ
  | [], _ => 0
  | m :: rxq, n => if n < m.length ∨ n - m.length = 0 ∨ rxq = [] then 1 else 1 + copies rxq (n - m.length)

/-- A segment has the window field that this end would send, and if its text is accepted that fits the window and does
    not begin before `RCV.NXT`; and a read does not fault. -/
def Mirrors (si : Sock) : Act → Prop
  | .segment _ hdr body =>
    hdr.win.toNat + unread si = TCP_CB_WND_SIZE ∧
      (Accepted si.tcpcb hdr (UInt32.ofNat body.length) →
        body.length ≤ hdr.win.toNat ∧ (hdr.seq - si.tcpcb.rcv.nxt).toNat < 2 ^ 31)
  | .receive _ killed copyout n => killed = false → ∀ i < copies si.rxq n, copyout i = none

/-! ## Segments -/

section Segment

variable {rand : UInt32} {cb : TcpCb} {hdr : TcpHdr} {len : UInt32} {r : Arrival}

/-- **A segment** leaves its window field in `RCV.WND`, less the text if that is accepted. -/
theorem arrives_rcv (h : cb.state = .established) (hr : tcpSegmentsArrives rand cb hdr len = .ok r)
    (ht : r.cb.state = .established) :
    (¬ Accepted cb hdr len ∧ r.queued = none ∧ r.cb.rcv = ⟨cb.rcv.nxt, hdr.win⟩) ∨
    (Accepted cb hdr len ∧ r.queued.isSome = true ∧ r.cb.rcv = ⟨hdr.seq + len, hdr.win - len.toUInt16⟩) := by
  rw [tcpSegmentsArrives_synchronized (.inl h), Except.ok.injEq, synchronizedArrives] at hr
  split at hr
  · next hacc =>
    subst hr
    refine .inl ⟨fun ha => ?_, rfl, rfl⟩
    simp [ha.2.1] at hacc
  next hacc =>
  split at hr
  · subst hr
    cases ht
  next hrst =>
  split at hr
  · subst hr
    cases ht
  next hsyn =>
  split at hr
  · next hack =>
    subst hr
    refine .inl ⟨fun ha => ?_, rfl, rfl⟩
    simp [ha.2.2.2.2.1] at hack
  next hack =>
  set cb₀ : TcpCb := { cb with rcv := { cb.rcv with wnd := hdr.win } } with hcb₀
  have h₀ : cb₀.state = .established := h
  rcases ackField_spec hdr (.inl h₀) with ⟨hnot, hstop⟩ | ⟨hle, cb₁, hgo, hst, -, hrcv⟩
  · rw [hstop] at hr
    subst hr
    exact .inl ⟨fun ha => hnot ha.2.2.2.2.2.1, rfl, rfl⟩
  rw [hgo] at hr
  change finBit (segmentText ⟨cb₁, [], none, []⟩ hdr len) hdr = r at hr
  have hst₁ : cb₁.state = .established := hst.trans h₀
  -- a FIN would leave the state
  have hfin : ∀ r' : Arrival, r'.cb.state = .established → finBit r' hdr = r → r = r' := by
    intro r' hr' heq
    unfold finBit at heq
    split at heq
    · simp only [hr'] at heq
      subst heq
      cases ht
    · exact heq.symm
  by_cases hlen : len ≠ 0
  · right
    have htext : len ≠ 0 ∧ cb₁.state.takesText = true := ⟨hlen, by rw [hst₁]; rfl⟩
    unfold segmentText at hr
    rw [if_pos htext] at hr
    rw [hfin _ hst₁ hr]
    refine ⟨⟨h, by simpa using hacc, by simpa using hrst, by simpa using hsyn, by simpa using hack, hle, hlen⟩, rfl, ?_⟩
    simp only [hrcv, hcb₀]
  · left
    unfold segmentText at hr
    rw [if_neg fun hc => hlen hc.1] at hr
    rw [hfin _ hst₁ hr]
    exact ⟨fun ha => hlen ha.2.2.2.2.2.2, rfl, hrcv⟩

end Segment

/-! ## Reads -/

section Reads

variable {copyout : ℕ → Option ℕ} {cb : TcpCb}

/-- **A read that does not fault** moves bytes from the queue to the window. -/
theorem receiveLoop_keeps (i : ℕ) (rxq : List Mbuf) (n len : ℕ) (hok : ∀ j < copies rxq n, copyout (i + j) = none)
    (hsum : cb.rcv.wnd.toNat + rxq.flatten.length < 2 ^ 16) :
    let t := (receiveLoop copyout cb i rxq n len).si
    t.tcpcb.state = cb.state ∧ t.tcpcb.rcv.nxt = cb.rcv.nxt ∧
      t.tcpcb.rcv.wnd.toNat + unread t = cb.rcv.wnd.toNat + rxq.flatten.length ∧
      cb.rcv.wnd.toNat ≤ t.tcpcb.rcv.wnd.toNat := by
  induction rxq generalizing cb i n len with
  | nil => exact ⟨rfl, rfl, rfl, le_rfl⟩
  | cons m rxq ih =>
    rw [List.flatten_cons, List.length_append] at hsum ⊢
    have hfirst : copyout i = none := hok 0 (by unfold copies; split <;> omega)
    rw [receiveLoop, hfirst]
    dsimp only
    generalize hrecv : (if n > m.length then m.length else n) = recvSz
    have hle : recvSz ≤ m.length := by rw [← hrecv]; split <;> omega
    have hadd : (cb.rcv.wnd + UInt16.ofNat recvSz).toNat = cb.rcv.wnd.toNat + recvSz := by
      rw [UInt16.toNat_add, UInt16.toNat_ofNat_of_lt' (by simp [UInt16.size]; omega)]
      exact Nat.mod_eq_of_lt (by omega)
    by_cases hpart : n < m.length
    · -- the buffer is read in part
      rw [if_neg (by omega)] at hrecv
      subst hrecv
      rw [if_pos hpart]
      refine ⟨rfl, rfl, ?_, by dsimp only; omega⟩
      unfold unread
      rw [List.flatten_cons, List.length_append, List.length_drop]
      dsimp only
      omega
    · have hall : recvSz = m.length := by rw [← hrecv]; split <;> omega
      subst hall
      rw [if_neg hpart]
      by_cases hlast : n - m.length = 0 ∨ rxq = []
      · rw [if_pos hlast]
        refine ⟨rfl, rfl, ?_, by dsimp only; omega⟩
        unfold unread
        dsimp only
        omega
      · rw [if_neg hlast]
        have hcopies : copies (m :: rxq) n = 1 + copies rxq (n - m.length) :=
          if_neg fun h => h.elim hpart hlast
        have hrest := @ih { cb with rcv := { cb.rcv with wnd := cb.rcv.wnd + UInt16.ofNat m.length } } (i + 1)
          (n - m.length) (len + m.length)
          (fun j hj => by
            have hnext := hok (1 + j) (by omega)
            rwa [← Nat.add_assoc] at hnext)
          (by dsimp only; omega)
        obtain ⟨hstate, hnxt, htotal, hmono⟩ := hrest
        dsimp only at hstate hnxt htotal hmono ⊢
        exact ⟨hstate, hnxt, by omega, by omega⟩

/-- **A read that faults** drops the buffer, and the window does not get it back. -/
theorem receiveLoop_loses (i : ℕ) (rxq : List Mbuf) (n len : ℕ) (hfault : ∃ j < copies rxq n, copyout (i + j) ≠ none)
    (hfilled : ∀ m ∈ rxq, m ≠ []) :
    let t := (receiveLoop copyout cb i rxq n len).si
    t.tcpcb.rcv.wnd.toNat + unread t < cb.rcv.wnd.toNat + rxq.flatten.length := by
  -- Induction on the queue. The copy that fails is the first, or one of the rest.
  induction rxq generalizing cb i n len with
  | nil =>
    obtain ⟨j, hj, -⟩ := hfault
    exact absurd hj (Nat.not_lt_zero j)
  | cons m rxq ih =>
    have hm : 0 < m.length := List.length_pos_of_ne_nil (hfilled m List.mem_cons_self)
    rw [List.flatten_cons, List.length_append, receiveLoop]
    dsimp only
    generalize hrecv : (if n > m.length then m.length else n) = recvSz
    cases hfirst : copyout i with
    | some k =>
      -- The buffer that faults is gone, and nothing was added for it.
      unfold unread
      dsimp only
      omega
    | none =>
      obtain ⟨j, hj, hne⟩ := hfault
      have hpos : j ≠ 0 := by
        rintro rfl
        exact hne hfirst
      -- The loop goes on, since the rest makes the copy that fails.
      have hgo : ¬ (n < m.length ∨ n - m.length = 0 ∨ rxq = []) := fun h => by
        have hone : copies (m :: rxq) n = 1 := if_pos h
        omega
      have hcopies : copies (m :: rxq) n = 1 + copies rxq (n - m.length) := if_neg hgo
      have hall : recvSz = m.length := by rw [← hrecv]; split <;> omega
      subst hall
      dsimp only
      rw [if_neg fun h => hgo (.inl h), if_neg fun h => hgo (.inr h)]
      -- The window after this buffer is the one that the rest starts from.
      have hrest := @ih { cb with rcv := { cb.rcv with wnd := cb.rcv.wnd + UInt16.ofNat m.length } } (i + 1)
        (n - m.length) (len + m.length)
        ⟨j - 1, by omega, by rwa [show i + 1 + (j - 1) = i + j by omega]⟩
        (fun m' hm' => hfilled m' (List.mem_cons_of_mem m hm'))
      -- The sum of the window may wrap, which only loses more.
      have hadd : (cb.rcv.wnd + UInt16.ofNat m.length).toNat ≤ cb.rcv.wnd.toNat + m.length := by
        rw [UInt16.toNat_add]
        refine (Nat.mod_le _ _).trans (Nat.add_le_add_left ?_ _)
        exact Nat.mod_le _ _
      dsimp only at hrest ⊢
      omega

theorem receiveLoop_filled (i : ℕ) (rxq : List Mbuf) (n len : ℕ) (hfilled : ∀ m ∈ rxq, m ≠ []) :
    ∀ m ∈ (receiveLoop copyout cb i rxq n len).si.rxq, m ≠ [] := by
  induction rxq generalizing cb i n len with
  | nil => exact hfilled
  | cons m rxq ih =>
    have hrest : ∀ m ∈ rxq, m ≠ [] := fun m' hm' => hfilled m' (List.mem_cons_of_mem m hm')
    rw [receiveLoop]
    dsimp only
    generalize (if n > m.length then m.length else n) = recvSz
    cases copyout i with
    | some k => exact hrest
    | none =>
      dsimp only
      split
      · next hpart =>
        refine List.forall_mem_cons.mpr ⟨fun hnil => ?_, hrest⟩
        have hlen := congrArg List.length hnil
        rw [List.length_drop, List.length_nil] at hlen
        omega
      · split
        · exact hrest
        · exact ih _ _ _ hrest

end Reads

/-! ## Steps -/

section Steps

variable {s t : Sock}

/-- What a segment does to an established connection that stays so -/
theorem step_segment {rand : UInt32} {hdr : TcpHdr} {body : Mbuf} (hs : step s (.segment rand hdr body) = some t) :
    body.length < 2 ^ 16 ∧
    ((¬ Accepted s.tcpcb hdr (UInt32.ofNat body.length) ∧ t.rxq = s.rxq ∧
        t.tcpcb.rcv = ⟨s.tcpcb.rcv.nxt, hdr.win⟩) ∨
      (Accepted s.tcpcb hdr (UInt32.ofNat body.length) ∧ t.rxq = s.rxq ++ [body] ∧
        t.tcpcb.rcv = ⟨hdr.seq + UInt32.ofNat body.length, hdr.win - (UInt32.ofNat body.length).toUInt16⟩)) := by
  rw [step] at hs
  split at hs
  · next hcan =>
    refine ⟨hcan.2, ?_⟩
    unfold Sock.arrives at hs
    cases hr : tcpSegmentsArrives rand s.tcpcb hdr (UInt32.ofNat body.length) with
    | error e =>
      rw [hr] at hs
      cases hs
    | ok r =>
      rw [hr] at hs
      cases hq : r.queued with
      | none =>
        simp only [hq] at hs
        split at hs
        · next hest =>
          cases hs
          rcases arrives_rcv hcan.1 hr hest with ⟨hnot, -, hrcv⟩ | ⟨-, hsome, -⟩
          · exact .inl ⟨hnot, rfl, hrcv⟩
          · rw [hq] at hsome
            cases hsome
        · cases hs
      | some ispush =>
        simp only [hq] at hs
        split at hs
        · next hest =>
          cases hs
          rcases arrives_rcv hcan.1 hr hest with ⟨-, hnone, -⟩ | ⟨hacc, -, hrcv⟩
          · rw [hq] at hnone
            cases hnone
          · exact .inr ⟨hacc, rfl, hrcv⟩
        · cases hs
  · cases hs

/-- A read that is not asleep: the process has been killed, or the loop has run. -/
theorem step_receive {slept killed : Bool} {copyout : ℕ → Option ℕ} {n : ℕ}
    (hs : step s (.receive slept killed copyout n) = some t) :
    (killed = true ∧ t = s) ∨ (killed = false ∧ t = (receiveLoop copyout s.tcpcb 0 s.rxq n 0).si) := by
  rw [step] at hs
  split at hs
  · next hest =>
    obtain ⟨r, hr, rfl⟩ := Option.map_eq_some_iff.mp hs
    unfold tcpApiReceive at hr
    rw [if_neg (by simp [hest])] at hr
    cases killed with
    | true =>
      cases hr
      exact .inl ⟨rfl, rfl⟩
    | false =>
      rw [if_neg Bool.false_ne_true] at hr
      split at hr
      · cases hr
      · cases hr
        exact .inr ⟨rfl, rfl⟩
  · cases hs

theorem filled_step {a : Act} (hfilled : ∀ m ∈ s.rxq, m ≠ []) (hs : step s a = some t) : ∀ m ∈ t.rxq, m ≠ [] := by
  cases a with
  | segment rand hdr body =>
    obtain ⟨-, ⟨-, hrxq, -⟩ | ⟨hacc, hrxq, -⟩⟩ := step_segment hs
    · rw [hrxq]
      exact hfilled
    · rw [hrxq]
      refine List.forall_mem_append.mpr ⟨hfilled, List.forall_mem_singleton.mpr ?_⟩
      rintro rfl
      exact hacc.2.2.2.2.2.2 rfl
  | receive slept killed copyout n =>
    rcases step_receive hs with ⟨-, rfl⟩ | ⟨-, rfl⟩
    · exact hfilled
    · exact receiveLoop_filled _ _ _ _ hfilled

/-- **A segment keeps the window** if and only if it has the window field that this end would send. -/
theorem segment_keeps_iff {rand : UInt32} {hdr : TcpHdr} {body : Mbuf} (h : Conserves s)
    (hs : step s (.segment rand hdr body) = some t) :
    Conserves t ∧ (edge t - edge s).toNat < 2 ^ 31 ↔ Mirrors s (.segment rand hdr body) := by
  unfold Conserves at h
  have hwin := hdr.win.toNat_lt
  have hnxt := s.tcpcb.rcv.nxt.toNat_lt
  obtain ⟨hlen, ⟨hnot, hrxq, hrcv⟩ | ⟨hacc, hrxq, hrcv⟩⟩ := step_segment hs
  · have hunread : unread t = unread s := congrArg (fun q => q.flatten.length) hrxq
    have hwnd : t.tcpcb.rcv.wnd = hdr.win := congrArg Rcv.wnd hrcv
    unfold Conserves Mirrors
    rw [hunread, hwnd]
    refine ⟨fun hc => ⟨hc.1, fun ha => absurd ha hnot⟩, fun hm => ⟨hm.1, ?_⟩⟩
    -- the edge is where it was
    have hsame : hdr.win = s.tcpcb.rcv.wnd := UInt16.toNat_inj.mp (by omega)
    have hedge : edge t = edge s := by
      unfold edge
      rw [hrcv, hsame]
    rw [hedge, UInt32.sub_self]
    decide
  · have hunread : unread t = unread s + body.length := by
      unfold unread
      rw [hrxq, List.flatten_append, List.length_append, List.flatten_singleton]
    have hbody : (UInt32.ofNat body.length).toNat = body.length :=
      UInt32.toNat_ofNat_of_lt' (by simp [UInt32.size]; omega)
    have hbody16 : (UInt32.ofNat body.length).toUInt16.toNat = body.length := by
      rw [UInt32.toNat_toUInt16, hbody]
      exact Nat.mod_eq_of_lt hlen
    have hwnd : t.tcpcb.rcv.wnd.toNat = (2 ^ 16 - body.length + hdr.win.toNat) % 2 ^ 16 := by
      rw [hrcv, UInt16.toNat_sub, hbody16]
    unfold Conserves Mirrors
    rw [hunread]
    have hcons : t.tcpcb.rcv.wnd.toNat + (unread s + body.length) = TCP_CB_WND_SIZE ↔
        hdr.win.toNat + unread s = TCP_CB_WND_SIZE ∧ body.length ≤ hdr.win.toNat := by
      simp only [TCP_CB_WND_SIZE] at h ⊢
      rw [hwnd]
      omega
    rw [hcons, and_assoc]
    refine and_congr_right fun hmirror => ?_
    rw [forall_prop_of_true hacc]
    refine and_congr_right fun hfits => ?_
    -- the edge moves as far as the text begins behind `RCV.NXT`
    have hedge : edge t - edge s = hdr.seq - s.tcpcb.rcv.nxt := by
      have hsame : hdr.win = s.tcpcb.rcv.wnd := UInt16.toNat_inj.mp (by omega)
      have hwnd32 : t.tcpcb.rcv.wnd.toUInt32 = s.tcpcb.rcv.wnd.toUInt32 - UInt32.ofNat body.length := by
        refine UInt32.toNat_inj.mp ?_
        rw [UInt16.toNat_toUInt32, UInt32.toNat_sub_of_le, hbody, UInt16.toNat_toUInt32, hwnd, ← hsame]
        · omega
        · rw [UInt32.le_iff_toNat_le, hbody, UInt16.toNat_toUInt32, ← hsame]
          exact hfits
      unfold edge
      rw [hwnd32, hrcv]
      grind
    rw [hedge]

/-- **A read keeps the window** if and only if it does not fault. -/
theorem read_keeps_iff {slept killed : Bool} {copyout : ℕ → Option ℕ} {n : ℕ} (h : Conserves s)
    (hfilled : ∀ m ∈ s.rxq, m ≠ []) (hs : step s (.receive slept killed copyout n) = some t) :
    Conserves t ∧ (edge t - edge s).toNat < 2 ^ 31 ↔ Mirrors s (.receive slept killed copyout n) := by
  change _ ↔ (killed = false → ∀ i < copies s.rxq n, copyout i = none)
  rcases step_receive hs with ⟨rfl, rfl⟩ | ⟨rfl, ht⟩
  · refine iff_of_true ⟨h, ?_⟩ fun hk => nomatch hk
    rw [UInt32.sub_self]
    decide
  rw [forall_prop_of_true rfl]
  have hcons : s.tcpcb.rcv.wnd.toNat + s.rxq.flatten.length = 2048 := h
  by_cases hok : ∀ j < copies s.rxq n, copyout j = none
  · obtain ⟨-, hnxt, htotal, hmono⟩ := @receiveLoop_keeps copyout s.tcpcb 0 s.rxq n 0
      (fun j hj => by rw [Nat.zero_add]; exact hok j hj) (by omega)
    rw [← ht] at hnxt htotal hmono
    refine iff_of_true ⟨htotal.trans h, ?_⟩ hok
    -- the edge moves by what has been read
    have hedge : edge t - edge s = t.tcpcb.rcv.wnd.toUInt32 - s.tcpcb.rcv.wnd.toUInt32 := by
      unfold edge
      rw [hnxt]
      grind
    have hle : s.tcpcb.rcv.wnd.toUInt32 ≤ t.tcpcb.rcv.wnd.toUInt32 := by
      rw [UInt32.le_iff_toNat_le, UInt16.toNat_toUInt32, UInt16.toNat_toUInt32]
      exact hmono
    have hwnd := t.tcpcb.rcv.wnd.toNat_lt
    rw [hedge, UInt32.toNat_sub_of_le _ _ hle, UInt16.toNat_toUInt32, UInt16.toNat_toUInt32]
    omega
  · refine iff_of_false (fun hc => ?_) hok
    push Not at hok
    obtain ⟨j, hj, hne⟩ := hok
    have hloses := @receiveLoop_loses copyout s.tcpcb 0 s.rxq n 0 ⟨j, hj, by rwa [Nat.zero_add]⟩ hfilled
    rw [← ht] at hloses
    have hcons' : t.tcpcb.rcv.wnd.toNat + unread t = 2048 := hc.1
    omega

theorem keeps_iff {a : Act} (h : Conserves s) (hfilled : ∀ m ∈ s.rxq, m ≠ []) (hs : step s a = some t) :
    Conserves t ∧ (edge t - edge s).toNat < 2 ^ 31 ↔ Mirrors s a := by
  cases a with
  | segment rand hdr body => exact segment_keeps_iff h hs
  | receive slept killed copyout n => exact read_keeps_iff h hfilled hs

end Steps

/-! ## When the window is kept -/

/-- **When the window is kept**: in the runs of a connection that begins with what it has not read and its window
    making up the buffer, in which every segment has the window field that this end would send, accepted text fits the
    window and does not begin before `RCV.NXT`, and no read faults. -/
theorem window_kept_iff (c : Conn) (as : List Act) :
    system.Throughout Conserves c.si as ∧ system.Takes Advances c.si as ↔
      Conserves c.si ∧ system.Takes Mirrors c.si as := by
  obtain ⟨s, hfilled⟩ := c
  dsimp only
  induction as generalizing s with
  | nil => exact and_congr_right fun _ => Iff.rfl
  | cons a as ih =>
    rw [System.Throughout, and_assoc]
    refine and_congr_right fun h => ?_
    -- one step, and then the rest of the run
    constructor
    · rintro ⟨hthrough, htakes⟩ t hs
      obtain ⟨hadvances, hrest⟩ := htakes t hs
      have hrun := (ih t (filled_step hfilled hs)).mp ⟨hthrough t hs, hrest⟩
      exact ⟨(keeps_iff h hfilled hs).mp ⟨hrun.1, hadvances t hs⟩, hrun.2⟩
    · intro htakes
      have hstep : ∀ t, system.step s a = some t → system.Throughout Conserves t as ∧ Advances s a ∧
          system.Takes Advances t as := by
        intro t hs
        obtain ⟨hmirrors, hrest⟩ := htakes t hs
        have hkeeps := (keeps_iff h hfilled hs).mpr hmirrors
        obtain ⟨hthrough, hadvances⟩ := (ih t (filled_step hfilled hs)).mpr ⟨hkeeps.1, hrest⟩
        refine ⟨hthrough, fun t' hs' => ?_, hadvances⟩
        obtain rfl : t = t' := Option.some.inj (hs.symm.trans hs')
        exact hkeeps.2
      exact ⟨fun t hs => (hstep t hs).1, fun t hs => (hstep t hs).2⟩

/-- A connection whose window is the whole buffer -/
def idle : Conn where
  si := ⟨⟨.established, 0, 0, ⟨1, 1⟩, ⟨1, 2048⟩⟩, []⟩
  filled := nofun

/-- An acknowledgement of the peer, which has a window of 65535 bytes -/
def ack : TcpHdr := ⟨1, 1, 0x50, TCP_FLG_ACK, 65535⟩

/-- The window of the peer becomes the window of this end; and one of 1000 bytes moves the edge to the left. -/
theorem window_overwritten :
    ¬ (system.Throughout Conserves idle.si [.segment 0 ack []] ∧ system.Takes Advances idle.si [.segment 0 ack []]) ∧
    ¬ system.Takes Advances idle.si [.segment 0 { ack with win := 1000 } []] := by
  constructor
  · rw [window_kept_iff]
    rintro ⟨-, h⟩
    have hmirrors := (h _ rfl).1.1
    exact absurd hmirrors (by decide)
  · intro h
    have hadvances := (h _ rfl).1 _ rfl
    exact absurd hadvances (by decide)

end Xv6.Kernel.TcpRcvWnd
