import Mathlib
import Xv6.Lib.Circle
import Xv6.Kernel.Tcp

/-!
# Sequence Number Tests

The tests of `tcp_segments_arrives` on sequence numbers are quoted from RFC 793, where the numbers
are those of a circle: the one after the last is 0. The code compares them as numbers.

- `Tests`: the tests, by which the function decides; `plain` are those of the code, and `modular`
  those of the comments;
- `plain_arrives`: with the plain tests, the function is that of the code;
- `sequence_tests_iff`: for each test, when the two decide the same.
-/

namespace Xv6.Kernel.TcpSequence

open Xv6.Lib Tcp

/-! ## The tests -/

/-- What the ACK field of a segment is for a connection that is established -/
inductive AckCheck where
  /-- `SND.UNA < SEG.ACK =< SND.NXT` -/
  | new
  /-- `SEG.ACK > SND.NXT` -/
  | unsent
  | old
  deriving DecidableEq

/-- The tests of `tcp_segments_arrives` on sequence numbers -/
structure Tests where
  /-- `RCV.NXT =< x < RCV.NXT+RCV.WND` -/
  inWindow : TcpCb → UInt32 → Bool
  /-- `SEG.ACK =< ISS, or SEG.ACK > SND.NXT` -/
  bad : TcpCb → UInt32 → Bool
  /-- `SND.UNA =< SEG.ACK =< SND.NXT` -/
  within : TcpCb → UInt32 → Bool
  /-- `SND.UNA > ISS` -/
  synAcked : TcpCb → Bool
  ackCheck : TcpCb → UInt32 → AckCheck

/-- The comparisons of the code -/
def plain : Tests where
  inWindow cb x := decide (x ≥ cb.rcv.nxt) && decide (x < cb.rcv.nxt + cb.rcv.wnd.toUInt32)
  bad cb ack := decide (ack ≤ cb.iss) || decide (ack > cb.snd.nxt)
  within cb ack := decide (ack ≥ cb.snd.una) && decide (ack ≤ cb.snd.nxt)
  synAcked cb := decide (cb.snd.una > cb.iss)
  ackCheck cb ack :=
    if cb.snd.una < ack ∧ ack ≤ cb.snd.nxt then .new
    else if ack > cb.snd.nxt then .unsent
    else .old

/-- The same tests modulo `2 ^ 32`: on the windows from `RCV.NXT` on and up to `SND.NXT`, and with
    `a > b` if `a` is ahead of `b` by less than half of the sequence numbers. -/
def modular : Tests where
  inWindow cb x := decide (x - cb.rcv.nxt < cb.rcv.wnd.toUInt32)
  bad cb ack := !(decide (0 < ack - cb.iss) && decide (ack - cb.iss ≤ cb.snd.nxt - cb.iss))
  within cb ack := decide (ack - cb.snd.una ≤ cb.snd.nxt - cb.snd.una)
  synAcked cb := decide (0 < cb.snd.una - cb.iss) && decide (cb.snd.una - cb.iss < 2 ^ 31)
  ackCheck cb ack :=
    if 0 < ack - cb.snd.una ∧ ack - cb.snd.una ≤ cb.snd.nxt - cb.snd.una then .new
    else if 0 < ack - cb.snd.nxt ∧ ack - cb.snd.nxt < 2 ^ 31 then .unsent
    else .old

namespace Tests

variable (T : Tests)

/-- The table of the cases of `SEG.LEN` and `RCV.WND` -/
def acceptable (cb : TcpCb) (seq len : UInt32) : Bool :=
  let wnd := cb.rcv.wnd.toUInt32
  let tmp := seq + len - 1
  (len == 0 && wnd == 0 && seq == cb.rcv.nxt) ||
    (len == 0 && decide (wnd > 0) && T.inWindow cb seq) ||
    (decide (len > 0) && decide (wnd > 0) && (T.inWindow cb seq || T.inWindow cb tmp))

/-! ## `tcp_segments_arrives` with these tests -/

def synSentArrives (cb : TcpCb) (hdr : TcpHdr) : Except String Arrival :=
  let isAck := flgIsset hdr.flags TCP_FLG_ACK
  let isRst := flgIsset hdr.flags TCP_FLG_RST
  if isAck && T.bad cb hdr.ack then
    .ok (drop cb (if isRst then [] else [⟨hdr.ack, 0, TCP_FLG_RST⟩]))
  else
    let ackAcceptable := isAck && T.within cb hdr.ack
    if isRst then
      .ok (drop (if ackAcceptable then { cb with state := .closed } else cb) [])
    else if !ackAcceptable && !(!isAck && !isRst) then .error "TCP_CB_STATE_SYN_SENT error"
    else if flgIsset hdr.flags TCP_FLG_SYN then
      let cb₁ : TcpCb :=
        { cb with
          rcv := { cb.rcv with nxt := hdr.seq + 1 }
          irs := hdr.seq
          snd := if ackAcceptable then { cb.snd with una := hdr.ack } else cb.snd }
      if T.synAcked cb₁ then
        .ok ⟨{ cb₁ with state := .established }, [⟨cb₁.snd.nxt, cb₁.rcv.nxt, TCP_FLG_ACK⟩],
          none, [.cb]⟩
      else
        .ok (drop { cb₁ with state := .synRcvd }
          [⟨cb₁.iss, cb₁.rcv.nxt, TCP_FLG_SYN ||| TCP_FLG_ACK⟩])
    else .ok (drop cb [])

def ackEstablished (cb : TcpCb) (hdr : TcpHdr) (wakeups : List Chan) : AckOutcome :=
  if T.ackCheck cb hdr.ack = .unsent then
    .stop ⟨cb, [⟨cb.snd.nxt, cb.rcv.nxt, TCP_FLG_ACK⟩], none, wakeups⟩
  else
    let cb₁ : TcpCb :=
      if T.ackCheck cb hdr.ack = .new then { cb with snd := { cb.snd with una := hdr.ack } } else cb
    match cb₁.state with
    | .finWait1 =>
      .goOn (if hdr.ack == cb₁.snd.nxt then { cb₁ with state := .finWait2 } else cb₁) [] wakeups
    | .closing =>
      if hdr.ack == cb₁.snd.nxt then
        .stop ⟨{ cb₁ with state := .timeWait }, [], none, wakeups ++ [.cb]⟩
      else .stop ⟨cb₁, [], none, wakeups⟩
    | _ => .goOn cb₁ [] wakeups

def ackField (cb : TcpCb) (hdr : TcpHdr) : AckOutcome :=
  match cb.state with
  | .synRcvd =>
    if T.within cb hdr.ack then T.ackEstablished { cb with state := .established } hdr [.cb]
    else .goOn cb [⟨hdr.ack, 0, TCP_FLG_RST⟩] []
  | .established | .finWait1 | .finWait2 | .closeWait | .closing => T.ackEstablished cb hdr []
  | .lastAck =>
    .stop ⟨if hdr.ack == cb.snd.nxt then { cb with state := .closed } else cb, [], none, [.cb]⟩
  | _ => .goOn cb [] []

def synchronizedArrives (cb : TcpCb) (hdr : TcpHdr) (len : UInt32) : Arrival :=
  if !T.acceptable cb hdr.seq len then drop cb [⟨cb.snd.nxt, cb.rcv.nxt, TCP_FLG_ACK⟩]
  else if flgIsset hdr.flags TCP_FLG_RST then drop { cb with state := .closed } []
  else if flgIsset hdr.flags TCP_FLG_SYN then
    drop { cb with state := .closed } [⟨hdr.ack, 0, TCP_FLG_RST⟩]
  else if !flgIsset hdr.flags TCP_FLG_ACK then drop cb []
  else
    match T.ackField cb hdr with
    | .stop r => r
    | .goOn cb signals wakeups => finBit (segmentText ⟨cb, signals, none, wakeups⟩ hdr len) hdr

def arrives (rand : UInt32) (cb : TcpCb) (hdr : TcpHdr) (len : UInt32) : Except String Arrival :=
  let cb : TcpCb := { cb with rcv := { cb.rcv with wnd := hdr.win } }
  match cb.state with
  | .closed => .ok (closedArrives rand cb hdr len)
  | .listen => .ok (listenArrives rand cb hdr)
  | .synSent => T.synSentArrives cb hdr
  | _ => .ok (T.synchronizedArrives cb hdr len)

end Tests

section Plain

variable {rand : UInt32} {cb : TcpCb} {hdr : TcpHdr} {len : UInt32} {ws : List Chan}

theorem plain_acceptable (seq : UInt32) : plain.acceptable cb seq len = Tcp.acceptable cb seq len := rfl

theorem plain_ackEstablished : plain.ackEstablished cb hdr ws = Tcp.ackEstablished cb hdr ws := by
  unfold Tests.ackEstablished Tcp.ackEstablished plain
  dsimp only
  by_cases hnew : cb.snd.una < hdr.ack ∧ hdr.ack ≤ cb.snd.nxt
  · cases cb.state <;> simp [hnew]
  · by_cases hunsent : hdr.ack > cb.snd.nxt
    · simp [hunsent]
    · have hle : hdr.ack ≤ cb.snd.nxt := UInt32.not_lt.mp hunsent
      have hold : ¬ cb.snd.una < hdr.ack := fun h => hnew ⟨h, hle⟩
      cases hst : cb.state <;> simp [hold, hunsent, hst]

theorem plain_ackField : plain.ackField cb hdr = Tcp.ackField cb hdr := by
  unfold Tests.ackField Tcp.ackField
  simp only [plain_ackEstablished]
  cases cb.state <;> simp [plain]

/-- With the comparisons of the code, the function is that of the code. -/
theorem plain_arrives : plain.arrives rand cb hdr len = tcpSegmentsArrives rand cb hdr len := by
  have hsync : ∀ cb, plain.synchronizedArrives cb hdr len = Tcp.synchronizedArrives cb hdr len := by
    intro cb
    have hfield : plain.ackField cb hdr = Tcp.ackField cb hdr := plain_ackField
    unfold Tests.synchronizedArrives Tcp.synchronizedArrives
    generalize plain.ackField cb hdr = x at hfield ⊢
    subst hfield
    cases Tcp.ackField cb hdr <;> rfl
  have hsent : ∀ cb, plain.synSentArrives cb hdr = Tcp.synSentArrives cb hdr := by
    intro cb
    have hwithin : (flgIsset hdr.flags TCP_FLG_ACK && plain.within cb hdr.ack) =
        (flgIsset hdr.flags TCP_FLG_ACK && decide (hdr.ack ≥ cb.snd.una) &&
          decide (hdr.ack ≤ cb.snd.nxt)) := (Bool.and_assoc ..).symm
    unfold Tests.synSentArrives Tcp.synSentArrives
    dsimp only
    rw [hwithin]
    -- the two differ only in how the last test is written
    refine if_congr Iff.rfl rfl (if_congr Iff.rfl rfl (if_congr Iff.rfl rfl (if_congr Iff.rfl ?_ rfl)))
    exact if_congr decide_eq_true_iff rfl rfl
  unfold Tests.arrives tcpSegmentsArrives
  dsimp only
  cases hst : cb.state with
  | closed => rfl
  | listen => rfl
  | synSent => exact hsent _
  | _ => exact congrArg Except.ok (hsync _)

end Plain

/-! ## Where the tests agree -/

/-- The number of values of a `uint32` -/
def modulus : ℕ := 2 ^ 32

/-- Two sequence numbers are at most half of all of them apart, in the order of numbers. -/
def Close (a b : UInt32) : Prop := (b < a → a - b < 2 ^ 31) ∧ (a ≤ b → b - a ≤ 2 ^ 31)

section Agree

variable {a b x : UInt32}

theorem sub_eq_ahead (x a : UInt32) : (x - a).toNat = Circle.ahead modulus a.toNat x.toNat :=
  UInt32.toNat_sub x a

theorem toNat_lt_modulus (x : UInt32) : x.toNat < modulus := x.toNat_lt

/-- `a ≤ x ≤ b`, on the numbers between `a` and `b` and in the order of numbers -/
theorem between_agree_iff :
    ((a ≤ x ∧ x ≤ b) ↔ x - a ≤ b - a) ↔ a ≤ b ∨ ¬ x - a ≤ b - a := by
  by_cases hab : a ≤ b
  · refine iff_of_true ?_ (.inl hab)
    have h := Circle.between_iff (toNat_lt_modulus x) (UInt32.le_iff_toNat_le.mp hab) (toNat_lt_modulus b)
    unfold Circle.Between at h
    rw [← sub_eq_ahead, ← sub_eq_ahead] at h
    exact h.symm
  · -- no number is between them in the order of numbers
    have hno : ¬ (a ≤ x ∧ x ≤ b) := fun h => hab (UInt32.le_trans h.1 h.2)
    rw [or_iff_right hab, iff_false_left hno]

theorem pos_sub_iff : 0 < x - a ↔ x ≠ a := by
  have h := Circle.ahead_eq_zero (toNat_lt_modulus a) (toNat_lt_modulus x)
  rw [← sub_eq_ahead, UInt32.toNat_inj] at h
  rw [UInt32.lt_iff_toNat_lt]
  exact Nat.pos_iff_ne_zero.trans (not_congr h)

/-- `a < x ≤ b` -/
theorem above_agree_iff :
    ((a < x ∧ x ≤ b) ↔ 0 < x - a ∧ x - a ≤ b - a) ↔ a ≤ b ∨ ¬ (0 < x - a ∧ x - a ≤ b - a) := by
  rw [pos_sub_iff]
  by_cases hab : a ≤ b
  · refine iff_of_true ?_ (.inl hab)
    rw [← between_agree_iff.mpr (.inl hab), UInt32.lt_iff_le_and_ne]
    exact ⟨fun h => ⟨h.1.2.symm, h.1.1, h.2⟩, fun h => ⟨⟨h.2.1, h.1.symm⟩, h.2.2⟩⟩
  · have hno : ¬ (a < x ∧ x ≤ b) := fun h => hab (UInt32.le_trans (UInt32.le_of_lt h.1) h.2)
    rw [or_iff_right hab, iff_false_left hno]

/-- `a ≤ x < a + n` -/
theorem window_agree_iff {n : UInt16} :
    ((a ≤ x ∧ x < a + n.toUInt32) ↔ x - a < n.toUInt32) ↔
      a.toNat + n.toNat < modulus ∨ ¬ x - a < n.toUInt32 := by
  have hadd : (a + n.toUInt32).toNat = (a.toNat + n.toNat) % modulus := UInt32.toNat_add a n.toUInt32
  have ha := toNat_lt_modulus a
  have hn : n.toNat < modulus := n.toNat_lt.trans (by decide)
  by_cases hfits : a.toNat + n.toNat < modulus
  · refine iff_of_true ?_ (.inl hfits)
    have h := Circle.arc_iff (toNat_lt_modulus x) hfits.le ha
    unfold Circle.Arc at h
    rw [← sub_eq_ahead] at h
    rw [Nat.mod_eq_of_lt hfits] at hadd
    rw [UInt32.lt_iff_toNat_lt, UInt32.lt_iff_toNat_lt, UInt32.le_iff_toNat_le, hadd]
    exact h.symm
  · -- the end of the window is behind its beginning
    have hno : ¬ (a ≤ x ∧ x < a + n.toUInt32) := by
      rintro ⟨hle, hlt⟩
      rw [UInt32.lt_iff_toNat_lt, hadd, Nat.mod_eq_sub_mod (Nat.le_of_not_lt hfits),
        Nat.mod_eq_of_lt (by omega)] at hlt
      rw [UInt32.le_iff_toNat_le] at hle
      omega
    rw [or_iff_right hfits, iff_false_left hno]

/-- `a > b` -/
theorem after_agree_iff : (b < a ↔ 0 < a - b ∧ a - b < 2 ^ 31) ↔ Close a b := by
  have h := Circle.after_iff (toNat_lt_modulus b) (toNat_lt_modulus a)
  unfold Circle.After at h
  rw [← sub_eq_ahead] at h
  have hmodulus : modulus = 2 * (2 ^ 31 : UInt32).toNat := by decide
  have hfwd : b < a → (a - b).toNat = a.toNat - b.toNat :=
    fun hlt => UInt32.toNat_sub_of_le _ _ (UInt32.le_of_lt hlt)
  have hback : a ≤ b → (b - a).toNat = b.toNat - a.toNat := UInt32.toNat_sub_of_le _ _
  unfold Close
  simp only [UInt32.lt_iff_toNat_lt, UInt32.le_iff_toNat_le, UInt32.toNat_zero] at hfwd hback ⊢
  rw [hmodulus] at h
  omega

end Agree

section Decisions

variable (cb : TcpCb) (seq ack len : UInt32)

/-- The receive window ends before the last sequence number. -/
def WindowFits (cb : TcpCb) : Prop := cb.rcv.nxt.toNat + cb.rcv.wnd.toNat < modulus

theorem inWindow_eq_iff : plain.inWindow cb seq = modular.inWindow cb seq ↔
    WindowFits cb ∨ modular.inWindow cb seq = false := by
  unfold plain modular
  dsimp only
  rw [← Bool.decide_and, decide_eq_decide, decide_eq_false_iff_not]
  exact window_agree_iff

/-- In a window that goes past the last sequence number, the code finds nothing. -/
theorem inWindow_of_not_fits (h : ¬ WindowFits cb) : plain.inWindow cb seq = false := by
  cases hm : modular.inWindow cb seq with
  | false => exact ((inWindow_eq_iff cb seq).mpr (.inr hm)).trans hm
  | true =>
    refine Bool.eq_false_iff.mpr fun hp => ?_
    rcases (inWindow_eq_iff cb seq).mp (hp.trans hm.symm) with hfits | hno
    · exact h hfits
    · rw [hm] at hno
      cases hno

theorem acceptable_eq_iff : plain.acceptable cb seq len = modular.acceptable cb seq len ↔
    WindowFits cb ∨ modular.acceptable cb seq len = false := by
  by_cases hfits : WindowFits cb
  · refine iff_of_true ?_ (.inl hfits)
    have hwindow : ∀ x, plain.inWindow cb x = modular.inWindow cb x := fun x =>
      (inWindow_eq_iff cb x).mpr (.inl hfits)
    unfold Tests.acceptable
    dsimp only
    rw [hwindow, hwindow]
  · -- the code accepts nothing: the window is not empty
    have hwnd : (cb.rcv.wnd.toUInt32 == 0) = false := by
      rw [beq_eq_false_iff_ne]
      intro h
      have hzero : cb.rcv.wnd.toNat = 0 := congrArg UInt32.toNat h
      have hlt := toNat_lt_modulus cb.rcv.nxt
      exact hfits (by rw [WindowFits, hzero]; exact hlt)
    have hno : plain.acceptable cb seq len = false := by
      unfold Tests.acceptable
      dsimp only
      rw [inWindow_of_not_fits cb _ hfits, inWindow_of_not_fits cb _ hfits, hwnd]
      simp
    rw [hno, or_iff_right hfits]
    exact eq_comm

theorem bad_eq_iff : plain.bad cb ack = modular.bad cb ack ↔
    cb.iss ≤ cb.snd.nxt ∨ modular.bad cb ack = true := by
  have h := @above_agree_iff cb.iss cb.snd.nxt ack
  have hplain : plain.bad cb ack = !decide (cb.iss < ack ∧ ack ≤ cb.snd.nxt) := by
    simp [plain, ← UInt32.not_lt]
  have hmodular : modular.bad cb ack =
      !decide (0 < ack - cb.iss ∧ ack - cb.iss ≤ cb.snd.nxt - cb.iss) := by
    simp [modular]
  rw [hplain, hmodular, Bool.not_inj_iff, decide_eq_decide, h, Bool.not_eq_true',
    decide_eq_false_iff_not]

theorem within_eq_iff : plain.within cb ack = modular.within cb ack ↔
    cb.snd.una ≤ cb.snd.nxt ∨ modular.within cb ack = false := by
  unfold plain modular
  dsimp only
  rw [← Bool.decide_and, decide_eq_decide, decide_eq_false_iff_not]
  exact between_agree_iff

theorem synAcked_eq_iff : plain.synAcked cb = modular.synAcked cb ↔ Close cb.snd.una cb.iss := by
  unfold plain modular
  dsimp only
  rw [← Bool.decide_and, decide_eq_decide]
  exact after_agree_iff

/-- An acknowledgment of something new is told as such if `SND.UNA` is at most `SND.NXT`, and another
    one is told from those of something not sent if it is close to `SND.NXT`. -/
theorem ackCheck_eq_iff : plain.ackCheck cb ack = modular.ackCheck cb ack ↔
    (modular.ackCheck cb ack = .new → cb.snd.una ≤ cb.snd.nxt) ∧
      (modular.ackCheck cb ack ≠ .new → Close ack cb.snd.nxt) := by
  have hnew := @above_agree_iff cb.snd.una cb.snd.nxt ack
  have hunsent := @after_agree_iff ack cb.snd.nxt
  unfold plain modular
  dsimp only
  by_cases hmod : 0 < ack - cb.snd.una ∧ ack - cb.snd.una ≤ cb.snd.nxt - cb.snd.una
  · rw [if_pos hmod, and_iff_left (absurd rfl), forall_prop_of_true rfl]
    rw [or_iff_left (not_not.mpr hmod), iff_true_right hmod] at hnew
    rw [← hnew]
    constructor
    · intro heq
      by_contra hnot
      rw [if_neg hnot] at heq
      split at heq <;> cases heq
    · exact fun h => if_pos h
  · -- neither of the two takes it for new
    have hplain : ¬ (cb.snd.una < ack ∧ ack ≤ cb.snd.nxt) := fun h =>
      hmod ((hnew.mpr (.inr hmod)).mp h)
    rw [if_neg hmod, if_neg hplain, ← hunsent]
    by_cases hfar : 0 < ack - cb.snd.nxt ∧ ack - cb.snd.nxt < 2 ^ 31
    · rw [if_pos hfar, iff_true_right hfar]
      by_cases hgt : ack > cb.snd.nxt
      · simp [hgt]
      · simp [hgt]
    · rw [if_neg hfar, iff_false_right hfar]
      by_cases hgt : ack > cb.snd.nxt
      · simp [hgt]
      · simp [hgt]

/-- **Sequence arithmetic is modular** exactly where no window that matters goes past the last
    sequence number. -/
theorem sequence_tests_iff (cb : TcpCb) (seq ack len : UInt32) :
    (∀ rand hdr textLen, plain.arrives rand cb hdr textLen = tcpSegmentsArrives rand cb hdr textLen) ∧
      (plain.acceptable cb seq len = modular.acceptable cb seq len ↔
        WindowFits cb ∨ modular.acceptable cb seq len = false) ∧
      (plain.bad cb ack = modular.bad cb ack ↔ cb.iss ≤ cb.snd.nxt ∨ modular.bad cb ack = true) ∧
      (plain.within cb ack = modular.within cb ack ↔
        cb.snd.una ≤ cb.snd.nxt ∨ modular.within cb ack = false) ∧
      (plain.synAcked cb = modular.synAcked cb ↔ Close cb.snd.una cb.iss) ∧
      (plain.ackCheck cb ack = modular.ackCheck cb ack ↔
        (modular.ackCheck cb ack = .new → cb.snd.una ≤ cb.snd.nxt) ∧
          (modular.ackCheck cb ack ≠ .new → Close ack cb.snd.nxt)) :=
  ⟨fun _ _ _ => plain_arrives, acceptable_eq_iff cb seq len, bad_eq_iff cb ack, within_eq_iff cb ack,
    synAcked_eq_iff cb, ackCheck_eq_iff cb ack⟩

end Decisions

/-- A connection whose windows both hold the last sequence number and 0 -/
def wrapped : TcpCb where
  state := .established
  iss := 0xfffffffe
  irs := 0xfffffff0
  snd := ⟨1, 0xffffffff⟩
  rcv := ⟨0xffffffff, 2⟩

/-- The byte with the last sequence number, which is the one that is expected, is refused. -/
theorem wrapped_refused : ¬ ∀ (cb : TcpCb) (seq ack len : UInt32),
    plain.acceptable cb seq len = modular.acceptable cb seq len ∧
      plain.bad cb ack = modular.bad cb ack ∧ plain.within cb ack = modular.within cb ack ∧
      plain.ackCheck cb ack = modular.ackCheck cb ack := by
  intro h
  obtain ⟨hacceptable, -⟩ := h wrapped 0xffffffff 0 1
  exact absurd hacceptable (by decide)

end Xv6.Kernel.TcpSequence
