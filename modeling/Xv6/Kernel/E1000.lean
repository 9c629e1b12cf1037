import Mathlib
import Xv6.Lib.Circle
import Xv6.Lib.TransitionSystem

/-!
# The Transmit Ring of the E1000

`e1000_send` puts the packets of `txq` into the ring of transmit descriptors, one or two descriptors
for each. The device goes through the ring behind it: before every access to the registers and to
a descriptor it may have moved on.

If the ring is full, the functions for the descriptors release `e1000_lock`, and so does
`e1000_send` after its loop. The second `release` panics.

- `fill_spec`: what a burst for which there is room does;
- `inv_step`: who owns the buffers, in every state;
- `send_right_iff`: a burst is sent as it has to be if and only if there is room for it.
-/

namespace Xv6.Kernel.E1000

open Xv6.Lib

/-! ## The device and the driver -/

def TX_RING_SIZE : ℕ := 16

def MBUF_CSUM_OFLD_ENABLE : UInt8 := 1
def MBUF_CSUM_OFLD_TCP : UInt8 := 2
def TCP_CB_WND_SIZE : UInt16 := 2048

def E1000_TXD_CMD_EOP : UInt8 := 0x01
def E1000_TXD_DTYP_D : UInt8 := 0x10
def E1000_TXD_CMD_TSE : UInt8 := 0x04
def E1000_TXD_CMD_RS : UInt8 := 0x08
def E1000_TXD_CMD_DEXT : UInt8 := 0x20
def E1000_TXD_CMD_IDE : UInt8 := 0x80
def E1000_TXD_POPTS_IXSM : UInt8 := 0x01
def E1000_TXD_POPTS_TXSM : UInt8 := 0x02
def E1000_TXD_STAT_DD : UInt8 := 0x01

/-- `struct tx_desc` -/
structure TxDesc where
  addr : UInt64
  length : UInt16
  cso : UInt8
  cmd : UInt8
  status : UInt8
  css : UInt8
  special : UInt16

/-- What the driver reads of a `struct mbuf`, and its address -/
structure Mbuf where
  addr : ℕ
  head : UInt64
  len : UInt32
  checksumOffload : UInt8

/-- `MBUF_CSUM_OFLD_ENABLE` is set. -/
def Mbuf.offload (m : Mbuf) : Bool := m.checksumOffload &&& MBUF_CSUM_OFLD_ENABLE != 0

/-- `MBUF_CSUM_OFLD_TCP` is set. -/
def Mbuf.offloadTcp (m : Mbuf) : Bool := m.checksumOffload &&& MBUF_CSUM_OFLD_TCP != 0

/-- The registers and the ring of the device, and the buffers that the driver has put into it -/
structure Nic where
  /-- `regs[E1000_TDH]` -/
  tdh : ℕ
  /-- `regs[E1000_TDT]` -/
  tdt : ℕ
  /-- `tx_ring[]` -/
  txRing : ℕ → TxDesc
  /-- `tx_mbufs[]` -/
  txMbufs : ℕ → Option ℕ

/-- How far the device goes on, and for which descriptors it sets `E1000_TXD_STAT_DD` -/
structure Move where
  steps : ℕ
  done : ℕ → Bool

namespace Nic

/-- The number of descriptors from `TDH` up to `TDT` -/
def pending (n : Nic) : ℕ := Circle.ahead TX_RING_SIZE n.tdh n.tdt

/-- The slot is one of those from `TDH` up to `TDT`. -/
def InFlight (n : Nic) (slot : ℕ) : Prop := Circle.Arc TX_RING_SIZE n.tdh n.pending slot

/-- The device goes on, up to `TDT` at most. -/
def advance (n : Nic) (d : Move) : Nic :=
  { n with
    tdh := (n.tdh + min d.steps n.pending) % TX_RING_SIZE
    txRing := fun i =>
      if d.done i then { n.txRing i with status := (n.txRing i).status ||| E1000_TXD_STAT_DD }
      else n.txRing i }

/-- The ring is full, or the descriptor at `TDT` has not been sent. -/
def full (n : Nic) : Bool :=
  (n.tdt + 1) % TX_RING_SIZE == n.tdh || (n.txRing n.tdt).status &&& E1000_TXD_STAT_DD == 0

/-- Write the descriptor at `TDT`, and move `TDT` on. -/
def putDesc (n : Nic) (desc : TxDesc) : Nic :=
  { n with txRing := Function.update n.txRing n.tdt desc, tdt := (n.tdt + 1) % TX_RING_SIZE }

/-- The descriptor that `e1000_context_desc_transmit` writes -/
def contextDesc (n : Nic) (m : Mbuf) : TxDesc :=
  let desc := n.txRing n.tdt
  let ipcse : UInt64 := 33
  let ipcso : UInt64 := 24
  let ipcss : UInt64 := 14
  let desc : TxDesc := { desc with
    addr := (ipcse <<< 16) ||| (ipcso <<< 8) ||| ipcss
    cmd := E1000_TXD_CMD_DEXT ||| E1000_TXD_CMD_RS ||| E1000_TXD_CMD_IDE ||| 2 }
  if m.offloadTcp then
    let tucse : UInt64 := 0
    let tucso : UInt64 := 50
    let tucss : UInt64 := 34
    { desc with
      addr := desc.addr ||| ((tucse <<< 48) ||| (tucso <<< 40) ||| (tucss <<< 32))
      length := m.len.toUInt16
      cmd := desc.cmd ||| (1 ||| E1000_TXD_CMD_TSE)
      special := TCP_CB_WND_SIZE
      css := (tucso + 4).toUInt8 }
  else desc

/-- The descriptor that `e1000_transmit` writes -/
def dataDesc (n : Nic) (m : Mbuf) : TxDesc :=
  let desc : TxDesc := { n.txRing n.tdt with
    addr := m.head
    length := m.len.toUInt16
    cmd := E1000_TXD_CMD_RS ||| E1000_TXD_CMD_EOP ||| E1000_TXD_CMD_IDE }
  if m.offload then
    let desc : TxDesc := { desc with
      cmd := desc.cmd ||| E1000_TXD_CMD_DEXT
      cso := E1000_TXD_DTYP_D
      css := E1000_TXD_POPTS_IXSM }
    if m.offloadTcp then
      { desc with cmd := desc.cmd ||| E1000_TXD_CMD_TSE, css := desc.css ||| E1000_TXD_POPTS_TXSM }
    else desc
  else desc

end Nic

/-! ## `e1000_send` -/

/-- What happens on the way, with the state of the ring at that moment -/
inductive Event where
  /-- `acquire(&e1000_lock)` -/
  | acquire
  /-- `release(&e1000_lock)` -/
  | release
  /-- The descriptor of a slot is written. -/
  | write (slot : ℕ) (now : Nic)
  /-- `mbuffree` -/
  | free (m : ℕ) (now : Nic)

/-- `e1000_send` at work -/
structure Sending where
  nic : Nic
  /-- This CPU holds `e1000_lock`. -/
  locked : Bool
  log : List Event
  /-- The number of moves that the device has made -/
  moves : ℕ

namespace Sending

variable (dev : ℕ → Move)

/-- The device makes its next move. -/
def tick (s : Sending) : Sending :=
  { s with nic := s.nic.advance (dev s.moves), moves := s.moves + 1 }

def addLog (s : Sending) (e : Event) : Sending := { s with log := s.log ++ [e] }

/-- `release(&e1000_lock)`, which panics if this CPU does not hold the lock -/
def release (s : Sending) : Except String Sending :=
  if s.locked then .ok { s.addLog .release with locked := false } else .error "release"

/-- `e1000_context_desc_transmit(m)`: whether it returns 0 -/
def contextDescTransmit (s : Sending) (m : Mbuf) : Except String (Sending × Bool) :=
  let s := s.tick dev
  if s.nic.full then s.release.map (·, false)
  else
    let s := s.tick dev
    let s := s.addLog (.write s.nic.tdt s.nic)
    .ok ({ s with nic := s.nic.putDesc (s.nic.contextDesc m) }, true)

/-- `e1000_transmit(m)` behind the context descriptor -/
def dataDescTransmit (s : Sending) (m : Mbuf) : Except String (Sending × Bool) :=
  let s := s.tick dev
  if s.nic.full then s.release.map (·, false)
  else
    let s := s.tick dev
    let tdt := s.nic.tdt
    let s :=
      match s.nic.txMbufs tdt with
      | some old => s.addLog (.free old s.nic)
      | none => s
    let s := s.addLog (.write tdt s.nic)
    let nic := s.nic.putDesc (s.nic.dataDesc m)
    .ok ({ s with nic := { nic with txMbufs := Function.update nic.txMbufs tdt (some m.addr) } }, true)

/-- `e1000_transmit(m)` -/
def transmit (s : Sending) (m : Mbuf) : Except String (Sending × Bool) :=
  if m.offload then
    match s.contextDescTransmit dev m with
    | .error e => .error e
    | .ok (s, false) => .ok (s, false)
    | .ok (s, true) => s.dataDescTransmit dev m
  else s.dataDescTransmit dev m

/-- The loop of `e1000_send` -/
def fill (s : Sending) : List Mbuf → Except String Sending
  | [] => .ok s
  | cur :: txq =>
    match s.transmit dev cur with
    | .error e => .error e
    | .ok (s, true) => fill s txq
    | .ok (s, false) => fill (s.addLog (.free cur.addr s.nic)) txq

end Sending

/-- `e1000_send()` -/
def e1000Send (dev : ℕ → Move) (nic : Nic) (txq : List Mbuf) : Except String Sending :=
  match Sending.fill dev ⟨nic, true, [.acquire], 0⟩ txq with
  | .error e => .error e
  | .ok s => s.release

/-! ## What it has to do -/

/-- How often a buffer is freed -/
def frees (log : List Event) (m : ℕ) : ℕ :=
  log.countP fun
    | .free a _ => a == m
    | _ => false

/-- The buffer is recorded for one slot and has not been freed, or has been freed once and is
    recorded for none. -/
def Fate (nic : Nic) (log : List Event) (m : ℕ) : Prop :=
  (∃ i < TX_RING_SIZE, nic.txMbufs i = some m ∧ ∀ j < TX_RING_SIZE, nic.txMbufs j = some m → j = i) ∧
      frees log m = 0 ∨
    (∀ i < TX_RING_SIZE, nic.txMbufs i ≠ some m) ∧ frees log m = 1

/-- No descriptor in flight is written, and no buffer of one is freed. -/
def Event.Safe : Event → Prop
  | .write slot now => ¬ now.InFlight slot
  | .free m now => ∀ i < TX_RING_SIZE, now.InFlight i → now.txMbufs i ≠ some m
  | _ => True

/-- **A burst is sent**: the lock is acquired and released once, nothing in flight is touched, and each
    packet is in the ring or has been freed. -/
def Sent (txq : List Mbuf) (r : Except String Sending) : Prop :=
  ∃ s log, r = .ok s ∧ s.locked = false ∧ s.log = .acquire :: log ++ [.release] ∧
    (∀ e ∈ log, e ≠ .acquire ∧ e ≠ .release) ∧ (∀ e ∈ s.log, e.Safe) ∧
    ∀ m ∈ txq, Fate s.nic s.log m.addr

/-- The number of descriptors for a packet -/
def Mbuf.descs (m : Mbuf) : ℕ := if m.offload then 2 else 1

/-- The number of descriptors that are pending before the `j`-th of a burst is written: the device
    moves before the test for room and after it. -/
def pendingBefore (dev : ℕ → Move) (p : ℕ) : ℕ → ℕ
  | 0 => p - (dev 0).steps
  | j + 1 => pendingBefore dev p j - (dev (2 * j + 1)).steps + 1 - (dev (2 * j + 2)).steps

/-- Whenever a descriptor of the burst is to be written, the device has left room for it. -/
def Room (dev : ℕ → Move) (p : ℕ) (txq : List Mbuf) : Prop :=
  ∀ j < (txq.map Mbuf.descs).sum, pendingBefore dev p j + 1 < TX_RING_SIZE

/-! ## The ring -/

namespace Nic

variable {n : Nic} {d : Move} {desc : TxDesc} {m : Mbuf}

/-- The registers are slots, and all descriptors have been sent. -/
structure Valid (n : Nic) : Prop where
  tdh : n.tdh < TX_RING_SIZE
  tdt : n.tdt < TX_RING_SIZE
  done : ∀ i, (n.txRing i).status &&& E1000_TXD_STAT_DD ≠ 0

theorem pending_lt (n : Nic) : n.pending < TX_RING_SIZE := Circle.ahead_lt (by decide) ..

/-- Setting a bit sets it. -/
theorem or_and_ne_zero (x : UInt8) : (x ||| E1000_TXD_STAT_DD) &&& E1000_TXD_STAT_DD ≠ 0 := by
  intro h
  have hbit := congrArg (fun y : UInt8 => y.toBitVec.getLsbD 0) h
  simp [E1000_TXD_STAT_DD] at hbit

theorem Valid.advance (h : n.Valid) (d : Move) : (n.advance d).Valid := by
  refine ⟨Nat.mod_lt _ (by decide), h.tdt, fun i => ?_⟩
  show (if d.done i then _ else n.txRing i).status &&& _ ≠ 0
  split
  · exact or_and_ne_zero _
  · exact h.done i

/-- The device leaves that many descriptors fewer. -/
theorem pending_advance (h : n.Valid) (d : Move) : (n.advance d).pending = n.pending - d.steps := by
  have hadd := Circle.ahead_add h.tdh h.tdt (Nat.min_le_right d.steps n.pending)
  refine hadd.trans ?_
  show n.pending - min d.steps n.pending = n.pending - d.steps
  omega

theorem full_iff (h : n.Valid) : n.full = true ↔ n.pending + 1 = TX_RING_SIZE := by
  have hdone : ((n.txRing n.tdt).status &&& E1000_TXD_STAT_DD == 0) = false :=
    beq_eq_false_iff_ne.mpr (h.done n.tdt)
  rw [full, hdone, Bool.or_false, beq_iff_eq]
  exact Circle.succ_mod_eq_iff h.tdh h.tdt

theorem Valid.putDesc (h : n.Valid) (hdesc : desc.status = (n.txRing n.tdt).status) :
    (n.putDesc desc).Valid := by
  refine ⟨h.tdh, Nat.mod_lt _ (by decide), fun i => ?_⟩
  show (Function.update n.txRing n.tdt desc i).status &&& _ ≠ 0
  by_cases hi : i = n.tdt
  · rw [hi, Function.update_self, hdesc]
    exact h.done n.tdt
  · rw [Function.update_of_ne hi]
    exact h.done i

theorem pending_putDesc (h : n.Valid) (hroom : n.pending + 1 < TX_RING_SIZE) :
    (n.putDesc desc).pending = n.pending + 1 :=
  Circle.ahead_succ h.tdh h.tdt hroom

/-- The descriptor at `TDT` is not in flight. -/
theorem not_inFlight_tdt (n : Nic) : ¬ n.InFlight n.tdt := Nat.lt_irrefl _

@[simp] theorem contextDesc_status : (n.contextDesc m).status = (n.txRing n.tdt).status := by
  unfold contextDesc
  split <;> rfl

@[simp] theorem dataDesc_status : (n.dataDesc m).status = (n.txRing n.tdt).status := by
  unfold dataDesc
  dsimp only
  split
  · split <;> rfl
  · rfl

end Nic

/-! ## A burst for which there is room -/

section Burst

variable {dev : ℕ → Move} {p j : ℕ} {popped rest : List ℕ} {s s' : Sending} {m : Mbuf} {a b : ℕ}

theorem frees_append (log : List Event) (e : Event) (a : ℕ) :
    frees (log ++ [e]) a = frees log a + frees [e] a := List.countP_append ..

theorem frees_free (a b : ℕ) (n : Nic) : frees [.free a n] b = if a = b then 1 else 0 := by
  unfold frees
  by_cases h : a = b <;> simp [h]

/-- A log of a burst: it begins with `acquire`, and nothing in it touches a descriptor in flight. -/
def LogOk (l : List Event) : Prop :=
  ∃ log, l = .acquire :: log ∧ (∀ e ∈ log, e ≠ .acquire ∧ e ≠ .release) ∧ ∀ e ∈ l, e.Safe

theorem LogOk.append {l : List Event} {e : Event} (h : LogOk l) (hlock : e ≠ .acquire ∧ e ≠ .release)
    (hsafe : e.Safe) : LogOk (l ++ [e]) := by
  obtain ⟨log, rfl, hlocks, hall⟩ := h
  refine ⟨log ++ [e], rfl, fun e' he' => ?_, fun e' he' => ?_⟩
  · rcases List.mem_append.mp he' with he' | he'
    · exact hlocks e' he'
    · rw [List.mem_singleton.mp he']
      exact hlock
  · rcases List.mem_append.mp he' with he' | he'
    · exact hall e' he'
    · rw [List.mem_singleton.mp he']
      exact hsafe

/-- Who has the buffers: `popped` have been dealt with, and `rest` are still in `txq`. -/
structure Owners (nic : Nic) (log : List Event) (popped rest : List ℕ) : Prop where
  inj : ∀ i < TX_RING_SIZE, ∀ k < TX_RING_SIZE, ∀ a, nic.txMbufs i = some a →
    nic.txMbufs k = some a → i = k
  fate : ∀ a ∈ popped, Fate nic log a
  fresh : ∀ a ∈ rest, (∀ i < TX_RING_SIZE, nic.txMbufs i ≠ some a) ∧ frees log a = 0
  nodup : (popped ++ rest).Nodup

/-- Only the buffers of the slots and the frees matter. -/
theorem Owners.congr {nic nic' : Nic} {log log' : List Event} (h : Owners nic log popped rest)
    (hnic : nic'.txMbufs = nic.txMbufs) (hlog : ∀ a, frees log' a = frees log a) :
    Owners nic' log' popped rest := by
  refine ⟨?_, fun a ha => ?_, fun a ha => ?_, h.nodup⟩
  · rw [hnic]
    exact h.inj
  · rw [Fate, hnic, hlog]
    exact h.fate a ha
  · rw [hnic, hlog]
    exact h.fresh a ha

/-- The buffer of a slot is freed and replaced by the next one of `txq`. -/
theorem Owners.record {nic nic' : Nic} {log log' : List Event} {tdt : ℕ}
    (h : Owners nic log popped (b :: rest)) (htdt : tdt < TX_RING_SIZE)
    (hnic : nic'.txMbufs = Function.update nic.txMbufs tdt (some b))
    (hlog : ∀ a, frees log' a = frees log a + if nic.txMbufs tdt = some a then 1 else 0) :
    Owners nic' log' (popped ++ [b]) rest := by
  obtain ⟨hb, hbfree⟩ := h.fresh b List.mem_cons_self
  have hself : nic'.txMbufs tdt = some b := by rw [hnic, Function.update_self]
  have hother : ∀ i, i ≠ tdt → nic'.txMbufs i = nic.txMbufs i := fun i hi => by
    rw [hnic, Function.update_of_ne hi]
  have hnodup := List.nodup_append.mp h.nodup
  -- a buffer other than the new one is recorded where it was, except in this slot
  have hkept : ∀ a, a ≠ b → ∀ i, nic'.txMbufs i = some a ↔ i ≠ tdt ∧ nic.txMbufs i = some a := by
    intro a hab i
    by_cases hi : i = tdt
    · subst hi
      rw [hself]
      exact iff_of_false (fun heq => hab (Option.some.inj heq).symm) fun hc => hc.1 rfl
    · rw [hother i hi]
      exact (and_iff_right hi).symm
  refine ⟨fun i hi k hk a hia hka => ?_, fun a ha => ?_, fun a ha => ?_, by simpa using h.nodup⟩
  · by_cases hab : a = b
    · subst hab
      have hslot : ∀ i < TX_RING_SIZE, nic'.txMbufs i = some a → i = tdt := fun i hi hia => by
        by_contra hne
        exact hb i hi ((hother i hne).symm.trans hia)
      exact (hslot i hi hia).trans (hslot k hk hka).symm
    · exact h.inj i hi k hk a ((hkept a hab i).mp hia).2 ((hkept a hab k).mp hka).2
  · rcases List.mem_append.mp ha with ha | ha
    · have hab : a ≠ b := hnodup.2.2 a ha b List.mem_cons_self
      unfold Fate
      rw [hlog]
      rcases h.fate a ha with ⟨⟨i, hi, hia, huniq⟩, hfree⟩ | ⟨hnone, hfree⟩
      · by_cases hit : i = tdt
        · -- it is the buffer of this slot
          subst hit
          refine .inr ⟨fun k hk hka => ?_, by rw [if_pos hia, hfree]⟩
          obtain ⟨hne, hka⟩ := (hkept a hab k).mp hka
          exact hne (huniq k hk hka)
        · refine .inl ⟨⟨i, hi, (hkept a hab i).mpr ⟨hit, hia⟩, fun k hk hka =>
            huniq k hk ((hkept a hab k).mp hka).2⟩, ?_⟩
          rw [if_neg fun htdta => hit (huniq tdt htdt htdta).symm, hfree]
      · refine .inr ⟨fun i hi hia => hnone i hi ((hkept a hab i).mp hia).2, ?_⟩
        rw [if_neg (hnone tdt htdt), hfree]
    · rw [List.mem_singleton.mp ha]
      refine .inl ⟨⟨tdt, htdt, hself, fun k hk hkb => ?_⟩, ?_⟩
      · by_contra hne
        exact hb k hk ((hother k hne).symm.trans hkb)
      · rw [hlog, hbfree, if_neg (hb tdt htdt)]
  · obtain ⟨hnone, hfree⟩ := h.fresh a (List.mem_cons_of_mem _ ha)
    have hab : a ≠ b := fun heq => (List.nodup_cons.mp hnodup.2.1).1 (heq ▸ ha)
    refine ⟨fun i hi hia => hnone i hi ((hkept a hab i).mp hia).2, ?_⟩
    rw [hlog, hfree, if_neg (hnone tdt htdt)]

/-- **What holds on the way**: the lock is held, and `j` descriptors have been written. -/
structure Filling (dev : ℕ → Move) (p j : ℕ) (popped rest : List ℕ) (s : Sending) : Prop where
  valid : s.nic.Valid
  locked : s.locked = true
  moves : s.moves = 2 * j
  pending : s.nic.pending - (dev (2 * j)).steps = pendingBefore dev p j
  log : LogOk s.log
  owners : Owners s.nic s.log popped rest

/-- Whether there is room for the next descriptor -/
theorem Filling.full_iff (h : Filling dev p j popped rest s) :
    (s.tick dev).nic.full = true ↔ pendingBefore dev p j + 1 = TX_RING_SIZE := by
  have hmoves := h.moves
  unfold Sending.tick
  dsimp only
  rw [Nic.full_iff (h.valid.advance _), Nic.pending_advance h.valid, hmoves, h.pending]

/-- The device moves twice, and a descriptor is written. -/
theorem Filling.ticked (h : Filling dev p j popped rest s)
    (hroom : pendingBefore dev p j + 1 < TX_RING_SIZE) :
    ((s.tick dev).tick dev).moves = 2 * (j + 1) ∧ ∀ desc,
      desc.status = (((s.tick dev).tick dev).nic.txRing s.nic.tdt).status →
      (((s.tick dev).tick dev).nic.putDesc desc).Valid ∧
        (((s.tick dev).tick dev).nic.putDesc desc).pending - (dev (2 * (j + 1))).steps =
          pendingBefore dev p (j + 1) := by
  have hmoves := h.moves
  have hvalid₁ := h.valid.advance (dev s.moves)
  have hpending₁ : (s.tick dev).nic.pending = pendingBefore dev p j := by
    refine (Nic.pending_advance h.valid _).trans ?_
    rw [hmoves]
    exact h.pending
  have hvalid₂ := hvalid₁.advance (dev (s.tick dev).moves)
  have hpending₂ : ((s.tick dev).tick dev).nic.pending =
      pendingBefore dev p j - (dev (2 * j + 1)).steps := by
    refine (Nic.pending_advance hvalid₁ _).trans ?_
    rw [← hpending₁, ← hmoves]
    rfl
  refine ⟨?_, fun desc hdesc => ⟨hvalid₂.putDesc hdesc, ?_⟩⟩
  · show s.moves + 1 + 1 = 2 * (j + 1)
    omega
  · have hput : (((s.tick dev).tick dev).nic.putDesc desc).pending = _ := Nic.pending_putDesc hvalid₂ (by
      show ((s.tick dev).tick dev).nic.pending + 1 < TX_RING_SIZE
      omega)
    refine (congrArg (· - _) (hput.trans (congrArg (· + 1) hpending₂))).trans ?_
    rfl

/-- The context descriptor of a packet -/
theorem Filling.context (h : Filling dev p j popped rest s)
    (hroom : pendingBefore dev p j + 1 < TX_RING_SIZE) (m : Mbuf) :
    ∃ s', s.contextDescTransmit dev m = .ok (s', true) ∧ Filling dev p (j + 1) popped rest s' := by
  have hfull : (s.tick dev).nic.full ≠ true := fun hf => hroom.ne (h.full_iff.mp hf)
  obtain ⟨hmoves, hput⟩ := h.ticked hroom
  obtain ⟨hvalid, hpending⟩ := hput _ (Nic.contextDesc_status (m := m))
  set s₁ := (s.tick dev).tick dev with hs₁
  refine ⟨_, if_neg hfull, hvalid, h.locked, hmoves, hpending, ?_, ?_⟩
  · exact h.log.append ⟨nofun, nofun⟩ (Nic.not_inFlight_tdt s₁.nic)
  · exact h.owners.congr rfl fun a => frees_append s.log _ a

/-- The events of a data descriptor: the buffer that the slot has had is freed. -/
def dataEvents (n : Nic) : List Event :=
  match n.txMbufs n.tdt with
  | some old => [.free old n, .write n.tdt n]
  | none => [.write n.tdt n]

theorem dataDescTransmit_eq (hfull : (s.tick dev).nic.full ≠ true) :
    s.dataDescTransmit dev m = .ok ({ (s.tick dev).tick dev with
      nic := { ((s.tick dev).tick dev).nic.putDesc (((s.tick dev).tick dev).nic.dataDesc m) with
        txMbufs := Function.update ((s.tick dev).tick dev).nic.txMbufs ((s.tick dev).tick dev).nic.tdt
          (some m.addr) }
      log := s.log ++ dataEvents ((s.tick dev).tick dev).nic }, true) := by
  refine (if_neg hfull).trans ?_
  unfold dataEvents
  dsimp only
  cases ((s.tick dev).tick dev).nic.txMbufs ((s.tick dev).tick dev).nic.tdt with
  | none => rfl
  | some old =>
    refine congrArg (fun l => Except.ok (Sending.mk _ _ l _, true)) ?_
    exact List.append_assoc ..

theorem frees_dataEvents (log : List Event) (n : Nic) (a : ℕ) :
    frees (log ++ dataEvents n) a = frees log a + if n.txMbufs n.tdt = some a then 1 else 0 := by
  refine (List.countP_append ..).trans (congrArg _ ?_)
  unfold dataEvents
  cases n.txMbufs n.tdt with
  | none => rfl
  | some old =>
    have hfree : frees [.free old n, .write n.tdt n] a = frees [.free old n] a :=
      frees_append [.free old n] (.write n.tdt n) a
    exact (hfree.trans (frees_free old a n)).trans (if_congr Option.some_inj rfl rfl).symm

/-- The slot of the buffer that is freed is the only one that has it, and is not in flight. -/
theorem logOk_dataEvents {l : List Event} {n : Nic} (h : LogOk l) (hn : n.Valid)
    (hinj : ∀ i < TX_RING_SIZE, ∀ k < TX_RING_SIZE, ∀ a, n.txMbufs i = some a →
      n.txMbufs k = some a → i = k) : LogOk (l ++ dataEvents n) := by
  have hwrite : (Event.write n.tdt n).Safe := Nic.not_inFlight_tdt n
  unfold dataEvents
  cases hold : n.txMbufs n.tdt with
  | none => exact h.append ⟨nofun, nofun⟩ hwrite
  | some old =>
    have hfree : (Event.free old n).Safe := fun i hi hflight hio =>
      n.not_inFlight_tdt (hinj i hi n.tdt hn.tdt old hio hold ▸ hflight)
    have hl : LogOk (l ++ [.free old n]) := h.append ⟨nofun, nofun⟩ hfree
    have happend : LogOk (l ++ [.free old n] ++ [.write n.tdt n]) := hl.append ⟨nofun, nofun⟩ hwrite
    rw [List.append_assoc] at happend
    exact happend

/-- The data descriptor of the next packet -/
theorem Filling.data (h : Filling dev p j popped (m.addr :: rest) s)
    (hroom : pendingBefore dev p j + 1 < TX_RING_SIZE) :
    ∃ s', s.dataDescTransmit dev m = .ok (s', true) ∧
      Filling dev p (j + 1) (popped ++ [m.addr]) rest s' := by
  have hfull : (s.tick dev).nic.full ≠ true := fun hf => hroom.ne (h.full_iff.mp hf)
  obtain ⟨hmoves, hput⟩ := h.ticked hroom
  obtain ⟨hvalid, hpending⟩ := hput _ (Nic.dataDesc_status (m := m))
  have hvalid₂ : ((s.tick dev).tick dev).nic.Valid := (h.valid.advance _).advance _
  refine ⟨_, dataDescTransmit_eq hfull, ⟨hvalid.tdh, hvalid.tdt, hvalid.done⟩, h.locked, hmoves,
    hpending, logOk_dataEvents h.log hvalid₂ h.owners.inj, ?_⟩
  exact h.owners.record hvalid₂.tdt rfl fun a => frees_dataEvents s.log _ a

/-- A packet for which there is room -/
theorem Filling.transmit (h : Filling dev p j popped (m.addr :: rest) s)
    (hroom : ∀ k < m.descs, pendingBefore dev p (j + k) + 1 < TX_RING_SIZE) :
    ∃ s', s.transmit dev m = .ok (s', true) ∧
      Filling dev p (j + m.descs) (popped ++ [m.addr]) rest s' := by
  unfold Sending.transmit
  cases hm : m.offload with
  | false =>
    have hdescs : m.descs = 1 := by rw [Mbuf.descs, hm]; rfl
    rw [hdescs] at hroom ⊢
    exact h.data (hroom 0 (by decide))
  | true =>
    have hdescs : m.descs = 2 := by rw [Mbuf.descs, hm]; rfl
    rw [hdescs] at hroom ⊢
    obtain ⟨s₁, hs₁, h₁⟩ := h.context (hroom 0 (by decide)) m
    rw [if_pos rfl, hs₁]
    exact h₁.data (hroom 1 (by decide))

/-- **A burst for which there is room**: every packet gets its descriptors. -/
theorem fill_spec {txq : List Mbuf} (h : Filling dev p j popped (txq.map Mbuf.addr) s)
    (hroom : ∀ k < (txq.map Mbuf.descs).sum, pendingBefore dev p (j + k) + 1 < TX_RING_SIZE) :
    ∃ s', s.fill dev txq = .ok s' ∧
      Filling dev p (j + (txq.map Mbuf.descs).sum) (popped ++ txq.map Mbuf.addr) [] s' := by
  induction txq generalizing j popped s with
  | nil => exact ⟨s, rfl, by simpa using h⟩
  | cons m txq ih =>
    rw [List.map_cons, List.sum_cons] at hroom
    obtain ⟨s₁, hs₁, h₁⟩ := h.transmit fun k hk => hroom k (by omega)
    obtain ⟨s', hs', h'⟩ := ih h₁ fun k hk => by
      rw [Nat.add_assoc]
      exact hroom (m.descs + k) (by omega)
    refine ⟨s', ?_, ?_⟩
    · rw [Sending.fill, hs₁]
      exact hs'
    · rw [List.map_cons, List.sum_cons, List.map_cons, ← Nat.add_assoc, List.append_cons]
      exact h'

/-! ## A burst for which there is none -/

/-- Without the lock there is no way to get it back: the next `release` panics. -/
theorem unlocked_release (h : s.locked = false) : s.release = .error "release" := by
  rw [Sending.release, h]
  rfl

/-- A function for a descriptor gives the lock away exactly if it returns -1. -/
def GivesUp (r : Except String (Sending × Bool)) : Prop :=
  ∀ s' ok, r = .ok (s', ok) → s'.locked = false

theorem contextDesc_unlocked (h : s.locked = false) : GivesUp (s.contextDescTransmit dev m) := by
  intro s' ok hr
  unfold Sending.contextDescTransmit at hr
  dsimp only at hr
  split at hr
  · rw [unlocked_release (s := s.tick dev) h] at hr
    cases hr
  · cases hr
    exact h

theorem dataDesc_unlocked (h : s.locked = false) : GivesUp (s.dataDescTransmit dev m) := by
  intro s' ok hr
  by_cases hfull : (s.tick dev).nic.full = true
  · rw [Sending.dataDescTransmit, if_pos hfull, unlocked_release (s := s.tick dev) h] at hr
    cases hr
  · rw [dataDescTransmit_eq hfull] at hr
    cases hr
    exact h

theorem transmit_unlocked (h : s.locked = false) : GivesUp (s.transmit dev m) := by
  intro s' ok hr
  unfold Sending.transmit at hr
  split at hr
  · split at hr
    · cases hr
    · next s₁ hs₁ =>
      cases hr
      exact contextDesc_unlocked h s' false hs₁
    · next s₁ hs₁ => exact dataDesc_unlocked (contextDesc_unlocked h s₁ true hs₁) s' ok hr
  · exact dataDesc_unlocked h s' ok hr

theorem fill_unlocked {txq : List Mbuf} (h : s.locked = false) (hr : s.fill dev txq = .ok s') :
    s'.locked = false := by
  induction txq generalizing s with
  | nil =>
    cases hr
    exact h
  | cons m txq ih =>
    rw [Sending.fill] at hr
    split at hr
    · cases hr
    · next s₁ hs₁ => exact ih (transmit_unlocked h s₁ true hs₁) hr
    · next s₁ hs₁ =>
      have hs₁ := transmit_unlocked h s₁ false hs₁
      exact ih (s := s₁.addLog (.free m.addr s₁.nic)) hs₁ hr

theorem Filling.full_of_not (h : Filling dev p j popped rest s)
    (hno : ¬ pendingBefore dev p j + 1 < TX_RING_SIZE) : (s.tick dev).nic.full = true := by
  have hlt := s.nic.pending_lt
  have hp := h.pending
  exact h.full_iff.mpr (by omega)

/-- A full ring takes the lock away. -/
theorem full_releases (hlocked : s.locked = true) :
    (s.tick dev).release.map (·, false) = .ok ({ (s.tick dev).addLog .release with locked := false }, false) := by
  have hlocked : (s.tick dev).locked = true := hlocked
  rw [Sending.release, if_pos hlocked]
  rfl

theorem Filling.transmit_full (h : Filling dev p j popped rest s)
    (hno : ¬ ∀ k < m.descs, pendingBefore dev p (j + k) + 1 < TX_RING_SIZE) :
    ∃ s₁, s.transmit dev m = .ok (s₁, false) ∧ s₁.locked = false := by
  have hdata : ∀ {j s}, Filling dev p j popped rest s →
      ¬ pendingBefore dev p j + 1 < TX_RING_SIZE →
      ∃ s₁, s.dataDescTransmit dev m = .ok (s₁, false) ∧ s₁.locked = false := by
    intro j s h hno
    refine ⟨_, (if_pos (h.full_of_not hno)).trans (full_releases h.locked), rfl⟩
  unfold Sending.transmit
  cases hm : m.offload with
  | false =>
    have hdescs : m.descs = 1 := by rw [Mbuf.descs, hm]; rfl
    rw [hdescs] at hno
    refine hdata h fun hlt => hno fun k hk => ?_
    rw [Nat.lt_one_iff.mp hk]
    exact hlt
  | true =>
    have hdescs : m.descs = 2 := by rw [Mbuf.descs, hm]; rfl
    rw [hdescs] at hno
    rw [if_pos rfl]
    by_cases hfirst : pendingBefore dev p j + 1 < TX_RING_SIZE
    · -- room for the context descriptor only
      obtain ⟨s₁, hs₁, h₁⟩ := h.context hfirst m
      rw [hs₁]
      refine hdata h₁ fun hsecond => hno fun k hk => ?_
      rcases Nat.le_one_iff_eq_zero_or_eq_one.mp (Nat.lt_succ_iff.mp hk) with rfl | rfl
      · exact hfirst
      · exact hsecond
    · have hfull : s.contextDescTransmit dev m = .ok (_, false) :=
        (if_pos (h.full_of_not hfirst)).trans (full_releases h.locked)
      rw [hfull]
      exact ⟨_, rfl, rfl⟩

/-- **A burst for which there is no room**: the lock is given away on the way. -/
theorem fill_unlocks {txq : List Mbuf} (h : Filling dev p j popped (txq.map Mbuf.addr) s)
    (hno : ¬ ∀ k < (txq.map Mbuf.descs).sum, pendingBefore dev p (j + k) + 1 < TX_RING_SIZE)
    (hr : s.fill dev txq = .ok s') : s'.locked = false := by
  induction txq generalizing j popped s with
  | nil => exact absurd (fun k hk => absurd hk (Nat.not_lt_zero k)) hno
  | cons m txq ih =>
    rw [List.map_cons, List.sum_cons] at hno
    rw [Sending.fill] at hr
    by_cases hm : ∀ k < m.descs, pendingBefore dev p (j + k) + 1 < TX_RING_SIZE
    · obtain ⟨s₁, hs₁, h₁⟩ := h.transmit hm
      rw [hs₁] at hr
      refine ih h₁ (fun hrest => hno fun k hk => ?_) hr
      by_cases hlt : k < m.descs
      · exact hm k hlt
      · have hk' := hrest (k - m.descs) (by omega)
        rwa [show j + m.descs + (k - m.descs) = j + k by omega] at hk'
    · obtain ⟨s₁, hs₁, hlocked⟩ := h.transmit_full hm
      rw [hs₁] at hr
      exact fill_unlocked (s := s₁.addLog (.free m.addr s₁.nic)) hlocked hr

end Burst

/-! ## The system -/

structure State where
  nic : Nic
  txq : List Mbuf

inductive Act where
  /-- `e1000_cache(m)` -/
  | cache (m : Mbuf)
  /-- The device goes on. -/
  | device (d : Move)
  /-- `e1000_send()`, next to these moves of the device -/
  | send (dev : ℕ → Move)

/-- The driver has the buffer. -/
def State.Owns (s : State) (a : ℕ) : Prop :=
  a ∈ s.txq.map Mbuf.addr ∨ ∃ i < TX_RING_SIZE, s.nic.txMbufs i = some a

instance (s : State) (a : ℕ) : Decidable (s.Owns a) := inferInstanceAs (Decidable (_ ∨ _))

/-- A buffer that is handed over is not one that the driver has. -/
def step (s : State) : Act → Option State
  | .cache m => if s.Owns m.addr then none else some { s with txq := s.txq ++ [m] }
  | .device d => some { s with nic := s.nic.advance d }
  | .send dev =>
    match e1000Send dev s.nic s.txq with
    | .error _ => none
    | .ok r => some ⟨r.nic, []⟩

/-- The state that `e1000_init` leaves -/
structure Init (s : State) : Prop where
  tdh : s.nic.tdh = 0
  tdt : s.nic.tdt = 0
  txRing : ∀ i, s.nic.txRing i = ⟨0, 0, 0, 0, E1000_TXD_STAT_DD, 0, 0⟩
  txMbufs : ∀ i, s.nic.txMbufs i = none
  txq : s.txq = []

def system : System State Act where
  init := Init
  step := step

section Runs

variable {s s' : State} {a : Act} {dev : ℕ → Move} {r : Sending}

/-- The ring is valid, and every buffer is in one place. -/
structure Inv (s : State) : Prop where
  valid : s.nic.Valid
  owners : Owners s.nic [] [] (s.txq.map Mbuf.addr)

theorem inv_init (h : Init s) : Inv s := by
  refine ⟨⟨?_, ?_, fun i => ?_⟩, ⟨fun i _ k _ a hi => ?_, nofun, fun a ha => ?_, ?_⟩⟩
  · rw [h.tdh]
    decide
  · rw [h.tdt]
    decide
  · rw [h.txRing]
    decide
  · rw [h.txMbufs] at hi
    cases hi
  · rw [h.txq] at ha
    cases ha
  · rw [h.txq]
    exact List.nodup_nil

/-- A call of `e1000_send` begins. -/
theorem Inv.filling (hi : Inv s) (dev : ℕ → Move) :
    Filling dev s.nic.pending 0 [] (s.txq.map Mbuf.addr) ⟨s.nic, true, [.acquire], 0⟩ :=
  ⟨hi.valid, rfl, rfl, rfl,
    ⟨[], rfl, nofun, fun e he => by rw [List.mem_singleton.mp he]; trivial⟩,
    hi.owners.congr rfl fun _ => rfl⟩

/-- Without room a call panics. -/
theorem Inv.send_error (hi : Inv s) (hno : ¬ Room dev s.nic.pending s.txq) :
    ∃ e, e1000Send dev s.nic s.txq = .error e := by
  unfold e1000Send
  cases hfill : Sending.fill dev ⟨s.nic, true, [.acquire], 0⟩ s.txq with
  | error e => exact ⟨e, rfl⟩
  | ok r =>
    have hno' : ¬ ∀ k < (s.txq.map Mbuf.descs).sum,
        pendingBefore dev s.nic.pending (0 + k) + 1 < TX_RING_SIZE :=
      fun h => hno fun k hk => by
        have hlt := h k hk
        rwa [Nat.zero_add] at hlt
    exact ⟨"release", unlocked_release (fill_unlocks (hi.filling dev) hno' hfill)⟩

/-- With room it releases the lock at the end, and the buffers are where they have to be. -/
theorem Inv.send_ok (hi : Inv s) (hroom : Room dev s.nic.pending s.txq) :
    ∃ r j, Filling dev s.nic.pending j (s.txq.map Mbuf.addr) [] r ∧
      e1000Send dev s.nic s.txq = .ok { r.addLog .release with locked := false } := by
  have hroom' : ∀ k < (s.txq.map Mbuf.descs).sum,
      pendingBefore dev s.nic.pending (0 + k) + 1 < TX_RING_SIZE := fun k hk => by
    rw [Nat.zero_add]
    exact hroom k hk
  obtain ⟨r, hr, hfill⟩ := fill_spec (hi.filling dev) hroom'
  refine ⟨r, _, hfill, ?_⟩
  rw [e1000Send, hr]
  exact if_pos hfill.locked

theorem inv_step (hi : Inv s) (hstep : step s a = some s') : Inv s' := by
  cases a with
  | cache m =>
    simp only [step] at hstep
    split at hstep
    · cases hstep
    next hnew =>
    cases hstep
    obtain ⟨hqueue, hring⟩ := not_or.mp hnew
    -- a buffer that is handed over is in no place of the ring and not in the queue
    refine ⟨hi.valid, hi.owners.inj, nofun, fun a ha => ⟨fun i hlt hia => ?_, rfl⟩, ?_⟩
    · rw [List.map_append] at ha
      rcases List.mem_append.mp ha with ha | ha
      · exact (hi.owners.fresh a ha).1 i hlt hia
      · rw [List.mem_singleton.mp ha] at hia
        exact hring ⟨i, hlt, hia⟩
    · have hnodup : (s.txq.map Mbuf.addr).Nodup := hi.owners.nodup
      rw [List.nil_append, List.map_append, List.nodup_append]
      refine ⟨hnodup, List.nodup_singleton _, fun a ha b hb heq => hqueue ?_⟩
      rw [← List.mem_singleton.mp hb, ← heq]
      exact ha
  | device d =>
    cases hstep
    exact ⟨hi.valid.advance d, hi.owners.congr rfl fun _ => rfl⟩
  | send dev =>
    simp only [step] at hstep
    -- `e1000_transmit` sends if there is a free descriptor, and panics otherwise
    by_cases hroom : Room dev s.nic.pending s.txq
    · obtain ⟨r, j, hfill, hsend⟩ := hi.send_ok hroom
      rw [hsend] at hstep
      cases hstep
      exact ⟨hfill.valid, hfill.owners.inj, nofun, nofun, List.nodup_nil⟩
    · obtain ⟨e, he⟩ := hi.send_error hroom
      rw [he] at hstep
      cases hstep

theorem inv_of_reachable (h : system.Reachable s) : Inv s :=
  System.invariant Inv (fun _ => inv_init) (fun _ _ _ hi _ => inv_step hi) h

/-- **A burst is sent as it has to be** if and only if the device leaves room for every descriptor. -/
theorem send_right_iff (hs : system.Reachable s) (dev : ℕ → Move) :
    Sent s.txq (e1000Send dev s.nic s.txq) ↔ Room dev s.nic.pending s.txq := by
  have hi := inv_of_reachable hs
  constructor
  · rintro ⟨r, -, hr, -⟩
    by_contra hno
    obtain ⟨e, he⟩ := hi.send_error hno
    rw [he] at hr
    cases hr
  · intro hroom
    obtain ⟨r, j, hfill, hsend⟩ := hi.send_ok hroom
    obtain ⟨log, hlog, hlocks, hsafe⟩ := hfill.log
    refine ⟨_, log, hsend, rfl, ?_, hlocks, fun e he => ?_, fun m hm => ?_⟩
    · exact congrArg (· ++ [Event.release]) hlog
    · rcases List.mem_append.mp he with he | he
      · exact hsafe e he
      · rw [List.mem_singleton.mp he]
        trivial
    · have hfate := hfill.owners.fate m.addr (List.mem_map_of_mem hm)
      have hfrees : frees (r.log ++ [.release]) m.addr = frees r.log m.addr :=
        frees_append r.log .release m.addr
      show Fate r.nic (r.log ++ [.release]) m.addr
      rw [Fate, hfrees]
      exact hfate

end Runs

/-! ## A full ring -/

/-- The device does not go on. -/
def idle (_ : ℕ) : Move := ⟨0, fun _ => false⟩

def started : State where
  nic := ⟨0, 0, fun _ => ⟨0, 0, 0, 0, E1000_TXD_STAT_DD, 0, 0⟩, fun _ => none⟩
  txq := []

theorem started_init : system.init started := ⟨rfl, rfl, fun _ => rfl, fun _ => rfl, rfl⟩

/-- The first `n` pages hold packets for `txq`. -/
def packets (n : ℕ) : List Act := (List.range n).map fun i => .cache ⟨i, 0, 60, 0⟩

theorem one_packet_sent : ∃ s, system.Reachable s ∧ s.txq.length = 1 ∧
    Sent s.txq (e1000Send idle s.nic s.txq) := by
  have hrun : (system.run started (packets 1)).any (fun s =>
      decide (s.txq.length = 1) && decide (∀ j < (s.txq.map Mbuf.descs).sum,
        pendingBefore idle s.nic.pending j + 1 < TX_RING_SIZE)) = true := by decide +kernel
  obtain ⟨s, hs, hp⟩ := System.exists_reachable_of_run started_init hrun
  rw [Bool.and_eq_true, decide_eq_true_eq, decide_eq_true_eq] at hp
  exact ⟨s, hs, hp.1, (send_right_iff hs idle).mpr hp.2⟩

/-- Sixteen packets, of which the last one finds the ring full -/
theorem sixteen_packets_panic : ¬ ∀ s, system.Reachable s → ∀ dev,
    Sent s.txq (e1000Send dev s.nic s.txq) := by
  intro hall
  have hrun : (system.run started (packets 16)).any (fun s =>
      !decide (∀ j < (s.txq.map Mbuf.descs).sum,
        pendingBefore idle s.nic.pending j + 1 < TX_RING_SIZE)) = true := by decide +kernel
  obtain ⟨s, hs, hp⟩ := System.exists_reachable_of_run started_init hrun
  rw [Bool.not_eq_true', decide_eq_false_iff_not] at hp
  exact hp ((send_right_iff hs idle).mp (hall s hs idle))

end Xv6.Kernel.E1000
