import Mathlib
import Xv6.Lib.TransitionSystem
import Xv6.Lib.Ring

/-!
# The UART Driver

Any number of processes in `uartputc` and `uartputc_sync`, and the interrupt handler `uartintr`. `uartputc` puts a byte
into the ring `uart_tx_buf` and sleeps while it is full; `uartstart`, called by both, moves bytes from the ring to the
transmit holding register for as long as the device takes them. A step is one access to the device or what a thread does
between two of them; the device finishes a byte whenever it likes, and interrupts then.

- `uart_fifo`: the bytes are sent once each, and in the order of the calls;
- `uart_drains`: the driver runs only finitely long without a new call, and when nothing is left to do for it the ring is
  empty, every byte is sent and nobody sleeps;
- `uart_no_overrun`: without `uartputc_sync` the register is empty whenever it is written.
-/

namespace Xv6.Kernel.Uart

open Xv6.Lib

def UART_TX_BUF_SIZE : ℕ := 32

/-! ## States -/

/-- Where a thread is in `uartstart` -/
inductive Start where
  /-- `if(uart_tx_w == uart_tx_r)` -/
  | test
  /-- `if((ReadReg(LSR) & LSR_TX_IDLE) == 0)` -/
  | lsr
  | take
  /-- `wakeup(&uart_tx_r)`, with the byte in hand -/
  | wake (c : UInt8)
  /-- `WriteReg(THR, c)` -/
  | write (c : UInt8)
  deriving DecidableEq

inductive Pc where
  | idle
  /-- `acquire(&uart_tx_lock)` in `uartputc` -/
  | acquire (c : UInt8)
  /-- `while(uart_tx_w == uart_tx_r + UART_TX_BUF_SIZE)` -/
  | full (c : UInt8)
  | asleep (c : UInt8)
  /-- `acquire(lk)` at the end of `sleep` -/
  | woken (c : UInt8)
  /-- `acquire(&uart_tx_lock)` in `uartintr` -/
  | intr
  | start (pos : Start)
  | release
  /-- `if(panicked)` in `uartputc_sync` -/
  | sync (c : UInt8)
  /-- `while((ReadReg(LSR) & LSR_TX_IDLE) == 0)` -/
  | poll (c : UInt8)
  /-- `WriteReg(THR, c)` in `uartputc_sync` -/
  | syncWrite (c : UInt8)
  /-- `for(;;)`, with the lock or without -/
  | hung (locked : Bool)
  deriving DecidableEq

namespace Pc

/-- The thread has `uart_tx_lock`. -/
@[simp] def locked : Pc → Bool
  | full _ | start _ | release => true
  | hung b => b
  | idle | acquire _ | asleep _ | woken _ | intr | sync _ | poll _ | syncWrite _ => false

/-- The byte that `uartstart` has taken from the ring and not yet written -/
@[simp] def hand : Pc → List UInt8
  | start (.wake c) | start (.write c) => [c]
  | _ => []

/-- What `wakeup(&uart_tx_r)` does to a thread -/
@[simp] def wake : Pc → Pc
  | asleep c => woken c
  | pc => pc

end Pc

/-- The driver and the device; the thread `none` is the interrupt handler. -/
structure State (τ : Type*) where
  buf : ℕ → UInt8
  w : UInt64
  r : UInt64
  lock : Option (Option τ)
  pc : Option τ → Pc
  panicked : Bool
  /-- The transmit holding register is full: `LSR_TX_IDLE` is off. -/
  busy : Bool
  /-- The device asks for an interrupt. -/
  irq : Bool
  /-- The bytes put into the ring -/
  put : List UInt8
  /-- The bytes that `uartstart` has written to the register -/
  sent : List UInt8
  /-- How often the register was written while it was full -/
  overruns : ℕ

variable {τ : Type*} [DecidableEq τ]

namespace State

variable (s : State τ) (t : Option τ)

def goto (p : Pc) : State τ := { s with pc := Function.update s.pc t p }

/-- `WriteReg(THR, c)` -/
def writeThr : State τ := { s with busy := true, overruns := if s.busy then s.overruns + 1 else s.overruns }

/-- `uart_tx_buf[uart_tx_w % UART_TX_BUF_SIZE] = c; uart_tx_w += 1` -/
def push (c : UInt8) : State τ :=
  { s with
    buf := Function.update s.buf (s.w.toNat % UART_TX_BUF_SIZE) c
    w := s.w + 1
    put := s.put ++ [c] }

/-- A step of a thread -/
def run : Option (State τ) :=
  match s.pc t with
  | .idle | .asleep _ | .hung _ => none
  | .acquire c =>
    if s.lock = none then some ({ s with lock := some t }.goto t (if s.panicked then .hung true else .full c)) else none
  | .full c =>
    if s.w = s.r + UInt64.ofNat UART_TX_BUF_SIZE then some ({ s with lock := none }.goto t (.asleep c))
    else some ((s.push c).goto t (.start .test))
  | .woken c => if s.lock = none then some ({ s with lock := some t }.goto t (.full c)) else none
  | .intr => if s.lock = none then some ({ s with lock := some t }.goto t (.start .test)) else none
  | .start .test => some (s.goto t (if s.w = s.r then .release else .start .lsr))
  | .start .lsr => some (s.goto t (if s.busy then .release else .start .take))
  | .start .take =>
    some ({ s with r := s.r + 1 }.goto t (.start (.wake (s.buf (s.r.toNat % UART_TX_BUF_SIZE)))))
  | .start (.wake c) => some ({ s with pc := fun u => (s.pc u).wake }.goto t (.start (.write c)))
  | .start (.write c) => some ({ s.writeThr with sent := s.sent ++ [c] }.goto t (.start .test))
  | .release => some ({ s with lock := none }.goto t .idle)
  | .sync c => some (s.goto t (if s.panicked then .hung false else .poll c))
  | .poll c => if s.busy then none else some (s.goto t (.syncWrite c))
  | .syncWrite _ => some (s.writeThr.goto t .idle)

end State

inductive Act (τ : Type*) where
  | thread (t : Option τ)
  /-- A process calls `uartputc`. -/
  | putc (p : τ) (c : UInt8)
  /-- A process or the console's part of the handler calls `uartputc_sync`. -/
  | putcSync (t : Option τ) (c : UInt8)
  /-- The device has sent what is in the register. -/
  | finish
  /-- The device has received a byte. -/
  | receive
  | interrupt
  /-- `panicked = 1` in `panic` -/
  | panic

def step (s : State τ) : Act τ → Option (State τ)
  | .thread t => s.run t
  | .putc p c => if s.pc (some p) = .idle then some (s.goto (some p) (.acquire c)) else none
  | .putcSync t c => if s.pc t = .idle then some (s.goto t (.sync c)) else none
  | .finish => if s.busy then some { s with busy := false, irq := true } else none
  | .receive => some { s with irq := true }
  | .interrupt => if s.irq ∧ s.pc none = .idle then some ({ s with irq := false }.goto none .intr) else none
  | .panic => some { s with panicked := true }

/-- What the ring holds at first is of no interest. -/
def boot (buf : ℕ → UInt8) : State τ where
  buf := buf
  w := 0
  r := 0
  lock := none
  pc _ := .idle
  panicked := false
  busy := false
  irq := false
  put := []
  sent := []
  overruns := 0

def system (τ : Type*) [DecidableEq τ] : System (State τ) (Act τ) where
  init s := ∃ buf, s = boot buf
  step := step

/-! ## What a step of a thread can do -/

inductive ThreadStep (s : State τ) (t : Option τ) : State τ → Prop where
  | acquire {c : UInt8} : s.pc t = .acquire c → s.lock = none →
      ThreadStep s t ({ s with lock := some t }.goto t (.full c))
  | hang {c : UInt8} : s.pc t = .acquire c → s.lock = none → s.panicked = true →
      ThreadStep s t ({ s with lock := some t }.goto t (.hung true))
  | sleep {c : UInt8} : s.pc t = .full c → s.w = s.r + UInt64.ofNat UART_TX_BUF_SIZE →
      ThreadStep s t ({ s with lock := none }.goto t (.asleep c))
  | push {c : UInt8} : s.pc t = .full c → s.w ≠ s.r + UInt64.ofNat UART_TX_BUF_SIZE →
      ThreadStep s t ((s.push c).goto t (.start .test))
  | woken {c : UInt8} : s.pc t = .woken c → s.lock = none → ThreadStep s t ({ s with lock := some t }.goto t (.full c))
  | intr : s.pc t = .intr → s.lock = none → ThreadStep s t ({ s with lock := some t }.goto t (.start .test))
  | empty : s.pc t = .start .test → s.w = s.r → ThreadStep s t (s.goto t .release)
  | nonempty : s.pc t = .start .test → s.w ≠ s.r → ThreadStep s t (s.goto t (.start .lsr))
  | busy : s.pc t = .start .lsr → s.busy = true → ThreadStep s t (s.goto t .release)
  | ready : s.pc t = .start .lsr → s.busy = false → ThreadStep s t (s.goto t (.start .take))
  | take : s.pc t = .start .take →
      ThreadStep s t ({ s with r := s.r + 1 }.goto t (.start (.wake (s.buf (s.r.toNat % UART_TX_BUF_SIZE)))))
  | wake {c : UInt8} : s.pc t = .start (.wake c) →
      ThreadStep s t ({ s with pc := fun u => (s.pc u).wake }.goto t (.start (.write c)))
  | write {c : UInt8} : s.pc t = .start (.write c) →
      ThreadStep s t ({ s.writeThr with sent := s.sent ++ [c] }.goto t (.start .test))
  | release : s.pc t = .release → ThreadStep s t ({ s with lock := none }.goto t .idle)
  | syncHang {c : UInt8} : s.pc t = .sync c → s.panicked = true → ThreadStep s t (s.goto t (.hung false))
  | sync {c : UInt8} : s.pc t = .sync c → ThreadStep s t (s.goto t (.poll c))
  | poll {c : UInt8} : s.pc t = .poll c → s.busy = false → ThreadStep s t (s.goto t (.syncWrite c))
  | syncWrite {c : UInt8} : s.pc t = .syncWrite c → ThreadStep s t (s.writeThr.goto t .idle)

theorem run_cases {s s' : State τ} {t : Option τ} (h : s.run t = some s') : ThreadStep s t s' := by
  unfold State.run at h
  cases hpc : s.pc t with
  | idle | asleep c | hung b =>
    rw [hpc] at h
    cases h
  | acquire c =>
    rw [hpc] at h
    dsimp only at h
    by_cases hlock : s.lock = none
    · rw [if_pos hlock] at h
      cases h
      by_cases hp : s.panicked = true
      · rw [if_pos hp]
        exact .hang hpc hlock hp
      · rw [if_neg hp]
        exact .acquire hpc hlock
    · rw [if_neg hlock] at h
      cases h
  | full c =>
    rw [hpc] at h
    dsimp only at h
    by_cases hw : s.w = s.r + UInt64.ofNat UART_TX_BUF_SIZE
    · rw [if_pos hw] at h
      cases h
      exact .sleep hpc hw
    · rw [if_neg hw] at h
      cases h
      exact .push hpc hw
  | woken c =>
    rw [hpc] at h
    dsimp only at h
    by_cases hlock : s.lock = none
    · rw [if_pos hlock] at h
      cases h
      exact .woken hpc hlock
    · rw [if_neg hlock] at h
      cases h
  | intr =>
    rw [hpc] at h
    dsimp only at h
    by_cases hlock : s.lock = none
    · rw [if_pos hlock] at h
      cases h
      exact .intr hpc hlock
    · rw [if_neg hlock] at h
      cases h
  | start pos =>
    rw [hpc] at h
    cases pos with
    | test =>
      cases h
      by_cases hw : s.w = s.r
      · rw [if_pos hw]
        exact .empty hpc hw
      · rw [if_neg hw]
        exact .nonempty hpc hw
    | lsr =>
      cases h
      cases hb : s.busy with
      | true => exact .busy hpc hb
      | false => exact .ready hpc hb
    | take =>
      cases h
      exact .take hpc
    | wake c =>
      cases h
      exact .wake hpc
    | write c =>
      cases h
      exact .write hpc
  | release =>
    rw [hpc] at h
    cases h
    exact .release hpc
  | sync c =>
    rw [hpc] at h
    cases h
    by_cases hp : s.panicked = true
    · rw [if_pos hp]
      exact .syncHang hpc hp
    · rw [if_neg hp]
      exact .sync hpc
  | poll c =>
    rw [hpc] at h
    dsimp only at h
    by_cases hb : s.busy = true
    · rw [if_pos hb] at h
      cases h
    · rw [if_neg hb] at h
      cases h
      exact .poll hpc (Bool.eq_false_of_not_eq_true hb)
  | syncWrite c =>
    rw [hpc] at h
    cases h
    exact .syncWrite hpc

/-! ## The invariant -/

/-- Where the interrupt handler can be: it does not call `uartputc`. -/
def Pc.OfHandler : Pc → Prop
  | .acquire _ | .full _ | .asleep _ | .woken _ => False
  | .idle | .intr | .start _ | .release | .sync _ | .poll _ | .syncWrite _ | .hung _ => True

/-- The byte that is in nobody's hand but the one's who has the lock -/
def State.hand (s : State τ) : List UInt8 := s.lock.elim [] fun t => (s.pc t).hand

/-- **What holds throughout a run**; `unread` is what the ring holds. -/
structure Inv (s : State τ) (unread : List UInt8) : Prop where
  lock : ∀ t, s.lock = some t ↔ (s.pc t).locked = true
  handler : (s.pc none).OfHandler
  ring : Ring.Holds s.buf UART_TX_BUF_SIZE s.r.toNat unread
  w : s.w = s.r + UInt64.ofNat unread.length
  fifo : s.put = s.sent ++ s.hand ++ unread
  /-- Who has found the ring not empty is the only one who takes from it. -/
  seen : ∀ t, s.pc t = .start .lsr ∨ s.pc t = .start .take → unread ≠ []
  /-- Who sleeps sleeps on a full ring, or will be woken up. -/
  asleep : ∀ t c, s.pc t = .asleep c → unread.length = UART_TX_BUF_SIZE ∨ ∃ u d, s.pc u = .start (.wake d)
  /-- There is somebody to look after what the ring holds. -/
  pending : unread ≠ [] → s.busy = true ∨ s.irq = true ∨ s.pc none = .intr ∨ ∃ t pos, s.pc t = .start pos
  hung : ∀ t b, s.pc t = .hung b → s.panicked = true

section Steps

omit [DecidableEq τ] in
theorem Inv.length_le {s : State τ} {unread : List UInt8} (h : Inv s unread) : unread.length ≤ UART_TX_BUF_SIZE := h.ring.fits

omit [DecidableEq τ] in
theorem Inv.full_iff {s : State τ} {unread : List UInt8} (h : Inv s unread) :
    s.w = s.r + UInt64.ofNat UART_TX_BUF_SIZE ↔ unread.length = UART_TX_BUF_SIZE := by
  have hle := h.length_le
  have hsize : UART_TX_BUF_SIZE = 32 := rfl
  rw [h.w]
  refine ⟨fun heq => ?_, fun heq => by rw [heq]⟩
  have := congrArg UInt64.toNat (add_left_cancel heq)
  simp only [UInt64.toNat_ofNat'] at this
  omega

omit [DecidableEq τ] in
theorem Inv.empty_iff {s : State τ} {unread : List UInt8} (h : Inv s unread) : s.w = s.r ↔ unread = [] := by
  have hle := h.length_le
  have hsize : UART_TX_BUF_SIZE = 32 := rfl
  rw [h.w, ← List.length_eq_zero_iff]
  refine ⟨fun heq => ?_, fun heq => by rw [heq]; simp⟩
  have := congrArg UInt64.toNat (add_left_cancel (heq.trans (add_zero s.r).symm))
  simp only [UInt64.toNat_ofNat', UInt64.toNat_zero] at this
  omega

/-! ### The lock -/

variable {s s' : State τ} {t : Option τ} {p : Pc} {unread : List UInt8}

theorem lock_take {lock : Option (Option τ)} {pc : Option τ → Pc} (h : ∀ u, lock = some u ↔ (pc u).locked = true) (hfree : lock = none) (hp : p.locked = true)
    (u : Option τ) : some t = some u ↔ (Function.update pc t p u).locked = true := by
  by_cases hu : u = t
  · rw [hu, Function.update_self]
    exact iff_of_true rfl hp
  · rw [Function.update_of_ne hu, ← h u, hfree]
    exact iff_of_false (fun heq => hu (Option.some.inj heq).symm) nofun

theorem lock_give {lock : Option (Option τ)} {pc : Option τ → Pc} (h : ∀ u, lock = some u ↔ (pc u).locked = true) (ht : (pc t).locked = true) (hp : p.locked = false)
    (u : Option τ) : none = some u ↔ (Function.update pc t p u).locked = true := by
  refine iff_of_false nofun fun hu => ?_
  by_cases hut : u = t
  · rw [hut, Function.update_self, hp] at hu
    cases hu
  · rw [Function.update_of_ne hut] at hu
    exact hut (Option.some.inj (((h u).mpr hu).symm.trans ((h t).mpr ht)))

theorem lock_keep {lock : Option (Option τ)} {pc : Option τ → Pc} (h : ∀ u, lock = some u ↔ (pc u).locked = true) (hp : p.locked = (pc t).locked)
    (u : Option τ) : lock = some u ↔ (Function.update pc t p u).locked = true := by
  rw [h u]
  by_cases hu : u = t
  · rw [hu, Function.update_self, hp]
  · rw [Function.update_of_ne hu]

/-! ### The ring stays as it is -/

/-- A step that changes no more than where one thread is, and who has the lock -/
theorem Inv.move (h : Inv s unread) (hpc : s'.pc = Function.update s.pc t p)
    (hlock : ∀ u, s'.lock = some u ↔ (s'.pc u).locked = true) (hbuf : s'.buf = s.buf) (hw : s'.w = s.w) (hr : s'.r = s.r)
    (hput : s'.put = s.put) (hsent : s'.sent = s.sent) (hhandler : t = none → p.OfHandler) (hhand : s'.hand = s.hand)
    (hsome : p = .start .lsr ∨ p = .start .take → unread ≠ []) (hasleep : ∀ c, p = .asleep c → unread.length = UART_TX_BUF_SIZE) (hwake : ∀ d, s.pc t ≠ .start (.wake d))
    (hpending : (s.busy = true ∨ s.irq = true ∨ s.pc none = .intr ∨ ∃ u pos, s.pc u = .start pos) → unread ≠ [] →
      s'.busy = true ∨ s'.irq = true ∨ s'.pc none = .intr ∨ ∃ u pos, s'.pc u = .start pos)
    (hhung : ∀ b, p = .hung b → s'.panicked = true) (hpanicked : s.panicked = true → s'.panicked = true) :
    Inv s' unread where
  lock := hlock
  handler := by
    rw [hpc]
    by_cases ht : t = none
    · rw [ht, Function.update_self]
      exact hhandler ht
    · rw [Function.update_of_ne (Ne.symm ht)]
      exact h.handler
  ring := by
    rw [hbuf, hr]
    exact h.ring
  w := by rw [hw, hr, h.w]
  fifo := by rw [hput, hsent, hhand, h.fifo]
  seen u hu := by
    rw [hpc] at hu
    by_cases hut : u = t
    · rw [hut, Function.update_self] at hu
      exact hsome hu
    · rw [Function.update_of_ne hut] at hu
      exact h.seen u hu
  asleep u c hu := by
    rw [hpc] at hu
    by_cases hut : u = t
    · rw [hut, Function.update_self] at hu
      exact .inl (hasleep c hu)
    · rw [Function.update_of_ne hut] at hu
      refine (h.asleep u c hu).imp_right fun ⟨v, d, hv⟩ => ⟨v, d, ?_⟩
      rw [hpc, Function.update_of_ne fun heq : v = t => hwake d (heq ▸ hv)]
      exact hv
  pending hne := hpending (h.pending hne) hne
  hung u b hu := by
    rw [hpc] at hu
    by_cases hut : u = t
    · rw [hut, Function.update_self] at hu
      exact hhung b hu
    · rw [Function.update_of_ne hut] at hu
      exact hpanicked (h.hung u b hu)

omit [DecidableEq τ] in
theorem hand_eq (hlock : s.lock = some t) : s.hand = (s.pc t).hand := by
  rw [State.hand, hlock, Option.elim_some]

omit [DecidableEq τ] in
theorem hand_free (hlock : s.lock = none) : s.hand = [] := by
  rw [State.hand, hlock, Option.elim_none]

theorem hand_goto (hlock : s.lock = some t) : (s.goto t p).hand = p.hand := by
  rw [hand_eq (s := s.goto t p) hlock]
  exact congrArg Pc.hand (Function.update_self _ _ _)

theorem pending_move (hintr : s.pc t ≠ .intr) (hstart : ∀ pos, s.pc t ≠ .start pos)
    (h : s.busy = true ∨ s.irq = true ∨ s.pc none = .intr ∨ ∃ u pos, s.pc u = .start pos) :
    s.busy = true ∨ s.irq = true ∨ Function.update s.pc t p none = .intr ∨
      ∃ u pos, Function.update s.pc t p u = .start pos := by
  refine h.imp_right fun h => h.imp_right (Or.imp (fun h => ?_) fun ⟨u, pos, hu⟩ => ⟨u, pos, ?_⟩)
  · rw [Function.update_of_ne fun heq : none = t => hintr (heq ▸ h)]
    exact h
  · rw [Function.update_of_ne fun heq : u = t => hstart pos (heq ▸ hu)]
    exact hu

/-- Nothing is in the hand of a thread that does not have the lock. -/
theorem Inv.hand_outside (h : Inv s unread) (hbefore : (s.pc t).locked = false) : (s.goto t p).hand = s.hand := by
  cases hlock : s.lock with
  | none => rw [hand_free hlock, hand_free (s := s.goto t p) hlock]
  | some u =>
    have hut : u ≠ t := fun heq => by
      rw [heq] at hlock
      rw [(h.lock t).mp hlock] at hbefore
      cases hbefore
    rw [hand_eq hlock, hand_eq (s := s.goto t p) hlock]
    exact congrArg Pc.hand (Function.update_of_ne hut _ _)

/-- A thread goes on without the lock, before and behind. -/
theorem Inv.free (h : Inv s unread) (hbefore : (s.pc t).locked = false) (hafter : p.locked = false)
    (hintr : s.pc t ≠ .intr) (hhandler : t = none → p.OfHandler) (hasleep : ∀ c, p ≠ .asleep c)
    (hhung : ∀ b, p = .hung b → s.panicked = true) : Inv (s.goto t p) unread := by
  refine h.move rfl (lock_keep h.lock (hafter.trans hbefore.symm)) rfl rfl rfl rfl rfl hhandler ?_ (fun hp => ?_)
    (fun c hc => absurd hc (hasleep c)) (fun d hd => ?_) (fun hl _ => pending_move hintr (fun pos hpos => ?_) hl) hhung id
  · exact h.hand_outside hbefore
  · rcases hp with rfl | rfl <;> cases hafter
  · rw [hd] at hbefore
    cases hbefore
  · rw [hpos] at hbefore
    cases hbefore

/-- A thread gets the lock. -/
theorem Inv.lockTaken (h : Inv s unread) (hfree : s.lock = none) (hbefore : (s.pc t).locked = false) (hafter : p.locked = true)
    (hhand : p.hand = []) (hintr : s.pc t = .intr → ∃ pos, p = .start pos) (hsome : p ≠ .start .lsr ∧ p ≠ .start .take)
    (hhandler : t = none → p.OfHandler) (hhung : ∀ b, p = .hung b → s.panicked = true) :
    Inv ({ s with lock := some t }.goto t p) unread := by
  refine h.move rfl (lock_take h.lock hfree hafter) rfl rfl rfl rfl rfl hhandler ?_
    (fun hp => absurd hp (not_or.mpr hsome)) (fun c hc => ?_) (fun d hd => ?_) (fun hl _ => ?_) hhung id
  · rw [hand_free hfree, hand_goto rfl, hhand]
  · rw [hc] at hafter
    cases hafter
  · rw [hd] at hbefore
    cases hbefore
  · by_cases hi : s.pc t = .intr
    · obtain ⟨pos, rfl⟩ := hintr hi
      exact .inr (.inr (.inr ⟨t, pos, Function.update_self _ _ _⟩))
    · refine pending_move hi (fun pos hpos => ?_) hl
      rw [hpos] at hbefore
      cases hbefore

/-- The one who has the lock goes on with it. -/
theorem Inv.keeps (h : Inv s unread) (hbefore : (s.pc t).locked = true) (hafter : p.locked = true)
    (hhand : p.hand = (s.pc t).hand) (hwake : ∀ d, s.pc t ≠ .start (.wake d)) (hhandler : t = none → p.OfHandler)
    (hsome : p = .start .lsr ∨ p = .start .take → unread ≠ []) (hhung : ∀ b, p ≠ .hung b)
    (hstart : (∃ pos, p = .start pos) ∨ unread = [] ∨ s.busy = true) : Inv (s.goto t p) unread := by
  have hlock : s.lock = some t := (h.lock t).mpr hbefore
  refine h.move rfl (lock_keep h.lock (hafter.trans hbefore.symm)) rfl rfl rfl rfl rfl hhandler ?_ hsome (fun c hc => ?_) hwake
    (fun hl hne => ?_) (fun b hb => absurd hb (hhung b)) id
  · rw [hand_eq hlock, hand_goto hlock, hhand]
  · rw [hc] at hafter
    cases hafter
  · rcases hstart with ⟨pos, rfl⟩ | hempty | hbusy
    · exact .inr (.inr (.inr ⟨t, pos, Function.update_self _ _ _⟩))
    · exact absurd hempty hne
    · exact .inl hbusy

/-- The one who has the lock gives it back. -/
theorem Inv.lockGiven (h : Inv s unread) (hbefore : (s.pc t).locked = true) (hafter : p.locked = false)
    (hhand : (s.pc t).hand = []) (hstart : ∀ pos, s.pc t ≠ .start pos) (hhandler : t = none → p.OfHandler)
    (hasleep : ∀ c, p = .asleep c → unread.length = UART_TX_BUF_SIZE) (hhung : ∀ b, p ≠ .hung b) :
    Inv ({ s with lock := none }.goto t p) unread := by
  refine h.move rfl (lock_give h.lock hbefore hafter) rfl rfl rfl rfl rfl hhandler ?_ (fun hp => ?_) hasleep
    (fun d hd => hstart _ hd) (fun hl _ => pending_move (fun hi => ?_) hstart hl) (fun b hb => absurd hb (hhung b)) id
  · rw [hand_eq ((h.lock t).mpr hbefore), hhand]
    rfl
  · rcases hp with rfl | rfl <;> cases hafter
  · rw [hi] at hbefore
    cases hbefore

/-! ### The ring changes -/

omit [DecidableEq τ] in
/-- Two threads that have the lock are one. -/
theorem Inv.only (h : Inv s unread) {u : Option τ} (ht : (s.pc t).locked = true) (hu : (s.pc u).locked = true) : u = t :=
  Option.some.inj (((h.lock u).mpr hu).symm.trans ((h.lock t).mpr ht))

theorem cell_modEq (n : ℕ) : n % 2 ^ 64 ≡ n [MOD UART_TX_BUF_SIZE] := by
  rw [UART_TX_BUF_SIZE, Nat.ModEq]
  omega

theorem Inv.push (h : Inv s unread) {c : UInt8} (hpc : s.pc t = .full c) (hw : s.w ≠ s.r + UInt64.ofNat UART_TX_BUF_SIZE) :
    Inv ((s.push c).goto t (.start .test)) (unread ++ [c]) := by
  have hlocked : (s.pc t).locked = true := by rw [hpc]; rfl
  have hlt : unread.length < UART_TX_BUF_SIZE := lt_of_le_of_ne h.length_le fun heq => hw (h.full_iff.mpr heq)
  have hothers : ∀ u, u ≠ t → (s.pc u).locked = false := fun u hu =>
    Bool.eq_false_of_not_eq_true fun hl => hu (h.only hlocked hl)
  have hcell : s.w.toNat % UART_TX_BUF_SIZE = (s.r.toNat + unread.length) % UART_TX_BUF_SIZE := by
    rw [h.w, UInt64.toNat_add, UInt64.toNat_ofNat']
    exact (cell_modEq _).trans (Nat.ModEq.add_left _ (cell_modEq _))
  have hpc' : ∀ u, u ≠ t → ((s.push c).goto t (.start .test)).pc u = s.pc u := fun u hu => Function.update_of_ne hu _ _
  have hself : ((s.push c).goto t (.start .test)).pc t = .start .test := Function.update_self _ _ _
  have hkeep : (Pc.start .test).locked = (s.pc t).locked := hlocked.symm
  refine ⟨lock_keep h.lock hkeep, ?_, ?_, ?_, ?_, fun u hu => ?_, fun u d hu => ?_, fun _ => .inr (.inr (.inr ⟨t, _, hself⟩)), fun u b hu => ?_⟩
  · by_cases ht : none = t
    · rw [ht, hself]
      trivial
    · rw [hpc' none ht]
      exact h.handler
  · show Ring.Holds (Function.update s.buf (s.w.toNat % UART_TX_BUF_SIZE) c) _ _ _
    rw [hcell]
    exact h.ring.push hlt c
  · show s.w + 1 = s.r + UInt64.ofNat (unread ++ [c]).length
    rw [h.w, List.length_append, List.length_singleton, UInt64.ofNat_add, add_assoc]
    rfl
  · have hlock := (h.lock t).mpr hlocked
    have hfifo := h.fifo
    rw [hand_eq hlock, hpc] at hfifo
    rw [hand_goto (s := s.push c) hlock]
    show s.put ++ [c] = _
    rw [hfifo]
    simp [State.goto, State.push]
  · simp
  · by_cases hut : u = t
    · rw [hut, hself] at hu
      cases hu
    · rw [hpc' u hut] at hu
      refine .inr ((h.asleep u d hu).elim (fun heq => absurd heq hlt.ne) fun ⟨v, e, hv⟩ => ⟨v, e, ?_⟩)
      rwa [hpc' v fun heq => by rw [heq, hpc] at hv; cases hv]
  · by_cases hut : u = t
    · rw [hut, hself] at hu
      cases hu
    · rw [hpc' u hut] at hu
      exact h.hung u b hu

theorem Inv.take (h : Inv s unread) (hpc : s.pc t = .start .take) : ∃ rest,
    Inv ({ s with r := s.r + 1 }.goto t (.start (.wake (s.buf (s.r.toNat % UART_TX_BUF_SIZE))))) rest := by
  have hlocked : (s.pc t).locked = true := by rw [hpc]; rfl
  obtain ⟨x, rest, rfl⟩ := List.exists_cons_of_ne_nil (h.seen t (.inr hpc))
  have hx : s.buf (s.r.toNat % UART_TX_BUF_SIZE) = x := h.ring.head
  rw [hx]
  have hpc' : ∀ u, u ≠ t → ({ s with r := s.r + 1 }.goto t (.start (.wake x)) : State τ).pc u = s.pc u :=
    fun u hu => Function.update_of_ne hu _ _
  have hself : ({ s with r := s.r + 1 }.goto t (.start (.wake x)) : State τ).pc t = .start (.wake x) :=
    Function.update_self _ _ _
  have hkeep : (Pc.start (.wake x)).locked = (s.pc t).locked := hlocked.symm
  refine ⟨rest, lock_keep h.lock hkeep, ?_, ?_, ?_, ?_, fun u hu => ?_,
    fun _ _ _ => .inr ⟨t, x, hself⟩, fun _ => .inr (.inr (.inr ⟨t, _, hself⟩)), fun u b hu => ?_⟩
  · by_cases ht : none = t
    · rw [ht, hself]
      trivial
    · rw [hpc' none ht]
      exact h.handler
  · refine h.ring.pop.of_modEq ?_
    show s.r.toNat + 1 ≡ (s.r + 1).toNat [MOD _]
    rw [UInt64.toNat_add]
    exact (cell_modEq _).symm
  · show s.w = s.r + 1 + UInt64.ofNat rest.length
    rw [h.w, List.length_cons, UInt64.ofNat_add, add_assoc, add_comm (1 : UInt64)]
    rfl
  · have hlock := (h.lock t).mpr hlocked
    have hfifo := h.fifo
    rw [hand_eq hlock, hpc] at hfifo
    have hhand : ({ s with r := s.r + 1 }.goto t (.start (.wake x)) : State τ).hand = [x] := hand_goto (by exact hlock)
    rw [hhand]
    show s.put = s.sent ++ [x] ++ rest
    rw [hfifo]
    simp
  · by_cases hut : u = t
    · rw [hut, hself] at hu
      rcases hu with hu | hu <;> cases hu
    · rw [hpc' u hut] at hu
      refine absurd (h.only hlocked (u := u) ?_) hut
      rcases hu with hu | hu <;> rw [hu] <;> rfl
  · by_cases hut : u = t
    · rw [hut, hself] at hu
      cases hu
    · rw [hpc' u hut] at hu
      exact h.hung u b hu

theorem Inv.wake (h : Inv s unread) {c : UInt8} (hpc : s.pc t = .start (.wake c)) :
    Inv ({ s with pc := fun u => (s.pc u).wake }.goto t (.start (.write c))) unread := by
  have hlocked : (s.pc t).locked = true := by rw [hpc]; rfl
  have hwake : ∀ u, (s.pc u).wake.locked = (s.pc u).locked ∧ ((s.pc u).wake.OfHandler ↔ (s.pc u).OfHandler) ∧
      ∀ c, (s.pc u).wake ≠ .asleep c := fun u => by
    cases s.pc u <;> exact ⟨rfl, Iff.rfl, nofun⟩
  have hpc' : ∀ u, u ≠ t → ({ s with pc := fun u => (s.pc u).wake }.goto t (.start (.write c))).pc u = (s.pc u).wake :=
    fun u hu => Function.update_of_ne hu _ _
  have hself : ({ s with pc := fun u => (s.pc u).wake }.goto t (.start (.write c))).pc t = .start (.write c) :=
    Function.update_self _ _ _
  have hkeep : (Pc.start (.write c)).locked = (s.pc t).wake.locked := by
    rw [(hwake t).1, hlocked]
    rfl
  have hwoken : ∀ u, s.lock = some u ↔ (s.pc u).wake.locked = true := fun u => by
    rw [(hwake u).1]
    exact h.lock u
  refine ⟨lock_keep hwoken hkeep, ?_, h.ring, h.w, ?_, fun u hu => ?_, fun u d hu => ?_,
    fun _ => .inr (.inr (.inr ⟨t, _, hself⟩)), fun u b hu => ?_⟩
  · by_cases ht : none = t
    · rw [ht, hself]
      trivial
    · rw [hpc' none ht]
      exact (hwake none).2.1.mpr h.handler
  · have hlock := (h.lock t).mpr hlocked
    have hfifo := h.fifo
    rw [hand_eq hlock, hpc] at hfifo
    have hhand : ({ s with pc := fun u => (s.pc u).wake }.goto t (.start (.write c))).hand = [c] := hand_goto (by exact hlock)
    rw [hhand]
    exact hfifo
  · by_cases hut : u = t
    · rw [hut, hself] at hu
      rcases hu with hu | hu <;> cases hu
    · rw [hpc' u hut] at hu
      refine absurd (h.only hlocked (u := u) ?_) hut
      rw [← (hwake u).1]
      rcases hu with hu | hu <;> rw [hu] <;> rfl
  · by_cases hut : u = t
    · rw [hut, hself] at hu
      cases hu
    · rw [hpc' u hut] at hu
      exact absurd hu ((hwake u).2.2 d)
  · by_cases hut : u = t
    · rw [hut, hself] at hu
      cases hu
    · rw [hpc' u hut] at hu
      refine h.hung u b ?_
      cases hp : s.pc u <;> rw [hp] at hu <;> first | exact hu | cases hu

theorem Inv.write (h : Inv s unread) {c : UInt8} (hpc : s.pc t = .start (.write c)) :
    Inv ({ s.writeThr with sent := s.sent ++ [c] }.goto t (.start .test)) unread := by
  have hlocked : (s.pc t).locked = true := by rw [hpc]; rfl
  have hpc' : ∀ u, u ≠ t → ({ s.writeThr with sent := s.sent ++ [c] }.goto t (.start .test)).pc u = s.pc u :=
    fun u hu => Function.update_of_ne hu _ _
  have hself : ({ s.writeThr with sent := s.sent ++ [c] }.goto t (.start .test)).pc t = .start .test :=
    Function.update_self _ _ _
  have hkeep : (Pc.start .test).locked = (s.pc t).locked := hlocked.symm
  refine ⟨lock_keep h.lock hkeep, ?_, h.ring, h.w, ?_, fun u hu => ?_, fun u d hu => ?_, fun _ => .inl rfl, fun u b hu => ?_⟩
  · by_cases ht : none = t
    · rw [ht, hself]
      trivial
    · rw [hpc' none ht]
      exact h.handler
  · have hlock := (h.lock t).mpr hlocked
    have hfifo := h.fifo
    rw [hand_eq hlock, hpc] at hfifo
    have hhand : ({ s.writeThr with sent := s.sent ++ [c] }.goto t (.start .test)).hand = [] := hand_goto (by exact hlock)
    rw [hhand]
    show s.put = s.sent ++ [c] ++ [] ++ unread
    rw [hfifo]
    simp
  · by_cases hut : u = t
    · rw [hut, hself] at hu
      rcases hu with hu | hu <;> cases hu
    · rw [hpc' u hut] at hu
      exact h.seen u hu
  · by_cases hut : u = t
    · rw [hut, hself] at hu
      cases hu
    · rw [hpc' u hut] at hu
      refine (h.asleep u d hu).imp_right fun ⟨v, e, hv⟩ => ⟨v, e, ?_⟩
      rwa [hpc' v fun heq => by rw [heq, hpc] at hv; cases hv]
  · by_cases hut : u = t
    · rw [hut, hself] at hu
      cases hu
    · rw [hpc' u hut] at hu
      exact h.hung u b hu

/-! ### Every step -/

omit [DecidableEq τ] in
/-- A step that changes nothing but the device and the flag `panicked` -/
theorem Inv.device (h : Inv s unread) (hpc : s'.pc = s.pc) (hlock : s'.lock = s.lock) (hbuf : s'.buf = s.buf) (hw : s'.w = s.w)
    (hr : s'.r = s.r) (hput : s'.put = s.put) (hsent : s'.sent = s.sent)
    (hpending : s.busy = true ∨ s.irq = true → s'.busy = true ∨ s'.irq = true)
    (hpanicked : s.panicked = true → s'.panicked = true) : Inv s' unread where
  lock := by
    rw [hlock, hpc]
    exact h.lock
  handler := by
    rw [hpc]
    exact h.handler
  ring := by
    rw [hbuf, hr]
    exact h.ring
  w := by rw [hw, hr, h.w]
  fifo := by
    have hhand : s'.hand = s.hand := by rw [State.hand, State.hand, hlock, hpc]
    rw [hput, hsent, hhand, h.fifo]
  seen := by
    rw [hpc]
    exact h.seen
  asleep := by
    rw [hpc]
    exact h.asleep
  pending hne := by
    rw [hpc]
    rcases h.pending hne with hb | hi | hrest
    · exact or_assoc.mp (.inl (hpending (.inl hb)))
    · exact or_assoc.mp (.inl (hpending (.inr hi)))
    · exact .inr (.inr hrest)
  hung u b hu := hpanicked (h.hung u b (hpc ▸ hu))

theorem Inv.thread (h : Inv s unread) (hs : ThreadStep s t s') : ∃ unread', Inv s' unread' := by
  have hhandler : t = none → (s.pc t).OfHandler := fun ht => ht ▸ h.handler
  cases hs with
  | acquire hpc hfree =>
    rw [hpc] at hhandler
    exact ⟨_, h.lockTaken hfree (by rw [hpc]; rfl) rfl rfl (by rw [hpc]; nofun) ⟨nofun, nofun⟩ hhandler nofun⟩
  | hang hpc hfree hp =>
    exact ⟨_, h.lockTaken hfree (by rw [hpc]; rfl) rfl rfl (by rw [hpc]; nofun) ⟨nofun, nofun⟩ (fun _ => trivial) fun _ _ => hp⟩
  | sleep hpc hw =>
    rw [hpc] at hhandler
    exact ⟨_, h.lockGiven (by rw [hpc]; rfl) rfl (by rw [hpc]; rfl) (by rw [hpc]; nofun) hhandler
      (fun _ _ => h.full_iff.mp hw) nofun⟩
  | push hpc hw => exact ⟨_, h.push hpc hw⟩
  | woken hpc hfree =>
    rw [hpc] at hhandler
    exact ⟨_, h.lockTaken hfree (by rw [hpc]; rfl) rfl rfl (by rw [hpc]; nofun) ⟨nofun, nofun⟩ hhandler nofun⟩
  | intr hpc hfree =>
    exact ⟨_, h.lockTaken hfree (by rw [hpc]; rfl) rfl rfl (fun _ => ⟨_, rfl⟩) ⟨nofun, nofun⟩ (fun _ => trivial) nofun⟩
  | empty hpc hw =>
    exact ⟨_, h.keeps (by rw [hpc]; rfl) rfl (by rw [hpc]; rfl) (by rw [hpc]; nofun) (fun _ => trivial)
      (by rintro (hp | hp) <;> cases hp) nofun (.inr (.inl (h.empty_iff.mp hw)))⟩
  | nonempty hpc hw =>
    exact ⟨_, h.keeps (by rw [hpc]; rfl) rfl (by rw [hpc]; rfl) (by rw [hpc]; nofun) (fun _ => trivial)
      (fun _ he => hw (h.empty_iff.mpr he)) nofun (.inl ⟨_, rfl⟩)⟩
  | busy hpc hb =>
    exact ⟨_, h.keeps (by rw [hpc]; rfl) rfl (by rw [hpc]; rfl) (by rw [hpc]; nofun) (fun _ => trivial)
      (by rintro (hp | hp) <;> cases hp) nofun (.inr (.inr hb))⟩
  | ready hpc hb =>
    exact ⟨_, h.keeps (by rw [hpc]; rfl) rfl (by rw [hpc]; rfl) (by rw [hpc]; nofun) (fun _ => trivial)
      (fun _ => h.seen t (.inl hpc)) nofun (.inl ⟨_, rfl⟩)⟩
  | take hpc => exact h.take hpc
  | wake hpc => exact ⟨_, h.wake hpc⟩
  | write hpc => exact ⟨_, h.write hpc⟩
  | release hpc =>
    exact ⟨_, h.lockGiven (by rw [hpc]; rfl) rfl (by rw [hpc]; rfl) (by rw [hpc]; nofun) (fun _ => trivial) nofun nofun⟩
  | syncHang hpc hp =>
    exact ⟨_, h.free (by rw [hpc]; rfl) rfl (by rw [hpc]; nofun) (fun _ => trivial) nofun fun _ _ => hp⟩
  | sync hpc => exact ⟨_, h.free (by rw [hpc]; rfl) rfl (by rw [hpc]; nofun) (fun _ => trivial) nofun nofun⟩
  | poll hpc hb => exact ⟨_, h.free (by rw [hpc]; rfl) rfl (by rw [hpc]; nofun) (fun _ => trivial) nofun nofun⟩
  | syncWrite hpc =>
    have hfree := h.free (p := .idle) (by rw [hpc]; rfl) rfl (by rw [hpc]; nofun) (fun _ => trivial) nofun nofun
    exact ⟨_, hfree.device rfl rfl rfl rfl rfl rfl rfl (fun _ => .inl rfl) id⟩

theorem Inv.step {a : Act τ} (h : Inv s unread) (hs : Uart.step s a = some s') : ∃ unread', Inv s' unread' := by
  cases a with
  | thread t => exact h.thread (run_cases hs)
  | putc q c =>
    dsimp only [Uart.step] at hs
    by_cases hidle : s.pc (some q) = .idle
    · rw [if_pos hidle] at hs
      cases hs
      exact ⟨_, h.free (by rw [hidle]; rfl) rfl (by rw [hidle]; nofun) nofun nofun nofun⟩
    · rw [if_neg hidle] at hs
      cases hs
  | putcSync t c =>
    dsimp only [Uart.step] at hs
    by_cases hidle : s.pc t = .idle
    · rw [if_pos hidle] at hs
      cases hs
      exact ⟨_, h.free (by rw [hidle]; rfl) rfl (by rw [hidle]; nofun) (fun _ => trivial) nofun nofun⟩
    · rw [if_neg hidle] at hs
      cases hs
  | finish =>
    dsimp only [Uart.step] at hs
    by_cases hb : s.busy = true
    · rw [if_pos hb] at hs
      cases hs
      exact ⟨_, h.device rfl rfl rfl rfl rfl rfl rfl (fun _ => .inr rfl) id⟩
    · rw [if_neg hb] at hs
      cases hs
  | receive =>
    cases hs
    exact ⟨_, h.device rfl rfl rfl rfl rfl rfl rfl (fun _ => .inr rfl) id⟩
  | interrupt =>
    dsimp only [Uart.step] at hs
    by_cases hi : s.irq = true ∧ s.pc none = .idle
    · rw [if_pos hi] at hs
      cases hs
      have hidle := hi.2
      have hself : Function.update s.pc none .intr none = .intr := Function.update_self _ _ _
      refine ⟨_, h.move rfl (lock_keep h.lock (by rw [hidle]; rfl)) rfl rfl rfl rfl rfl (fun _ => trivial)
        (h.hand_outside (by rw [hidle]; rfl)) (by rintro (hp | hp) <;> cases hp) nofun (by rw [hidle]; nofun)
        (fun _ _ => .inr (.inr (.inl hself))) nofun id⟩
    · rw [if_neg hi] at hs
      cases hs
  | panic =>
    cases hs
    exact ⟨_, h.device rfl rfl rfl rfl rfl rfl rfl id fun _ => rfl⟩

omit [DecidableEq τ] in
theorem Inv.boot (buf : ℕ → UInt8) : Inv (boot buf : State τ) [] where
  lock t := iff_of_false nofun nofun
  handler := trivial
  ring := Ring.holds_nil
  w := rfl
  fifo := rfl
  seen t h := by rcases h with h | h <;> cases h
  asleep t c h := nomatch h
  pending h := absurd rfl h
  hung t b h := nomatch h

end Steps

/-! ## The bytes are sent in order -/

theorem inv {s : State τ} (h : (system τ).Reachable s) : ∃ unread, Inv s unread :=
  System.invariant (M := system τ) (fun s => ∃ unread, Inv s unread) (fun _ ⟨buf, hs⟩ => hs ▸ ⟨[], .boot buf⟩)
    (fun _ _ _ ⟨_, hi⟩ _ hs => hi.step hs) h

/-- **The transmit ring is a queue**, across any interleaving of writers, interrupts and the device: what was put into
    it was sent in the same order, up to at most one byte in the hand of `uartstart` and at most `UART_TX_BUF_SIZE`
    bytes in the ring, between `uart_tx_r` and `uart_tx_w`. -/
theorem uart_fifo {s : State τ} (h : (system τ).Reachable s) :
    ∃ unread, s.put = s.sent ++ s.hand ++ unread ∧ s.hand.length ≤ 1 ∧ unread.length ≤ UART_TX_BUF_SIZE ∧
      s.w = s.r + UInt64.ofNat unread.length ∧ Ring.Holds s.buf UART_TX_BUF_SIZE s.r.toNat unread := by
  obtain ⟨unread, hi⟩ := inv h
  refine ⟨unread, hi.fifo, ?_, hi.ring.fits, hi.w, hi.ring⟩
  cases hlock : s.lock with
  | none => simp [hand_free hlock]
  | some t =>
    rw [hand_eq hlock]
    cases s.pc t with
    | start pos => cases pos <;> simp
    | _ => exact Nat.zero_le _

/-- Two processes put a byte each; the first one is sent, and the register is full then. -/
def twoBytes {τ : Type} (t u : τ) : List (Act τ) :=
  [.putc t 65, .putc u 66] ++ List.replicate 9 (.thread (some t)) ++ List.replicate 5 (.thread (some u))

theorem uart_fifo_twoBytes :
    ∃ s : State (Fin 2), s.put = [65, 66] ∧ s.sent = [65] ∧
      ∃ unread, s.put = s.sent ++ s.hand ++ unread ∧ s.hand.length ≤ 1 ∧ unread.length ≤ UART_TX_BUF_SIZE ∧
        s.w = s.r + UInt64.ofNat unread.length ∧ Ring.Holds s.buf UART_TX_BUF_SIZE s.r.toNat unread := by
  obtain ⟨s, hs, hp⟩ := System.exists_reachable_of_run (M := system (Fin 2)) (s := boot fun _ => 0)
    (p := fun s => s.put = [65, 66] ∧ s.sent = [65]) ⟨_, rfl⟩
    (show (System.run _ _ (twoBytes 0 1)).any _ = true by decide +kernel)
  obtain ⟨hput, hsent⟩ := of_decide_eq_true hp
  exact ⟨s, hput, hsent, uart_fifo hs⟩

/-! ## Without `uartputc_sync` nothing is overrun -/

/-- No step starts `uartputc_sync`. -/
def NoSync (_ : State τ) (a : Act τ) : Prop := ∀ t c, a ≠ .putcSync t c

/-- The thread is about to write what it found room for. -/
def Pc.Writes : Pc → Prop
  | .start .take | .start (.wake _) | .start (.write _) => True
  | _ => False

def Pc.Sync : Pc → Prop
  | .sync _ | .poll _ | .syncWrite _ => True
  | _ => False

/-- Who is about to write has the lock, and found the register empty. -/
structure Alone (s : State τ) : Prop where
  writes : ∀ t, (s.pc t).Writes → s.busy = false
  sync : ∀ t, ¬ (s.pc t).Sync
  overruns : s.overruns = 0

section Alone

variable {s s' : State τ} {t : Option τ} {p : Pc} {unread : List UInt8}

theorem Alone.move (h : Alone s) (hpc : s'.pc = Function.update s.pc t p) (hbusy : s'.busy = s.busy)
    (hoverruns : s'.overruns = s.overruns) (hwrites : p.Writes → s.busy = false) (hsync : ¬ p.Sync) : Alone s' where
  writes u hu := by
    rw [hbusy]
    rw [hpc] at hu
    by_cases hut : u = t
    · rw [hut, Function.update_self] at hu
      exact hwrites hu
    · rw [Function.update_of_ne hut] at hu
      exact h.writes u hu
  sync u hu := by
    rw [hpc] at hu
    by_cases hut : u = t
    · rw [hut, Function.update_self] at hu
      exact hsync hu
    · rw [Function.update_of_ne hut] at hu
      exact h.sync u hu
  overruns := by rw [hoverruns, h.overruns]

theorem Alone.thread (h : Alone s) (hi : Inv s unread) (hs : ThreadStep s t s') : Alone s' := by
  cases hs with
  | acquire | hang | sleep | push | woken | intr | empty | nonempty | busy | release => exact h.move rfl rfl rfl nofun nofun
  | ready _ hb => exact h.move rfl rfl rfl (fun _ => hb) nofun
  | take hpc => exact h.move rfl rfl rfl (fun _ => h.writes t (by rw [hpc]; trivial)) nofun
  | @wake c hpc =>
    have hwake : ∀ u, ((s.pc u).wake.Writes ↔ (s.pc u).Writes) ∧ ((s.pc u).wake.Sync ↔ (s.pc u).Sync) := fun u => by
      cases s.pc u <;> exact ⟨Iff.rfl, Iff.rfl⟩
    have hwoken : Alone { s with pc := fun u => (s.pc u).wake } :=
      ⟨fun u hu => h.writes u ((hwake u).1.mp hu), fun u hu => h.sync u ((hwake u).2.mp hu), h.overruns⟩
    exact hwoken.move rfl rfl rfl (fun _ => h.writes t (by rw [hpc]; trivial)) nofun
  | @write c hpc =>
    have hfree := h.writes t (by rw [hpc]; trivial)
    have hlocked : (s.pc t).locked = true := by rw [hpc]; rfl
    have hother : ∀ u, u ≠ t → ¬ (s.pc u).Writes := fun u hut hu => hut (hi.only hlocked (by
      cases hp : s.pc u with
      | start pos => rfl
      | _ =>
        rw [hp] at hu
        exact hu.elim))
    refine ⟨fun u hu => ?_, fun u hu => ?_, ?_⟩
    · replace hu : (Function.update s.pc t (.start .test) u).Writes := hu
      by_cases hut : u = t
      · rw [hut, Function.update_self] at hu
        exact hu.elim
      · rw [Function.update_of_ne hut] at hu
        exact absurd hu (hother u hut)
    · replace hu : (Function.update s.pc t (.start .test) u).Sync := hu
      by_cases hut : u = t
      · rw [hut, Function.update_self] at hu
        exact hu
      · rw [Function.update_of_ne hut] at hu
        exact h.sync u hu
    · simp [State.goto, State.writeThr, hfree, h.overruns]
  | syncHang hpc | sync hpc | poll hpc | syncWrite hpc => exact absurd (by rw [hpc]; trivial) (h.sync t)

theorem Alone.step {a : Act τ} (h : Alone s) (hi : Inv s unread) (hno : NoSync s a) (hs : Uart.step s a = some s') :
    Alone s' := by
  cases a with
  | thread t => exact h.thread hi (run_cases hs)
  | putc q c =>
    dsimp only [Uart.step] at hs
    split at hs
    · cases hs
      exact h.move rfl rfl rfl nofun nofun
    · cases hs
  | putcSync t c => exact absurd rfl (hno t c)
  | finish =>
    dsimp only [Uart.step] at hs
    split at hs
    · cases hs
      exact ⟨fun _ _ => rfl, h.sync, h.overruns⟩
    · cases hs
  | receive | panic =>
    cases hs
    exact ⟨h.writes, h.sync, h.overruns⟩
  | interrupt =>
    dsimp only [Uart.step] at hs
    split at hs
    · cases hs
      exact h.move rfl rfl rfl nofun nofun
    · cases hs

end Alone

/-- **`uartstart` never writes to a full register**, as long as nobody calls `uartputc_sync`, which does not take the
    lock. -/
theorem uart_no_overrun {s : State τ} (h : (system τ).ReachableUnder NoSync s) : s.overruns = 0 := by
  have hboth : (∃ unread, Inv s unread) ∧ Alone s := System.invariant (M := system τ)
    (fun s => (∃ unread, Inv s unread) ∧ Alone s) (fun _ ⟨buf, hs⟩ => hs ▸ ⟨⟨[], .boot buf⟩, nofun, nofun, rfl⟩)
    (fun _ _ _ ⟨⟨_, hi⟩, ha⟩ hno hs => ⟨hi.step hs, ha.step hi hno hs⟩) h
  exact hboth.2.overruns

theorem uart_no_overrun_twoBytes : ∃ s : State (Fin 2), s.sent = [65] ∧ s.overruns = 0 := by
  obtain ⟨s, hs, hp⟩ := System.exists_reachableUnder_of_runUnder (M := system (Fin 2)) (G := NoSync)
    (g := fun _ a => match a with | .putcSync _ _ => false | _ => true)
    (p := fun s => s.sent = [65]) (fun _ a ha t c heq => by rw [heq] at ha; cases ha)
    (show (system (Fin 2)).init (boot fun _ => 0) from ⟨_, rfl⟩)
    (show (System.runUnder _ _ _ (twoBytes 0 1)).any _ = true by decide +kernel)
  exact ⟨s, of_decide_eq_true hp, uart_no_overrun hs⟩

/-! ## The ring is emptied -/

/-- A step of the driver or of the device that no new call and no new input is the reason of -/
def Act.Internal : Act τ → Prop
  | .thread _ | .finish | .interrupt => True
  | .putc _ _ | .putcSync _ _ | .receive | .panic => False

section Drains

variable {s s' : State τ} {t : Option τ} {unread : List UInt8}

/-- Where no step is possible without a new call or new input, and the kernel has not panicked, nothing is left to do. -/
theorem Inv.quiet (h : Inv s unread) (hp : s.panicked = false) (hstuck : ∀ a : Act τ, a.Internal → Uart.step s a = none) :
    s.put = s.sent ∧ ∀ t, s.pc t = .idle := by
  have hrun : ∀ t, s.run t = none := fun t => hstuck (.thread t) trivial
  have hbusy : s.busy = false := Bool.eq_false_of_not_eq_true fun hb => by
    have := hstuck .finish trivial
    rw [Uart.step, if_pos hb] at this
    cases this
  have hhung : ∀ t b, s.pc t ≠ .hung b := fun t b ht => by
    rw [h.hung t b ht] at hp
    cases hp
  -- nobody has the lock: its holder could go on
  have hfree : s.lock = none := by
    cases hlock : s.lock with
    | none => rfl
    | some t =>
      have hlocked := (h.lock t).mp hlock
      have := hrun t
      unfold State.run at this
      cases hpc : s.pc t with
      | full c =>
        rw [hpc] at this
        dsimp only at this
        split at this <;> cases this
      | start pos =>
        rw [hpc] at this
        cases pos <;> cases this
      | release =>
        rw [hpc] at this
        cases this
      | hung b => exact absurd hpc (hhung t b)
      | _ =>
        rw [hpc] at hlocked
        cases hlocked
  have hwhere : ∀ t, s.pc t = .idle ∨ ∃ c, s.pc t = .asleep c := fun t => by
    have hno := hrun t
    have hunlocked : (s.pc t).locked ≠ true := fun hl => by
      rw [(h.lock t).mpr hl] at hfree
      cases hfree
    unfold State.run at hno
    cases hpc : s.pc t with
    | idle => exact .inl rfl
    | asleep c => exact .inr ⟨c, rfl⟩
    | hung b => exact absurd hpc (hhung t b)
    | acquire c | woken c | intr =>
      rw [hpc] at hno
      dsimp only at hno
      rw [if_pos hfree] at hno
      cases hno
    | sync c | syncWrite c =>
      rw [hpc] at hno
      cases hno
    | poll c =>
      rw [hpc, hbusy] at hno
      cases hno
    | full c | start pos | release =>
      rw [hpc] at hunlocked
      exact absurd rfl hunlocked
  have hhandler : s.pc none = .idle := (hwhere none).resolve_right fun ⟨c, hc⟩ => by
    have := h.handler
    rw [hc] at this
    exact this
  have hirq : s.irq = false := Bool.eq_false_of_not_eq_true fun hi => by
    have := hstuck .interrupt trivial
    rw [Uart.step, if_pos ⟨hi, hhandler⟩] at this
    cases this
  have hstart : ∀ t pos, s.pc t ≠ .start pos := fun t pos ht => by
    have := hwhere t
    rw [ht] at this
    rcases this with h | ⟨c, h⟩ <;> cases h
  have hempty : unread = [] := by
    by_contra hne
    rcases h.pending hne with hb | hi | hi | ⟨t, pos, ht⟩
    · rw [hbusy] at hb
      cases hb
    · rw [hirq] at hi
      cases hi
    · rw [hhandler] at hi
      cases hi
    · exact hstart t pos ht
  refine ⟨?_, fun t => (hwhere t).resolve_right fun ⟨c, hc⟩ => ?_⟩
  · rw [h.fifo, hand_free hfree, hempty, List.append_nil, List.append_nil]
  · rcases h.asleep t c hc with hfull | ⟨u, d, hu⟩
    · rw [hempty] at hfull
      cases hfull
    · exact hstart u _ hu

variable [Fintype τ]

/-- What a thread has still to do; `n` is the number of threads that a `wakeup` may concern. -/
def Pc.weight (n : ℕ) : Pc → ℕ
  | .idle | .hung _ => 0
  | .release => 1
  | .start .take => 2
  | .start .lsr => 3
  | .start .test => 4
  | .intr => 5
  | .syncWrite _ => 8
  | .poll _ => 9
  | .sync _ => 10
  | .start (.write _) => 12
  | .start (.wake _) => 2 * n + 13
  | .asleep _ => 2 * n + 16
  | .full _ => 2 * n + 17
  | .acquire _ | .woken _ => 2 * n + 18

/-- The number of steps that the driver and the device can still take by themselves is at most this. -/
def State.work (s : State τ) : ℕ :=
  ∑ t, (s.pc t).weight (Fintype.card (Option τ)) + (2 * Fintype.card (Option τ) + 12) * (s.w - s.r).toNat +
    7 * s.busy.toNat + 6 * s.irq.toNat

theorem sum_goto (n : ℕ) (pc : Option τ → Pc) (t : Option τ) (p : Pc) :
    ∑ u, (Function.update pc t p u).weight n + (pc t).weight n = ∑ u, (pc u).weight n + p.weight n := by
  have hcomp : ∀ u, (Function.update pc t p u).weight n = Function.update (fun u => (pc u).weight n) t (p.weight n) u := fun u => by
    by_cases hu : u = t
    · rw [hu, Function.update_self, Function.update_self]
    · rw [Function.update_of_ne hu, Function.update_of_ne hu]
  rw [Finset.sum_congr rfl fun u _ => hcomp u, Finset.sum_update_of_mem (Finset.mem_univ t),
    ← Finset.add_sum_erase Finset.univ (fun u => (pc u).weight n) (Finset.mem_univ t), Finset.sdiff_singleton_eq_erase]
  omega

omit [DecidableEq τ] in
theorem sum_wake (pc : Option τ → Pc) :
    ∑ u, (pc u).wake.weight (Fintype.card (Option τ)) ≤
      ∑ u, (pc u).weight (Fintype.card (Option τ)) + 2 * Fintype.card (Option τ) := by
  have hone : ∀ u ∈ Finset.univ, (pc u).wake.weight (Fintype.card (Option τ)) ≤
      (pc u).weight (Fintype.card (Option τ)) + 2 := fun u _ => by
    cases pc u <;> simp [Pc.weight]
  refine (Finset.sum_le_sum hone).trans ?_
  rw [Finset.sum_add_distrib, Finset.sum_const, Finset.card_univ, smul_eq_mul, mul_comm]

omit [DecidableEq τ] [Fintype τ] in
theorem distance (r : UInt64) {k : ℕ} (hk : k ≤ UART_TX_BUF_SIZE) : (r + UInt64.ofNat k - r).toNat = k := by
  have hsize : UART_TX_BUF_SIZE = 32 := rfl
  rw [add_sub_cancel_left, UInt64.toNat_ofNat']
  omega

omit [DecidableEq τ] [Fintype τ] in
theorem Inv.distance (h : Inv s unread) : (s.w - s.r).toNat = unread.length := by
  rw [h.w, Uart.distance s.r h.length_le]

theorem Inv.thread_work (h : Inv s unread) (hs : ThreadStep s t s') : s'.work < s.work := by
  have hsum := fun p => sum_goto (Fintype.card (Option τ)) s.pc t p
  unfold State.work
  cases hs with
  | @acquire c hpc _ =>
    have := hsum (.full c)
    rw [hpc] at this
    simp only [State.goto, Pc.weight] at this ⊢
    omega
  | @hang c hpc _ _ =>
    have := hsum (.hung true)
    rw [hpc] at this
    simp only [State.goto, Pc.weight] at this ⊢
    omega
  | @sleep c hpc _ =>
    have := hsum (.asleep c)
    rw [hpc] at this
    simp only [State.goto, Pc.weight] at this ⊢
    omega
  | @push c hpc hw =>
    have := hsum (.start .test)
    rw [hpc] at this
    have hlt : unread.length < UART_TX_BUF_SIZE := lt_of_le_of_ne h.length_le fun heq => hw (h.full_iff.mpr heq)
    have hnew : (s.w + 1 - s.r).toNat = unread.length + 1 := by
      have hw' : s.w + 1 = s.r + UInt64.ofNat (unread.length + 1) := by
        rw [h.w, UInt64.ofNat_add, add_assoc]
        rfl
      rw [hw', Uart.distance s.r hlt]
    simp only [State.goto, State.push, Pc.weight, hnew, h.distance, Nat.mul_add, mul_one] at this ⊢
    omega
  | @woken c hpc _ =>
    have := hsum (.full c)
    rw [hpc] at this
    simp only [State.goto, Pc.weight] at this ⊢
    omega
  | intr hpc _ =>
    have := hsum (.start .test)
    rw [hpc] at this
    simp only [State.goto, Pc.weight] at this ⊢
    omega
  | empty hpc _ =>
    have := hsum .release
    rw [hpc] at this
    simp only [State.goto, Pc.weight] at this ⊢
    omega
  | nonempty hpc _ =>
    have := hsum (.start .lsr)
    rw [hpc] at this
    simp only [State.goto, Pc.weight] at this ⊢
    omega
  | busy hpc _ =>
    have := hsum .release
    rw [hpc] at this
    simp only [State.goto, Pc.weight] at this ⊢
    omega
  | ready hpc _ =>
    have := hsum (.start .take)
    rw [hpc] at this
    simp only [State.goto, Pc.weight] at this ⊢
    omega
  | take hpc =>
    have := hsum (.start (.wake (s.buf (s.r.toNat % UART_TX_BUF_SIZE))))
    rw [hpc] at this
    obtain ⟨x, rest, rfl⟩ := List.exists_cons_of_ne_nil (h.seen t (.inr hpc))
    have hnew : (s.w - (s.r + 1)).toNat = rest.length := by
      have hw' : s.w = s.r + 1 + UInt64.ofNat rest.length := by
        rw [h.w, List.length_cons, UInt64.ofNat_add, add_assoc, add_comm (1 : UInt64)]
        rfl
      have hle := h.length_le
      rw [List.length_cons] at hle
      rw [hw', Uart.distance (s.r + 1) (by omega)]
    simp only [State.goto, Pc.weight, hnew, h.distance, List.length_cons, Nat.mul_add, mul_one] at this ⊢
    omega
  | @wake c hpc =>
    have := sum_goto (Fintype.card (Option τ)) (fun u => (s.pc u).wake) t (.start (.write c))
    have hwake := sum_wake s.pc
    rw [hpc] at this
    simp only [State.goto, Pc.wake, Pc.weight] at this hwake ⊢
    omega
  | @write c hpc =>
    have := hsum (.start .test)
    rw [hpc] at this
    simp only [State.goto, State.writeThr, Pc.weight, Bool.toNat_true] at this ⊢
    omega
  | release hpc =>
    have := hsum .idle
    rw [hpc] at this
    simp only [State.goto, Pc.weight] at this ⊢
    omega
  | syncHang hpc _ =>
    have := hsum (.hung false)
    rw [hpc] at this
    simp only [State.goto, Pc.weight] at this ⊢
    omega
  | @sync c hpc =>
    have := hsum (.poll c)
    rw [hpc] at this
    simp only [State.goto, Pc.weight] at this ⊢
    omega
  | @poll c hpc _ =>
    have := hsum (.syncWrite c)
    rw [hpc] at this
    simp only [State.goto, Pc.weight] at this ⊢
    omega
  | syncWrite hpc =>
    have := hsum .idle
    rw [hpc] at this
    simp only [State.goto, State.writeThr, Pc.weight, Bool.toNat_true] at this ⊢
    omega

theorem Inv.work_lt {a : Act τ} (h : Inv s unread) (ha : a.Internal) (hs : Uart.step s a = some s') : s'.work < s.work := by
  cases a with
  | thread t => exact h.thread_work (run_cases hs)
  | finish =>
    dsimp only [Uart.step] at hs
    split at hs
    · next hb =>
      cases hs
      simp only [State.work, hb, Bool.toNat_true, Bool.toNat_false]
      omega
    · cases hs
  | interrupt =>
    dsimp only [Uart.step] at hs
    split at hs
    · next hi =>
      cases hs
      have := sum_goto (Fintype.card (Option τ)) s.pc none .intr
      rw [hi.2] at this
      simp only [State.work, State.goto, hi.1, Pc.weight, Bool.toNat_true, Bool.toNat_false] at this ⊢
      omega
    · cases hs
  | putc | putcSync | receive | panic => exact ha.elim

/-- **The driver empties its ring by itself.** Without new calls and new input it and the device take a bounded number
    of steps; and when they can take no more, and the kernel has not panicked, every byte has been sent, nobody sleeps,
    and every call has returned. No interrupt and no wakeup is lost. -/
theorem uart_drains (h : (system τ).Reachable s) {as : List (Act τ)} (ha : ∀ a ∈ as, a.Internal)
    (hrun : (system τ).run s as = some s') :
    as.length ≤ s.work ∧ (s'.panicked = false → (∀ a : Act τ, a.Internal → step s' a = none) →
      s'.put = s'.sent ∧ ∀ t, s'.pc t = .idle) := by
  have hs' : (system τ).Reachable s' := System.reachable_of_run h hrun
  refine ⟨?_, fun hp hstuck => ?_⟩
  · induction as generalizing s with
    | nil => exact Nat.zero_le _
    | cons a as ih =>
      obtain ⟨s₁, hstep, hrest⟩ := System.run_cons.mp hrun
      obtain ⟨unread, hi⟩ := inv h
      have hlt := hi.work_lt (ha a List.mem_cons_self) hstep
      have := ih (.step h trivial hstep) (fun b hb => ha b (List.mem_cons_of_mem a hb)) hrest
      rw [List.length_cons]
      omega
  · obtain ⟨unread, hi⟩ := inv hs'
    exact hi.quiet hp hstuck

/-- The device finishes the first byte and interrupts, and the handler sends the second one. -/
def secondByte : List (Act (Fin 2)) := [.finish, .interrupt] ++ List.replicate 8 (.thread none)

theorem uart_drains_secondByte :
    ∃ s s' : State (Fin 2), s.sent = [65] ∧ s'.sent = [65, 66] ∧ secondByte.length ≤ s.work ∧
      (s'.panicked = false → (∀ a : Act (Fin 2), a.Internal → step s' a = none) →
        s'.put = s'.sent ∧ ∀ t, s'.pc t = .idle) := by
  obtain ⟨s, hs, hp⟩ := System.exists_reachable_of_run (M := system (Fin 2)) (s := boot fun _ => 0)
    (p := fun s => decide (s.sent = [65]) && ((system (Fin 2)).run s secondByte).any fun s' => s'.sent = [65, 66]) ⟨_, rfl⟩
    (show (System.run _ _ (twoBytes 0 1)).any _ = true by decide +kernel)
  obtain ⟨hsent, hany⟩ := Bool.and_eq_true_iff.mp hp
  have hint : ∀ a ∈ secondByte, a.Internal := fun a ha => by
    rcases List.mem_append.mp ha with ha | ha
    · rcases List.mem_cons.mp ha with rfl | ha
      · trivial
      · rw [List.mem_singleton.mp ha]
        trivial
    · rw [List.eq_of_mem_replicate ha]
      trivial
  cases hrun : (system (Fin 2)).run s secondByte with
  | none =>
    rw [hrun] at hany
    cases hany
  | some s' =>
    rw [hrun] at hany
    obtain ⟨hwork, hquiet⟩ := uart_drains hs hint hrun
    exact ⟨s, s', of_decide_eq_true hsent, of_decide_eq_true hany, hwork, hquiet⟩

end Drains

end Xv6.Kernel.Uart
