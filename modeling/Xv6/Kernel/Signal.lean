import Mathlib
import Xv6.Lib.TransitionSystem
import Xv6.Lib.Stores
import Xv6.Kernel.Riscv

/-!
# Signals

Delivery of signals to user handlers and the way back: `signal_handle` saves the trapframe
of the process and redirects `epc`, `sys_sigreturn` restores it. Kernel memory is an array
of 64-bit words; every structure copied here is aligned to words.

The save area is found by `p->trapframe + TRAPFRAMESIZE`, which is pointer arithmetic on
`struct trapframe *`: it lies 576 pages behind the trapframe, in memory that belongs to
somebody else.

- `restored_tshared`: `sigreturn` also takes the size, the areas and the locks of the
  address space back to what they were when the handler was entered;
- `delivery_disturbs`: no delivery to a user handler stays within the trapframe page;
- `transparent`: in runs in which handlers are entered only at the end of `usertrap` and one
  at a time, and in which nobody else stores into the saved registers, signals do not change
  what the program computes in its registers;
- `lost_result`: a handler entered in `sleep` costs the program the result of its call.
-/

namespace Xv6.Kernel.Signal

open Xv6.Lib

/-! ## Layout -/

abbrev Word := BitVec 64

/-- `sizeof(struct spinlock)` with `LAB_LOCK`: `locked`, `name`, `cpu`, `nts` and `n` -/
def sizeofSpinlock : ℕ := 8 + 8 + 8 + 4 + 4

/-- `sizeof(struct sleeplock)`: `locked`, `lk`, `name` and `pid` -/
def sizeofSleeplock : ℕ := 8 + sizeofSpinlock + 8 + 8

/-- `sizeof(struct vma)` -/
def sizeofVma : ℕ := 9 * 8

/-- `MAX_DYN_VMA + MAX_FIX_VMA` -/
def MAX_VMA : ℕ := 8 + 8

/-- `sizeof(struct threadshared)`: `tlock`, `slock`, `sz` and `vm_areas` -/
def sizeofThreadshared : ℕ := sizeofSpinlock + sizeofSleeplock + 8 + MAX_VMA * sizeofVma

/-- `TRAPFRAMESIZE`, which is also `sizeof(struct trapframe)` -/
def TRAPFRAMESIZE : ℕ := 288 + sizeofThreadshared

/-- Words in a page -/
def PGWORDS : ℕ := PGSIZE / 8

/-- Words in a `struct trapframe` -/
def trapframeWords : ℕ := TRAPFRAMESIZE / 8

-- the words of a `struct trapframe`
def epc : ℕ := 24 / 8
def ra : ℕ := 40 / 8
def sp : ℕ := 48 / 8
def a0 : ℕ := 112 / 8
def a1 : ℕ := 120 / 8
def tshared : ℕ := 288 / 8

/-- The word of `tshared.sz` -/
def sz : ℕ := tshared + (sizeofSpinlock + sizeofSleeplock) / 8

/-- The word holds a user register: `epc`, or one of `ra` to `t6`. -/
def IsUser (o : ℕ) : Prop := o = epc ∨ ra ≤ o ∧ o < tshared

/-- The word is a part of `tshared`. -/
def IsShared (o : ℕ) : Prop := tshared ≤ o ∧ o < trapframeWords

/-! ## Processes -/

def NUMSIG : ℕ := 3
def SIGALARM : ℕ := 1
def SIGKILL : ℕ := 2

def SIG_DFL : Word := 0
def SIG_IGN : Word := 1
def SIG_KILL : Word := 2

/-- The fields of `struct proc` that signals are about -/
structure Proc where
  /-- The page that holds the trapframe -/
  page : ℕ
  killed : Bool
  pending : BitVec 32
  tmpSaMask : BitVec 32
  saMask : BitVec 32
  saHandler : ℕ → Word
  isthread : Bool

namespace Proc

variable (p : Proc)

/-- `p->trapframe` -/
def trapframe : ℕ := p.page * PGWORDS

/-- `p->sa_trapframe`, as `allocproc` sets it: `p->trapframe + TRAPFRAMESIZE`, in units of
    `struct trapframe` -/
def saTrapframe : ℕ := p.trapframe + TRAPFRAMESIZE * trapframeWords

/-- The word is in the trapframe page of the process. -/
def InPage (a : ℕ) : Prop := p.trapframe ≤ a ∧ a < p.trapframe + PGWORDS

/-- `p->pending &= ~(1 << sig)` -/
def clear (sig : ℕ) : Proc := { p with pending := p.pending &&& ~~~(1#32 <<< sig) }

/-- `default_handler` -/
def defaultHandler (sig : ℕ) : Proc := if sig = SIGALARM then p else { p with killed := true }

/-- The signal is pending and not blocked. -/
def Deliverable (sig : ℕ) : Prop := p.pending.getLsbD sig = true ∧ p.saMask.getLsbD sig = false

instance (sig : ℕ) : Decidable (p.Deliverable sig) := inferInstanceAs (Decidable (_ ∧ _))

/-- The signal has a user handler. -/
def Caught (sig : ℕ) : Prop :=
  p.saHandler sig ≠ SIG_DFL ∧ p.saHandler sig ≠ SIG_IGN ∧ p.saHandler sig ≠ SIG_KILL

instance (sig : ℕ) : Decidable (p.Caught sig) := inferInstanceAs (Decidable (_ ∧ _))

end Proc

/-- What `signal_handle` stores, how it leaves the process, and the signal whose user handler
    it enters -/
structure Delivery where
  stores : List (Store Word)
  proc : Proc
  entered : Option ℕ

/-- The loop of `signal_handle` -/
def signalLoop (m : ℕ → Word) (p : Proc) : List ℕ → Delivery
  | [] => ⟨[], p, none⟩
  | sig :: rest =>
    if p.Deliverable sig then
      let p := p.clear sig
      if p.saHandler sig = SIG_DFL then ⟨[], p.defaultHandler sig, none⟩
      else if p.saHandler sig = SIG_IGN then signalLoop m p rest
      else if p.saHandler sig = SIG_KILL then ⟨[], { p with killed := true }, none⟩
      else
        ⟨[⟨p.saTrapframe, trapframeWords, fun i => m (p.trapframe + i)⟩,
            ⟨p.trapframe + epc, 1, fun _ => p.saHandler sig⟩],
          { p with tmpSaMask := p.saMask, saMask := p.saMask ||| 1#32 <<< sig }, some sig⟩
    else signalLoop m p rest

/-- `signal_handle` -/
def signalHandle (m : ℕ → Word) (p : Proc) : Delivery :=
  if p.isthread then ⟨[], p, none⟩ else signalLoop m p (List.range NUMSIG)

/-- `sys_sigreturn`: the stores, the process, and what it returns -/
def sysSigreturn (m : ℕ → Word) (p : Proc) : List (Store Word) × Proc × Word :=
  ([⟨p.trapframe, trapframeWords, fun i => m (p.saTrapframe + i)⟩],
    { p with saMask := p.tmpSaMask, tmpSaMask := 0 }, m (p.saTrapframe + a0))

/-! ## Runs -/

inductive Mode where
  /-- In user mode, with these user registers -/
  | user (regs : ℕ → Word)
  /-- In a system call -/
  | syscall
  /-- In `usertrap`, before `signal_handle` -/
  | trapped
  /-- In `usertrap`, behind `signal_handle` -/
  | returning

/-- The kernel memory and a process. The last four fields say what the process would have
    without signals. -/
structure State where
  mem : ℕ → Word
  p : Proc
  mode : Mode
  /-- Handlers that have been entered and have not called `sigreturn` -/
  depth : ℕ
  /-- The registers of the program that the handlers have interrupted -/
  main : ℕ → Word
  /-- Its signal mask -/
  mask : BitVec 32
  /-- The system call in progress was made by the program, not by a handler. -/
  byMain : Bool

namespace State

variable (s : State)

/-- The kernel stores. -/
def storeAll (sts : List (Store Word)) : State := { s with mem := Store.applyAll sts s.mem }

/-- The system call sets a user register in the trapframe. -/
def setReg (o : ℕ) (v : Word) : State :=
  { s.storeAll [⟨s.p.trapframe + o, 1, fun _ => v⟩] with
    main := if s.byMain then Function.update s.main o v else s.main }

/-- `signal_handle` is called; then the process is in the given mode. -/
def deliver (mode : Mode) : State :=
  let d := signalHandle s.mem s.p
  { s.storeAll d.stores with
    p := d.proc, mode := mode, depth := if d.entered.isSome then s.depth + 1 else s.depth }

end State

inductive Act where
  /-- The program, or a handler, computes. -/
  | user (regs : ℕ → Word)
  /-- `uservec` and the beginning of `usertrap` -/
  | trap (ecall : Bool)
  /-- `sleep` returns in a system call. -/
  | sleep
  /-- `sys_sigprocmask` -/
  | sigprocmask (mask : BitVec 32)
  /-- `sys_signal`, and `sys_sigalarm` for `SIGALARM` -/
  | signal (signum : ℕ) (func : Word)
  /-- `signal_handler_clear` in `exec` -/
  | signalHandlerClear
  /-- `exec` commits to a new image. -/
  | exec (entry stack : Word)
  /-- A system call returns, and `syscall` stores the result. -/
  | finish (res : Word)
  /-- `sys_sigreturn` is called and returns. -/
  | sigreturn
  /-- The call of `signal_handle` in `usertrap` -/
  | signalHandle
  /-- `usertrapret`, with the values of `kernel_satp`, … that it stores, and `userret` -/
  | usertrapret (kernel : ℕ → Word)
  /-- Somebody sends a signal, or an alarm expires. -/
  | send (signum : ℕ)
  /-- `kill` -/
  | kill
  /-- Any other store, by this process or by others -/
  | store (st : Store Word)

def step (s : State) : Act → Option State
  | .user regs =>
    match s.mode with
    | .user _ => some { s with mode := .user regs, main := if s.depth = 0 then regs else s.main }
    | _ => none
  | .trap ecall =>
    match s.mode with
    | .user regs =>
      if ecall ∧ s.p.killed then none
      else
        -- `p->trapframe->epc += 4` behind an `ecall`
        let regs := if ecall then Function.update regs epc (regs epc + 4) else regs
        some { s.storeAll [⟨s.p.trapframe + ra, tshared - ra, fun i => regs (ra + i)⟩,
            ⟨s.p.trapframe + epc, 1, fun _ => regs epc⟩] with
          mode := if ecall then .syscall else .trapped
          main := if s.depth = 0 then regs else s.main
          byMain := decide (s.depth = 0) }
    | _ => none
  | .sleep =>
    match s.mode with
    | .syscall => some (s.deliver .syscall)
    | _ => none
  | .sigprocmask mask =>
    match s.mode with
    | .syscall =>
      some { s with p := { s.p with saMask := mask }, mask := if s.byMain then mask else s.mask }
    | _ => none
  | .signal signum func =>
    match s.mode with
    | .syscall =>
      if signum < NUMSIG ∧ signum ≠ SIGKILL then
        some { s with p := { s.p with saHandler := Function.update s.p.saHandler signum func } }
      else none
    | _ => none
  | .signalHandlerClear =>
    match s.mode with
    | .syscall => some { s with p := { s.p with saHandler := fun _ => SIG_DFL } }
    | _ => none
  | .exec entry stack =>
    match s.mode with
    | .syscall => some (((s.setReg a1 stack).setReg epc entry).setReg sp stack)
    | _ => none
  | .finish res =>
    match s.mode with
    | .syscall => some { s.setReg a0 res with mode := .trapped }
    | _ => none
  | .sigreturn =>
    match s.mode with
    | .syscall =>
      let (stores, p, res) := sysSigreturn s.mem s.p
      some { s.storeAll (stores ++ [⟨s.p.trapframe + a0, 1, fun _ => res⟩]) with
        p := p, mode := .trapped, depth := s.depth - 1
        -- the program itself may call `sigreturn`, too
        main := if s.depth = 0 then fun o => s.mem (s.p.saTrapframe + o) else s.main
        mask := if s.depth = 0 then p.saMask else s.mask }
    | _ => none
  | .signalHandle =>
    match s.mode with
    | .trapped =>
      -- a process that has been killed exits here
      if (s.deliver .returning).p.killed then none else some (s.deliver .returning)
    | _ => none
  | .usertrapret kernel =>
    match s.mode with
    | .returning =>
      let s := s.storeAll [⟨s.p.trapframe, epc, kernel⟩,
        ⟨s.p.trapframe + (epc + 1), 1, fun _ => kernel (epc + 1)⟩]
      some { s with mode := .user fun o => s.mem (s.p.trapframe + o) }
    | _ => none
  | .send signum => some { s with p := { s.p with pending := s.p.pending ||| 1#32 <<< signum } }
  | .kill => some { s with p := { s.p with killed := true } }
  | .store st => some (s.storeAll [st])

/-- A new process, on its way to user mode -/
def system : System State Act where
  init s := s.mode = .returning ∧ s.depth = 0 ∧ s.mask = s.p.saMask ∧
    ∀ o, IsUser o → s.main o = s.mem (s.p.trapframe + o)
  step := step

/-! ## The frame of a delivery -/

/-- The handler that `signal_handle` enters in `s` has not called `sigreturn` yet. -/
inductive Handling (s : State) : State → Prop where
  | sleep : s.mode = .syscall → (signalHandle s.mem s.p).entered ≠ none →
      Handling s (s.deliver .syscall)
  | trap : s.mode = .trapped → (signalHandle s.mem s.p).entered ≠ none →
      Handling s (s.deliver .returning)
  | step {t t' : State} {a : Act} : Handling s t → step t a = some t' → s.depth < t'.depth →
      Handling s t'

/-- The `sigreturn` in `t` that belongs to the delivery in `s`: the two store into the trapframe
    page only, the address space is as the handler has left it, and the registers and the mask
    are as they were. -/
def Undisturbed (s t : State) : Prop :=
  let save := (signalHandle s.mem s.p).stores
  let (restore, p, _) := sysSigreturn t.mem t.p
  let mem := Store.applyAll restore t.mem
  (∀ st ∈ save ++ restore, ∀ a, st.Covers a → s.p.InPage a) ∧
  (∀ o, IsShared o → mem (s.p.trapframe + o) = t.mem (s.p.trapframe + o)) ∧
  (∀ o, IsUser o → mem (s.p.trapframe + o) = s.mem (s.p.trapframe + o)) ∧ p.saMask = s.p.saMask

/-! ## Transparency -/

/-- When all handlers have returned, the program has the registers and the mask that it would
    have without signals. -/
def Transparent (s : State) : Prop :=
  s.depth = 0 → s.p.saMask = s.mask ∧
    ∀ regs, s.mode = .user regs → ∀ o, IsUser o → regs o = s.main o

namespace Proc

/-- The first signal that is pending, not blocked and not ignored -/
def next (p : Proc) : Option ℕ :=
  (List.range NUMSIG).find? fun sig => p.Deliverable sig ∧ p.saHandler sig ≠ SIG_IGN

/-- The next signal is for a user handler. -/
def Enters (p : Proc) : Prop := p.isthread = false ∧ ∃ sig, p.next = some sig ∧ p.Caught sig

end Proc

/-- No handler is entered in the middle of a system call, or before the last one has returned,
    and nobody else stores into the registers of the process, nor into the saved ones. -/
def Calm (s : State) : Act → Prop
  | .sleep => ¬ s.p.Enters
  | .signalHandle => s.p.Enters → s.depth = 0
  | .store st => ∀ o, IsUser o → ¬ st.Covers (s.p.trapframe + o) ∧
      (0 < s.depth → ¬ st.Covers (s.p.saTrapframe + o))
  | _ => True

/-! ## `signal_handle` -/

section Delivery

variable {m : ℕ → Word} {p : Proc}

theorem saTrapframe_eq (p : Proc) : p.saTrapframe = p.trapframe + 576 * PGWORDS := rfl

theorem isUser_iff {o : ℕ} : IsUser o ↔ o = 3 ∨ 5 ≤ o ∧ o < 36 := Iff.rfl

/-- `1 << sig` has one bit only. -/
theorem shift_getLsbD_ne {sig j : ℕ} (h : j ≠ sig) : (1#32 <<< sig).getLsbD j = false := by
  rw [BitVec.getLsbD_shiftLeft, BitVec.getLsbD_one]
  by_cases hlt : j < sig
  · simp [hlt]
  · have hsub : j - sig ≠ 0 := by omega
    simp [hsub]

/-- Clearing the bit of one signal leaves the others pending. -/
theorem deliverable_clear {sig j : ℕ} (h : j ≠ sig) :
    (p.clear sig).Deliverable j ↔ p.Deliverable j := by
  have hbit := shift_getLsbD_ne h
  have hlt : p.pending.getLsbD j = true → j < 32 := fun hj => BitVec.lt_of_getLsbD hj
  simp only [Proc.Deliverable, Proc.clear, BitVec.getLsbD_and, BitVec.getLsbD_not, hbit, Bool.not_false,
    Bool.and_true, Bool.and_eq_true, decide_eq_true_iff]
  exact ⟨fun h => ⟨h.1.1, h.2⟩, fun h => ⟨⟨h.1, hlt h.1⟩, h.2⟩⟩

/-- What a delivery does: it handles a signal in the kernel, or it saves the trapframe and
    leads `epc` to a user handler. -/
inductive Delivers (m : ℕ → Word) (p : Proc) (d : Delivery) : Prop where
  | kernel : d.stores = [] → d.entered = none → d.proc.page = p.page →
      d.proc.tmpSaMask = p.tmpSaMask → d.proc.saMask = p.saMask → Delivers m p d
  | handler (sig : ℕ) (func : Word) :
      d.stores = [⟨p.saTrapframe, trapframeWords, fun i => m (p.trapframe + i)⟩,
        ⟨p.trapframe + epc, 1, fun _ => func⟩] →
      d.entered = some sig → d.proc.page = p.page → d.proc.tmpSaMask = p.saMask → Delivers m p d

theorem delivers_signalLoop (l : List ℕ) : Delivers m p (signalLoop m p l) := by
  induction l generalizing p with
  | nil => exact .kernel rfl rfl rfl rfl rfl
  | cons sig rest ih =>
    rw [signalLoop]
    split
    · simp only
      split
      · rw [Proc.defaultHandler]
        split <;> exact .kernel rfl rfl rfl rfl rfl
      · split
        · -- an ignored signal: the loop goes on without it
          rcases ih (p := p.clear sig) with ⟨h1, h2, h3, h4, h5⟩ | ⟨sig', func, h1, h2, h3, h4⟩
          · exact .kernel h1 h2 h3 h4 h5
          · exact .handler sig' func h1 h2 h3 h4
        · split
          · exact .kernel rfl rfl rfl rfl rfl
          · exact .handler sig _ rfl rfl rfl rfl
    · exact ih

/-- **Delivery.** -/
theorem delivers_signalHandle (m : ℕ → Word) (p : Proc) : Delivers m p (signalHandle m p) := by
  rw [signalHandle]
  split
  · exact .kernel rfl rfl rfl rfl rfl
  · exact delivers_signalLoop _

/-- A loop over different signals enters the handler of the first one that is not ignored. -/
theorem entered_signalLoop {l : List ℕ} (hl : l.Nodup) :
    (signalLoop m p l).entered =
      (l.find? fun sig => p.Deliverable sig ∧ p.saHandler sig ≠ SIG_IGN).filter
        fun sig => p.Caught sig := by
  -- Induction on the loop with the process it has reached. Signals the loop has already cleared
  -- differ from those to come, since the list has no duplicates.
  induction l generalizing p with
  | nil => rfl
  | cons sig rest ih =>
    obtain ⟨hsig, hrest⟩ := List.nodup_cons.mp hl
    rw [signalLoop, List.find?_cons]
    by_cases hdel : p.Deliverable sig
    · rw [if_pos hdel]
      have hsame : (p.clear sig).saHandler = p.saHandler := rfl
      -- An ignored signal is cleared, and the loop goes on; a signal of the rest is as deliverable
      -- as it was.
      by_cases hign : p.saHandler sig = SIG_IGN
      · have hne : SIG_IGN ≠ SIG_DFL := by decide
        simp only [hsame, hign, hne, if_false, if_true, ne_eq, not_true_eq_false, and_false,
          decide_false]
        rw [ih hrest]
        have hfind : rest.find? (fun j =>
            decide ((p.clear sig).Deliverable j ∧ (p.clear sig).saHandler j ≠ SIG_IGN)) =
            rest.find? fun j => decide (p.Deliverable j ∧ p.saHandler j ≠ SIG_IGN) := by
          refine List.find?_congr fun j hj => ?_
          rw [hsame, decide_eq_decide, deliverable_clear (ne_of_mem_of_not_mem hj hsig)]
        exact congrArg (Option.filter _) hfind
      -- The first signal that is not ignored: `kill` and a default action end the loop without a
      -- handler.
      · simp only [hsame, hdel, hign, ne_eq, not_false_eq_true, and_self, decide_true, if_false,
          Option.filter_some, Proc.Caught]
        have hne : SIG_KILL ≠ SIG_DFL := by decide
        by_cases hdfl : p.saHandler sig = SIG_DFL
        · simp [hdfl]
        · by_cases hkill : p.saHandler sig = SIG_KILL <;> simp [hdfl, hkill, hne]
    · simp only [hdel, if_false, false_and, decide_false]
      exact ih hrest

theorem entered_iff : (signalHandle m p).entered ≠ none ↔ p.Enters := by
  have hloop := entered_signalLoop (m := m) (p := p) (List.nodup_range (n := NUMSIG))
  rw [signalHandle, Proc.Enters]
  cases hthread : p.isthread with
  | true => simp
  | false =>
    rw [if_neg Bool.false_ne_true, hloop, ← Proc.next]
    cases p.next with
    | none => simp
    | some sig => by_cases hcaught : p.Caught sig <;> simp [Option.filter_some, hcaught]

end Delivery

/-! ## The frame -/

section Frame

variable {s t : State}

/-- A handler is entered through a save of the whole trapframe, 576 pages further on. -/
theorem stores_of_entered {m : ℕ → Word} {p : Proc} (h : (signalHandle m p).entered ≠ none) :
    ∃ func, (signalHandle m p).stores =
      [⟨p.saTrapframe, trapframeWords, fun i => m (p.trapframe + i)⟩,
        ⟨p.trapframe + epc, 1, fun _ => func⟩] := by
  rcases delivers_signalHandle m p with ⟨-, hnone, -⟩ | ⟨sig, func, hstores, -⟩
  · exact absurd hnone h
  · exact ⟨func, hstores⟩

theorem Handling.entered (h : Handling s t) : (signalHandle s.mem s.p).entered ≠ none := by
  induction h with
  | sleep _ h => exact h
  | trap _ h => exact h
  | step _ _ _ ih => exact ih

/-- The save area starts behind the trapframe page. -/
theorem saTrapframe_not_inPage (p : Proc) : ¬ p.InPage p.saTrapframe := by
  rw [Proc.InPage, saTrapframe_eq]
  have hpos : 0 < PGWORDS := by decide
  omega

/-- **Every delivery to a user handler writes outside of the trapframe page**: whatever the
    handler does, and wherever the trapframe page is. -/
theorem delivery_disturbs (h : Handling s t) : ¬ Undisturbed s t := by
  rintro ⟨hwrites, -⟩
  obtain ⟨func, hstores⟩ := stores_of_entered h.entered
  rw [hstores] at hwrites
  have hpos : 0 < trapframeWords := by decide
  exact saTrapframe_not_inPage s.p (hwrites _ List.mem_cons_self s.p.saTrapframe
    ⟨le_rfl, Nat.lt_add_of_pos_right hpos⟩)

theorem trapframe_congr {p q : Proc} (h : p.page = q.page) :
    p.trapframe = q.trapframe ∧ p.saTrapframe = q.saTrapframe := by
  rw [Proc.saTrapframe, Proc.saTrapframe, Proc.trapframe, Proc.trapframe, h]
  exact ⟨rfl, rfl⟩

theorem deliver_page (s : State) (mode : Mode) : (s.deliver mode).p.page = s.p.page := by
  rcases delivers_signalHandle s.mem s.p with ⟨-, -, hpage, -⟩ | ⟨sig, func, -, -, hpage, -⟩ <;>
    exact hpage

/-- The trapframe stays where it is. -/
theorem step_page {a : Act} (h : step s a = some t) : t.p.page = s.p.page := by
  cases a with
  -- Only the two steps that deliver signals run the handler's set-up; it moves no page.
  | sleep =>
    simp only [step] at h
    split at h
    · cases h
      exact deliver_page s _
    · cases h
  | signalHandle =>
    simp only [step] at h
    split at h
    · split at h
      · cases h
      · cases h
        exact deliver_page s _
    · cases h
  | user | sigprocmask | signalHandlerClear | exec | finish | usertrapret | sigreturn =>
    simp only [step] at h
    split at h
    · cases h
      rfl
    · cases h
  | trap | signal =>
    simp only [step] at h
    split at h
    · split at h <;> first | cases h; rfl | cases h
    · cases h
  | send | kill | store =>
    cases h
    rfl

theorem Handling.page_eq (h : Handling s t) : t.p.page = s.p.page := by
  induction h with
  | sleep _ _ => exact deliver_page s _
  | trap _ _ => exact deliver_page s _
  | step _ hs _ ih => exact (step_page hs).trans ih

/-- `sigreturn` takes back what the handler has done to the size of the process, to its areas
    and to its locks, if the save area has been left alone. -/
theorem restored_tshared (h : Handling s t)
    (hkeep : ∀ o, IsShared o → t.mem (s.p.saTrapframe + o) = s.mem (s.p.trapframe + o)) {o : ℕ}
    (ho : IsShared o) :
    Store.applyAll (sysSigreturn t.mem t.p).1 t.mem (s.p.trapframe + o) =
      s.mem (s.p.trapframe + o) := by
  obtain ⟨htrap, hsa⟩ := trapframe_congr h.page_eq
  rw [← hkeep o ho, ← htrap, ← hsa]
  exact Store.apply_offset ho.2

end Frame

/-! ## Transparency of deliveries at the end of a trap -/

/-- The word of a user register, where the process has it at the moment -/
def State.current (s : State) (o : ℕ) : Word :=
  match s.mode with
  | .user regs => regs o
  | _ => s.mem (s.p.trapframe + o)

/-- At most one handler is active; while it is, the program's registers and its mask are
    saved. -/
structure Inv (s : State) : Prop where
  depth : s.depth ≤ 1
  mask : s.depth = 0 → s.p.saMask = s.mask
  regs : s.depth = 0 → ∀ o, IsUser o → s.current o = s.main o
  own : s.depth = 0 → s.mode = .syscall → s.byMain = true
  savedMask : s.depth = 1 → s.p.tmpSaMask = s.mask
  saved : s.depth = 1 → ∀ o, IsUser o → s.mem (s.p.saTrapframe + o) = s.main o
  handler : s.depth = 1 → s.mode = .syscall → s.byMain = false

section Steps

variable {s t : State}

/-- A store into the trapframe does not reach the save area. -/
theorem not_covers_saved {p : Proc} {st : Store Word} (h : st.base + st.len ≤ p.trapframe + PGWORDS)
    (o : ℕ) : ¬ st.Covers (p.saTrapframe + o) := by
  rw [Store.Covers, saTrapframe_eq]
  omega

/-- The registers in the trapframe, and those saved for the program, after a change that only
    affects `tshared` and what is outside of both -/
theorem Inv.storeAll {sts : List (Store Word)} (h : Inv s)
    (hcur : ∀ st ∈ sts, ∀ o, IsUser o → ¬ st.Covers (s.p.trapframe + o))
    (hsaved : 0 < s.depth → ∀ st ∈ sts, ∀ o, IsUser o → ¬ st.Covers (s.p.saTrapframe + o)) :
    Inv (s.storeAll sts) := by
  refine ⟨h.depth, h.mask, fun h0 o ho => ?_, h.own, h.savedMask, fun h1 o ho => ?_, h.handler⟩
  · have hreg := h.regs h0 o ho
    have hsame : (s.storeAll sts).mem (s.p.trapframe + o) = s.mem (s.p.trapframe + o) :=
      Store.applyAll_of_not_covers fun st hst => hcur st hst o ho
    rw [State.current] at hreg ⊢
    cases hmode : s.mode with
    | user regs => simpa [State.storeAll, hmode] using hreg
    | syscall | trapped | returning =>
      simp only [hmode] at hreg
      simp only [State.storeAll, hmode]
      exact hsame.trans hreg
  · have hpos : 0 < s.depth := Nat.lt_of_lt_of_eq Nat.zero_lt_one (Eq.symm h1)
    exact (Store.applyAll_of_not_covers fun st hst => hsaved hpos st hst o ho).trans (h.saved h1 o ho)

/-- The process enters the kernel: `uservec` stores the registers. -/
theorem Inv.trap {ecall : Bool} (h : Inv s) (hs : step s (.trap ecall) = some t) : Inv t := by
  simp only [step] at hs
  split at hs
  · next regs hmode =>
    split at hs
    · cases hs
    cases hs
    generalize (if ecall = true then Function.update regs epc (regs epc + 4) else regs) = regs'
    -- `uservec` stores the user registers from `ra` on, and the user program counter on its own.
    have hregs : ∀ o, IsUser o →
        Store.applyAll [⟨s.p.trapframe + ra, tshared - ra, fun i => regs' (ra + i)⟩,
          ⟨s.p.trapframe + epc, 1, fun _ => regs' epc⟩] s.mem (s.p.trapframe + o) = regs' o := by
      intro o ho
      rw [Store.applyAll_cons, Store.applyAll_cons, Store.applyAll_nil, Store.apply_one]
      rcases isUser_iff.mp ho with rfl | ⟨hlo, hhi⟩
      · exact Function.update_self ..
      · obtain ⟨i, rfl⟩ : ∃ i, o = ra + i := ⟨o - ra, (Nat.add_sub_cancel' hlo).symm⟩
        have hepc : s.p.trapframe + (ra + i) ≠ s.p.trapframe + epc := by
          simp only [ra, epc]
          omega
        have hi : i < tshared - ra := by
          simp only [ra, tshared] at hhi ⊢
          omega
        rw [Function.update_of_ne hepc, ← Nat.add_assoc]
        exact Store.apply_offset hi
    -- The copy that a running handler left behind is in other words of the trapframe page.
    have hkeep : ∀ o, Store.applyAll [⟨s.p.trapframe + ra, tshared - ra, fun i => regs' (ra + i)⟩,
        ⟨s.p.trapframe + epc, 1, fun _ => regs' epc⟩] s.mem (s.p.saTrapframe + o) =
          s.mem (s.p.saTrapframe + o) := by
      intro o
      refine Store.applyAll_of_not_covers fun st hst => ?_
      rcases List.mem_pair.mp hst with rfl | rfl <;>
        exact not_covers_saved (by simp [ra, epc, tshared, PGWORDS]) o
    refine ⟨h.depth, h.mask, fun h0 o ho => ?_, fun h0 _ => decide_eq_true h0, h.savedMask,
      fun h1 o ho => ?_, fun h1 _ => ?_⟩
    -- Outside a handler the trapframe becomes the registers the process had.
    · have h0' : s.depth = 0 := h0
      simp only [h0', if_true]
      cases ecall <;> exact hregs o ho
    -- Inside a handler the copy still holds the registers of the interrupted program.
    · have h1' : s.depth ≠ 0 := by
        have h1' : s.depth = 1 := h1
        omega
      simp only [h1', if_false]
      exact (hkeep o).trans (h.saved h1 o ho)
    · have h1' : s.depth = 1 := h1
      simp [h1']
  · cases hs

/-- A system call sets a register: the program sees it where it has made the call. -/
theorem Inv.setReg {o : ℕ} (h : Inv s) (ho : IsUser o) (hmode : s.mode = .syscall) (v : Word) :
    Inv (s.setReg o v) := by
  have hmem : (s.setReg o v).mem = Function.update s.mem (s.p.trapframe + o) v := Store.apply_one ..
  refine ⟨h.depth, h.mask, fun h0 j hj => ?_, h.own, h.savedMask, fun h1 j hj => ?_, h.handler⟩
  · have hreg := h.regs h0 j hj
    have hmain : (s.setReg o v).main = Function.update s.main o v := if_pos (h.own h0 hmode)
    have hcur : (s.setReg o v).current j = Function.update s.mem (s.p.trapframe + o) v (s.p.trapframe + j) := by
      have hmode' : (s.setReg o v).mode = .syscall := hmode
      rw [State.current, hmode', hmem]
      rfl
    rw [hcur, hmain]
    by_cases hjo : j = o
    · subst hjo
      rw [Function.update_self, Function.update_self]
    · have hne : s.p.trapframe + j ≠ s.p.trapframe + o := by omega
      rw [Function.update_of_ne hne, Function.update_of_ne hjo, ← hreg, State.current, hmode]
  · have hmain : (s.setReg o v).main = s.main := if_neg (by simp [h.handler h1 hmode])
    rw [hmain, ← h.saved h1 j hj, hmem]
    refine Function.update_of_ne ?_ ..
    have hlt : o < 36 := by
      rcases isUser_iff.mp ho with rfl | ⟨-, hlt⟩
      · decide
      · exact hlt
    have hsa : (s.setReg o v).p.saTrapframe = s.p.trapframe + 576 * PGWORDS := rfl
    simp only [hsa, PGWORDS, PGSIZE]
    omega

/-- The process moves from one place in the kernel to another. -/
theorem Inv.setMode {mode : Mode} (h : Inv s) (hin : ∀ regs, s.mode ≠ .user regs)
    (hto : ∀ regs, mode ≠ .user regs) (hsys : mode ≠ .syscall) : Inv { s with mode := mode } := by
  refine ⟨h.depth, h.mask, fun h0 o ho => ?_, fun _ hmode => absurd hmode hsys, h.savedMask, h.saved,
    fun _ hmode => absurd hmode hsys⟩
  have hreg := h.regs h0 o ho
  rw [State.current] at hreg ⊢
  cases hfrom : s.mode with
  | user regs => exact absurd hfrom (hin regs)
  | syscall | trapped | returning =>
    simp only [hfrom] at hreg
    cases mode with
    | user regs => exact absurd rfl (hto regs)
    | syscall | trapped | returning => exact hreg

theorem Inv.exec {entry stack : Word} (h : Inv s) (hs : step s (.exec entry stack) = some t) :
    Inv t := by
  simp only [step] at hs
  split at hs
  · next hmode =>
    cases hs
    have h1 : Inv (s.setReg a1 stack) := h.setReg (.inr (by decide)) hmode stack
    have h2 : Inv ((s.setReg a1 stack).setReg epc entry) := h1.setReg (.inl rfl) hmode entry
    exact h2.setReg (.inr (by decide)) hmode stack
  · cases hs

theorem Inv.finish {res : Word} (h : Inv s) (hs : step s (.finish res) = some t) : Inv t := by
  simp only [step] at hs
  split at hs
  · next hmode =>
    cases hs
    have hset : Inv (s.setReg a0 res) := h.setReg (.inr (by decide)) hmode res
    refine hset.setMode (fun regs => ?_) (fun regs => Mode.noConfusion) Mode.noConfusion
    rw [show (s.setReg a0 res).mode = s.mode from rfl, hmode]
    exact Mode.noConfusion
  · cases hs

/-- `signal_handle` where it does not enter a user handler -/
theorem Inv.deliver_kernel (h : Inv s) (hnot : ¬ s.p.Enters) {mode : Mode}
    (hin : ∀ regs, s.mode ≠ .user regs) (hto : mode = s.mode ∨ mode = .returning) :
    Inv (s.deliver mode) := by
  rcases delivers_signalHandle s.mem s.p with
    ⟨hstores, hnone, hpage, htmp, hmask⟩ | ⟨sig, func, -, hsome, -⟩
  · obtain ⟨htrap, hsa⟩ := trapframe_congr hpage
    have hinv : Inv { s with p := (signalHandle s.mem s.p).proc } := by
      refine ⟨h.depth, fun h0 => hmask.trans (h.mask h0), fun h0 o ho => ?_, h.own,
        fun h1 => htmp.trans (h.savedMask h1), fun h1 o ho => ?_, h.handler⟩
      · rw [← h.regs h0 o ho, State.current, State.current, htrap]
      · rw [← h.saved h1 o ho, hsa]
    have hdeliver : s.deliver mode = { s with p := (signalHandle s.mem s.p).proc, mode := mode } := by
      simp [State.deliver, State.storeAll, hstores, hnone]
    rw [hdeliver]
    rcases hto with rfl | rfl
    · exact hinv
    · exact hinv.setMode hin (fun regs => Mode.noConfusion) Mode.noConfusion
  · exact absurd (entered_iff.mp (by rw [hsome]; exact Option.some_ne_none sig)) hnot

/-- `signal_handle` where it enters a user handler: the program is saved. -/
theorem Inv.deliver_handler (h : Inv s) (henters : s.p.Enters) (h0 : s.depth = 0)
    (hin : s.mode = .trapped) : Inv (s.deliver .returning) := by
  rcases delivers_signalHandle s.mem s.p with ⟨-, hnone, -⟩ | ⟨sig, func, hstores, hsome, hpage, htmp⟩
  · exact absurd hnone (entered_iff.mpr henters)
  · obtain ⟨htrap, hsa⟩ := trapframe_congr hpage
    have hdepth : (s.deliver .returning).depth = 1 := by
      simp [State.deliver, hsome, h0]
    have hmem : (s.deliver .returning).mem = Store.applyAll
        [⟨s.p.saTrapframe, trapframeWords, fun i => s.mem (s.p.trapframe + i)⟩,
          ⟨s.p.trapframe + epc, 1, fun _ => func⟩] s.mem := by
      rw [← hstores]
      rfl
    have hpage' : (s.deliver .returning).p.saTrapframe = s.p.saTrapframe := hsa
    refine ⟨hdepth.le, fun hzero => by omega, fun hzero => by omega, fun hzero => by omega,
      fun _ => htmp.trans (h.mask h0), fun _ o ho => ?_, fun _ hmode => (nomatch hmode)⟩
    have hreg := h.regs h0 o ho
    rw [State.current, hin] at hreg
    rw [hpage', hmem, Store.applyAll_cons, Store.applyAll_cons, Store.applyAll_nil,
      Store.apply_of_not_covers (not_covers_saved (by simp [epc, PGWORDS]) o)]
    have ho' : o < trapframeWords := by
      have hwords : trapframeWords = 192 := rfl
      rcases isUser_iff.mp ho with rfl | ⟨-, hlt⟩ <;> omega
    exact (Store.apply_offset ho').trans hreg

theorem Inv.sigreturn (h : Inv s) (hs : step s .sigreturn = some t) : Inv t := by
  simp only [step] at hs
  split at hs
  · cases hs
    -- The copy is written back in full; `a0` is stored once more as the call's return value, which
    -- is the `a0` of the copy.
    have hcur : ∀ o, IsUser o → Store.applyAll ((sysSigreturn s.mem s.p).1 ++
        [⟨s.p.trapframe + a0, 1, fun _ => s.mem (s.p.saTrapframe + a0)⟩]) s.mem (s.p.trapframe + o) =
          s.mem (s.p.saTrapframe + o) := by
      intro o ho
      have ho' : o < trapframeWords := by
        have hwords : trapframeWords = 192 := rfl
        rcases isUser_iff.mp ho with rfl | ⟨-, hlt⟩ <;> omega
      rw [sysSigreturn, List.singleton_append, Store.applyAll_cons, Store.applyAll_cons,
        Store.applyAll_nil, Store.apply_one]
      by_cases hoa : o = a0
      · subst hoa
        exact Function.update_self ..
      · have hne : s.p.trapframe + o ≠ s.p.trapframe + a0 := by omega
        rw [Function.update_of_ne hne]
        exact Store.apply_offset ho'
    have hdepth := h.depth
    -- No handler runs any more: what the invariant says of a nested one is void.
    refine ⟨?_, fun _ => ?_, fun _ o ho => (hcur o ho).trans ?_, fun _ hmode => (nomatch hmode), ?_, ?_,
      fun _ hmode => (nomatch hmode)⟩
    · show s.depth - 1 ≤ 1
      omega
    · by_cases h0 : s.depth = 0
      · exact (if_pos h0).symm
      · exact (h.savedMask (by omega)).trans (if_neg h0).symm
    · by_cases h0 : s.depth = 0
      · simp only [h0, if_true]
      · exact (h.saved (by omega) o ho).trans (congrFun (if_neg h0).symm o)
    · intro h1
      have h1' : s.depth - 1 = 1 := h1
      omega
    · intro h1
      have h1' : s.depth - 1 = 1 := h1
      omega
  · cases hs

/-- `usertrapret` stores between the user registers. -/
theorem Inv.usertrapret {kernel : ℕ → Word} (h : Inv s)
    (hs : step s (.usertrapret kernel) = some t) : Inv t := by
  simp only [step] at hs
  split at hs
  · next hmode =>
    cases hs
    have hstored : Inv (s.storeAll [⟨s.p.trapframe, epc, kernel⟩,
        ⟨s.p.trapframe + (epc + 1), 1, fun _ => kernel (epc + 1)⟩]) := by
      refine h.storeAll (fun st hst o ho => ?_) (fun _ st hst o _ => ?_)
      · have ho' := isUser_iff.mp ho
        rcases List.mem_pair.mp hst with rfl | rfl <;> simp only [Store.Covers, epc] <;> omega
      · rcases List.mem_pair.mp hst with rfl | rfl <;>
          exact not_covers_saved (by simp [epc, PGWORDS]) o
    refine ⟨hstored.depth, hstored.mask, fun h0 o ho => ?_, fun _ hm => (nomatch hm),
      hstored.savedMask, hstored.saved, fun _ hm => (nomatch hm)⟩
    have hreg := hstored.regs h0 o ho
    rw [State.current, show (s.storeAll _).mode = s.mode from rfl, hmode] at hreg
    exact hreg
  · cases hs

/-- **One step.** -/
theorem Inv.step {a : Act} (h : Inv s) (hcalm : Calm s a) (hs : step s a = some t) : Inv t := by
  cases a with
  -- In user mode only the registers change, and those of the interrupted program lie in the copy.
  | user regs =>
    simp only [Signal.step] at hs
    split at hs
    · cases hs
      refine ⟨h.depth, h.mask, fun h0 o _ => ?_, fun _ hm => (nomatch hm), h.savedMask, fun h1 o ho => ?_,
        fun _ hm => (nomatch hm)⟩
      · exact congrFun (if_pos h0).symm o
      · have hne : s.depth ≠ 0 := fun h0 => by simp [h0] at h1
        exact (h.saved h1 o ho).trans (congrFun (if_neg hne).symm o)
    · cases hs
  | trap ecall => exact h.trap hs
  | sleep =>
    simp only [Signal.step] at hs
    split at hs
    · next hmode =>
      cases hs
      exact h.deliver_kernel hcalm (by simp [hmode]) (.inl hmode.symm)
    · cases hs
  -- In a handler the mask that `sigprocmask` replaces is not the saved one.
  | sigprocmask mask =>
    simp only [Signal.step] at hs
    split at hs
    · next hmode =>
      cases hs
      refine ⟨h.depth, fun h0 => (if_pos (h.own h0 hmode)).symm, h.regs, h.own, fun h1 => ?_, h.saved,
        h.handler⟩
      have hby : s.byMain ≠ true := by simp [h.handler h1 hmode]
      exact (h.savedMask h1).trans (if_neg hby).symm
    · cases hs
  | signal signum func =>
    simp only [Signal.step] at hs
    split at hs
    · split at hs
      · cases hs
        exact ⟨h.depth, h.mask, h.regs, h.own, h.savedMask, h.saved, h.handler⟩
      · cases hs
    · cases hs
  | signalHandlerClear =>
    simp only [Signal.step] at hs
    split at hs
    · cases hs
      exact ⟨h.depth, h.mask, h.regs, h.own, h.savedMask, h.saved, h.handler⟩
    · cases hs
  | exec entry stack => exact h.exec hs
  | finish res => exact h.finish hs
  | sigreturn => exact h.sigreturn hs
  | signalHandle =>
    simp only [Signal.step] at hs
    -- A handler is entered, or the loop stays in the kernel.
    split at hs
    · next hmode =>
      split at hs
      · cases hs
      · cases hs
        by_cases henters : s.p.Enters
        · exact h.deliver_handler henters (hcalm henters) hmode
        · exact h.deliver_kernel henters (by simp [hmode]) (.inr rfl)
    · cases hs
  | usertrapret kernel => exact h.usertrapret hs
  | send signum =>
    cases hs
    exact ⟨h.depth, h.mask, h.regs, h.own, h.savedMask, h.saved, h.handler⟩
  | kill =>
    cases hs
    exact ⟨h.depth, h.mask, h.regs, h.own, h.savedMask, h.saved, h.handler⟩
  -- A store of the process meets neither the trapframe nor, in a handler, the copy.
  | store st =>
    cases hs
    refine h.storeAll (fun st' hst o ho => ?_) (fun hpos st' hst o ho => ?_)
    · rw [List.mem_singleton.mp hst]
      exact (hcalm o ho).1
    · rw [List.mem_singleton.mp hst]
      exact (hcalm o ho).2 hpos

theorem Inv.init (h0 : system.init s) : Inv s := by
  obtain ⟨hmode, hdepth, hmask, hmain⟩ := h0
  refine ⟨by omega, fun _ => hmask.symm, fun _ o ho => ?_, fun _ hm => ?_, fun h1 => by omega,
    fun h1 => by omega, fun h1 => by omega⟩
  · rw [State.current, hmode]
    exact (hmain o ho).symm
  · rw [hmode] at hm
    cases hm

/-- **Signals are transparent** to the interrupted program, if handlers are entered only at the
    end of `usertrap` and one at a time, and nobody else stores into the registers. -/
theorem transparent (hs : system.ReachableUnder Calm s) : Transparent s := by
  have hinv : Inv s := System.invariant Inv (fun _ => Inv.init) (fun _ _ _ h hcalm hs => h.step hcalm hs) hs
  intro h0
  refine ⟨hinv.mask h0, fun regs hmode o ho => ?_⟩
  have hreg := hinv.regs h0 o ho
  rwa [State.current, hmode] at hreg

end Steps

/-! ## Two runs -/

/-- A process that has just been made. Its handler for `SIGALARM` is at `0x1000`. -/
def fresh : State where
  mem _ := 0
  p := ⟨0x80100, false, 0, 0, 0, Function.update (fun _ => SIG_DFL) SIGALARM 0x1000, false⟩
  mode := .returning
  depth := 0
  main _ := 0
  mask := 0
  byMain := false

theorem fresh_init : system.init fresh := ⟨rfl, rfl, rfl, fun _ _ => rfl⟩

/-- The process has trapped, and an alarm is pending. -/
def alarmed : State := { fresh with p := { fresh.p with pending := 1#32 <<< SIGALARM }, mode := .trapped }

theorem alarm_disturbs : ¬ Undisturbed alarmed (alarmed.deliver .returning) :=
  delivery_disturbs (.trap rfl (by decide))

/-- The handler calls `sbrk`; `sigreturn` takes the size back. -/
theorem sbrk_undone :
    ¬ ∀ s t, system.Reachable s → Handling s t → t.mode = .syscall → t.depth = s.depth + 1 →
      Undisturbed s t := by
  intro hall
  have h1 : system.Reachable _ := .step (a := .send SIGALARM) (.init fresh_init) trivial rfl
  have h2 : system.Reachable _ := .step (a := .usertrapret fun _ => 0) h1 trivial rfl
  have h3 : system.Reachable _ := .step (a := .trap false) h2 trivial rfl
  obtain ⟨-, hshared, -⟩ := hall _ _ h3
    (.step (a := .store ⟨fresh.p.trapframe + sz, 1, fun _ => 0x2000⟩)
      (.step (a := .trap true)
        (.step (a := .usertrapret fun _ => 0) (.trap rfl (by decide +kernel)) rfl (by decide +kernel))
        rfl (by decide +kernel)) rfl (by decide +kernel)) rfl rfl
  exact absurd (hshared sz ⟨by decide, by decide⟩) (by decide +kernel)

/-- An alarm is handled at the end of a trap, and the program goes on. -/
theorem alarm_transparent :
    ∃ s regs, s.depth = 0 ∧ s.mode = .user regs ∧ s.p.tmpSaMask = 0 ∧ Transparent s := by
  have h1 : system.ReachableUnder Calm _ :=
    .step (a := .send SIGALARM) (.init fresh_init) (by trivial) rfl
  have h2 : system.ReachableUnder Calm _ :=
    .step (a := .usertrapret fun _ => 0) h1 (by trivial) rfl
  have h3 : system.ReachableUnder Calm _ := .step (a := .trap false) h2 (by trivial) rfl
  have h4 : system.ReachableUnder Calm _ := .step (a := .signalHandle) h3 (by intro _; rfl) rfl
  have h5 : system.ReachableUnder Calm _ :=
    .step (a := .usertrapret fun _ => 0) h4 (by trivial) rfl
  have h6 : system.ReachableUnder Calm _ := .step (a := .trap true) h5 (by trivial) rfl
  have h7 : system.ReachableUnder Calm _ := .step (a := .sigreturn) h6 (by trivial) rfl
  have h8 : system.ReachableUnder Calm _ := .step (a := .signalHandle) h7 (by intro _; rfl) rfl
  have h9 : system.ReachableUnder Calm _ :=
    .step (a := .usertrapret fun _ => 0) h8 (by trivial) rfl
  exact ⟨_, _, rfl, rfl, rfl, transparent h9⟩

/-- The alarm comes while the program sleeps in a system call, which then returns 7. -/
theorem lost_result : ¬ ∀ s, system.Reachable s → Transparent s := by
  intro hall
  have hrun : (system.run fresh [.usertrapret fun _ => 0, .trap true, .send SIGALARM, .sleep,
      .finish 7, .signalHandle, .usertrapret fun _ => 0, .trap true, .sigreturn, .signalHandle,
      .usertrapret fun _ => 0]).any (fun s =>
        decide (s.depth = 0 ∧ s.main a0 = 7) &&
          match s.mode with
          | .user regs => decide (regs a0 = 0)
          | _ => false) = true := by decide +kernel
  obtain ⟨s, hs, hp⟩ := System.exists_reachable_of_run fresh_init hrun
  rw [Bool.and_eq_true, decide_eq_true_iff] at hp
  obtain ⟨⟨hdepth, hmain⟩, hregs⟩ := hp
  obtain ⟨-, htrans⟩ := hall s hs hdepth
  cases hmode : s.mode with
  | user regs =>
    simp only [hmode, decide_eq_true_iff] at hregs
    have heq := htrans regs hmode a0 (.inr (by decide +kernel))
    rw [hregs, hmain] at heq
    exact absurd heq (by decide)
  | syscall | trapped | returning => simp [hmode] at hregs

end Xv6.Kernel.Signal
