import Mathlib
import Xv6.Lib.TransitionSystem
import Xv6.Kernel.Riscv

/-!
# Threads and Their Address Space

The process table under `fork`, `clone`, `exec`, `exit`, `kill`, `join` and `wait`.
A thread shares the page table of the process that made it, and the `tshared` in the
trapframe page of the main process. `exit` kills and reaps the threads it is the
parent of before the process becomes a zombie, threads of threads included, since a
thread does the same when it dies. `exec` does not: it frees the page table under the
threads that still run on it.

- `Inv.alone_of_reaped`: behind `tpkill` nobody else alive uses the page table;
- `threads_within_address_space`: in runs in which a process calls `exec` only while
  nobody else runs on its page table, every live process has its address space.
-/

namespace Xv6.Kernel.Threads

open Xv6.Lib

/-! ## The process table -/

/-- Maximum number of processes -/
def NPROC : ℕ := 64

/-- `PHYSTOP_INCLUDESUPPG`, where `clone` starts to look for a place for a trapframe -/
def PHYSTOP_INCLUDESUPPG : ℕ := 0x88400000

/-- `enum procstate`. A slot is `USED` only while `fork` or `clone` fills it. -/
inductive ProcState where
  | unused
  | sleeping
  | runnable
  | running
  | zombie
  deriving DecidableEq

/-- How far a process is in `exit` -/
inductive Exit where
  /-- Not in `exit` -/
  | no
  /-- In the loop of `tpkill` that waits for the threads -/
  | tpkill
  /-- Behind `tpkill` -/
  | reaped
  deriving DecidableEq

/-- The fields of `struct proc` that say whose memory it uses. Page tables and
    trapframe pages have a number for each time one is allocated. -/
structure Proc where
  state : ProcState
  killed : Bool
  pid : ℕ
  parent : Option (Fin NPROC)
  isthread : Bool
  pagetable : Option ℕ
  trapframe : Option ℕ
  /-- The trapframe page that the `tshared` in use lies in -/
  tshared : Option ℕ
  trapVa : ℕ
  exit : Exit
  deriving DecidableEq

/-- A slot that `freeproc` has cleared -/
def Proc.free : Proc := ⟨.unused, false, 0, none, false, none, none, none, 0, .no⟩

structure State where
  proc : Fin NPROC → Proc
  nextpid : ℕ
  /-- The number of the next page table or trapframe page -/
  next : ℕ
  /-- The page tables that `proc_freepagetable` has run on -/
  freedTables : List ℕ
  /-- The trapframe pages that `freeproc` has freed -/
  freedPages : List ℕ
  /-- The `sz` in the `tshared` of a trapframe page -/
  sz : ℕ → ℕ
  /-- The addresses at which a page table maps trapframe pages of threads -/
  leaves : ℕ → List ℕ

/-- `initproc` -/
def initproc : Fin NPROC := ⟨0, by decide⟩

namespace State

def setProc (s : State) (p : Fin NPROC) (x : Proc) : State :=
  { s with proc := Function.update s.proc p x }

/-- `proc_freepagetable(pagetable, sz)`, or its variant for process 1 that starts at
    address 0. What is mapped at or above `sz` stays, and makes `freewalk` panic. -/
def procFreepagetable (s : State) (lo pt sz : ℕ) : Option State :=
  if ∀ va ∈ s.leaves pt, lo ≤ va ∧ va < pgRoundUp sz then
    some { s with
      freedTables := pt :: s.freedTables
      leaves := Function.update s.leaves pt [] }
  else none

/-- `kfree` of a trapframe page -/
def kfreeTrapframe (s : State) (tf : Option ℕ) : State :=
  match tf with
  | none => s
  | some tf => { s with freedPages := tf :: s.freedPages }

/-- `freeproc(p)` -/
def freeproc (s : State) (p : Fin NPROC) : Option State :=
  let x := s.proc p
  let freed : Option State :=
    match x.pagetable, x.isthread, x.tshared with
    | some pt, false, some ts => s.procFreepagetable PGSIZE pt (s.sz ts)
    | _, _, _ => some s
  freed.map fun s => (s.kfreeTrapframe x.trapframe).setProc p .free

/-- The process runs, and is not in `exit`. -/
def InCall (s : State) (p : Fin NPROC) : Prop :=
  (s.proc p).state = .running ∧ (s.proc p).exit = .no

/-- Slot `q` holds a thread made by `p`. -/
def IsThreadOf (s : State) (q p : Fin NPROC) : Prop :=
  (s.proc q).parent = some p ∧ (s.proc q).isthread = true

instance (s : State) (p : Fin NPROC) : Decidable (s.InCall p) := inferInstanceAs (Decidable (_ ∧ _))
instance (s : State) (q p : Fin NPROC) : Decidable (s.IsThreadOf q p) :=
  inferInstanceAs (Decidable (_ ∧ _))

end State

/-! ## The calls -/

inductive Act where
  /-- `scheduler` switches to `p`. -/
  | schedule (p : Fin NPROC)
  | yield (p : Fin NPROC)
  /-- `p` goes to sleep in a call. -/
  | sleep (p : Fin NPROC)
  /-- `p` is woken. -/
  | wakeup (p : Fin NPROC)
  /-- `p` kills `q`. -/
  | kill (p q : Fin NPROC)
  /-- `fork` by `p` into the slot `q` -/
  | fork (p q : Fin NPROC)
  | forkFail (p : Fin NPROC)
  /-- `clone` by `p` into the slot `q`. The first address without a mapping is `va`;
      `mappages`, whose result is not looked at, succeeds if `mapped`. -/
  | clone (p q : Fin NPROC) (va : ℕ) (mapped : Bool)
  | cloneFail (p : Fin NPROC)
  /-- `exec` by `p` of a program of size `sz` -/
  | exec (p : Fin NPROC) (sz : ℕ)
  | execFail (p : Fin NPROC)
  /-- `exit` by `p`, up to the end of the first loop of `tpkill` -/
  | exit (p : Fin NPROC)
  /-- `tpkill` by `p` frees the thread `q`. -/
  | tpkillFree (p q : Fin NPROC)
  /-- `tpkill` by `p` sleeps, as the thread `q` is no zombie. -/
  | tpkillSleep (p q : Fin NPROC)
  /-- `tpkill` by `p` has found no thread. -/
  | tpkillDone (p : Fin NPROC)
  /-- The rest of `exit` by `p` -/
  | zombie (p : Fin NPROC)
  /-- `join` by `p` frees the thread `q`. -/
  | join (p q : Fin NPROC)
  /-- `wait` by `p` frees the process `q`. -/
  | wait (p q : Fin NPROC)

/-- Kill, and wake from `sleep`. -/
def Proc.kill (x : Proc) : Proc :=
  { x with killed := true, state := if x.state = .sleeping then .runnable else x.state }

/-- What `fork` by `p` puts in the slot `q`: a process with a page table and a trapframe page
    of its own. `allocproc` leaves `killed` as it is. -/
def child (s : State) (p q : Fin NPROC) : Proc :=
  ⟨.runnable, (s.proc q).killed, s.nextpid, some p, false, some s.next, some (s.next + 1),
    some (s.next + 1), TRAPFRAME, .no⟩

/-- `fork`: the child gets a copy of the caller's trapframe, with the `tshared` in it. -/
def fork (s : State) (p q : Fin NPROC) : State :=
  let x := s.proc p
  { s with
    proc := Function.update s.proc q (child s p q)
    nextpid := s.nextpid + 1
    next := s.next + 2
    sz := Function.update s.sz (s.next + 1) (x.trapframe.elim 0 s.sz)
    -- `uvmcopy` copies what is mapped below the size
    leaves := Function.update s.leaves s.next
      ((x.pagetable.elim [] s.leaves).filter (· < x.tshared.elim 0 s.sz)) }

/-- What `clone` by `p` puts in the slot `q`: a process on the memory of `p` with a trapframe
    page of its own at `va`. -/
def thread (s : State) (p q : Fin NPROC) (va : ℕ) : Proc :=
  ⟨.runnable, (s.proc q).killed, s.nextpid, some p, true, (s.proc p).pagetable, some s.next,
    (s.proc p).tshared, va, .no⟩

/-- `clone` -/
def clone (s : State) (p q : Fin NPROC) (va : ℕ) (mapped : Bool) : State :=
  let x := s.proc p
  { s with
    proc := Function.update s.proc q (thread s p q va)
    nextpid := s.nextpid + 1
    next := s.next + 1
    sz := Function.update s.sz s.next (x.trapframe.elim 0 s.sz)
    leaves :=
      match x.pagetable, mapped with
      | some pt, true => Function.update s.leaves pt (va :: s.leaves pt)
      | _, _ => s.leaves }

/-- The commit of `exec`: the new page table and size are set, and the old table freed. -/
def exec (s : State) (p : Fin NPROC) (sz : ℕ) : Option State :=
  let x := s.proc p
  match x.pagetable, x.tshared with
  | some old, some ts =>
    ({ s with
      proc := Function.update s.proc p { x with pagetable := some s.next }
      next := s.next + 1
      sz := Function.update s.sz ts sz
      leaves := Function.update s.leaves s.next [] } : State).procFreepagetable
        (if x.pid = 1 then 0 else PGSIZE) old (s.sz ts)
  | _, _ => none

/-- `reparent(p)` -/
def reparent (s : State) (p : Fin NPROC) : State :=
  { s with
    proc := fun q =>
      if (s.proc q).parent = some p ∧ (s.proc q).isthread = false then
        { s.proc q with parent := some initproc }
      else s.proc q }

/-- The end of `exit`: the process becomes a zombie, and a thread's trapframe is unmapped. -/
def becomeZombie (s : State) (p : Fin NPROC) : State :=
  let x := s.proc p
  { s.setProc p { x with state := .zombie } with
    leaves :=
      match x.pagetable, x.isthread with
      | some pt, true => Function.update s.leaves pt ((s.leaves pt).erase x.trapVa)
      | _, _ => s.leaves }

/-- One step. `none` also stands for a panic. -/
def step (s : State) : Act → Option State
  | .schedule p =>
    if (s.proc p).state = .runnable then
      some (s.setProc p { s.proc p with state := .running }) else none
  | .yield p =>
    if (s.proc p).state = .running then
      some (s.setProc p { s.proc p with state := .runnable }) else none
  | .sleep p =>
    if (s.proc p).state = .running ∧ (s.proc p).exit ≠ .tpkill then
      some (s.setProc p { s.proc p with state := .sleeping }) else none
  | .wakeup p =>
    if (s.proc p).state = .sleeping then
      some (s.setProc p { s.proc p with state := .runnable }) else none
  | .kill p q => if s.InCall p then some (s.setProc q (s.proc q).kill) else none
  | .fork p q =>
    if s.InCall p ∧ (s.proc q).state = .unused then some (fork s p q) else none
  | .forkFail p =>
    if s.InCall p then
      some { s with
        nextpid := s.nextpid + 1
        next := s.next + 2
        freedTables := s.next :: s.freedTables
        freedPages := (s.next + 1) :: s.freedPages }
    else none
  | .clone p q va mapped =>
    if s.InCall p ∧ (s.proc q).state = .unused ∧ PGSIZE ∣ va ∧
        PHYSTOP_INCLUDESUPPG ≤ va ∧ va < USYSCALL ∧ va ∉ (s.proc p).pagetable.elim [] s.leaves then some (clone s p q va mapped)
    else none
  | .cloneFail p =>
    if s.InCall p then
      some { s with
        nextpid := s.nextpid + 1
        next := s.next + 1
        freedPages := s.next :: s.freedPages }
    else none
  | .exec p sz => if s.InCall p then exec s p sz else none
  | .execFail p =>
    if s.InCall p then
      some { s with next := s.next + 1, freedTables := s.next :: s.freedTables }
    else none
  | .exit p =>
    if s.InCall p ∧ p ≠ initproc then
      some { s with
        proc := Function.update
          (fun q => if s.IsThreadOf q p then (s.proc q).kill else s.proc q)
          p { s.proc p with exit := .tpkill } }
    else none
  | .tpkillFree p q =>
    if (s.proc p).state = .running ∧ (s.proc p).exit = .tpkill ∧ s.IsThreadOf q p ∧
        (s.proc q).state = .zombie then s.freeproc q
    else none
  | .tpkillSleep p q =>
    if (s.proc p).state = .running ∧ (s.proc p).exit = .tpkill ∧ s.IsThreadOf q p ∧
        (s.proc q).state ≠ .zombie then
      some (s.setProc p { s.proc p with state := .sleeping })
    else none
  | .tpkillDone p =>
    if (s.proc p).state = .running ∧ (s.proc p).exit = .tpkill ∧ ∀ q, ¬ s.IsThreadOf q p then
      some (s.setProc p { s.proc p with exit := .reaped })
    else none
  | .zombie p =>
    if (s.proc p).state = .running ∧ (s.proc p).exit = .reaped then
      some (becomeZombie (reparent s p) p) else none
  | .join p q =>
    if s.InCall p ∧ s.IsThreadOf q p ∧ (s.proc q).state = .zombie then s.freeproc q else none
  | .wait p q =>
    if s.InCall p ∧ (s.proc q).parent = some p ∧ (s.proc q).isthread = false ∧
        (s.proc q).state = .zombie then s.freeproc q
    else none

/-- The first process, as `userinit` makes it: page table 0 and trapframe page 1 -/
def userinit : State where
  proc := Function.update (fun _ => .free) initproc
    ⟨.runnable, false, 1, none, false, some 0, some 1, some 1, TRAPFRAME, .no⟩
  nextpid := 2
  next := 2
  freedTables := []
  freedPages := []
  sz := fun tf => if tf = 1 then PGSIZE else 0
  leaves := fun _ => []

/-- The process table -/
def system : System State Act where
  init s := s = userinit
  step := step

/-! ## What is to hold -/

/-- `RUNNABLE`, `RUNNING` or `SLEEPING` -/
def ProcState.Live : ProcState → Prop
  | .sleeping | .runnable | .running => True
  | .unused | .zombie => False

/-- Every live process has a page table and a `tshared` that have not been freed. -/
def HasAddressSpace (s : State) : Prop :=
  ∀ q, (s.proc q).state.Live →
    (∃ pt, (s.proc q).pagetable = some pt ∧ pt ∉ s.freedTables) ∧
      ∃ tf, (s.proc q).tshared = some tf ∧ tf ∉ s.freedPages

/-- A process calls `exec` only while nobody else who is alive uses its page table. -/
def ExecAlone (s : State) : Act → Prop
  | .exec p _ => ∀ q, q ≠ p → (s.proc q).state.Live →
      (s.proc q).pagetable ≠ (s.proc p).pagetable
  | _ => True

/-! ## The invariant -/

/-- Who owns which page table and which trapframe page. -/
structure Inv (s : State) : Prop where
  pidLt : ∀ q, (s.proc q).state ≠ .unused → (s.proc q).pid < s.nextpid
  tableLt : ∀ q pt, (s.proc q).pagetable = some pt → pt < s.next
  frameLt : ∀ q tf, (s.proc q).trapframe = some tf → tf < s.next
  freedTableLt : ∀ pt ∈ s.freedTables, pt < s.next
  freedPageLt : ∀ tf ∈ s.freedPages, tf < s.next
  /-- A process that is no thread has its own page table, and `tshared` in its own page. -/
  main : ∀ q, (s.proc q).state ≠ .unused → (s.proc q).isthread = false →
    ∃ pt tf, (s.proc q).pagetable = some pt ∧ pt ∉ s.freedTables ∧
      (s.proc q).trapframe = some tf ∧ tf ∉ s.freedPages ∧ (s.proc q).tshared = some tf
  tableInj : ∀ q q', (s.proc q).state ≠ .unused → (s.proc q').state ≠ .unused →
    (s.proc q).isthread = false → (s.proc q').isthread = false →
    (s.proc q).pagetable = (s.proc q').pagetable → q = q'
  frame : ∀ q, (s.proc q).state ≠ .unused → ∃ tf, (s.proc q).trapframe = some tf
  frameInj : ∀ q q', (s.proc q).state ≠ .unused → (s.proc q').state ≠ .unused →
    (s.proc q).trapframe = (s.proc q').trapframe → q = q'
  /-- A live thread was made by an older process that still lives on the same memory. -/
  parent : ∀ q, (s.proc q).state.Live → (s.proc q).isthread = true →
    ∃ p, (s.proc q).parent = some p ∧ (s.proc p).state.Live ∧ (s.proc p).pid < (s.proc q).pid ∧
      (s.proc p).pagetable = (s.proc q).pagetable
  /-- It lives on the memory of a live process that is no thread. -/
  owner : ∀ q, (s.proc q).state.Live → ∃ m, (s.proc m).state.Live ∧
    (s.proc m).isthread = false ∧ (s.proc m).pagetable = (s.proc q).pagetable ∧
      (s.proc m).trapframe = (s.proc q).tshared
  reaped : ∀ p, (s.proc p).exit = .reaped → ∀ q, ¬ s.IsThreadOf q p

theorem ProcState.Live.ne_unused {st : ProcState} (h : st.Live) : st ≠ .unused := by
  rintro rfl
  exact h

theorem ProcState.Live.ne_zombie {st : ProcState} (h : st.Live) : st ≠ .zombie := by
  rintro rfl
  exact h

theorem Inv.hasAddressSpace {s : State} (h : Inv s) : HasAddressSpace s := by
  intro q hq
  obtain ⟨m, hm, hth, hpt, htf⟩ := h.owner q hq
  obtain ⟨pt, tf, hmpt, hpt', hmtf, htf', -⟩ := h.main m hm.ne_unused hth
  exact ⟨⟨pt, hpt ▸ hmpt, hpt'⟩, tf, htf ▸ hmtf, htf'⟩

/-- The first process, and free slots -/
theorem userinit_proc (q : Fin NPROC) :
    userinit.proc q = .free ∨ q = initproc ∧ userinit.proc q =
      ⟨.runnable, false, 1, none, false, some 0, some 1, some 1, TRAPFRAME, .no⟩ := by
  by_cases hq : q = initproc
  · subst hq
    exact .inr ⟨rfl, by simp only [userinit, Function.update_self]⟩
  · exact .inl (by simp only [userinit, Function.update_of_ne hq])

theorem inv_userinit : Inv userinit := by
  have hnext : userinit.next = 2 := rfl
  have hpid : userinit.nextpid = 2 := rfl
  have hfree : userinit.freedTables = [] ∧ userinit.freedPages = [] := ⟨rfl, rfl⟩
  have hproc := userinit_proc
  generalize userinit = s at *
  constructor
  case main =>
    intro q hq _
    rcases hproc q with h | ⟨-, h⟩
    · rw [h] at hq
      exact absurd rfl hq
    · exact ⟨0, 1, by simp [h, hfree]⟩
  case owner =>
    intro q hq
    rcases hproc q with h | ⟨rfl, h⟩
    · rw [h] at hq
      exact hq.elim
    · exact ⟨initproc, by simp [h, ProcState.Live]⟩
  case reaped =>
    rintro p hp q ⟨hq, -⟩
    rcases hproc p with h | ⟨-, h⟩ <;> rw [h] at hp <;> cases hp
  all_goals grind [Proc.free, ProcState.Live]

/-- **Behind `tpkill` nobody else who is alive uses the page table of a process that is no
    thread.** The oldest of the threads on it would have been made by the process. -/
theorem Inv.alone_of_reaped {s : State} (h : Inv s) {p : Fin NPROC}
    (hp : (s.proc p).state ≠ .unused) (hth : (s.proc p).isthread = false)
    (hr : (s.proc p).exit = .reaped) {q : Fin NPROC} (hq : (s.proc q).state.Live)
    (hpt : (s.proc q).pagetable = (s.proc p).pagetable) : q = p := by
  induction hpid : (s.proc q).pid using Nat.strong_induction_on generalizing q with
  | _ n ih =>
    cases hqth : (s.proc q).isthread with
    | false => exact h.tableInj q p hq.ne_unused hp hqth hth hpt
    | true =>
      obtain ⟨r, hqr, hr', hlt, hrpt⟩ := h.parent q hq hqth
      have hrp : r = p := ih _ (hpid ▸ hlt) hr' (hrpt.trans hpt) rfl
      exact absurd ⟨hrp ▸ hqr, hqth⟩ (h.reaped p hr q)

/-! ## Steps that move nobody's memory -/

/-- The slot is used as before: the same memory, by a process of the same liveness. The
    parent of a process that is no thread may change. -/
structure SameUse (x x' : Proc) : Prop where
  live : x'.state.Live ↔ x.state.Live
  unused : x'.state = .unused ↔ x.state = .unused
  pid : x'.pid = x.pid
  isthread : x'.isthread = x.isthread
  parent : x.isthread = true → x'.parent = x.parent
  pagetable : x'.pagetable = x.pagetable
  trapframe : x'.trapframe = x.trapframe
  tshared : x'.tshared = x.tshared

theorem SameUse.refl (x : Proc) : SameUse x x :=
  ⟨.rfl, .rfl, rfl, rfl, fun _ => rfl, rfl, rfl, rfl⟩

theorem Inv.of_sameUse {s s' : State} (h : Inv s)
    (hproc : ∀ q, SameUse (s.proc q) (s'.proc q)) (hpid : s'.nextpid = s.nextpid)
    (hnext : s'.next = s.next) (htab : s'.freedTables = s.freedTables)
    (hpag : s'.freedPages = s.freedPages)
    (hexit : ∀ p, (s'.proc p).exit = .reaped →
      (s.proc p).exit = .reaped ∨ ∀ q, ¬ s.IsThreadOf q p) : Inv s' := by
  -- No field that the invariant is about has changed, so each clause carries over.
  have hused : ∀ q, (s'.proc q).state ≠ .unused → (s.proc q).state ≠ .unused :=
    fun q => mt (hproc q).unused.mpr
  constructor
  case pidLt => intro q hq; rw [(hproc q).pid, hpid]; exact h.pidLt q (hused q hq)
  case tableLt => intro q; rw [(hproc q).pagetable, hnext]; exact h.tableLt q
  case frameLt => intro q; rw [(hproc q).trapframe, hnext]; exact h.frameLt q
  case freedTableLt => rw [htab, hnext]; exact h.freedTableLt
  case freedPageLt => rw [hpag, hnext]; exact h.freedPageLt
  case main =>
    intro q hq
    rw [(hproc q).isthread, (hproc q).pagetable, (hproc q).trapframe, (hproc q).tshared, htab, hpag]
    exact h.main q (hused q hq)
  case tableInj =>
    intro q q' hq hq'
    rw [(hproc q).isthread, (hproc q').isthread, (hproc q).pagetable, (hproc q').pagetable]
    exact h.tableInj q q' (hused q hq) (hused q' hq')
  case frame => intro q hq; rw [(hproc q).trapframe]; exact h.frame q (hused q hq)
  case frameInj =>
    intro q q' hq hq'
    rw [(hproc q).trapframe, (hproc q').trapframe]
    exact h.frameInj q q' (hused q hq) (hused q' hq')
  case parent =>
    intro q hq hth
    rw [(hproc q).isthread] at hth
    obtain ⟨p, hp, hlive, hlt, hpt⟩ := h.parent q ((hproc q).live.mp hq) hth
    refine ⟨p, ((hproc q).parent hth).trans hp, (hproc p).live.mpr hlive, ?_, ?_⟩
    · rw [(hproc p).pid, (hproc q).pid]
      exact hlt
    · rw [(hproc p).pagetable, (hproc q).pagetable]
      exact hpt
  case owner =>
    intro q hq
    obtain ⟨m, hm, hth, hpt, htf⟩ := h.owner q ((hproc q).live.mp hq)
    refine ⟨m, (hproc m).live.mpr hm, (hproc m).isthread.trans hth, ?_, ?_⟩
    · rw [(hproc m).pagetable, (hproc q).pagetable]
      exact hpt
    · rw [(hproc m).trapframe, (hproc q).tshared]
      exact htf
  -- A process that has just reaped its threads has none.
  case reaped =>
    rintro p hp q ⟨hq, hth⟩
    rw [(hproc q).isthread] at hth
    have hthread : s.IsThreadOf q p := ⟨((hproc q).parent hth).symm.trans hq, hth⟩
    rcases hexit p hp with hr | hno
    · exact h.reaped p hr q hthread
    · exact hno q hthread

theorem Inv.setProc {s : State} (h : Inv s) {p : Fin NPROC} {x : Proc}
    (hx : SameUse (s.proc p) x)
    (hexit : x.exit = .reaped → (s.proc p).exit = .reaped ∨ ∀ q, ¬ s.IsThreadOf q p) :
    Inv (s.setProc p x) := by
  refine h.of_sameUse (fun q => ?_) rfl rfl rfl rfl (fun q hq => ?_)
  · by_cases hqp : q = p
    · subst hqp
      simpa [State.setProc] using hx
    · simpa [State.setProc, Function.update_of_ne hqp] using SameUse.refl (s.proc q)
  · by_cases hqp : q = p
    · subst hqp
      exact hexit (by simpa [State.setProc] using hq)
    · exact .inl (by simpa [State.setProc, Function.update_of_ne hqp] using hq)

/-- A live process changes its state to another live one. -/
theorem SameUse.of_live {x : Proc} {st : ProcState} (hx : x.state.Live) (hst : st.Live) :
    SameUse x { x with state := st } :=
  ⟨iff_of_true hst hx, iff_of_false hst.ne_unused hx.ne_unused, rfl, rfl, fun _ => rfl, rfl, rfl, rfl⟩

theorem SameUse.kill (x : Proc) : SameUse x x.kill := by
  refine ⟨?_, ?_, rfl, rfl, fun _ => rfl, rfl, rfl, rfl⟩ <;>
    cases hst : x.state <;> simp [Proc.kill, hst, ProcState.Live]

theorem SameUse.setExit (x : Proc) (e : Exit) : SameUse x { x with exit := e } :=
  ⟨.rfl, .rfl, rfl, rfl, fun _ => rfl, rfl, rfl, rfl⟩

theorem inv_reparent {s : State} (h : Inv s) (p : Fin NPROC) : Inv (reparent s p) := by
  refine h.of_sameUse (fun q => ?_) rfl rfl rfl rfl (fun q hq => .inl ?_)
  · by_cases hq : (s.proc q).parent = some p ∧ (s.proc q).isthread = false
    · simp only [reparent, if_pos hq]
      exact ⟨.rfl, .rfl, rfl, rfl, fun hth => by simp [hq.2] at hth, rfl, rfl, rfl⟩
    · simpa only [reparent, if_neg hq] using SameUse.refl (s.proc q)
  · simp only [reparent] at hq
    split at hq <;> exact hq

/-! ## `exit`, `join` and `wait` -/

theorem State.setProc_proc (s : State) (p q : Fin NPROC) (x : Proc) :
    (s.setProc p x).proc q = if q = p then x else s.proc q := by
  simp [State.setProc, Function.update_apply]

/-- A process behind `tpkill` dies: nobody alive was made by it or lives on its memory. -/
theorem inv_becomeZombie {s : State} (h : Inv s) {p : Fin NPROC} (hp : (s.proc p).state.Live)
    (hr : (s.proc p).exit = .reaped) : Inv (becomeZombie s p) := by
  set x : Proc := { s.proc p with state := .zombie } with hx
  have hproc : ∀ q, (becomeZombie s p).proc q = if q = p then x else s.proc q :=
    fun q => State.setProc_proc s p q x
  have hlive : ∀ q, ((becomeZombie s p).proc q).state.Live → q ≠ p ∧ (s.proc q).state.Live := by
    intro q hq
    rw [hproc] at hq
    split at hq
    · exact hq.elim
    · exact ⟨‹_›, hq⟩
  have hused : ∀ q, ((becomeZombie s p).proc q).state ≠ .unused → (s.proc q).state ≠ .unused := by
    intro q hq
    rw [hproc] at hq
    split at hq
    · rename_i hqp
      exact hqp ▸ hp.ne_unused
    · exact hq
  -- everything but the state is as before
  have hsame : ∀ q, ((becomeZombie s p).proc q).pid = (s.proc q).pid ∧
      ((becomeZombie s p).proc q).isthread = (s.proc q).isthread ∧
      ((becomeZombie s p).proc q).parent = (s.proc q).parent ∧
      ((becomeZombie s p).proc q).pagetable = (s.proc q).pagetable ∧
      ((becomeZombie s p).proc q).trapframe = (s.proc q).trapframe ∧
      ((becomeZombie s p).proc q).tshared = (s.proc q).tshared ∧
      ((becomeZombie s p).proc q).exit = (s.proc q).exit := by
    intro q
    rw [hproc]
    split
    · rename_i hqp
      subst hqp
      exact ⟨rfl, rfl, rfl, rfl, rfl, rfl, rfl⟩
    · exact ⟨rfl, rfl, rfl, rfl, rfl, rfl, rfl⟩
  constructor
  case pidLt => intro q hq; rw [(hsame q).1]; exact h.pidLt q (hused q hq)
  case tableLt => intro q; rw [(hsame q).2.2.2.1]; exact h.tableLt q
  case frameLt => intro q; rw [(hsame q).2.2.2.2.1]; exact h.frameLt q
  case freedTableLt => exact h.freedTableLt
  case freedPageLt => exact h.freedPageLt
  case main =>
    intro q hq
    obtain ⟨-, hth, -, hpt, htf, hts, -⟩ := hsame q
    rw [hth, hpt, htf, hts]
    exact h.main q (hused q hq)
  case tableInj =>
    intro q q' hq hq'
    rw [(hsame q).2.1, (hsame q').2.1, (hsame q).2.2.2.1, (hsame q').2.2.2.1]
    exact h.tableInj q q' (hused q hq) (hused q' hq')
  case frame => intro q hq; rw [(hsame q).2.2.2.2.1]; exact h.frame q (hused q hq)
  case frameInj =>
    intro q q' hq hq'
    rw [(hsame q).2.2.2.2.1, (hsame q').2.2.2.2.1]
    exact h.frameInj q q' (hused q hq) (hused q' hq')
  case parent =>
    intro q hq hth
    obtain ⟨hqp, hq⟩ := hlive q hq
    obtain ⟨hpid, hth', hpar, hpt, -⟩ := hsame q
    rw [hth'] at hth
    obtain ⟨r, hr', hrlive, hlt, hrpt⟩ := h.parent q hq hth
    have hrp : r ≠ p := by
      rintro rfl
      exact h.reaped r hr q ⟨hr', hth⟩
    refine ⟨r, hpar.trans hr', ?_, ?_, ?_⟩
    · rw [hproc, if_neg hrp]
      exact hrlive
    · rw [(hsame r).1, hpid]
      exact hlt
    · rw [(hsame r).2.2.2.1, hpt]
      exact hrpt
  case owner =>
    intro q hq
    obtain ⟨hqp, hqlive⟩ := hlive q hq
    obtain ⟨m, hm, hth, hpt, htf⟩ := h.owner q hqlive
    have hmp : m ≠ p := by
      rintro rfl
      exact hqp (h.alone_of_reaped hm.ne_unused hth hr hqlive hpt.symm)
    refine ⟨m, ?_, (hsame m).2.1.trans hth, ?_, ?_⟩
    · rw [hproc, if_neg hmp]
      exact hm
    · rw [(hsame m).2.2.2.1, (hsame q).2.2.2.1]
      exact hpt
    · rw [(hsame m).2.2.2.2.1, (hsame q).2.2.2.2.2.1]
      exact htf
  case reaped =>
    rintro r hr' q ⟨hq, hth⟩
    rw [(hsame r).2.2.2.2.2.2] at hr'
    rw [(hsame q).2.2.1] at hq
    rw [(hsame q).2.1] at hth
    exact h.reaped r hr' q ⟨hq, hth⟩

/-- `freeproc` clears the slot and frees its trapframe page and, if it was no thread, its
    page table. -/
theorem freeproc_spec {s s' : State} {q : Fin NPROC} (h : s.freeproc q = some s') :
    (∀ r, s'.proc r = if r = q then .free else s.proc r) ∧ s'.next = s.next ∧
      s'.nextpid = s.nextpid ∧
      (∀ pt ∈ s'.freedTables, pt ∈ s.freedTables ∨
        (s.proc q).isthread = false ∧ (s.proc q).pagetable = some pt) ∧
      ∀ tf ∈ s'.freedPages, tf ∈ s.freedPages ∨ (s.proc q).trapframe = some tf := by
  -- The trapframe page goes to the free list.
  have hframe : ∀ s₁ : State, ∀ tf ∈ (s₁.kfreeTrapframe (s.proc q).trapframe).freedPages,
      tf ∈ s₁.freedPages ∨ (s.proc q).trapframe = some tf := by
    intro s₁ tf htf
    unfold State.kfreeTrapframe at htf
    split at htf
    · exact .inl htf
    · rename_i tf' htf'
      rcases List.mem_cons.mp htf with rfl | htf
      · exact .inr htf'
      · exact .inl htf
  have hkeep : ∀ (s₁ : State) (tf : Option ℕ), (s₁.kfreeTrapframe tf).proc = s₁.proc ∧
      (s₁.kfreeTrapframe tf).next = s₁.next ∧ (s₁.kfreeTrapframe tf).nextpid = s₁.nextpid ∧
      (s₁.kfreeTrapframe tf).freedTables = s₁.freedTables := by
    intro s₁ tf
    cases tf <;> exact ⟨rfl, rfl, rfl, rfl⟩
  simp only [State.freeproc, Option.map_eq_some_iff] at h
  obtain ⟨s₁, hs₁, rfl⟩ := h
  obtain ⟨hproc, hnext, hpid, htab⟩ := hkeep s₁ (s.proc q).trapframe
  have hslot : ∀ r, ((s₁.kfreeTrapframe (s.proc q).trapframe).setProc q .free).proc r =
      if r = q then .free else s₁.proc r := by
    intro r
    rw [State.setProc_proc, hproc]
  -- A slot with a page table of its own frees it; a thread's is its owner's.
  split at hs₁
  · rename_i pt ts hpt hth hts
    simp only [State.procFreepagetable, Option.ite_none_right_eq_some, Option.some.injEq] at hs₁
    obtain ⟨-, rfl⟩ := hs₁
    refine ⟨hslot, hnext, hpid, fun x hx => ?_, hframe _⟩
    rw [show ∀ s : State, (s.setProc q .free).freedTables = s.freedTables from fun _ => rfl,
      htab] at hx
    rcases List.mem_cons.mp hx with rfl | hx
    · exact .inr ⟨hth, hpt⟩
    · exact .inl hx
  · cases hs₁
    refine ⟨hslot, hnext, hpid, fun x hx => .inl ?_, hframe _⟩
    rw [← htab]
    exact hx

/-- A zombie is freed: no live process lives on its memory. -/
theorem inv_freeproc {s s' : State} {q : Fin NPROC} (h : Inv s)
    (hq : (s.proc q).state = .zombie) (hs : s.freeproc q = some s') : Inv s' := by
  obtain ⟨hproc, hnext, hpid, htab, hpag⟩ := freeproc_spec hs
  have hqused : (s.proc q).state ≠ .unused := by simp [hq]
  -- Of the slots in use afterwards none is the freed one.
  have hother : ∀ r, (s'.proc r).state ≠ .unused → r ≠ q ∧ s'.proc r = s.proc r := by
    intro r hr
    rw [hproc] at hr ⊢
    split at hr
    · exact absurd rfl hr
    · exact ⟨‹_›, if_neg ‹_›⟩
  constructor
  case pidLt =>
    intro r hr
    obtain ⟨-, hr'⟩ := hother r hr
    rw [hr'] at hr ⊢
    exact hpid ▸ h.pidLt r hr
  case tableLt =>
    intro r pt hpt
    rw [hproc] at hpt
    split at hpt
    · cases hpt
    · exact hnext ▸ h.tableLt r pt hpt
  case frameLt =>
    intro r tf htf
    rw [hproc] at htf
    split at htf
    · cases htf
    · exact hnext ▸ h.frameLt r tf htf
  case freedTableLt =>
    intro pt hpt
    rw [hnext]
    rcases htab pt hpt with hpt | ⟨-, hpt⟩
    · exact h.freedTableLt pt hpt
    · exact h.tableLt q pt hpt
  case freedPageLt =>
    intro tf htf
    rw [hnext]
    rcases hpag tf htf with htf | htf
    · exact h.freedPageLt tf htf
    · exact h.frameLt q tf htf
  case main =>
    intro r hr hth
    obtain ⟨hrq, hr'⟩ := hother r hr
    rw [hr'] at hr hth ⊢
    obtain ⟨pt, tf, hpt, hpt', htf, htf', hts⟩ := h.main r hr hth
    -- The table and the page freed were those of the zombie, which no other process shares.
    refine ⟨pt, tf, hpt, fun hmem => ?_, htf, fun hmem => ?_, hts⟩
    · rcases htab pt hmem with hmem | ⟨hqth, hqpt⟩
      · exact hpt' hmem
      · exact hrq (h.tableInj r q hr hqused hth hqth (hpt.trans hqpt.symm))
    · rcases hpag tf hmem with hmem | hqtf
      · exact htf' hmem
      · exact hrq (h.frameInj r q hr hqused (htf.trans hqtf.symm))
  case tableInj =>
    intro r r' hr hr' hth hth' hpt
    obtain ⟨-, e⟩ := hother r hr
    obtain ⟨-, e'⟩ := hother r' hr'
    rw [e] at hr hth hpt
    rw [e'] at hr' hth' hpt
    exact h.tableInj r r' hr hr' hth hth' hpt
  case frame =>
    intro r hr
    obtain ⟨-, e⟩ := hother r hr
    rw [e] at hr ⊢
    exact h.frame r hr
  case frameInj =>
    intro r r' hr hr' htf
    obtain ⟨-, e⟩ := hother r hr
    obtain ⟨-, e'⟩ := hother r' hr'
    rw [e] at hr htf
    rw [e'] at hr' htf
    exact h.frameInj r r' hr hr' htf
  case parent =>
    intro r hr hth
    obtain ⟨-, e⟩ := hother r hr.ne_unused
    rw [e] at hr hth ⊢
    obtain ⟨p, hp, hlive, hlt, hpt⟩ := h.parent r hr hth
    -- A live parent is no zombie.
    have hpq : p ≠ q := by
      rintro rfl
      exact hlive.ne_zombie hq
    have hp' : s'.proc p = s.proc p := (hproc p).trans (if_neg hpq)
    exact ⟨p, hp, by rw [hp']; exact hlive, by rw [hp']; exact hlt, by rw [hp']; exact hpt⟩
  case owner =>
    intro r hr
    obtain ⟨-, e⟩ := hother r hr.ne_unused
    rw [e] at hr ⊢
    obtain ⟨m, hm, hth, hpt, htf⟩ := h.owner r hr
    have hmq : m ≠ q := by
      rintro rfl
      exact hm.ne_zombie hq
    have hm' : s'.proc m = s.proc m := (hproc m).trans (if_neg hmq)
    exact ⟨m, by rw [hm']; exact hm, by rw [hm']; exact hth, by rw [hm']; exact hpt,
      by rw [hm']; exact htf⟩
  -- The freed slot was no live thread, so reaping forgets nobody.
  case reaped =>
    rintro p hp r ⟨hr, hth⟩
    rw [hproc] at hp hr hth
    split at hp
    · cases hp
    · split at hr
      · cases hr
      · rename_i hrq
        rw [if_neg hrq] at hth
        exact h.reaped p hp r ⟨hr, hth⟩

/-! ## `fork` and `clone` -/

/-- `x` is a new process made by `p`: with memory of its own, or on that of `p`. -/
structure NewProc (s s' : State) (p : Fin NPROC) (x : Proc) : Prop where
  state : x.state = .runnable
  pid : x.pid = s.nextpid
  parent : x.parent = some p
  exit : x.exit = .no
  frame : ∃ tf, x.trapframe = some tf ∧ s.next ≤ tf ∧ tf < s'.next
  memory : (x.isthread = false ∧ x.tshared = x.trapframe ∧
      ∃ pt, x.pagetable = some pt ∧ s.next ≤ pt ∧ pt < s'.next) ∨
    (x.isthread = true ∧ x.tshared = (s.proc p).tshared ∧ x.pagetable = (s.proc p).pagetable)

theorem inv_newProc {s s' : State} {p q : Fin NPROC} {x : Proc} (h : Inv s)
    (hp : s.InCall p) (hq : (s.proc q).state = .unused) (hx : NewProc s s' p x)
    (hproc : ∀ r, s'.proc r = if r = q then x else s.proc r)
    (hpid : s'.nextpid = s.nextpid + 1) (hnext : s.next ≤ s'.next)
    (htab : s'.freedTables = s.freedTables) (hpag : s'.freedPages = s.freedPages) : Inv s' := by
  have hself : s'.proc q = x := (hproc q).trans (if_pos rfl)
  have hne : ∀ {r}, r ≠ q → s'.proc r = s.proc r := fun hr => (hproc _).trans (if_neg hr)
  have hplive : (s.proc p).state.Live := by simp [hp.1, ProcState.Live]
  have hused : ∀ {r}, (s.proc r).state ≠ .unused → r ≠ q := by
    rintro r hr rfl
    exact hr hq
  obtain ⟨tf, htf, htf_ge, htf_lt⟩ := hx.frame
  -- the page table of `x` is new, or that of the live process `p`
  have hxpt : ∀ pt, x.pagetable = some pt → pt < s'.next := by
    intro pt hpt
    rcases hx.memory with ⟨-, -, pt', hpt', -, hlt⟩ | ⟨-, -, hsame⟩
    · cases hpt'.symm.trans hpt
      exact hlt
    · exact (h.tableLt p pt (hsame ▸ hpt)).trans_le hnext
  constructor
  case pidLt =>
    intro r hr
    by_cases hrq : r = q
    · rw [hrq, hself, hx.pid, hpid]
      exact Nat.lt_succ_self _
    · rw [hne hrq] at hr ⊢
      exact hpid ▸ (h.pidLt r hr).trans (Nat.lt_succ_self _)
  case tableLt =>
    intro r pt hpt
    by_cases hrq : r = q
    · rw [hrq, hself] at hpt
      exact hxpt pt hpt
    · rw [hne hrq] at hpt
      exact (h.tableLt r pt hpt).trans_le hnext
  case frameLt =>
    intro r tf' htf'
    by_cases hrq : r = q
    · rw [hrq, hself, htf] at htf'
      cases htf'
      exact htf_lt
    · rw [hne hrq] at htf'
      exact (h.frameLt r tf' htf').trans_le hnext
  case freedTableLt =>
    intro pt hpt
    exact (h.freedTableLt pt (htab ▸ hpt)).trans_le hnext
  case freedPageLt =>
    intro tf' htf'
    exact (h.freedPageLt tf' (hpag ▸ htf')).trans_le hnext
  case main =>
    intro r hr hth
    by_cases hrq : r = q
    · rw [hrq, hself] at hth ⊢
      rcases hx.memory with ⟨-, hts, pt, hpt, hge, -⟩ | ⟨hth', -⟩
      · refine ⟨pt, tf, hpt, fun hmem => ?_, htf, fun hmem => ?_, hts.trans htf⟩
        · have := h.freedTableLt pt (htab ▸ hmem)
          omega
        · have := h.freedPageLt tf (hpag ▸ hmem)
          omega
      · rw [hth'] at hth
        cases hth
    · rw [hne hrq] at hr hth ⊢
      rw [htab, hpag]
      exact h.main r hr hth
  case tableInj =>
    -- a table that is new differs from all there are
    have hnew : ∀ r, r ≠ q → (s'.proc r).state ≠ .unused → (s'.proc q).isthread = false →
        (s'.proc r).pagetable ≠ (s'.proc q).pagetable := by
      intro r hrq hr hth hpt
      rw [hself] at hth hpt
      rw [hne hrq] at hpt
      rcases hx.memory with ⟨-, -, pt, hpt', hge, -⟩ | ⟨hth', -⟩
      · have := h.tableLt r pt (hpt.trans hpt')
        omega
      · rw [hth'] at hth
        cases hth
    intro r r' hr hr' hth hth' hpt
    by_cases hrq : r = q
    · by_cases hrq' : r' = q
      · exact hrq.trans hrq'.symm
      · exact absurd (hrq ▸ hpt).symm (hnew r' hrq' hr' (hrq ▸ hth))
    · by_cases hrq' : r' = q
      · exact absurd (hrq' ▸ hpt) (hnew r hrq hr (hrq' ▸ hth'))
      · rw [hne hrq] at hr hth hpt
        rw [hne hrq'] at hr' hth' hpt
        exact h.tableInj r r' hr hr' hth hth' hpt
  case frame =>
    intro r hr
    by_cases hrq : r = q
    · rw [hrq, hself]
      exact ⟨tf, htf⟩
    · rw [hne hrq] at hr ⊢
      exact h.frame r hr
  case frameInj =>
    have hnew : ∀ r, r ≠ q → (s'.proc r).trapframe ≠ (s'.proc q).trapframe := by
      intro r hrq heq
      rw [hself, htf, hne hrq] at heq
      have := h.frameLt r tf heq
      omega
    intro r r' hr hr' heq
    by_cases hrq : r = q
    · by_cases hrq' : r' = q
      · exact hrq.trans hrq'.symm
      · exact absurd (hrq ▸ heq).symm (hnew r' hrq')
    · by_cases hrq' : r' = q
      · exact absurd (hrq' ▸ heq) (hnew r hrq)
      · rw [hne hrq] at hr heq
        rw [hne hrq'] at hr' heq
        exact h.frameInj r r' hr hr' heq
  case parent =>
    intro r hr hth
    by_cases hrq : r = q
    · rw [hrq, hself] at hth ⊢
      have hpq : p ≠ q := hused hplive.ne_unused
      refine ⟨p, hx.parent, ?_, ?_, ?_⟩
      · rw [hne hpq]
        exact hplive
      · rw [hne hpq, hx.pid]
        exact h.pidLt p hplive.ne_unused
      · rw [hne hpq]
        rcases hx.memory with ⟨hth', -⟩ | ⟨-, -, hpt⟩
        · rw [hth'] at hth
          cases hth
        · exact hpt.symm
    · rw [hne hrq] at hr hth ⊢
      obtain ⟨p', hp', hlive, hlt, hpt⟩ := h.parent r hr hth
      have hpq : p' ≠ q := hused hlive.ne_unused
      exact ⟨p', hp', by rw [hne hpq]; exact hlive, by rw [hne hpq]; exact hlt,
        by rw [hne hpq]; exact hpt⟩
  case owner =>
    have hold : ∀ r, (s.proc r).state.Live → ∃ m, (s'.proc m).state.Live ∧
        (s'.proc m).isthread = false ∧ (s'.proc m).pagetable = (s.proc r).pagetable ∧
          (s'.proc m).trapframe = (s.proc r).tshared := by
      intro r hr
      obtain ⟨m, hm, hth, hpt, htf'⟩ := h.owner r hr
      have hmq : m ≠ q := hused hm.ne_unused
      exact ⟨m, by rw [hne hmq]; exact hm, by rw [hne hmq]; exact hth, by rw [hne hmq]; exact hpt,
        by rw [hne hmq]; exact htf'⟩
    intro r hr
    by_cases hrq : r = q
    · rw [hrq, hself]
      rcases hx.memory with ⟨hth, hts, -⟩ | ⟨-, hts, hpt⟩
      · refine ⟨q, ?_, ?_, ?_, ?_⟩
        · simp [hself, hx.state, ProcState.Live]
        · rw [hself]; exact hth
        · rw [hself]
        · rw [hself]; exact hts.symm
      · rw [hts, hpt]
        exact hold p hplive
    · rw [hne hrq] at hr ⊢
      exact hold r hr
  case reaped =>
    rintro r hr r' ⟨hr', hth⟩
    have hrq : r ≠ q := by
      rintro rfl
      rw [hself, hx.exit] at hr
      cases hr
    rw [hne hrq] at hr
    by_cases hrq' : r' = q
    · rw [hrq', hself, hx.parent] at hr'
      cases hr'
      rw [hp.2] at hr
      cases hr
    · rw [hne hrq'] at hr' hth
      exact h.reaped r hr r' ⟨hr', hth⟩

/-- What a call that fails allocated, it frees: numbers that nobody holds. -/
theorem inv_failed {s s' : State} (h : Inv s) (hproc : s'.proc = s.proc)
    (hpid : s.nextpid ≤ s'.nextpid) (hnext : s.next ≤ s'.next)
    (htab : ∀ pt ∈ s'.freedTables, pt ∈ s.freedTables ∨ s.next ≤ pt ∧ pt < s'.next)
    (hpag : ∀ tf ∈ s'.freedPages, tf ∈ s.freedPages ∨ s.next ≤ tf ∧ tf < s'.next) : Inv s' := by
  -- No process has changed; the freed numbers were never given out, so nobody lives on them.
  constructor
  case pidLt => intro q hq; rw [hproc] at hq ⊢; exact (h.pidLt q hq).trans_le hpid
  case tableLt => intro q pt hq; rw [hproc] at hq; exact (h.tableLt q pt hq).trans_le hnext
  case frameLt => intro q tf hq; rw [hproc] at hq; exact (h.frameLt q tf hq).trans_le hnext
  case freedTableLt =>
    intro pt hpt
    rcases htab pt hpt with hpt | ⟨-, hlt⟩
    · exact (h.freedTableLt pt hpt).trans_le hnext
    · exact hlt
  case freedPageLt =>
    intro tf htf
    rcases hpag tf htf with htf | ⟨-, hlt⟩
    · exact (h.freedPageLt tf htf).trans_le hnext
    · exact hlt
  case main =>
    intro q hq hth
    rw [hproc] at hq hth ⊢
    obtain ⟨pt, tf, hpt, hpt', htf, htf', hts⟩ := h.main q hq hth
    refine ⟨pt, tf, hpt, fun hmem => ?_, htf, fun hmem => ?_, hts⟩
    · rcases htab pt hmem with hmem | ⟨hge, -⟩
      · exact hpt' hmem
      · have := h.tableLt q pt hpt
        omega
    · rcases hpag tf hmem with hmem | ⟨hge, -⟩
      · exact htf' hmem
      · have := h.frameLt q tf htf
        omega
  case tableInj => rw [hproc]; exact h.tableInj
  case frame => rw [hproc]; exact h.frame
  case frameInj => rw [hproc]; exact h.frameInj
  case parent => rw [hproc]; exact h.parent
  case owner => rw [hproc]; exact h.owner
  case reaped =>
    rintro p hp q ⟨hq, hth⟩
    rw [hproc] at hp hq hth
    exact h.reaped p hp q ⟨hq, hth⟩

/-! ## `exec` -/

/-- A process that nobody else lives with is no thread: a thread lives with its owner. -/
theorem Inv.not_isthread_of_alone {s : State} (h : Inv s) {p : Fin NPROC}
    (hp : (s.proc p).state.Live)
    (halone : ∀ q, q ≠ p → (s.proc q).state.Live → (s.proc q).pagetable ≠ (s.proc p).pagetable) :
    (s.proc p).isthread = false := by
  obtain ⟨m, hm, hth, hpt, -⟩ := h.owner p hp
  by_cases hmp : m = p
  · exact hmp ▸ hth
  · exact absurd hpt (halone m hmp hm)

theorem exec_spec {s s' : State} {p : Fin NPROC} {sz : ℕ} (h : exec s p sz = some s') :
    ∃ old, (s.proc p).pagetable = some old ∧
      (∀ q, s'.proc q = if q = p then { s.proc p with pagetable := some s.next } else s.proc q) ∧
      s'.nextpid = s.nextpid ∧ s'.next = s.next + 1 ∧ s'.freedTables = old :: s.freedTables ∧
      s'.freedPages = s.freedPages := by
  unfold exec at h
  dsimp only at h
  split at h
  · rename_i old ts hpt hts
    simp only [State.procFreepagetable, Option.ite_none_right_eq_some, Option.some.injEq] at h
    obtain ⟨-, rfl⟩ := h
    exact ⟨old, hpt, fun q => by simp [Function.update_apply], rfl, rfl, rfl, rfl⟩
  · cases h

/-- `exec` by a process that nobody else lives with: it leaves its page table, and the
    table is freed. -/
theorem inv_exec {s s' : State} {p : Fin NPROC} {sz : ℕ} (h : Inv s) (hp : s.InCall p)
    (halone : ∀ q, q ≠ p → (s.proc q).state.Live → (s.proc q).pagetable ≠ (s.proc p).pagetable)
    (hs : exec s p sz = some s') : Inv s' := by
  obtain ⟨old, hold, hproc, hpid, hnext, htab, hpag⟩ := exec_spec hs
  have hplive : (s.proc p).state.Live := by simp [hp.1, ProcState.Live]
  have hth := h.not_isthread_of_alone hplive halone
  have hne : ∀ {q}, q ≠ p → s'.proc q = s.proc q := fun hq => (hproc _).trans (if_neg hq)
  -- of `p` itself only the page table changes
  obtain ⟨hstate, hpidp, hthp, hparp, hptp, htfp, htsp, hexitp⟩ :
      (s'.proc p).state = (s.proc p).state ∧ (s'.proc p).pid = (s.proc p).pid ∧
      (s'.proc p).isthread = (s.proc p).isthread ∧ (s'.proc p).parent = (s.proc p).parent ∧
      (s'.proc p).pagetable = some s.next ∧ (s'.proc p).trapframe = (s.proc p).trapframe ∧
      (s'.proc p).tshared = (s.proc p).tshared ∧ (s'.proc p).exit = (s.proc p).exit := by
    rw [(hproc p).trans (if_pos rfl)]
    exact ⟨rfl, rfl, rfl, rfl, rfl, rfl, rfl, rfl⟩
  have hsame : ∀ q, (s'.proc q).state = (s.proc q).state ∧ (s'.proc q).pid = (s.proc q).pid ∧
      (s'.proc q).isthread = (s.proc q).isthread ∧ (s'.proc q).parent = (s.proc q).parent ∧
      (s'.proc q).trapframe = (s.proc q).trapframe ∧ (s'.proc q).tshared = (s.proc q).tshared ∧
      (s'.proc q).exit = (s.proc q).exit := by
    intro q
    by_cases hq : q = p
    · subst hq
      exact ⟨hstate, hpidp, hthp, hparp, htfp, htsp, hexitp⟩
    · rw [hne hq]
      exact ⟨rfl, rfl, rfl, rfl, rfl, rfl, rfl⟩
  constructor
  case pidLt => intro q hq; rw [(hsame q).1] at hq; rw [(hsame q).2.1, hpid]; exact h.pidLt q hq
  case tableLt =>
    intro q pt hpt
    rw [hnext]
    by_cases hq : q = p
    · subst hq
      cases hptp.symm.trans hpt
      exact Nat.lt_succ_self _
    · rw [hne hq] at hpt
      exact (h.tableLt q pt hpt).trans (Nat.lt_succ_self _)
  case frameLt =>
    intro q tf htf
    rw [(hsame q).2.2.2.2.1] at htf
    exact hnext ▸ (h.frameLt q tf htf).trans (Nat.lt_succ_self _)
  case freedTableLt =>
    intro pt hpt
    rw [htab] at hpt
    rw [hnext]
    rcases List.mem_cons.mp hpt with rfl | hpt
    · exact (h.tableLt p pt hold).trans (Nat.lt_succ_self _)
    · exact (h.freedTableLt pt hpt).trans (Nat.lt_succ_self _)
  case freedPageLt =>
    intro tf htf
    rw [hpag] at htf
    exact hnext ▸ (h.freedPageLt tf htf).trans (Nat.lt_succ_self _)
  case main =>
    intro q hq hqth
    rw [(hsame q).1] at hq
    rw [(hsame q).2.2.1] at hqth
    rw [(hsame q).2.2.2.2.1, (hsame q).2.2.2.2.2.1, htab, hpag]
    obtain ⟨pt, tf, hpt, hpt', htf, htf', hts⟩ := h.main q hq hqth
    by_cases hqp : q = p
    · subst hqp
      refine ⟨s.next, tf, hptp, fun hmem => ?_, htf, htf', hts⟩
      rcases List.mem_cons.mp hmem with hmem | hmem
      · have := h.tableLt q old hold
        omega
      · have := h.freedTableLt _ hmem
        omega
    · refine ⟨pt, tf, by rw [hne hqp]; exact hpt, fun hmem => ?_, htf, htf', hts⟩
      rcases List.mem_cons.mp hmem with rfl | hmem
      · exact hqp (h.tableInj q p hq hplive.ne_unused hqth hth (hpt.trans hold.symm))
      · exact hpt' hmem
  case tableInj =>
    have hnew : ∀ q, q ≠ p → (s'.proc q).pagetable ≠ (s'.proc p).pagetable := by
      intro q hq heq
      rw [hptp, hne hq] at heq
      have := h.tableLt q s.next heq
      omega
    intro q q' hq hq' hqth hqth' hpt
    by_cases hqp : q = p
    · by_cases hqp' : q' = p
      · exact hqp.trans hqp'.symm
      · exact absurd (hqp ▸ hpt).symm (hnew q' hqp')
    · by_cases hqp' : q' = p
      · exact absurd (hqp' ▸ hpt) (hnew q hqp)
      · rw [hne hqp] at hq hqth hpt
        rw [hne hqp'] at hq' hqth' hpt
        exact h.tableInj q q' hq hq' hqth hqth' hpt
  case frame =>
    intro q hq
    rw [(hsame q).1] at hq
    rw [(hsame q).2.2.2.2.1]
    exact h.frame q hq
  case frameInj =>
    intro q q' hq hq' heq
    rw [(hsame q).1] at hq
    rw [(hsame q').1] at hq'
    rw [(hsame q).2.2.2.2.1, (hsame q').2.2.2.2.1] at heq
    exact h.frameInj q q' hq hq' heq
  case parent =>
    intro q hq hqth
    rw [(hsame q).1] at hq
    rw [(hsame q).2.2.1] at hqth
    have hqp : q ≠ p := by
      rintro rfl
      rw [hth] at hqth
      cases hqth
    obtain ⟨r, hr, hlive, hlt, hpt⟩ := h.parent q hq hqth
    have hrp : r ≠ p := by
      rintro rfl
      exact halone q hqp hq hpt.symm
    rw [hne hqp]
    exact ⟨r, hr, by rw [hne hrp]; exact hlive, by rw [hne hrp]; exact hlt,
      by rw [hne hrp]; exact hpt⟩
  case owner =>
    intro q hq
    rw [(hsame q).1] at hq
    by_cases hqp : q = p
    · obtain ⟨pt, tf, -, -, htf, -, hts⟩ := h.main p hplive.ne_unused hth
      refine ⟨p, hstate ▸ hplive, hthp.trans hth, by rw [hqp], ?_⟩
      rw [hqp, htfp, htsp, htf, hts]
    · obtain ⟨m, hm, hmth, hpt, htf⟩ := h.owner q hq
      have hmp : m ≠ p := by
        rintro rfl
        exact halone q hqp hq hpt.symm
      rw [hne hqp]
      exact ⟨m, by rw [hne hmp]; exact hm, by rw [hne hmp]; exact hmth,
        by rw [hne hmp]; exact hpt, by rw [hne hmp]; exact htf⟩
  case reaped =>
    rintro r hr q ⟨hq, hqth⟩
    rw [(hsame r).2.2.2.2.2.2] at hr
    rw [(hsame q).2.2.2.1] at hq
    rw [(hsame q).2.2.1] at hqth
    exact h.reaped r hr q ⟨hq, hqth⟩

/-! ## Every step -/

theorem inv_step {s s' : State} {a : Act} (h : Inv s) (ha : ExecAlone s a)
    (hs : step s a = some s') : Inv s' := by
  -- One case for each step, by the lemma about what it changes.
  cases a with
  | schedule p =>
    simp only [step, Option.ite_none_right_eq_some, Option.some.injEq] at hs
    obtain ⟨hst, rfl⟩ := hs
    exact h.setProc (.of_live (by simp [hst, ProcState.Live]) trivial) .inl
  | yield p =>
    simp only [step, Option.ite_none_right_eq_some, Option.some.injEq] at hs
    obtain ⟨hst, rfl⟩ := hs
    exact h.setProc (.of_live (by simp [hst, ProcState.Live]) trivial) .inl
  | sleep p =>
    simp only [step, Option.ite_none_right_eq_some, Option.some.injEq] at hs
    obtain ⟨⟨hst, -⟩, rfl⟩ := hs
    exact h.setProc (.of_live (by simp [hst, ProcState.Live]) trivial) .inl
  | wakeup p =>
    simp only [step, Option.ite_none_right_eq_some, Option.some.injEq] at hs
    obtain ⟨hst, rfl⟩ := hs
    exact h.setProc (.of_live (by simp [hst, ProcState.Live]) trivial) .inl
  | kill p q =>
    simp only [step, Option.ite_none_right_eq_some, Option.some.injEq] at hs
    obtain ⟨-, rfl⟩ := hs
    exact h.setProc (.kill _) .inl
  | fork p q =>
    simp only [step, Option.ite_none_right_eq_some, Option.some.injEq] at hs
    obtain ⟨⟨hp, hq⟩, rfl⟩ := hs
    -- The child has memory of its own, a thread that of its parent.
    have hx : NewProc s (fork s p q) p (child s p q) :=
      ⟨rfl, rfl, rfl, rfl, ⟨_, rfl, Nat.le_succ _, Nat.lt_succ_self _⟩,
        .inl ⟨rfl, rfl, _, rfl, Nat.le_refl _, Nat.lt_add_of_pos_right (by decide)⟩⟩
    exact inv_newProc h hp hq hx (fun r => by simp [fork, Function.update_apply]) rfl
      (Nat.le_add_right _ _) rfl rfl
  | forkFail p =>
    simp only [step, Option.ite_none_right_eq_some, Option.some.injEq] at hs
    obtain ⟨-, rfl⟩ := hs
    refine inv_failed h rfl (Nat.le_succ _) (Nat.le_add_right _ _) (fun pt hpt => ?_)
      (fun tf htf => ?_)
    -- The copy of memory that failed is freed again.
    · rcases List.mem_cons.mp hpt with rfl | hpt
      · exact .inr ⟨Nat.le_refl _, Nat.lt_add_of_pos_right (by decide)⟩
      · exact .inl hpt
    · rcases List.mem_cons.mp htf with rfl | htf
      · exact .inr ⟨Nat.le_succ _, Nat.lt_succ_self _⟩
      · exact .inl htf
  | clone p q va mapped =>
    simp only [step, Option.ite_none_right_eq_some, Option.some.injEq] at hs
    obtain ⟨⟨hp, hq, -⟩, rfl⟩ := hs
    have hx : NewProc s (clone s p q va mapped) p (thread s p q va) :=
      ⟨rfl, rfl, rfl, rfl, ⟨_, rfl, Nat.le_refl _, Nat.lt_succ_self _⟩, .inr ⟨rfl, rfl, rfl⟩⟩
    exact inv_newProc h hp hq hx (fun r => by simp [clone, Function.update_apply]) rfl
      (Nat.le_succ _) rfl rfl
  | cloneFail p =>
    simp only [step, Option.ite_none_right_eq_some, Option.some.injEq] at hs
    obtain ⟨-, rfl⟩ := hs
    refine inv_failed h rfl (Nat.le_succ _) (Nat.le_succ _) (fun _ => .inl) (fun tf htf => ?_)
    rcases List.mem_cons.mp htf with rfl | htf
    · exact .inr ⟨Nat.le_refl _, Nat.lt_succ_self _⟩
    · exact .inl htf
  | exec p sz =>
    simp only [step, Option.ite_none_right_eq_some] at hs
    exact inv_exec h hs.1 ha hs.2
  | execFail p =>
    simp only [step, Option.ite_none_right_eq_some, Option.some.injEq] at hs
    obtain ⟨-, rfl⟩ := hs
    refine inv_failed h rfl (Nat.le_refl _) (Nat.le_succ _) (fun pt hpt => ?_) (fun _ => .inl)
    rcases List.mem_cons.mp hpt with rfl | hpt
    · exact .inr ⟨Nat.le_refl _, Nat.lt_succ_self _⟩
    · exact .inl hpt
  | exit p =>
    simp only [step, Option.ite_none_right_eq_some, Option.some.injEq] at hs
    obtain ⟨-, rfl⟩ := hs
    -- The threads of an exiting process are killed, not changed otherwise.
    refine h.of_sameUse (fun q => ?_) rfl rfl rfl rfl (fun q hq => .inl ?_)
    · by_cases hq : q = p
      · subst hq
        simpa using SameUse.setExit (s.proc q) .tpkill
      · simp only [Function.update_of_ne hq]
        split
        · exact .kill _
        · exact .refl _
    · by_cases hqp : q = p
      · subst hqp
        simp at hq
      · simp only [Function.update_of_ne hqp] at hq
        split at hq <;> exact hq
  | tpkillFree p q =>
    simp only [step, Option.ite_none_right_eq_some] at hs
    exact inv_freeproc h hs.1.2.2.2 hs.2
  | tpkillSleep p q =>
    simp only [step, Option.ite_none_right_eq_some, Option.some.injEq] at hs
    obtain ⟨⟨hst, -⟩, rfl⟩ := hs
    exact h.setProc (.of_live (by simp [hst, ProcState.Live]) trivial) .inl
  | tpkillDone p =>
    simp only [step, Option.ite_none_right_eq_some, Option.some.injEq] at hs
    obtain ⟨⟨-, -, hno⟩, rfl⟩ := hs
    exact h.setProc (.setExit _ _) fun _ => .inr hno
  | zombie p =>
    simp only [step, Option.ite_none_right_eq_some, Option.some.injEq] at hs
    obtain ⟨⟨hst, hr⟩, rfl⟩ := hs
    -- The children first get a new parent, then the process becomes a zombie.
    refine inv_becomeZombie (inv_reparent h p) ?_ ?_ <;> simp only [reparent] <;> split
    · simp [hst, ProcState.Live]
    · simp [hst, ProcState.Live]
    · exact hr
    · exact hr
  | join p q =>
    simp only [step, Option.ite_none_right_eq_some] at hs
    exact inv_freeproc h hs.1.2.2 hs.2
  | wait p q =>
    simp only [step, Option.ite_none_right_eq_some] at hs
    exact inv_freeproc h hs.1.2.2.2 hs.2

/-- **In every run in which a process calls `exec` only while nobody else alive uses its page
    table, every live process has a page table and a `tshared` that have not been freed.** -/
theorem threads_within_address_space {s : State} (hs : system.ReachableUnder ExecAlone s) :
    HasAddressSpace s :=
  (System.invariant Inv (fun s (h0 : s = userinit) => h0 ▸ inv_userinit)
    (fun _ _ _ h ha hstep => inv_step h ha hstep) hs).hasAddressSpace

/-! ## `exec` beside a thread -/

/-- The slot behind that of `initproc` -/
def slot₁ : Fin NPROC := ⟨1, by decide⟩

/-- The first process makes a thread, which runs. -/
theorem thread_has_memory :
    ∃ s, system.ReachableUnder ExecAlone s ∧ (s.proc slot₁).state = .running ∧
      HasAddressSpace s := by
  have hinit : system.init userinit := rfl
  have h₁ := System.ReachableUnder.step (G := ExecAlone) (.init hinit)
    (show ExecAlone userinit (.schedule initproc) from trivial) rfl
  have h₂ := h₁.step (show ExecAlone _ (.clone initproc slot₁ PHYSTOP_INCLUDESUPPG true) from trivial)
    rfl
  have h₃ := h₂.step (show ExecAlone _ (.schedule slot₁) from trivial) rfl
  exact ⟨_, h₃, rfl, threads_within_address_space h₃⟩

/-- The first process runs a program of more than 2 GiB and makes a thread, whose trapframe is
    mapped below the size of the program; then it calls `exec`. -/
def execBesideThread : List Act :=
  [.schedule initproc, .exec initproc 0x90000000,
    .clone initproc slot₁ PHYSTOP_INCLUDESUPPG true, .exec initproc PGSIZE]

theorem exec_frees_under_thread : ¬ ∀ s, system.Reachable s → HasAddressSpace s := by
  intro hall
  have hrun : (system.run userinit execBesideThread).any (fun s =>
      decide ((s.proc slot₁).state = .runnable ∧ (s.proc slot₁).pagetable = some 2 ∧
        2 ∈ s.freedTables)) = true := by decide +kernel
  have hinit : system.init userinit := rfl
  obtain ⟨s, hs, hp⟩ := System.exists_reachable_of_run hinit hrun
  simp only [decide_eq_true_eq] at hp
  obtain ⟨hst, hpt, hfreed⟩ := hp
  obtain ⟨⟨pt, hpt', hno⟩, -⟩ := hall s hs slot₁ (by simp [hst, ProcState.Live])
  cases hpt.symm.trans hpt'
  exact hno hfreed

end Xv6.Kernel.Threads
