import Mathlib
import Xv6.Lib.TransitionSystem

/-!
# Spin Locks, the Scheduler and Sleep Locks

`acquire`, `release`, `push_off` and `pop_off` of `spinlock.c`, `scheduler`, `sched`, `yield`, `sleep`, `wakeup` and
`kill` of `proc.c`, and `acquiresleep` and `releasesleep` of `sleeplock.c`, on any number of cores that run any number
of processes. What a process still has to do in the kernel is a list of instructions; a step executes the first one, on
the core that runs the process. A timer interrupt may come whenever interrupts are on.

- `Ok`: the lock discipline of a list of instructions, as a type system: what is held, and what comes after what;
- `Inv`: the cores hold what the lists say, and who is asleep will be woken up;
- `Inv.step`: every step keeps it;
- `never_panics`, `no_lost_wakeup`, `spinning_ends`.
-/

namespace Xv6.Kernel.Scheduler

open Xv6.Lib

/-- The spin locks: `p->lock`, and the lock `lk->lk` in a sleep lock -/
inductive Lock (n : ℕ) (Λ : Type*) where
  | proc (p : Fin n)
  | sleep (l : Λ)
  deriving DecidableEq

/-- The locks of sleep locks are taken before those of processes. -/
def Lock.rank {n : ℕ} {Λ : Type*} : Lock n Λ → ℕ
  | .sleep _ => 0
  | .proc _ => 1

/-! ## Programs -/

/-- What a process does in a step -/
inductive Instr (n : ℕ) (Λ : Type*) where
  /-- `acquire` as far as the loop: `push_off()` and the check that the lock is not held -/
  | push (L : Lock n Λ)
  /-- the loop of `acquire` -/
  | take (L : Lock n Λ)
  | release (L : Lock n Λ)
  /-- `p->chan = chan; p->state = SLEEPING` -/
  | goSleep (l : Λ)
  /-- `p->state = RUNNABLE` in `yield` -/
  | setRunnable
  /-- `sched` as far as `swtch` -/
  | sched
  /-- `mycpu()->intena = intena` after `swtch` -/
  | resume (intena : Bool)
  /-- `p->chan = 0` -/
  | clearChan
  /-- `if(p->state == SLEEPING && p->chan == chan) p->state = RUNNABLE` -/
  | wake (q : Fin n) (l : Λ)
  /-- `if(p->state == SLEEPING) p->state = RUNNABLE` in `kill` -/
  | kick (q : Fin n)
  /-- `while (lk->locked)` -/
  | test (l : Λ)
  /-- `lk->locked = 1; lk->pid = myproc()->pid` -/
  | lock (l : Λ)
  /-- `lk->locked = 0; lk->pid = 0` -/
  | unlock (l : Λ)
  /-- The return from a trap, which turns the interrupts on again -/
  | sret
  deriving DecidableEq

variable {n : ℕ} {Λ κ : Type*}

def acquire (L : Lock n Λ) : List (Instr n Λ) := [.push L, .take L]

/-- `sleep(lk, &lk->lk)` -/
def sleep (p : Fin n) (l : Λ) : List (Instr n Λ) :=
  acquire (.proc p) ++ [.release (.sleep l), .goSleep l, .sched, .clearChan, .release (.proc p)] ++ acquire (.sleep l)

/-- `wakeup(lk)` -/
def wakeup (p : Fin n) (l : Λ) : List (Instr n Λ) :=
  (List.finRange n).flatMap fun q =>
    if q ≠ p then acquire (.proc q) ++ [.wake q l, .release (.proc q)] else []

def acquiresleep (l : Λ) : List (Instr n Λ) := acquire (.sleep l) ++ [.test l, .lock l, .release (.sleep l)]

def releasesleep (p : Fin n) (l : Λ) : List (Instr n Λ) :=
  acquire (.sleep l) ++ [.unlock l] ++ wakeup p l ++ [.release (.sleep l)]

/-- `yield`, called from a trap -/
def yieldTrap (p : Fin n) : List (Instr n Λ) :=
  acquire (.proc p) ++ [.setRunnable, .sched, .release (.proc p), .sret]

/-- `kill(pid)` where the process `q` has the number: the loop comes past those before it. -/
def kill (q : Fin n) : List (Instr n Λ) :=
  ((List.finRange n).takeWhile (· ≠ q)).flatMap (fun r => acquire (.proc r) ++ [.release (.proc r)]) ++
    (acquire (.proc q) ++ [.kick q, .release (.proc q)])

/-! ## States -/

/-- `enum procstate`, for processes in use -/
inductive ProcState where
  | sleeping
  | runnable
  | running
  deriving DecidableEq

/-- What a core does: it is in the loop of `scheduler`, or it runs a process. -/
inductive Mode (n : ℕ) where
  /-- `intr_on()` -/
  | loop
  | push (i : ℕ)
  | take (p : Fin n)
  /-- `if(p->state == RUNNABLE)` -/
  | test (p : Fin n)
  | release (p : Fin n)
  | proc (p : Fin n)
  deriving DecidableEq

/-- `struct cpu`, with the register bit that has the interrupts on -/
structure Cpu (n : ℕ) where
  noff : ℕ
  intena : Bool
  intr : Bool
  mode : Mode n

inductive Panic where
  /-- `acquire` -/
  | acquire
  /-- `release` -/
  | release
  /-- `pop_off - interruptible` -/
  | popOffInterruptible
  /-- `pop_off` -/
  | popOff
  /-- `sched p->lock` -/
  | schedProcLock
  /-- `sched locks` -/
  | schedLocks
  /-- `sched running` -/
  | schedRunning
  /-- `sched interruptible` -/
  | schedInterruptible
  deriving DecidableEq

/-- The state; who is inside of a sleep lock is not part of the program. -/
structure State (κ : Type*) (n : ℕ) (Λ : Type*) where
  owner : Lock n Λ → Option κ
  cpu : κ → Cpu n
  state : Fin n → ProcState
  chan : Fin n → Option Λ
  rest : Fin n → List (Instr n Λ)
  locked : Λ → Bool
  pid : Λ → Option (Fin n)
  inside : Λ → List (Fin n)
  panicked : Option Panic

variable [DecidableEq κ] [DecidableEq Λ]

namespace State

variable (s : State κ n Λ) (c : κ)

def setCpu (u : Cpu n) : State κ n Λ := { s with cpu := Function.update s.cpu c u }

def setMode (mode : Mode n) : State κ n Λ := s.setCpu c { s.cpu c with mode := mode }

def setRest (p : Fin n) (k : List (Instr n Λ)) : State κ n Λ := { s with rest := Function.update s.rest p k }

def setState (p : Fin n) (st : ProcState) : State κ n Λ := { s with state := Function.update s.state p st }

def crash (e : Panic) : State κ n Λ := { s with panicked := some e }

/-! ### Spin locks -/

def pushOff : State κ n Λ :=
  let u := s.cpu c
  s.setCpu c { u with
    intr := false
    intena := if u.noff = 0 then u.intr else u.intena
    noff := u.noff + 1 }

def popOff : Except Panic (State κ n Λ) :=
  let u := s.cpu c
  if u.intr then .error .popOffInterruptible
  else if u.noff < 1 then .error .popOff
  else .ok (s.setCpu c { u with noff := u.noff - 1, intr := u.noff - 1 = 0 && u.intena })

/-- `push_off()` and the check of `acquire` -/
def acquirePush (L : Lock n Λ) : Except Panic (State κ n Λ) :=
  if s.owner L = some c then .error .acquire else .ok (s.pushOff c)

/-- `__sync_lock_test_and_set` when it succeeds, and `lk->cpu = mycpu()` -/
def acquireTake (L : Lock n Λ) : Option (State κ n Λ) :=
  if s.owner L = none then some { s with owner := Function.update s.owner L (some c) } else none

def release (L : Lock n Λ) : Except Panic (State κ n Λ) :=
  if s.owner L ≠ some c then .error .release
  else popOff { s with owner := Function.update s.owner L none } c

/-! ### Processes -/

def orCrash : Except Panic (State κ n Λ) → State κ n Λ
  | .ok s' => s'
  | .error e => s.crash e

/-- The process `p` executes an instruction on the core `c`; `k` is what comes after it. -/
def instr (p : Fin n) (k : List (Instr n Λ)) : Instr n Λ → Option (State κ n Λ)
  | .push L => some (s.orCrash ((s.setRest p k).acquirePush c L))
  | .take L => (s.setRest p k).acquireTake c L
  | .release L => some (s.orCrash ((s.setRest p k).release c L))
  | .goSleep l =>
    some { (s.setRest p k).setState p .sleeping with chan := Function.update s.chan p (some l) }
  | .setRunnable => some ((s.setRest p k).setState p .runnable)
  | .sched =>
    if s.owner (.proc p) ≠ some c then some (s.crash .schedProcLock)
    else if (s.cpu c).noff ≠ 1 then some (s.crash .schedLocks)
    else if s.state p = .running then some (s.crash .schedRunning)
    else if (s.cpu c).intr then some (s.crash .schedInterruptible)
    else some ((s.setRest p (.resume (s.cpu c).intena :: k)).setMode c (.release p))
  | .resume intena => some ((s.setRest p k).setCpu c { s.cpu c with intena := intena })
  | .clearChan => some { s.setRest p k with chan := Function.update s.chan p none }
  | .wake q l =>
    some (if s.state q = .sleeping ∧ s.chan q = some l then (s.setRest p k).setState q .runnable else s.setRest p k)
  | .kick q => some (if s.state q = .sleeping then (s.setRest p k).setState q .runnable else s.setRest p k)
  | .test l => some (s.setRest p (if s.locked l then sleep p l ++ .test l :: k else k))
  | .lock l =>
    some { s.setRest p k with
      locked := Function.update s.locked l true
      pid := Function.update s.pid l (some p)
      inside := Function.update s.inside l (p :: s.inside l) }
  | .unlock l =>
    some { s.setRest p k with
      locked := Function.update s.locked l false
      pid := Function.update s.pid l none
      inside := Function.update s.inside l ((s.inside l).erase p) }
  | .sret => some ((s.setRest p k).setCpu c { s.cpu c with intr := true })

/-- A step of a core -/
def core : Option (State κ n Λ) :=
  match (s.cpu c).mode with
  | .loop => some (s.setCpu c { s.cpu c with intr := true, mode := .push 0 })
  | .push i =>
    if h : i < n then some (s.orCrash ((s.setMode c (.take ⟨i, h⟩)).acquirePush c (.proc ⟨i, h⟩)))
    else some (s.setMode c .loop)
  | .take p => (s.setMode c (.test p)).acquireTake c (.proc p)
  | .test p =>
    if s.state p = .runnable then some ((s.setState p .running).setMode c (.proc p))
    else some (s.setMode c (.release p))
  | .release p => some (s.orCrash ((s.setMode c (.push (p + 1))).release c (.proc p)))
  | .proc p =>
    match s.rest p with
    | [] => none
    | i :: k => s.instr c p k i

end State

/-! ## Steps -/

/-- What a process asks for when it enters the kernel -/
inductive Call (n : ℕ) (Λ : Type*) where
  | acquiresleep (l : Λ)
  | releasesleep (l : Λ)
  | kill (q : Fin n)

inductive Act (κ : Type*) (n : ℕ) (Λ : Type*) where
  | core (c : κ)
  /-- A timer interrupt on a core that runs a process -/
  | timer (c : κ)
  | call (c : κ) (op : Call n Λ)

def exec (s : State κ n Λ) : Act κ n Λ → Option (State κ n Λ)
  | .core c => s.core c
  | .timer c =>
    match (s.cpu c).mode with
    | .proc p =>
      if (s.cpu c).intr ∧ s.state p = .running then
        some ((s.setRest p (yieldTrap p ++ s.rest p)).setCpu c { s.cpu c with intr := false })
      else none
    | _ => none
  | .call c op =>
    match (s.cpu c).mode with
    | .proc p =>
      if s.rest p = [] then
        match op with
        | .acquiresleep l => some (s.setRest p (acquiresleep l))
        | .releasesleep l => if p ∈ s.inside l then some (s.setRest p (releasesleep p l)) else none
        | .kill q => some (s.setRest p (kill q))
      else none
    | _ => none

def step (s : State κ n Λ) (a : Act κ n Λ) : Option (State κ n Λ) := if s.panicked = none then exec s a else none

/-- All processes are as if they had given up the core in user mode, and the cores begin with `scheduler`. -/
def boot (κ : Type*) (n : ℕ) (Λ : Type*) : State κ n Λ where
  owner _ := none
  cpu _ := ⟨0, false, false, .loop⟩
  state _ := .runnable
  chan _ := none
  rest p := [.resume false, .release (.proc p), .sret]
  locked _ := false
  pid _ := none
  inside _ := []
  panicked := none

def system (κ : Type*) (n : ℕ) (Λ : Type*) [DecidableEq κ] [DecidableEq Λ] : System (State κ n Λ) (Act κ n Λ) where
  init s := s = boot κ n Λ
  step := step

/-! ## The lock discipline -/

/-- What is known of a process between two instructions: the locks it holds, the one whose `acquire` it is in, whether
    it has given up its state `RUNNING`, and whether it has found the sleep lock free. -/
structure Ctx (n : ℕ) (Λ : Type*) where
  held : List (Lock n Λ)
  pending : Option (Lock n Λ)
  ready : Bool
  clear : Bool
  deriving DecidableEq

namespace Ctx

/-- The locks of the list are held, and nothing else is going on. -/
def holding (held : List (Lock n Λ)) : Ctx n Λ := ⟨held, none, false, false⟩

/-- An instruction of the process `p`, where it is in order -/
inductive After (p : Fin n) : Ctx n Λ → Instr n Λ → Ctx n Λ → Prop where
  | push {held : List (Lock n Λ)} {L : Lock n Λ} : (∀ M ∈ held, M.rank < L.rank) →
      After p (holding held) (.push L) ⟨held, some L, false, false⟩
  | take {held : List (Lock n Λ)} {L : Lock n Λ} : (∀ M ∈ held, M.rank < L.rank) →
      After p ⟨held, some L, false, false⟩ (.take L) (holding (L :: held))
  | release {held : List (Lock n Λ)} {L : Lock n Λ} : L ∈ held →
      After p (holding held) (.release L) (holding (held.erase L))
  | goSleep {l : Λ} : After p (holding [.proc p]) (.goSleep l) ⟨[.proc p], none, true, false⟩
  | setRunnable : After p (holding [.proc p]) .setRunnable ⟨[.proc p], none, true, false⟩
  | sched : After p ⟨[.proc p], none, true, false⟩ .sched (holding [.proc p])
  | resume {b : Bool} : After p (holding [.proc p]) (.resume b) (holding [.proc p])
  | clearChan : After p (holding [.proc p]) .clearChan (holding [.proc p])
  | wake {q : Fin n} {l : Λ} : q ≠ p → After p (holding [.proc q, .sleep l]) (.wake q l) (holding [.proc q, .sleep l])
  | kick {q : Fin n} : After p (holding [.proc q]) (.kick q) (holding [.proc q])
  | test {l : Λ} : After p (holding [.sleep l]) (.test l) ⟨[.sleep l], none, false, true⟩
  | lock {l : Λ} : After p ⟨[.sleep l], none, false, true⟩ (.lock l) (holding [.sleep l])
  | unlock {l : Λ} : After p (holding [.sleep l]) (.unlock l) (holding [.sleep l])
  | sret : After p (holding []) .sret (holding [])

end Ctx

/-- What the instructions `k` after `i` must be like -/
def Side (p : Fin n) (Γ : Ctx n Λ) (i : Instr n Λ) (k : List (Instr n Λ)) : Prop :=
  (∀ l, .goSleep l ∈ i :: k → .sleep l ∈ Γ.held ∨ .proc p ∈ Γ.held) ∧
    match i with
    | .take L => ∀ q l, L = .sleep l → .wake q l ∈ k → .unlock l ∈ k
    | .sched => ∀ l, .goSleep l ∉ k
    | .test l => (∀ m, .goSleep m ∉ k) ∧ ∀ q, .wake q l ∉ k
    | .resume b => (∀ l, .goSleep l ∉ k) ∧ (b = true ↔ .sret ∉ k)
    | .unlock l => (∀ l, .goSleep l ∉ k) ∧ (∀ l, .unlock l ∉ k) ∧ ∀ q, q ≠ p → .wake q l ∈ k
    | .sret => .sret ∉ k
    | .push _ | .release _ | .goSleep _ | .setRunnable | .clearChan | .wake _ _ | .kick _ | .lock _ => True

/-- **The instructions are in order**: they take locks by rank, give all of them back, and go to sleep only with their
    own lock. -/
inductive Ok (p : Fin n) : Ctx n Λ → List (Instr n Λ) → Prop where
  | nil : Ok p (.holding []) []
  | cons {Γ Γ' : Ctx n Λ} {i : Instr n Λ} {k : List (Instr n Λ)} :
      Side p Γ i k → Γ.After p i Γ' → Ok p Γ' k → Ok p Γ (i :: k)

section Programs

omit [DecidableEq κ]

variable {p : Fin n} {Γ : Ctx n Λ} {k : List (Instr n Λ)} {l : Λ} {L : Lock n Λ} {held : List (Lock n Λ)}

/-- No instruction of the list is for the discipline to look at. -/
def Plain (k : List (Instr n Λ)) : Prop := ∀ l, .goSleep l ∉ k

theorem Ok.acquire (hplain : Plain k) (hrank : ∀ M ∈ held, M.rank < L.rank)
    (hwake : ∀ q l, L = .sleep l → .wake q l ∈ k → .unlock l ∈ k) (h : Ok p (.holding (L :: held)) k) :
    Ok p (.holding held) (acquire L ++ k) := by
  refine .cons ⟨fun l' hl => ?_, trivial⟩ (.push hrank) (.cons ⟨fun l' hl => ?_, hwake⟩ (.take hrank) h)
  · simp [hplain l'] at hl
  · simp [hplain l'] at hl

theorem Ok.release (hplain : Plain k) (hmem : L ∈ held) (h : Ok p (.holding (held.erase L)) k) :
    Ok p (.holding held) (.release L :: k) :=
  .cons ⟨fun l hl => by simp [hplain l] at hl, trivial⟩ (.release hmem) h

/-- What `while (lk->locked)` goes on with when the lock is taken -/
theorem Ok.sleep (h : Ok p (.holding [.sleep l]) (.test l :: k)) :
    Ok p (.holding [.sleep l]) (Scheduler.sleep p l ++ .test l :: k) := by
  have hplain : ∀ l', Instr.goSleep l' ∉ .test l :: k := fun l' hl => by
    cases h with
    | cons hside hafter _ => simp [hside.2.1 l'] at hl
  have hwake : ∀ q, Instr.wake q l ∉ .test l :: k := fun q hq => by
    cases h with
    | cons hside hafter _ => simp [hside.2.2 q] at hq
  have hin : ∀ {Γ : Ctx n Λ} {i : Instr n Λ} {k' : List (Instr n Λ)}, (.sleep l ∈ Γ.held ∨ .proc p ∈ Γ.held) →
      (∀ l', .goSleep l' ∈ i :: k' → l' = l) → ∀ l', .goSleep l' ∈ i :: k' → .sleep l' ∈ Γ.held ∨ .proc p ∈ Γ.held :=
    fun hheld honly l' hl' => honly l' hl' ▸ hheld
  refine .cons ⟨hin (.inl List.mem_cons_self) fun l' hl' => ?_, trivial⟩ (.push ?_) ?_
  · simpa [Scheduler.acquire, hplain l'] using hl'
  · simp [Lock.rank]
  refine .cons ⟨hin (.inl List.mem_cons_self) fun l' hl' => ?_, nofun⟩ (.take ?_) ?_
  · simpa [Scheduler.acquire, hplain l'] using hl'
  · simp [Lock.rank]
  refine .cons ⟨hin (.inr List.mem_cons_self) fun l' hl' => ?_, trivial⟩ (.release (by simp)) ?_
  · simpa [Scheduler.acquire, hplain l'] using hl'
  have herase : [Lock.proc p, Lock.sleep l].erase (.sleep l) = [(.proc p : Lock n Λ)] := by
    simp
  rw [herase]
  refine .cons ⟨hin (.inr List.mem_cons_self) fun l' hl' => ?_, trivial⟩ .goSleep ?_
  · simpa [Scheduler.acquire, hplain l'] using hl'
  refine .cons ⟨fun l' hl' => ?_, fun l' hl' => ?_⟩ .sched ?_
  · simp [Scheduler.acquire, hplain l'] at hl'
  · simp [Scheduler.acquire, hplain l'] at hl'
  refine .cons ⟨fun l' hl' => ?_, trivial⟩ .clearChan ?_
  · simp [Scheduler.acquire, hplain l'] at hl'
  refine .release (fun l' hl' => ?_) List.mem_cons_self ?_
  · simp [Scheduler.acquire, hplain l'] at hl'
  rw [List.erase_cons_head]
  refine .acquire hplain (by simp) (fun q m hm hq => ?_) h
  cases hm
  exact absurd hq (hwake q)

/-- The loop of `wakeup` over the processes `qs` -/
theorem Ok.wakeups (hplain : Plain k) (h : Ok p (.holding [.sleep l]) k) (qs : List (Fin n)) :
    Plain (qs.flatMap (fun q => if q ≠ p then Scheduler.acquire (.proc q) ++ [.wake q l, .release (.proc q)] else []) ++ k) ∧
      Ok p (.holding [.sleep l])
        (qs.flatMap (fun q => if q ≠ p then Scheduler.acquire (.proc q) ++ [.wake q l, .release (.proc q)] else []) ++ k) := by
  induction qs with
  | nil => exact ⟨hplain, h⟩
  | cons q qs ih =>
    obtain ⟨ihplain, ih⟩ := ih
    rw [List.flatMap_cons]
    by_cases hq : q ≠ p
    · rw [if_pos hq, List.append_assoc, List.append_assoc]
      have htail : Plain (.release (.proc q) :: ((qs.flatMap fun q =>
          if q ≠ p then Scheduler.acquire (.proc q) ++ [.wake q l, .release (.proc q)] else []) ++ k)) := fun l' hl' =>
        (List.mem_cons.mp hl').elim nofun (ihplain l')
      have hplain' : Plain (.wake q l :: .release (.proc q) :: ((qs.flatMap fun q =>
          if q ≠ p then Scheduler.acquire (.proc q) ++ [.wake q l, .release (.proc q)] else []) ++ k)) := fun l' hl' =>
        (List.mem_cons.mp hl').elim nofun (htail l')
      refine ⟨fun l' hl' => ?_, ?_⟩
      · exact (List.mem_append.mp hl').elim (by simp [Scheduler.acquire]) (hplain' l')
      · refine .acquire hplain' (by simp [Lock.rank]) nofun (.cons ⟨fun l' hl' => absurd hl' (hplain' l'), trivial⟩ (.wake hq) ?_)
        refine .release ihplain List.mem_cons_self ?_
        rw [List.erase_cons_head]
        exact ih
    · rw [if_neg hq, List.nil_append]
      exact ⟨ihplain, ih⟩

theorem Ok.acquiresleep : Ok p (.holding []) (Scheduler.acquiresleep l) := by
  refine .acquire (fun l' hl' => by simp at hl') (by simp) (fun q m _ hq => by simp at hq)
    (.cons ⟨fun l' hl' => by simp at hl', fun l' hl' => by simp at hl', fun q hq => by simp at hq⟩ .test ?_)
  refine .cons ⟨fun l' hl' => by simp at hl', trivial⟩ .lock (.release (fun l' hl' => by simp at hl') List.mem_cons_self ?_)
  rw [List.erase_cons_head]
  exact .nil

omit [DecidableEq Λ] in
theorem mem_wakeup {q : Fin n} (hq : q ≠ p) : Instr.wake q l ∈ wakeup p l := by
  refine List.mem_flatMap.mpr ⟨q, List.mem_finRange q, ?_⟩
  rw [if_pos hq]
  simp [Scheduler.acquire]

omit [DecidableEq Λ] in
theorem of_mem_wakeup {i : Instr n Λ} (hi : i ∈ wakeup p l) :
    ∃ q, i = .push (.proc q) ∨ i = .take (.proc q) ∨ i = .wake q l ∨ i = .release (.proc q) := by
  obtain ⟨q, -, hq⟩ := List.mem_flatMap.mp hi
  by_cases hqp : q ≠ p
  · rw [if_pos hqp] at hq
    exact ⟨q, by simpa [Scheduler.acquire] using hq⟩
  · rw [if_neg hqp] at hq
    cases hq

omit [DecidableEq Λ] in
theorem of_mem_kill {i : Instr n Λ} {q : Fin n} (hi : i ∈ (kill q : List (Instr n Λ))) :
    ∃ r, i = .push (.proc r) ∨ i = .take (.proc r) ∨ i = .kick r ∨ i = .release (.proc r) := by
  rcases List.mem_append.mp hi with hi | hi
  · obtain ⟨r, -, hr⟩ := List.mem_flatMap.mp hi
    refine ⟨r, ?_⟩
    simp only [Scheduler.acquire, List.mem_append, List.mem_cons, List.not_mem_nil, or_false] at hr
    rcases hr with (hr | hr) | hr <;> simp [hr]
  · exact ⟨q, by simpa [Scheduler.acquire] using hi⟩

theorem Ok.releasesleep : Ok p (.holding []) (Scheduler.releasesleep p l) := by
  have hlast : Ok p (.holding [.sleep l]) [.release (.sleep l)] := by
    refine .release (fun l' hl' => by cases hl') List.mem_cons_self ?_
    rw [List.erase_cons_head]
    exact .nil
  obtain ⟨hplain, hwake⟩ := hlast.wakeups (fun l' hl' => by simp at hl') (List.finRange n)
  have hunlock : Plain (.unlock l :: (wakeup p l ++ [.release (.sleep l)])) := fun l' hl' =>
    (List.mem_cons.mp hl').elim nofun (hplain l')
  rw [Scheduler.releasesleep, List.append_assoc, List.append_assoc, List.singleton_append]
  refine .acquire hunlock (by simp) (fun q m hm _ => by cases hm; exact List.mem_cons_self)
    (.cons ⟨fun l' hl' => absurd hl' (hunlock l'), hplain, fun l' hl' => ?_, fun q hq => ?_⟩
    .unlock hwake)
  · exact (List.mem_append.mp hl').elim (fun hmem => by simpa using of_mem_wakeup hmem) (by simp)
  · exact List.mem_append_left _ (mem_wakeup hq)

/-- What is in order stays in order when a timer interrupt comes. -/
theorem Ok.yieldTrap (hplain : Plain k) (hsret : .sret ∉ k) (h : Ok p (.holding []) k) :
    Ok p (.holding []) (Scheduler.yieldTrap p ++ k) := by
  rw [Scheduler.yieldTrap, List.append_assoc]
  have htail : Plain (.release (.proc p) :: .sret :: k) := fun l' hl' => by simp [hplain l'] at hl'
  refine .acquire (fun l' hl' => by simp [hplain l'] at hl') (by simp) nofun (.cons ⟨fun l' hl' => ?_, trivial⟩ .setRunnable
    (.cons ⟨fun l' hl' => ?_, htail⟩ .sched (.release (fun l' hl' => ?_) List.mem_cons_self ?_)))
  · simp [hplain l'] at hl'
  · simp [hplain l'] at hl'
  · simp [hplain l'] at hl'
  rw [List.erase_cons_head]
  exact .cons ⟨fun l' hl' => by simp [hplain l'] at hl', hsret⟩ .sret h

theorem Ok.kill (q : Fin n) : Ok p (.holding []) (Scheduler.kill q : List (Instr n Λ)) := by
  have hlast : Ok p (.holding []) (Scheduler.acquire (.proc q) ++ [.kick q, .release (.proc q)] : List (Instr n Λ)) := by
    refine .acquire (fun l' hl' => by simp at hl') (by simp) nofun (.cons ⟨fun l' hl' => by simp at hl', trivial⟩ .kick
      (.release (fun l' hl' => by cases hl') List.mem_cons_self ?_))
    rw [List.erase_cons_head]
    exact .nil
  have hplain : Plain (Scheduler.acquire (.proc q) ++ [.kick q, .release (.proc q)] : List (Instr n Λ)) := fun l' hl' => by
    simp [Scheduler.acquire] at hl'
  unfold Scheduler.kill
  generalize (List.finRange n).takeWhile (· ≠ q) = rs
  suffices h : Plain (rs.flatMap (fun r => Scheduler.acquire (.proc r) ++ [.release (.proc r)]) ++
      (Scheduler.acquire (.proc q) ++ [.kick q, .release (.proc q)]) : List (Instr n Λ)) ∧
      Ok p (.holding []) (rs.flatMap (fun r => Scheduler.acquire (.proc r) ++ [.release (.proc r)]) ++
      (Scheduler.acquire (.proc q) ++ [.kick q, .release (.proc q)]) : List (Instr n Λ)) from h.2
  induction rs with
  | nil => exact ⟨hplain, hlast⟩
  | cons r rs ih =>
    obtain ⟨ihplain, ih⟩ := ih
    rw [List.flatMap_cons, List.append_assoc, List.append_assoc]
    have htail : Plain (.release (.proc r) :: (rs.flatMap (fun r => Scheduler.acquire (.proc r) ++ [.release (.proc r)]) ++
        (Scheduler.acquire (.proc q) ++ [.kick q, .release (.proc q)])) : List (Instr n Λ)) := fun l' hl' =>
      (List.mem_cons.mp hl').elim nofun (ihplain l')
    refine ⟨fun l' hl' => (List.mem_append.mp hl').elim (by simp [Scheduler.acquire]) (htail l'), ?_⟩
    refine .acquire htail (by simp) nofun (.release ihplain List.mem_cons_self ?_)
    rw [List.erase_cons_head]
    exact ih

/-- Who will wake others up has the spin lock until then, or unlocks the sleep lock first. -/
theorem Ok.waker {q : Fin n} (h : Ok p Γ k) (hwake : .wake q l ∈ k) : .sleep l ∈ Γ.held ∨ .unlock l ∈ k := by
  induction h with
  | nil => cases hwake
  | @cons Γ Γ' i k hside hafter _ ih =>
    rcases List.mem_cons.mp hwake with rfl | hlater
    · cases hafter
      exact .inl (List.mem_cons_of_mem _ List.mem_cons_self)
    rcases ih hlater with hheld | hunlock
    · cases hafter with
      | take =>
        rcases List.mem_cons.mp hheld with heq | hheld
        · exact .inr (List.mem_cons_of_mem _ (hside.2 q l heq.symm hlater))
        · exact .inl hheld
      | release => exact .inl (List.mem_of_mem_erase hheld)
      | _ => exact .inl hheld
    · exact .inr (List.mem_cons_of_mem _ hunlock)

end Programs

/-! ## The invariant -/

/-- The core `c` runs `p`, which stands at `Γ`. -/
structure Runs (s : State κ n Λ) (c : κ) (p : Fin n) (Γ : Ctx n Λ) : Prop where
  ok : Ok p Γ (s.rest p)
  owner : ∀ L, s.owner L = some c ↔ L ∈ Γ.held
  nodup : Γ.held.Nodup
  noff : (s.cpu c).noff = Γ.held.length + Γ.pending.toList.length
  intr : (s.cpu c).intr = true ↔ (s.cpu c).noff = 0 ∧ .sret ∉ s.rest p
  intena : (s.cpu c).noff ≠ 0 → (∀ b k, s.rest p ≠ .resume b :: k) → ((s.cpu c).intena = true ↔ .sret ∉ s.rest p)
  running : Γ.ready = false → s.state p = .running
  ready : Γ.ready = true → s.state p ≠ .running
  clear : Γ.clear = true → ∀ l, .sleep l ∈ Γ.held → s.locked l = false

/-- What a core holds -/
def CoreOk (s : State κ n Λ) (c : κ) : Prop :=
  match (s.cpu c).mode with
  | .loop | .push _ => (∀ L, s.owner L ≠ some c) ∧ (s.cpu c).noff = 0
  | .take _ => (∀ L, s.owner L ≠ some c) ∧ (s.cpu c).noff = 1 ∧ (s.cpu c).intr = false
  | .test p | .release p => (∀ L, s.owner L = some c ↔ L = .proc p) ∧ (s.cpu c).noff = 1 ∧ (s.cpu c).intr = false
  | .proc p => ∃ Γ, Runs s c p Γ

/-- A process that no core runs: it stands behind `swtch` in `sched`. -/
def Off (s : State κ n Λ) (p : Fin n) : Prop :=
  s.state p ≠ .running ∧ (∃ b k, s.rest p = .resume b :: k) ∧ Ok p (.holding [.proc p]) (s.rest p)

/-- The process need not sleep on `l` for ever: somebody has the sleep lock, or is on his way to wake it up. -/
def Due (s : State κ n Λ) (p : Fin n) (l : Λ) : Prop := s.locked l = true ∨ ∃ q, .wake p l ∈ s.rest q

/-- Who is inside of a sleep lock -/
def InsideOk (s : State κ n Λ) (l : Λ) : Prop :=
  (s.locked l = false → s.inside l = []) ∧ (s.locked l = true → ∃ p, s.inside l = [p] ∧ s.pid l = some p)

/-- **What holds throughout a run** -/
structure Inv (s : State κ n Λ) : Prop where
  core : ∀ c, CoreOk s c
  once : ∀ c c' p, (s.cpu c).mode = .proc p → (s.cpu c').mode = .proc p → c = c'
  off : ∀ p, (∀ c, (s.cpu c).mode ≠ .proc p) → Off s p
  asleep : ∀ p, s.state p = .sleeping → ∃ l, s.chan p = some l ∧ Due s p l
  commit : ∀ p l, .goSleep l ∈ s.rest p → Due s p l
  unlocks : ∀ p l, .unlock l ∈ s.rest p → p ∈ s.inside l
  inside : ∀ l, InsideOk s l
  panicked : s.panicked = none

section Frames

omit [DecidableEq κ]

variable {s s' : State κ n Λ} {c c' : κ} {p q : Fin n} {Γ : Ctx n Λ} {i : Instr n Λ} {k : List (Instr n Λ)} {l : Λ}

theorem Ok.ready_held (h : Ok p Γ k) (hready : Γ.ready = true) : Γ.held = [.proc p] := by
  cases h with
  | nil => cases hready
  | cons _ hafter _ => cases hafter <;> first | rfl | cases hready

theorem Ok.tail (h : Ok p Γ (i :: k)) : ∃ Γ', Γ.After p i Γ' ∧ Ok p Γ' k ∧ Side p Γ i k := by
  cases h with
  | cons hside hafter hk => exact ⟨_, hafter, hk, hside⟩

theorem Inv.runs (h : Inv s) (hmode : (s.cpu c).mode = .proc p) : ∃ Γ, Runs s c p Γ := by
  have := h.core c
  unfold CoreOk at this
  rw [hmode] at this
  exact this

/-- Another core does not notice. -/
theorem CoreOk.frame (h : CoreOk s c') (hcpu : s'.cpu c' = s.cpu c')
    (howner : ∀ L, s'.owner L = some c' ↔ s.owner L = some c')
    (hproc : ∀ q, (s.cpu c').mode = .proc q → s'.rest q = s.rest q ∧ s'.state q = s.state q ∧
      ∀ l, s.owner (.sleep l) = some c' → s'.locked l = s.locked l) : CoreOk s' c' := by
  unfold CoreOk at h ⊢
  rw [hcpu]
  cases hmode : (s.cpu c').mode with
  | loop | push i | take p =>
    rw [hmode] at h
    simp only [ne_eq, howner]
    exact h
  | test p | release p =>
    rw [hmode] at h
    simp only [howner]
    exact h
  | proc q =>
    rw [hmode] at h
    obtain ⟨Γ, hr⟩ := h
    obtain ⟨hrest, hstate, hlocked⟩ := hproc q hmode
    refine ⟨Γ, ⟨hrest ▸ hr.ok, fun L => (howner L).trans (hr.owner L), hr.nodup, hcpu ▸ hr.noff, ?_, ?_,
      fun hf => hstate.trans (hr.running hf), fun ht => hstate ▸ hr.ready ht, fun ht l hl => ?_⟩⟩
    · rw [hcpu, hrest]
      exact hr.intr
    · rw [hcpu, hrest]
      exact hr.intena
    · exact (hlocked l ((hr.owner _).mpr hl)).trans (hr.clear ht l hl)

/-- A step of the process `p` on the core `c`, where `p` stays on `c` -/
theorem Inv.of_step (h : Inv s) (hmode : (s.cpu c).mode = .proc p)
    (hcpu : ∀ c', c' ≠ c → s'.cpu c' = s.cpu c') (hmode' : (s'.cpu c).mode = .proc p)
    (howner : ∀ L c', c' ≠ c → (s'.owner L = some c' ↔ s.owner L = some c'))
    (hrest : ∀ q, q ≠ p → s'.rest q = s.rest q)
    (hstate : ∀ q, q ≠ p → s'.chan q = s.chan q ∧ (s'.state q = s.state q ∨
      s.state q = .sleeping ∧ s'.state q = .runnable ∧ s.owner (.proc q) = some c))
    (hlocked : ∀ l, s.owner (.sleep l) ≠ some c → s'.locked l = s.locked l)
    (hruns : ∃ Γ, Runs s' c p Γ)
    (hdue : ∀ q l, q ≠ p → (s'.state q = .sleeping ∧ s.chan q = some l ∨ .goSleep l ∈ s.rest q) → Due s q l → Due s' q l)
    (hasleep : s'.state p = .sleeping → ∃ l, s'.chan p = some l ∧ Due s' p l)
    (hcommit : ∀ l, .goSleep l ∈ s'.rest p → Due s' p l)
    (hunlock : ∀ q l, .unlock l ∈ s'.rest q → q ∈ s'.inside l)
    (hinside : ∀ l, InsideOk s' l) (hpanicked : s'.panicked = none) : Inv s' := by
  have hmodes : ∀ c', (s'.cpu c').mode = (s.cpu c').mode := fun c' => by
    by_cases hc : c' = c
    · rw [hc, hmode, hmode']
    · rw [hcpu c' hc]
  refine ⟨fun c' => ?_, fun c₁ c₂ q h₁ h₂ => ?_, fun q hq => ?_, fun q hq => ?_, fun q l hq => ?_, hunlock, hinside, hpanicked⟩
  · by_cases hc : c' = c
    · unfold CoreOk
      rw [hc, hmode']
      exact hruns
    · refine (h.core c').frame (hcpu c' hc) (fun L => howner L c' hc) fun q hq => ?_
      have hne : q ≠ p := fun heq => hc (h.once c' c p (heq ▸ hq) hmode)
      refine ⟨hrest q hne, ?_, fun l hl => hlocked l fun hl' => hc (Option.some.inj (hl.symm.trans hl'))⟩
      -- a process that runs elsewhere is not asleep, or has its own lock
      refine (hstate q hne).2.resolve_right fun ⟨hsleeping, _, hown⟩ => ?_
      obtain ⟨Γ, hr⟩ := h.runs hq
      have hready : Γ.ready = true := by
        cases hb : Γ.ready with
        | true => rfl
        | false =>
          rw [hr.running hb] at hsleeping
          cases hsleeping
      have hheld := (hr.owner (.proc q)).mpr (by rw [hr.ok.ready_held hready]; exact List.mem_cons_self)
      exact hc (Option.some.inj (hheld.symm.trans hown))
  · exact h.once c₁ c₂ q ((hmodes c₁).symm.trans h₁) ((hmodes c₂).symm.trans h₂)
  · have hq' : ∀ c', (s.cpu c').mode ≠ .proc q := fun c' => hmodes c' ▸ hq c'
    have hne : q ≠ p := fun heq => hq' c (heq ▸ hmode)
    obtain ⟨hstopped, hresume, hok⟩ := h.off q hq'
    unfold Off
    rw [hrest q hne]
    refine ⟨?_, hresume, hok⟩
    rcases (hstate q hne).2 with heq | ⟨-, hrunnable, -⟩
    · rwa [heq]
    · rw [hrunnable]
      nofun
  · by_cases hp : q = p
    · exact hp ▸ hasleep (hp ▸ hq)
    · obtain ⟨hchan, hst⟩ := hstate q hp
      have hold : s.state q = .sleeping := by
        rcases hst with heq | ⟨-, hrunnable, -⟩
        · rwa [heq] at hq
        · rw [hrunnable] at hq
          cases hq
      obtain ⟨l, hl, hd⟩ := h.asleep q hold
      exact ⟨l, hchan.trans hl, hdue q l hp (.inl ⟨hq, hl⟩) hd⟩
  · by_cases hp : q = p
    · exact hp ▸ hcommit l (hp ▸ hq)
    · rw [hrest q hp] at hq
      exact hdue q l hp (.inr hq) (h.commit q l hq)

omit [DecidableEq Λ] in
theorem Due.mono (h : Due s p l) (hlocked : s.locked l = true → s'.locked l = true)
    (hwake : ∀ q, .wake p l ∈ s.rest q → .wake p l ∈ s'.rest q) : Due s' p l :=
  h.imp hlocked fun ⟨q, hq⟩ => ⟨q, hwake q hq⟩

omit [DecidableEq Λ] in
theorem InsideOk.same (h : InsideOk s l) (hlocked : s'.locked l = s.locked l) (hpid : s'.pid l = s.pid l)
    (hinside : s'.inside l = s.inside l) : InsideOk s' l := by
  unfold InsideOk
  rw [hlocked, hpid, hinside]
  exact h

/-- A step that concerns only `p` and its core -/
theorem Inv.plain (h : Inv s) (hmode : (s.cpu c).mode = .proc p) (hk : s.rest p = i :: k) (hi : ∀ q l, i ≠ .wake q l)
    (hcpu : ∀ c', c' ≠ c → s'.cpu c' = s.cpu c') (hmode' : (s'.cpu c).mode = .proc p)
    (howner : ∀ L c', c' ≠ c → (s'.owner L = some c' ↔ s.owner L = some c'))
    (hrest : s'.rest = Function.update s.rest p k)
    (hstate : ∀ q, q ≠ p → s'.chan q = s.chan q ∧ s'.state q = s.state q)
    (hlocked : s'.locked = s.locked) (hpid : s'.pid = s.pid) (hinside : s'.inside = s.inside)
    (hpanicked : s'.panicked = none) (hruns : ∃ Γ, Runs s' c p Γ)
    (hasleep : s'.state p = .sleeping → ∃ l, s'.chan p = some l ∧ Due s p l) : Inv s' := by
  have hin : ∀ q j, j ∈ s'.rest q → j ∈ s.rest q := fun q j hj => by
    rw [hrest] at hj
    by_cases hq : q = p
    · rw [hq, Function.update_self] at hj
      rw [hq, hk]
      exact List.mem_cons_of_mem i hj
    · rwa [Function.update_of_ne hq] at hj
  have hmono : ∀ q l, Due s q l → Due s' q l := fun q l hd => hd.mono (fun hl => hlocked ▸ hl) fun r hr => by
    rw [hrest]
    by_cases hrp : r = p
    · rw [hrp, Function.update_self]
      rw [hrp, hk] at hr
      exact (List.mem_cons.mp hr).resolve_left fun heq => hi q l heq.symm
    · rwa [Function.update_of_ne hrp]
  refine h.of_step hmode hcpu hmode' howner (fun q hq => by rw [hrest, Function.update_of_ne hq])
    (fun q hq => ⟨(hstate q hq).1, .inl (hstate q hq).2⟩) (fun l _ => by rw [hlocked]) hruns
    (fun q l _ _ hd => hmono q l hd) (fun hs => ?_) (fun l hl => hmono p l (h.commit p l (hin p _ hl)))
    (fun q l hl => hinside ▸ h.unlocks q l (hin q _ hl)) (fun l => ?_) hpanicked
  · obtain ⟨l, hl, hd⟩ := hasleep hs
    exact ⟨l, hl, hmono p l hd⟩
  · exact (h.inside l).same (by rw [hlocked]) (by rw [hpid]) (by rw [hinside])

end Frames

/-! ## Steps of a process -/

section Instructions

variable {s s' : State κ n Λ} {c : κ} {p q : Fin n} {k : List (Instr n Λ)} {l : Λ} {L : Lock n Λ} {held : List (Lock n Λ)}

omit [DecidableEq κ] in
theorem owner_update {owner : Lock n Λ → Option κ} {o : Option κ} (hold : owner L = none ∨ owner L = some c)
    (ho : o = none ∨ o = some c) (M : Lock n Λ) (c' : κ) (hc : c' ≠ c) :
    Function.update owner L o M = some c' ↔ owner M = some c' := by
  by_cases hM : M = L
  · rw [hM, Function.update_self]
    refine iff_of_false (fun heq => ?_) (fun heq => ?_)
    · rcases ho with rfl | rfl
      · cases heq
      · exact hc (Option.some.inj heq).symm
    · rcases hold with hold | hold
      · rw [hold] at heq
        cases heq
      · exact hc (Option.some.inj (hold.symm.trans heq)).symm
  · rw [Function.update_of_ne hM]

omit [DecidableEq κ] [DecidableEq Λ] in
theorem sret_tail {i : Instr n Λ} (hk : s.rest p = i :: k) (hi : i ≠ .sret) : Instr.sret ∈ s.rest p ↔ Instr.sret ∈ k := by
  rw [hk, List.mem_cons]
  exact or_iff_right hi.symm

omit [DecidableEq κ] in
/-- An instruction that leaves the core and the spin locks alone -/
theorem Runs.next {Γ Γ' : Ctx n Λ} {i : Instr n Λ} (hr : Runs s c p Γ) (hk : s.rest p = i :: k) (hi : i ≠ .sret)
    (hresume : ∀ b, i ≠ .resume b) (hcpu : s'.cpu c = s.cpu c) (howner : s'.owner = s.owner) (hrest : s'.rest p = k)
    (hheld : Γ'.held = Γ.held) (hpending : Γ'.pending = Γ.pending) (hok : Ok p Γ' k)
    (hrunning : Γ'.ready = false → s'.state p = .running) (hready : Γ'.ready = true → s'.state p ≠ .running)
    (hclear : Γ'.clear = true → ∀ l, .sleep l ∈ Γ.held → s'.locked l = false) : Runs s' c p Γ' := by
  refine ⟨hrest.symm ▸ hok, fun L => ?_, hheld ▸ hr.nodup, ?_, ?_, fun h0 _ => ?_, hrunning, hready, hheld ▸ hclear⟩
  · rw [howner, hheld]
    exact hr.owner L
  · rw [hcpu, hheld, hpending]
    exact hr.noff
  · rw [hcpu, hrest, ← sret_tail hk hi]
    exact hr.intr
  · rw [hcpu] at h0 ⊢
    rw [hrest, ← sret_tail hk hi]
    exact hr.intena h0 fun b k' hb => hresume b (List.cons.inj (hk.symm.trans hb)).1

theorem Inv.push (h : Inv s) (hmode : (s.cpu c).mode = .proc p) (hk : s.rest p = .push L :: k)
    (hr : Runs s c p (.holding held)) (hrank : ∀ M ∈ held, M.rank < L.rank)
    (hok : Ok p ⟨held, some L, false, false⟩ k) :
    Inv (s.orCrash ((s.setRest p k).acquirePush c L)) := by
  have hfree : s.owner L ≠ some c := fun hown => lt_irrefl _ (hrank L ((hr.owner L).mp hown))
  have hpush : (s.setRest p k).acquirePush c L = .ok ((s.setRest p k).pushOff c) := if_neg hfree
  rw [hpush]
  have hrun := hr.running rfl
  have hsret := sret_tail hk nofun
  refine h.plain hmode hk nofun (fun c' hc => Function.update_of_ne hc _ _) ?_ (fun _ _ _ => Iff.rfl) rfl
    (fun _ _ => ⟨rfl, rfl⟩) rfl rfl rfl h.panicked ⟨⟨held, some L, false, false⟩, ?_⟩ fun hs => ?_
  · simpa [State.orCrash, State.pushOff, State.setCpu, State.setRest] using hmode
  · have hcpu : ((s.setRest p k).pushOff c).cpu c = { s.cpu c with
        intr := false
        intena := if (s.cpu c).noff = 0 then (s.cpu c).intr else (s.cpu c).intena
        noff := (s.cpu c).noff + 1 } := Function.update_self _ _ _
    have hrest : ((s.setRest p k).pushOff c).rest p = k := Function.update_self _ _ _
    refine ⟨hrest.symm ▸ hok, hr.owner, hr.nodup, ?_, ?_, fun _ _ => ?_, fun _ => hrun, nofun, nofun⟩
    · simp only [State.orCrash, hcpu, hr.noff]
      rfl
    · simp [State.orCrash, hcpu]
    · simp only [State.orCrash, hcpu, hrest]
      by_cases h0 : (s.cpu c).noff = 0
      · rw [if_pos h0, hr.intr, ← hsret]
        exact and_iff_right h0
      · rw [if_neg h0, ← hsret]
        exact hr.intena h0 fun b k' hb => by
          rw [hk] at hb
          cases hb
  · exact absurd (hrun.symm.trans hs) nofun

omit [DecidableEq κ] in
theorem Inv.take (h : Inv s) (hmode : (s.cpu c).mode = .proc p) (hk : s.rest p = .take L :: k)
    (hr : Runs s c p ⟨held, some L, false, false⟩) (hrank : ∀ M ∈ held, M.rank < L.rank)
    (hok : Ok p (.holding (L :: held)) k) (hs : (s.setRest p k).acquireTake c L = some s') : Inv s' := by
  unfold State.acquireTake at hs
  by_cases hfree : (s.setRest p k).owner L = none
  swap
  · rw [if_neg hfree] at hs
    cases hs
  rw [if_pos hfree] at hs
  cases hs
  replace hfree : s.owner L = none := hfree
  have hrun := hr.running rfl
  have hsret := sret_tail hk nofun
  refine h.plain hmode hk nofun (fun _ _ => rfl) hmode (owner_update (.inl hfree) (.inr rfl)) rfl
    (fun _ _ => ⟨rfl, rfl⟩) rfl rfl rfl h.panicked ⟨.holding (L :: held), ?_⟩ fun hs => absurd (hrun.symm.trans hs) nofun
  have hrest : (s.setRest p k).rest p = k := Function.update_self _ _ _
  refine ⟨hrest.symm ▸ hok, fun M => ?_, ?_, ?_, ?_, fun h0 _ => ?_, fun _ => hrun, nofun, nofun⟩
  · show Function.update s.owner L (some c) M = some c ↔ _
    by_cases hM : M = L
    · rw [hM, Function.update_self]
      exact iff_of_true rfl List.mem_cons_self
    · rw [Function.update_of_ne hM, hr.owner M]
      exact (List.mem_cons.trans (or_iff_right hM)).symm
  · exact List.nodup_cons.mpr ⟨fun hmem => lt_irrefl _ (hrank L hmem), hr.nodup⟩
  · refine hr.noff.trans ?_
    simp [Ctx.holding]
  · rw [hrest, ← hsret]
    exact hr.intr
  · rw [hrest, ← hsret]
    exact hr.intena h0 fun b k' hb => by
      rw [hk] at hb
      cases hb

/-- `release` of a lock that the core holds -/
theorem release_ok (hown : s.owner L = some c) (hintr : (s.cpu c).intr = false) (hnoff : (s.cpu c).noff ≠ 0) :
    s.release c L = .ok (({ s with owner := Function.update s.owner L none } : State κ n Λ).setCpu c { s.cpu c with
      noff := (s.cpu c).noff - 1, intr := (s.cpu c).noff - 1 = 0 && (s.cpu c).intena }) := by
  unfold State.release State.popOff
  rw [if_neg (not_not.mpr hown)]
  dsimp only
  rw [hintr, if_neg nofun, if_neg (by omega)]

theorem Inv.release (h : Inv s) (hmode : (s.cpu c).mode = .proc p) (hk : s.rest p = .release L :: k)
    (hr : Runs s c p (.holding held)) (hmem : L ∈ held) (hok : Ok p (.holding (held.erase L)) k) :
    Inv (s.orCrash ((s.setRest p k).release c L)) := by
  have hlen : 0 < held.length := List.length_pos_of_mem hmem
  have hnoff : (s.cpu c).noff = held.length := hr.noff.trans (by simp [Ctx.holding])
  have hintr : (s.cpu c).intr = false := by
    cases hi : (s.cpu c).intr with
    | false => rfl
    | true =>
      have := (hr.intr.mp hi).1
      omega
  have hsret := sret_tail hk nofun
  have hintena := hr.intena (by omega) fun b k' hb => by
    rw [hk] at hb
    cases hb
  have hrun := hr.running rfl
  have hown := (hr.owner L).mpr hmem
  rw [release_ok (s := s.setRest p k) hown hintr (by rw [show (s.setRest p k).cpu c = s.cpu c from rfl]; omega)]
  refine h.plain hmode hk nofun (fun c' hc => Function.update_of_ne hc _ _) ?_ (owner_update (.inr hown) (.inl rfl)) rfl
    (fun _ _ => ⟨rfl, rfl⟩) rfl rfl rfl h.panicked ⟨.holding (held.erase L), ?_⟩
    fun hs => absurd (hrun.symm.trans hs) nofun
  · simpa [State.orCrash, State.setCpu, State.setRest] using hmode
  · dsimp only [State.orCrash, State.setCpu, State.setRest]
    refine ⟨?_, fun M => ?_, hr.nodup.erase L, ?_, ?_, fun h0 _ => ?_, fun _ => hrun, nofun, nofun⟩
    · dsimp only
      rw [Function.update_self]
      exact hok
    · show Function.update s.owner L none M = some c ↔ M ∈ held.erase L
      rw [List.Nodup.mem_erase_iff (l := held) hr.nodup]
      by_cases hM : M = L
      · rw [hM, Function.update_self]
        exact iff_of_false nofun fun hno => hno.1 rfl
      · rw [Function.update_of_ne hM, hr.owner M]
        exact (and_iff_right hM).symm
    · dsimp only
      rw [Function.update_self]
      simp [Ctx.holding, List.length_erase_of_mem hmem, hnoff]
    · dsimp only
      rw [Function.update_self, Function.update_self, ← hsret, ← hintena]
      show (decide ((s.cpu c).noff - 1 = 0) && (s.cpu c).intena) = true ↔ (s.cpu c).noff - 1 = 0 ∧ _
      rw [Bool.and_eq_true, decide_eq_true_iff]
    · dsimp only
      rw [Function.update_self, Function.update_self, hintena, hsret]

omit [DecidableEq κ] in
theorem Inv.goSleep (h : Inv s) (hmode : (s.cpu c).mode = .proc p) (hk : s.rest p = .goSleep l :: k)
    (hr : Runs s c p (.holding [.proc p])) (hok : Ok p ⟨[.proc p], none, true, false⟩ k) :
    Inv { (s.setRest p k).setState p .sleeping with chan := Function.update s.chan p (some l) } := by
  have hstate : Function.update s.state p ProcState.sleeping p = .sleeping := Function.update_self _ _ _
  refine h.plain hmode hk nofun (fun _ _ => rfl) hmode (fun _ _ _ => Iff.rfl) rfl
    (fun q hq => ⟨Function.update_of_ne hq _ _, Function.update_of_ne hq _ _⟩) rfl rfl rfl h.panicked
    ⟨⟨[.proc p], none, true, false⟩, ?_⟩ fun _ => ⟨l, Function.update_self _ _ _, h.commit p l (by rw [hk]; exact List.mem_cons_self)⟩
  exact hr.next hk nofun nofun rfl rfl (Function.update_self _ _ _) rfl rfl hok nofun
    (fun _ heq => absurd (hstate.symm.trans heq) nofun) nofun

omit [DecidableEq κ] in
theorem Inv.setRunnable (h : Inv s) (hmode : (s.cpu c).mode = .proc p) (hk : s.rest p = .setRunnable :: k)
    (hr : Runs s c p (.holding [.proc p])) (hok : Ok p ⟨[.proc p], none, true, false⟩ k) :
    Inv ((s.setRest p k).setState p .runnable) := by
  have hstate : Function.update s.state p ProcState.runnable p = .runnable := Function.update_self _ _ _
  refine h.plain hmode hk nofun (fun _ _ => rfl) hmode (fun _ _ _ => Iff.rfl) rfl
    (fun q hq => ⟨rfl, Function.update_of_ne hq _ _⟩) rfl rfl rfl h.panicked
    ⟨⟨[.proc p], none, true, false⟩, ?_⟩ fun hs => absurd (hstate.symm.trans hs) nofun
  exact hr.next hk nofun nofun rfl rfl (Function.update_self _ _ _) rfl rfl hok nofun
    (fun _ heq => absurd (hstate.symm.trans heq) nofun) nofun

omit [DecidableEq κ] in
theorem Inv.clearChan (h : Inv s) (hmode : (s.cpu c).mode = .proc p) (hk : s.rest p = .clearChan :: k)
    (hr : Runs s c p (.holding [.proc p])) (hok : Ok p (.holding [.proc p]) k) :
    Inv { s.setRest p k with chan := Function.update s.chan p none } := by
  have hrun := hr.running rfl
  refine h.plain hmode hk nofun (fun _ _ => rfl) hmode (fun _ _ _ => Iff.rfl) rfl
    (fun q hq => ⟨Function.update_of_ne hq _ _, rfl⟩) rfl rfl rfl h.panicked ⟨.holding [.proc p], ?_⟩
    fun hs => absurd (hrun.symm.trans hs) nofun
  exact hr.next hk nofun nofun rfl rfl (Function.update_self _ _ _) rfl rfl hok (fun _ => hrun) nofun nofun

theorem Inv.resume (h : Inv s) (hmode : (s.cpu c).mode = .proc p) {b : Bool} (hk : s.rest p = .resume b :: k)
    (hr : Runs s c p (.holding [.proc p])) (hb : b = true ↔ .sret ∉ k) (hok : Ok p (.holding [.proc p]) k) :
    Inv ((s.setRest p k).setCpu c { s.cpu c with intena := b }) := by
  have hrun := hr.running rfl
  have hrest : (s.setRest p k).rest p = k := Function.update_self _ _ _
  have hsret := sret_tail hk nofun
  have hcpu : ((s.setRest p k).setCpu c { s.cpu c with intena := b }).cpu c = { s.cpu c with intena := b } :=
    Function.update_self _ _ _
  refine h.plain hmode hk nofun (fun c' hc => Function.update_of_ne hc _ _) (by rw [hcpu]; exact hmode)
    (fun _ _ _ => Iff.rfl) rfl (fun _ _ => ⟨rfl, rfl⟩) rfl rfl rfl h.panicked ⟨.holding [.proc p], ?_⟩
    fun hs => absurd (hrun.symm.trans hs) nofun
  refine ⟨hrest.symm ▸ hok, hr.owner, hr.nodup, by rw [hcpu]; exact hr.noff, ?_, fun _ _ => ?_, fun _ => hrun, nofun, nofun⟩
  · rw [hcpu]
    show _ ↔ _ ∧ Instr.sret ∉ (s.setRest p k).rest p
    rw [hrest, ← hsret]
    exact hr.intr
  · rw [hcpu]
    show _ ↔ Instr.sret ∉ (s.setRest p k).rest p
    rw [hrest]
    exact hb

theorem Inv.sret (h : Inv s) (hmode : (s.cpu c).mode = .proc p) (hk : s.rest p = .sret :: k)
    (hr : Runs s c p (.holding [])) (hk' : .sret ∉ k) (hok : Ok p (.holding []) k) :
    Inv ((s.setRest p k).setCpu c { s.cpu c with intr := true }) := by
  have hrun := hr.running rfl
  have hnoff : (s.cpu c).noff = 0 := hr.noff
  have hrest : (s.setRest p k).rest p = k := Function.update_self _ _ _
  have hcpu : ((s.setRest p k).setCpu c { s.cpu c with intr := true }).cpu c = { s.cpu c with intr := true } :=
    Function.update_self _ _ _
  refine h.plain hmode hk nofun (fun c' hc => Function.update_of_ne hc _ _) (by rw [hcpu]; exact hmode)
    (fun _ _ _ => Iff.rfl) rfl (fun _ _ => ⟨rfl, rfl⟩) rfl rfl rfl h.panicked ⟨.holding [], ?_⟩
    fun hs => absurd (hrun.symm.trans hs) nofun
  refine ⟨hrest.symm ▸ hok, hr.owner, hr.nodup, by rw [hcpu]; exact hnoff, ?_, fun h0 _ => ?_, fun _ => hrun, nofun, nofun⟩
  · rw [hcpu]
    show _ ↔ _ ∧ Instr.sret ∉ (s.setRest p k).rest p
    rw [hrest]
    exact iff_of_true rfl ⟨hnoff, hk'⟩
  · rw [hcpu] at h0
    exact absurd hnoff h0

omit [DecidableEq κ] in
/-- Who is about to go to sleep on `l` holds its spin lock or his own. -/
theorem Inv.committed (h : Inv s) (hgo : .goSleep l ∈ s.rest q) :
    ∃ c', (s.cpu c').mode = .proc q ∧ (s.owner (.sleep l) = some c' ∨ s.owner (.proc q) = some c') := by
  by_contra hno
  push Not at hno
  have hoff : ∀ c', (s.cpu c').mode ≠ .proc q := fun c' hmode => by
    obtain ⟨Γ, hr⟩ := h.runs hmode
    cases hrest : s.rest q with
    | nil => simp [hrest] at hgo
    | cons i k =>
      obtain ⟨Γ', -, -, hside⟩ := (hrest ▸ hr.ok).tail
      rcases hside.1 l (hrest ▸ hgo) with hl | hl
      · exact (hno c' hmode).1 ((hr.owner _).mpr hl)
      · exact (hno c' hmode).2 ((hr.owner _).mpr hl)
  obtain ⟨-, ⟨b, k, hrest⟩, hok⟩ := h.off q hoff
  rw [hrest] at hok hgo
  obtain ⟨Γ', -, -, hside⟩ := hok.tail
  exact (List.mem_cons.mp hgo).elim nofun (hside.2.1 l)

omit [DecidableEq κ] in
/-- The process `q`, whose lock is held, is woken up if it sleeps, and perhaps only if it sleeps on `l`. -/
theorem Inv.rouse {i : Instr n Λ} (h : Inv s) (hmode : (s.cpu c).mode = .proc p) (hk : s.rest p = i :: k)
    (hi : i ≠ .sret) (hresume : ∀ b, i ≠ .resume b) (hr : Runs s c p (.holding held)) (hmem : .proc q ∈ held)
    (hok : Ok p (.holding held) k) (hs : s' = (s.setRest p k).setState q .runnable ∧ s.state q = .sleeping ∨
      s' = s.setRest p k)
    (hwake : ∀ r l, i = .wake r l → r = q ∧ .sleep l ∈ held ∧ r ≠ p ∧ (s'.state q = .sleeping → s.chan q ≠ some l)) :
    Inv s' := by
  have hrun := hr.running rfl
  have hown := (hr.owner _).mpr hmem
  have hrest : s'.rest = Function.update s.rest p k := by rcases hs with ⟨rfl, -⟩ | rfl <;> rfl
  have hcpu : s'.cpu = s.cpu := by rcases hs with ⟨rfl, -⟩ | rfl <;> rfl
  have howner : s'.owner = s.owner := by rcases hs with ⟨rfl, -⟩ | rfl <;> rfl
  have hchan : s'.chan = s.chan := by rcases hs with ⟨rfl, -⟩ | rfl <;> rfl
  have hlocked : s'.locked = s.locked := by rcases hs with ⟨rfl, -⟩ | rfl <;> rfl
  have hpid : s'.pid = s.pid := by rcases hs with ⟨rfl, -⟩ | rfl <;> rfl
  have hinside : s'.inside = s.inside := by rcases hs with ⟨rfl, -⟩ | rfl <;> rfl
  have hpanicked : s'.panicked = none := by rcases hs with ⟨rfl, -⟩ | rfl <;> exact h.panicked
  have hstate : ∀ r, s'.state r = s.state r ∨ r = q ∧ s.state r = .sleeping ∧ s'.state r = .runnable := fun r => by
    rcases hs with ⟨rfl, hq⟩ | rfl
    · by_cases hr : r = q
      · exact .inr ⟨hr, hr ▸ hq, hr ▸ Function.update_self _ _ _⟩
      · exact .inl (Function.update_of_ne hr _ _)
    · exact .inl rfl
  have hrun' : s'.state p = .running := by
    rcases hstate p with heq | ⟨-, hq, -⟩
    · exact heq.trans hrun
    · exact absurd (hrun.symm.trans hq) nofun
  have hin : ∀ r j, j ∈ s'.rest r → j ∈ s.rest r := fun r j hj => by
    rw [hrest] at hj
    by_cases hrp : r = p
    · rw [hrp, Function.update_self] at hj
      rw [hrp, hk]
      exact List.mem_cons_of_mem i hj
    · rwa [Function.update_of_ne hrp] at hj
  -- a wakeup that is still to come is still to come, unless it is this one
  have hmono : ∀ r l, i ≠ .wake r l → Due s r l → Due s' r l := fun r l hne hd =>
    hd.mono (fun hl => hlocked ▸ hl) fun w hw => by
      rw [hrest]
      by_cases hwp : w = p
      · rw [hwp, Function.update_self]
        rw [hwp, hk] at hw
        exact (List.mem_cons.mp hw).resolve_left fun heq => hne heq.symm
      · rwa [Function.update_of_ne hwp]
  refine h.of_step hmode (fun _ _ => by rw [hcpu]) (by rw [hcpu]; exact hmode) (fun _ _ _ => by rw [howner])
    (fun r hrp => by rw [hrest, Function.update_of_ne hrp]) (fun r _ => ⟨by rw [hchan], ?_⟩) (fun _ _ => by rw [hlocked])
    ⟨.holding held, hr.next hk hi hresume (by rw [hcpu]) howner (by rw [hrest, Function.update_self]) rfl rfl hok
      (fun _ => hrun') nofun nofun⟩ (fun r l hrp hwait hd => ?_) (fun hs => absurd (hrun'.symm.trans hs) nofun)
    (fun l hl => ?_) (fun r l hl => hinside ▸ h.unlocks r l (hin r _ hl))
    (fun l => (h.inside l).same (by rw [hlocked]) (by rw [hpid]) (by rw [hinside])) hpanicked
  · exact (hstate r).imp_right fun ⟨heq, hsleep, hrunnable⟩ => ⟨hsleep, hrunnable, heq ▸ hown⟩
  · by_cases hne : i = .wake r l
    · obtain ⟨rfl, hl, -, hmiss⟩ := hwake r l hne
      refine absurd hwait (not_or.mpr ⟨fun hsl => hmiss hsl.1 hsl.2, fun hgo => ?_⟩)
      obtain ⟨c', hmode', hheld⟩ := h.committed hgo
      have hcc : c' = c := by
        rcases hheld with hheld | hheld
        · exact Option.some.inj (hheld.symm.trans ((hr.owner _).mpr hl))
        · exact Option.some.inj (hheld.symm.trans hown)
      rw [hcc, hmode] at hmode'
      exact hrp (Mode.proc.inj hmode').symm
    · exact hmono r l hne hd
  · exact hmono p l (fun heq => (hwake p l heq).2.2.1 rfl) (h.commit p l (hin p _ hl))

omit [DecidableEq κ] in
theorem Inv.wake (h : Inv s) (hmode : (s.cpu c).mode = .proc p) (hk : s.rest p = .wake q l :: k) (hq : q ≠ p)
    (hr : Runs s c p (.holding [.proc q, .sleep l])) (hok : Ok p (.holding [.proc q, .sleep l]) k) :
    Inv (if s.state q = .sleeping ∧ s.chan q = some l then (s.setRest p k).setState q .runnable else s.setRest p k) := by
  by_cases hsleep : s.state q = .sleeping ∧ s.chan q = some l
  · rw [if_pos hsleep]
    refine h.rouse hmode hk nofun nofun hr List.mem_cons_self hok (.inl ⟨rfl, hsleep.1⟩) fun r l' heq => ?_
    cases heq
    refine ⟨rfl, by simp, hq, fun hs => ?_⟩
    have hstate : Function.update s.state q ProcState.runnable q = .runnable := Function.update_self _ _ _
    exact absurd (hstate.symm.trans hs) nofun
  · rw [if_neg hsleep]
    refine h.rouse hmode hk nofun nofun hr List.mem_cons_self hok (.inr rfl) fun r l' heq => ?_
    cases heq
    exact ⟨rfl, by simp, hq, fun hs hl => hsleep ⟨hs, hl⟩⟩

omit [DecidableEq κ] in
theorem Inv.kick (h : Inv s) (hmode : (s.cpu c).mode = .proc p) (hk : s.rest p = .kick q :: k)
    (hr : Runs s c p (.holding [.proc q])) (hok : Ok p (.holding [.proc q]) k) :
    Inv (if s.state q = .sleeping then (s.setRest p k).setState q .runnable else s.setRest p k) := by
  by_cases hsleep : s.state q = .sleeping
  · rw [if_pos hsleep]
    exact h.rouse hmode hk nofun nofun hr List.mem_cons_self hok (.inl ⟨rfl, hsleep⟩) nofun
  · rw [if_neg hsleep]
    exact h.rouse hmode hk nofun nofun hr List.mem_cons_self hok (.inr rfl) nofun

/-! ### The sleep lock -/

omit [DecidableEq κ] in
/-- `while (lk->locked)` is left, or goes on with `sleep`. -/
theorem Inv.test (h : Inv s) (hmode : (s.cpu c).mode = .proc p) (hk : s.rest p = .test l :: k)
    (hr : Runs s c p (.holding [.sleep l])) (hok : Ok p ⟨[.sleep l], none, false, true⟩ k) :
    Inv (s.setRest p (if s.locked l then sleep p l ++ .test l :: k else k)) := by
  have hrun := hr.running rfl
  by_cases hlocked : s.locked l = true
  · rw [if_pos hlocked]
    have hrest : (s.setRest p (sleep p l ++ .test l :: k)).rest p = sleep p l ++ .test l :: k := Function.update_self _ _ _
    have hin : ∀ i, i ∈ s.rest p → i ∈ sleep p l ++ .test l :: k := fun i hi =>
      List.mem_append_right _ (hk ▸ hi)
    have hsret : Instr.sret ∈ s.rest p ↔ .sret ∈ sleep p l ++ .test l :: k := by
      rw [hk]
      simp [sleep, acquire]
    have hnoff : (s.cpu c).noff ≠ 0 := by
      rw [hr.noff]
      simp [Ctx.holding]
    have hmono : ∀ q m, Due s q m → Due (s.setRest p (sleep p l ++ .test l :: k)) q m := fun q m hd =>
      hd.mono id fun r hw => by
        show _ ∈ Function.update s.rest p _ r
        by_cases hrp : r = p
        · rw [hrp, Function.update_self]
          exact hin _ (hrp ▸ hw)
        · rwa [Function.update_of_ne hrp]
    refine h.of_step hmode (fun _ _ => rfl) hmode (fun _ _ _ => Iff.rfl) (fun q hq => Function.update_of_ne hq _ _)
      (fun q _ => ⟨rfl, .inl rfl⟩) (fun _ _ => rfl) ⟨.holding [.sleep l], ?_⟩ (fun q m _ _ => hmono q m)
      (fun hs => absurd (hrun.symm.trans hs) nofun) (fun m hm => ?_) (fun q m hm => ?_) h.inside h.panicked
    · refine ⟨hrest.symm ▸ (hk ▸ hr.ok).sleep, hr.owner, hr.nodup, hr.noff, ?_, fun h0 _ => ?_, fun _ => hrun, nofun, nofun⟩
      · rw [hrest, ← hsret]
        exact hr.intr
      · rw [hrest, ← hsret]
        exact hr.intena h0 fun b k' hb => by
          rw [hk] at hb
          cases hb
    · rw [hrest] at hm
      rcases List.mem_append.mp hm with hm | hm
      · have : m = l := by simpa [sleep, acquire] using hm
        exact .inl (this ▸ hlocked)
      · exact hmono p m (h.commit p m (hk ▸ hm))
    · refine h.unlocks q m ?_
      replace hm : .unlock m ∈ Function.update s.rest p (sleep p l ++ .test l :: k) q := hm
      by_cases hq : q = p
      · rw [hq, Function.update_self] at hm
        rw [hq, hk]
        exact (List.mem_append.mp hm).resolve_left (by simp [sleep, acquire])
      · rwa [Function.update_of_ne hq] at hm
  · rw [if_neg hlocked]
    refine h.plain hmode hk nofun (fun _ _ => rfl) hmode (fun _ _ _ => Iff.rfl) rfl (fun _ _ => ⟨rfl, rfl⟩) rfl rfl rfl
      h.panicked ⟨⟨[.sleep l], none, false, true⟩, ?_⟩ fun hs => absurd (hrun.symm.trans hs) nofun
    refine hr.next hk nofun nofun rfl rfl (Function.update_self _ _ _) rfl rfl hok (fun _ => hrun) nofun fun _ m hm => ?_
    have : m = l := by simpa [Ctx.holding] using hm
    exact this ▸ Bool.eq_false_of_not_eq_true hlocked

omit [DecidableEq κ] in
/-- A step of `p` that changes one sleep lock, whose spin lock it holds -/
theorem Inv.change {Γ : Ctx n Λ} {i : Instr n Λ} {b : Bool} {o : Option (Fin n)} {ps : List (Fin n)} (h : Inv s)
    (hmode : (s.cpu c).mode = .proc p) (hk : s.rest p = i :: k) (hi : i = .lock l ∨ i = .unlock l) (hr : Runs s c p Γ)
    (hheld : Γ.held = [.sleep l]) (hpending : Γ.pending = none) (hready : Γ.ready = false)
    (hok : Ok p (.holding [.sleep l]) k)
    (hdue : ∀ q, q ≠ p → s.locked l = true → b = true ∨ .wake q l ∈ k)
    (hgo : ∀ m, .goSleep m ∈ k → s.locked l = true → b = true)
    (hunlock : ∀ m, .unlock m ∈ k → m ≠ l) (hinside : (b = false → ps = []) ∧ (b = true → ps = [p] ∧ o = some p))
    (hold : ∀ q, q ≠ p → q ∉ s.inside l) :
    Inv { s.setRest p k with
      locked := Function.update s.locked l b
      pid := Function.update s.pid l o
      inside := Function.update s.inside l ps } := by
  have hrun := hr.running hready
  have hmem : Lock.sleep l ∈ Γ.held := by simp [hheld]
  have hown := (hr.owner _).mpr hmem
  have hisret : i ≠ .sret := by rcases hi with rfl | rfl <;> nofun
  have hiresume : ∀ b, i ≠ .resume b := by rcases hi with rfl | rfl <;> nofun
  have hiwake : ∀ q m, i ≠ .wake q m := by rcases hi with rfl | rfl <;> nofun
  have hlocked : ∀ m, m ≠ l → Function.update s.locked l b m = s.locked m := fun m hm => Function.update_of_ne hm _ _
  have hmono : ∀ q m, (q ≠ p ∨ .goSleep m ∈ k) → Due s q m → Due { s.setRest p k with
      locked := Function.update s.locked l b
      pid := Function.update s.pid l o
      inside := Function.update s.inside l ps } q m := fun q m hq hd => by
    rcases hd with hd | ⟨r, hw⟩
    · by_cases hm : m = l
      · have hb : b = true ∨ .wake q l ∈ k := by
          by_cases hqp : q = p
          · exact .inl (hgo m (hq.resolve_left (not_not.mpr hqp)) (hm ▸ hd))
          · exact hdue q hqp (hm ▸ hd)
        refine hb.imp (fun hb => ?_) fun hw => ⟨p, ?_⟩
        · show Function.update s.locked l b m = true
          rw [hm, Function.update_self, hb]
        · show _ ∈ Function.update s.rest p k p
          rw [hm, Function.update_self]
          exact hw
      · exact .inl ((hlocked m hm).trans hd)
    · refine .inr ⟨r, ?_⟩
      show _ ∈ Function.update s.rest p k r
      by_cases hrp : r = p
      · rw [hrp, Function.update_self]
        rw [hrp, hk] at hw
        exact (List.mem_cons.mp hw).resolve_left fun heq => hiwake q m heq.symm
      · rwa [Function.update_of_ne hrp]
  refine h.of_step hmode (fun _ _ => rfl) hmode (fun _ _ _ => Iff.rfl) (fun q hq => Function.update_of_ne hq _ _)
    (fun q _ => ⟨rfl, .inl rfl⟩) (fun m hm => hlocked m fun heq => hm (heq ▸ hown)) ⟨.holding [.sleep l], ?_⟩
    (fun q m hq _ => hmono q m (.inl hq)) (fun hs => absurd (hrun.symm.trans hs) nofun) (fun m hm => ?_) (fun q m hm => ?_)
    (fun m => ?_) h.panicked
  · exact hr.next hk hisret hiresume rfl rfl (Function.update_self _ _ _) hheld.symm hpending.symm hok (fun _ => hrun) nofun nofun
  · replace hm : .goSleep m ∈ Function.update s.rest p k p := hm
    rw [Function.update_self] at hm
    exact hmono p m (.inr hm) (h.commit p m (by rw [hk]; exact List.mem_cons_of_mem i hm))
  · replace hm : .unlock m ∈ Function.update s.rest p k q := hm
    show q ∈ Function.update s.inside l ps m
    by_cases hq : q = p
    · rw [hq, Function.update_self] at hm
      rw [hq, Function.update_of_ne (hunlock m hm)]
      exact h.unlocks p m (by rw [hk]; exact List.mem_cons_of_mem i hm)
    · rw [Function.update_of_ne hq] at hm
      have hin := h.unlocks q m hm
      have hml : m ≠ l := fun heq => hold q hq (heq ▸ hin)
      rwa [Function.update_of_ne hml]
  · by_cases hm : m = l
    · rw [hm]
      unfold InsideOk
      dsimp only
      rw [Function.update_self, Function.update_self, Function.update_self]
      exact ⟨hinside.1, fun hb => ⟨p, hinside.2 hb⟩⟩
    · exact (h.inside m).same (hlocked m hm) (Function.update_of_ne hm _ _) (Function.update_of_ne hm _ _)

omit [DecidableEq κ] in
/-- What is no longer locked is not held by anybody: nobody has to be woken up. -/
theorem Inv.lock (h : Inv s) (hmode : (s.cpu c).mode = .proc p) (hk : s.rest p = .lock l :: k)
    (hr : Runs s c p ⟨[.sleep l], none, false, true⟩) (hok : Ok p (.holding [.sleep l]) k) :
    Inv { s.setRest p k with
      locked := Function.update s.locked l true
      pid := Function.update s.pid l (some p)
      inside := Function.update s.inside l (p :: s.inside l) } := by
  have hempty : s.inside l = [] := (h.inside l).1 (hr.clear rfl l List.mem_cons_self)
  have hfree : ∀ m, .unlock m ∈ k → m ≠ l := fun m hm heq => by
    have := h.unlocks p m (by rw [hk]; exact List.mem_cons_of_mem _ hm)
    rw [heq, hempty] at this
    cases this
  exact h.change hmode hk (.inl rfl) hr rfl rfl rfl hok (fun _ _ _ => .inl rfl) (fun _ _ _ => rfl) hfree
    ⟨nofun, fun _ => ⟨by rw [hempty], rfl⟩⟩ fun q _ hq => by
      rw [hempty] at hq
      cases hq

omit [DecidableEq κ] in
theorem Inv.unlock (h : Inv s) (hmode : (s.cpu c).mode = .proc p) (hk : s.rest p = .unlock l :: k)
    (hr : Runs s c p (.holding [.sleep l])) (hok : Ok p (.holding [.sleep l]) k) (hplain : Plain k)
    (hlast : ∀ m, .unlock m ∉ k) (hwake : ∀ q, q ≠ p → .wake q l ∈ k) :
    Inv { s.setRest p k with
      locked := Function.update s.locked l false
      pid := Function.update s.pid l none
      inside := Function.update s.inside l ((s.inside l).erase p) } := by
  have hmem : p ∈ s.inside l := h.unlocks p l (by rw [hk]; exact List.mem_cons_self)
  have hinside : s.inside l = [p] := by
    cases hlocked : s.locked l with
    | false =>
      rw [(h.inside l).1 hlocked] at hmem
      cases hmem
    | true =>
      obtain ⟨q, hq, -⟩ := (h.inside l).2 hlocked
      rw [hq] at hmem ⊢
      rw [List.mem_singleton.mp hmem]
  exact h.change hmode hk (.inr rfl) hr rfl rfl rfl hok (fun q hq _ => .inr (hwake q hq)) (fun m hm => absurd hm (hplain m))
    (fun m hm => absurd hm (hlast m)) ⟨fun _ => by rw [hinside]; simp, nofun⟩ fun q hq hmem => by
      rw [hinside] at hmem
      exact hq (List.mem_singleton.mp hmem)

/-! ### Giving up the core -/

/-- A step that puts the core `c` in another mode, out of the hands of a process or into those of one that has been
    waiting -/
theorem Inv.switch (h : Inv s) (hcpu : ∀ c', c' ≠ c → s'.cpu c' = s.cpu c')
    (howner : ∀ L c', c' ≠ c → (s'.owner L = some c' ↔ s.owner L = some c'))
    (hrest : ∀ q, (s.cpu c).mode ≠ .proc q → s'.rest q = s.rest q) (hchan : s'.chan = s.chan)
    (hstate : ∀ q, (s'.cpu c).mode ≠ .proc q → s'.state q = s.state q)
    (hlocked : s'.locked = s.locked) (hpid : s'.pid = s.pid) (hinside : s'.inside = s.inside)
    (hpanicked : s'.panicked = none)
    (hkeep : ∀ q i, (∀ b, i ≠ .resume b) → i ≠ .sched → (i ∈ s'.rest q ↔ i ∈ s.rest q))
    (hout : ∀ q, (s.cpu c).mode = .proc q → Off s' q)
    (hin : ∀ q, (s'.cpu c).mode = .proc q → (∀ c', (s.cpu c').mode ≠ .proc q) ∧ s'.state q = .running)
    (hcore : CoreOk s' c) : Inv s' := by
  have hdue : ∀ q l, Due s q l → Due s' q l := fun q l hd =>
    hd.mono (fun hl => hlocked ▸ hl) fun r hw => (hkeep r (.wake q l) nofun nofun).mpr hw
  refine ⟨fun c' => ?_, fun c₁ c₂ q h₁ h₂ => ?_, fun q hq => ?_, fun q hq => ?_, fun q l hq => ?_, fun q l hq => ?_,
    fun l => (h.inside l).same (by rw [hlocked]) (by rw [hpid]) (by rw [hinside]), hpanicked⟩
  · by_cases hc : c' = c
    · exact hc ▸ hcore
    · refine (h.core c').frame (hcpu c' hc) (fun L => howner L c' hc) fun q hq => ⟨hrest q fun hq' => ?_,
        hstate q fun hq' => ?_, fun l _ => by rw [hlocked]⟩
      · exact hc (h.once c' c q hq hq')
      · exact (hin q hq').1 c' hq
  · by_cases hc₁ : c₁ = c
    · by_cases hc₂ : c₂ = c
      · rw [hc₁, hc₂]
      · rw [hc₁] at h₁
        rw [hcpu c₂ hc₂] at h₂
        exact absurd h₂ ((hin q h₁).1 c₂)
    · rw [hcpu c₁ hc₁] at h₁
      by_cases hc₂ : c₂ = c
      · rw [hc₂] at h₂
        exact absurd h₁ ((hin q h₂).1 c₁)
      · rw [hcpu c₂ hc₂] at h₂
        exact h.once c₁ c₂ q h₁ h₂
  · by_cases hq' : (s.cpu c).mode = .proc q
    · exact hout q hq'
    · have hoff : ∀ c', (s.cpu c').mode ≠ .proc q := fun c' => by
        by_cases hc : c' = c
        · rwa [hc]
        · exact hcpu c' hc ▸ hq c'
      unfold Off
      rw [hrest q hq', hstate q (hq c)]
      exact h.off q hoff
  · have hne : (s'.cpu c).mode ≠ .proc q := fun hm => absurd ((hin q hm).2.symm.trans hq) nofun
    rw [hstate q hne] at hq
    obtain ⟨l, hl, hd⟩ := h.asleep q hq
    exact ⟨l, by rw [hchan, hl], hdue q l hd⟩
  · exact hdue q l (h.commit q l ((hkeep q (.goSleep l) nofun nofun).mp hq))
  · exact hinside ▸ h.unlocks q l ((hkeep q (.unlock l) nofun nofun).mp hq)

theorem Inv.sched (h : Inv s) (hmode : (s.cpu c).mode = .proc p) (hk : s.rest p = .sched :: k)
    (hr : Runs s c p ⟨[.proc p], none, true, false⟩) (hplain : Plain k) (hok : Ok p (.holding [.proc p]) k)
    (hs : s.instr c p k .sched = some s') : Inv s' := by
  have hown : s.owner (.proc p) = some c := (hr.owner _).mpr List.mem_cons_self
  have hnoff : (s.cpu c).noff = 1 := hr.noff
  have hstopped := hr.ready rfl
  have hintr : (s.cpu c).intr = false := by
    cases hi : (s.cpu c).intr with
    | false => rfl
    | true =>
      have := (hr.intr.mp hi).1
      omega
  have hintena := hr.intena (by omega) fun b k' hb => by
    rw [hk] at hb
    cases hb
  rw [sret_tail hk nofun] at hintena
  -- none of the four panics
  rw [State.instr, if_neg (not_not.mpr hown), if_neg (not_not.mpr hnoff), if_neg hstopped, hintr, if_neg nofun] at hs
  cases hs
  have hrest : ((s.setRest p (.resume (s.cpu c).intena :: k)).setMode c (.release p)).rest p =
      .resume (s.cpu c).intena :: k := Function.update_self _ _ _
  have hcpu : ((s.setRest p (.resume (s.cpu c).intena :: k)).setMode c (.release p)).cpu c =
      { s.cpu c with mode := .release p } := Function.update_self _ _ _
  refine h.switch (fun c' hc => Function.update_of_ne hc _ _) (fun _ _ _ => Iff.rfl)
    (fun q hq => Function.update_of_ne (fun heq : q = p => hq (by rw [heq]; exact hmode)) _ _) rfl (fun _ _ => rfl) rfl
    rfl rfl h.panicked
    (fun q i hi hsched => ?_) (fun q hq => ?_) (fun q hq => ?_) ?_
  · by_cases hq : q = p
    · rw [hq, hrest, hk, List.mem_cons, List.mem_cons, or_iff_right (hi _), or_iff_right hsched]
    · show i ∈ Function.update s.rest p _ q ↔ _
      rw [Function.update_of_ne hq]
  · cases hmode.symm.trans hq
    refine ⟨hstopped, ⟨_, _, hrest⟩, hrest.symm ▸ .cons ⟨fun l hl => ?_, hplain, hintena⟩ .resume hok⟩
    exact (List.mem_cons.mp hl).elim nofun fun hl => absurd hl (hplain l)
  · rw [hcpu] at hq
    cases hq
  · unfold CoreOk
    rw [hcpu]
    exact ⟨fun L => (hr.owner L).trans List.mem_singleton, hnoff, hintr⟩

end Instructions

/-! ### The step of a process -/

section Steps

variable {s s' : State κ n Λ} {c : κ} {p q : Fin n} {k : List (Instr n Λ)}

theorem Inv.instr {i : Instr n Λ} (h : Inv s) (hmode : (s.cpu c).mode = .proc p) (hk : s.rest p = i :: k)
    (hs : s.instr c p k i = some s') : Inv s' := by
  obtain ⟨Γ, hr⟩ := h.runs hmode
  obtain ⟨Γ', hafter, hok, hside⟩ := (hk ▸ hr.ok).tail
  cases hafter with
  | push hrank =>
    cases hs
    exact h.push hmode hk hr hrank hok
  | take hrank => exact h.take hmode hk hr hrank hok hs
  | release hmem =>
    cases hs
    exact h.release hmode hk hr hmem hok
  | goSleep =>
    cases hs
    exact h.goSleep hmode hk hr hok
  | setRunnable =>
    cases hs
    exact h.setRunnable hmode hk hr hok
  | sched => exact h.sched hmode hk hr hside.2 hok hs
  | resume =>
    cases hs
    exact h.resume hmode hk hr hside.2.2 hok
  | clearChan =>
    cases hs
    exact h.clearChan hmode hk hr hok
  | wake hq =>
    cases hs
    exact h.wake hmode hk hq hr hok
  | kick =>
    cases hs
    exact h.kick hmode hk hr hok
  | test =>
    cases hs
    exact h.test hmode hk hr hok
  | lock =>
    cases hs
    exact h.lock hmode hk hr hok
  | unlock =>
    cases hs
    exact h.unlock hmode hk hr hok hside.2.1 hside.2.2.1 hside.2.2.2
  | sret =>
    cases hs
    exact h.sret hmode hk hr hside.2 hok

/-! ### The steps of `scheduler` -/

/-- A step of a core that runs no process before or after -/
theorem Inv.idle (h : Inv s) (hout : ∀ q, (s.cpu c).mode ≠ .proc q) (hin : ∀ q, (s'.cpu c).mode ≠ .proc q)
    (hcpu : ∀ c', c' ≠ c → s'.cpu c' = s.cpu c') (howner : ∀ L c', c' ≠ c → (s'.owner L = some c' ↔ s.owner L = some c'))
    (hrest : s'.rest = s.rest) (hchan : s'.chan = s.chan) (hstate : s'.state = s.state) (hlocked : s'.locked = s.locked)
    (hpid : s'.pid = s.pid) (hinside : s'.inside = s.inside) (hpanicked : s'.panicked = none) (hcore : CoreOk s' c) :
    Inv s' :=
  h.switch hcpu howner (fun _ _ => by rw [hrest]) hchan (fun _ _ => by rw [hstate]) hlocked hpid hinside hpanicked
    (fun _ _ _ _ => by rw [hrest]) (fun q hq => absurd hq (hout q)) (fun q hq => absurd hq (hin q)) hcore

omit [DecidableEq κ] in
/-- The process that the scheduler chooses runs on no core: who gives up a core holds its own lock until it is off. -/
theorem Inv.chosen (h : Inv s) (hown : s.owner (.proc p) = some c) (hmode : (s.cpu c).mode ≠ .proc p)
    (hrunnable : s.state p = .runnable) (c' : κ) : (s.cpu c').mode ≠ .proc p := by
  intro hmode'
  obtain ⟨Γ, hr⟩ := h.runs hmode'
  have hready : Γ.ready = true := by
    cases hb : Γ.ready with
    | true => rfl
    | false =>
      rw [hr.running hb] at hrunnable
      cases hrunnable
  have hheld := (hr.owner (.proc p)).mpr (by rw [hr.ok.ready_held hready]; exact List.mem_cons_self)
  exact hmode (Option.some.inj (hown.symm.trans hheld) ▸ hmode')

theorem Inv.core_step (h : Inv s) (hs : s.core c = some s') : Inv s' := by
  have hcore := h.core c
  unfold State.core at hs
  unfold CoreOk at hcore
  cases hmode : (s.cpu c).mode with
  | loop =>
    rw [hmode] at hs hcore
    cases hs
    have hcpu : (s.setCpu c { s.cpu c with intr := true, mode := .push 0 }).cpu c =
        { s.cpu c with intr := true, mode := .push 0 } := Function.update_self _ _ _
    refine h.idle (fun q hq => nomatch hmode.symm.trans hq) (fun q hq => nomatch (congrArg Cpu.mode hcpu).symm.trans hq) (fun c' hc => Function.update_of_ne hc _ _) (fun _ _ _ => Iff.rfl)
      rfl rfl rfl rfl rfl rfl h.panicked ?_
    unfold CoreOk
    rw [hcpu]
    exact hcore
  | push i =>
    rw [hmode] at hs hcore
    dsimp only at hs hcore
    by_cases hi : i < n
    · rw [dif_pos hi] at hs
      have hpush : (s.setMode c (.take ⟨i, hi⟩)).acquirePush c (.proc ⟨i, hi⟩) =
          .ok ((s.setMode c (.take ⟨i, hi⟩)).pushOff c) := if_neg (hcore.1 _)
      rw [hpush] at hs
      cases hs
      have hcpu : ((s.setMode c (.take ⟨i, hi⟩)).pushOff c).cpu c = { s.cpu c with
          intr := false
          intena := if (s.cpu c).noff = 0 then (s.cpu c).intr else (s.cpu c).intena
          noff := (s.cpu c).noff + 1
          mode := .take ⟨i, hi⟩ } := by
        simp [State.pushOff, State.setMode, State.setCpu]
      refine h.idle (fun q hq => nomatch hmode.symm.trans hq) (fun q hq => nomatch (congrArg Cpu.mode hcpu).symm.trans hq) (fun c' hc => ?_) (fun _ _ _ => Iff.rfl) rfl rfl rfl rfl rfl rfl
        h.panicked ?_
      · simp [State.orCrash, State.pushOff, State.setMode, State.setCpu, hc]
      · unfold CoreOk
        rw [State.orCrash, hcpu]
        exact ⟨hcore.1, by rw [hcore.2], rfl⟩
    · rw [dif_neg hi] at hs
      cases hs
      have hcpu : (s.setMode c .loop).cpu c = { s.cpu c with mode := .loop } := Function.update_self _ _ _
      refine h.idle (fun q hq => nomatch hmode.symm.trans hq) (fun q hq => nomatch (congrArg Cpu.mode hcpu).symm.trans hq) (fun c' hc => Function.update_of_ne hc _ _) (fun _ _ _ => Iff.rfl)
        rfl rfl rfl rfl rfl rfl h.panicked ?_
      unfold CoreOk
      rw [hcpu]
      exact hcore
  | take p =>
    rw [hmode] at hs hcore
    dsimp only at hs hcore
    unfold State.acquireTake at hs
    by_cases hfree : (s.setMode c (.test p)).owner (.proc p) = none
    swap
    · rw [if_neg hfree] at hs
      cases hs
    rw [if_pos hfree] at hs
    cases hs
    have hcpu : (s.setMode c (.test p)).cpu c = { s.cpu c with mode := .test p } := Function.update_self _ _ _
    refine h.idle (fun q hq => nomatch hmode.symm.trans hq) (fun q hq => nomatch (congrArg Cpu.mode hcpu).symm.trans hq) (fun c' hc => Function.update_of_ne hc _ _)
      (owner_update (.inl hfree) (.inr rfl)) rfl rfl rfl rfl rfl rfl h.panicked ?_
    unfold CoreOk
    dsimp only
    rw [hcpu]
    refine ⟨fun L => ?_, hcore.2⟩
    show Function.update s.owner (.proc p) (some c) L = some c ↔ _
    by_cases hL : L = .proc p
    · rw [hL, Function.update_self]
      exact iff_of_true rfl rfl
    · rw [Function.update_of_ne hL]
      exact iff_of_false (hcore.1 L) hL
  | test p =>
    rw [hmode] at hs hcore
    dsimp only at hs hcore
    by_cases hrunnable : s.state p = .runnable
    · rw [if_pos hrunnable] at hs
      cases hs
      have hnone := h.chosen ((hcore.1 _).mpr rfl) (fun hq => nomatch hmode.symm.trans hq) hrunnable
      obtain ⟨-, ⟨b, k, hrest⟩, hok⟩ := h.off p hnone
      have hsret : b = true ↔ .sret ∉ k := by
        rw [hrest] at hok
        obtain ⟨Γ', -, -, hside⟩ := hok.tail
        exact hside.2.2
      have hcpu : ((s.setState p .running).setMode c (.proc p)).cpu c = { s.cpu c with mode := .proc p } :=
        Function.update_self _ _ _
      have hstate : ((s.setState p .running).setMode c (.proc p)).state p = .running := Function.update_self _ _ _
      refine h.switch (fun c' hc => Function.update_of_ne hc _ _) (fun _ _ _ => Iff.rfl) (fun _ _ => rfl) rfl
        (fun q hq => Function.update_of_ne (fun heq => hq (by rw [hcpu, heq])) _ _) rfl rfl rfl h.panicked
        (fun _ _ _ _ => Iff.rfl) (fun q hq => nomatch hmode.symm.trans hq) (fun q hq => ?_) ?_
      · cases (congrArg Cpu.mode hcpu).symm.trans hq
        exact ⟨hnone, hstate⟩
      · unfold CoreOk
        rw [hcpu]
        refine ⟨.holding [.proc p], hok, fun L => (hcore.1 L).trans List.mem_singleton.symm, List.nodup_singleton _, ?_, ?_,
          fun _ hb => absurd hrest (hb b k), fun _ => hstate, nofun, nofun⟩
        · rw [hcpu]
          exact hcore.2.1
        · rw [hcpu]
          refine iff_of_false ?_ fun hno => ?_
          · rw [hcore.2.2]
            nofun
          · exact absurd (hcore.2.1.symm.trans hno.1) nofun
    · rw [if_neg hrunnable] at hs
      cases hs
      have hcpu : (s.setMode c (.release p)).cpu c = { s.cpu c with mode := .release p } := Function.update_self _ _ _
      refine h.idle (fun q hq => nomatch hmode.symm.trans hq) (fun q hq => nomatch (congrArg Cpu.mode hcpu).symm.trans hq) (fun c' hc => Function.update_of_ne hc _ _) (fun _ _ _ => Iff.rfl)
        rfl rfl rfl rfl rfl rfl h.panicked ?_
      unfold CoreOk
      rw [hcpu]
      exact hcore
  | release p =>
    rw [hmode] at hs hcore
    dsimp only at hs hcore
    have hown := (hcore.1 (.proc p)).mpr rfl
    have hcpu : (s.setMode c (.push (p + 1))).cpu c = { s.cpu c with mode := .push (p + 1) } := Function.update_self _ _ _
    rw [release_ok (s := s.setMode c (.push (p + 1))) hown (by rw [hcpu]; exact hcore.2.2)
      (by rw [hcpu]; show (s.cpu c).noff ≠ 0; rw [hcore.2.1]; nofun)] at hs
    cases hs
    refine h.idle (fun q hq => nomatch hmode.symm.trans hq) (fun q hq => ?_) (fun c' hc => ?_)
      (owner_update (.inr hown) (.inl rfl)) rfl rfl rfl rfl rfl rfl h.panicked ?_
    · simp [State.orCrash, State.setMode, State.setCpu] at hq
    · simp [State.orCrash, State.setMode, State.setCpu, hc]
    · unfold CoreOk
      simp only [State.orCrash, State.setMode, State.setCpu, Function.update_self]
      refine ⟨fun L => ?_, by rw [hcore.2.1]⟩
      by_cases hL : L = .proc p
      · rw [hL, Function.update_self]
        nofun
      · rw [Function.update_of_ne hL]
        exact fun heq => hL ((hcore.1 L).mp heq)
  | proc p =>
    rw [hmode] at hs
    dsimp only at hs
    cases hk : s.rest p with
    | nil =>
      rw [hk] at hs
      cases hs
    | cons i k =>
      rw [hk] at hs
      exact h.instr hmode hk hs

/-! ### Interrupts and calls -/

omit [DecidableEq κ] in
/-- A process that holds nothing and is not about to do anything in particular -/
theorem Runs.bare {Γ : Ctx n Λ} (hr : Runs s c p Γ) (hintr : (s.cpu c).intr = true ∨ s.rest p = []) :
    Γ = .holding [] ∧ Plain (s.rest p) := by
  cases hk : s.rest p with
  | nil =>
    have := hr.ok
    rw [hk] at this
    cases this
    exact ⟨rfl, by rintro l ⟨⟩⟩
  | cons i k =>
    have hnoff := (hr.intr.mp (hintr.resolve_right fun h => nomatch hk.symm.trans h)).1
    have hlen := hr.noff.symm.trans hnoff
    have hheld : Γ.held = [] := List.length_eq_zero_iff.mp (by omega)
    obtain ⟨Γ', hafter, -, hside⟩ := (hk ▸ hr.ok).tail
    have hbare : Γ = .holding [] := by
      cases hafter with
      | push => exact congrArg Ctx.holding hheld
      | sret => rfl
      | take => simp at hlen
      | release hmem => exact absurd hmem (List.eq_nil_iff_forall_not_mem.mp hheld _)
      | _ => cases hheld
    refine ⟨hbare, fun l hl => ?_⟩
    have := hside.1 l hl
    rw [hheld] at this
    exact this.elim nofun nofun

omit [DecidableEq κ] in
/-- More for a process to do that holds nothing -/
theorem Inv.enter (h : Inv s) (hmode : (s.cpu c).mode = .proc p) (hr : Runs s c p (.holding []))
    (hcpu : ∀ c', c' ≠ c → s'.cpu c' = s.cpu c') (hmode' : (s'.cpu c).mode = .proc p) (hnoff : (s'.cpu c).noff = 0)
    (hintr : (s'.cpu c).intr = true ↔ .sret ∉ k) (howner : s'.owner = s.owner)
    (hrest : s'.rest = Function.update s.rest p k) (hstate : s'.state = s.state) (hchan : s'.chan = s.chan)
    (hlocked : s'.locked = s.locked) (hpid : s'.pid = s.pid) (hinside : s'.inside = s.inside)
    (hpanicked : s'.panicked = none) (hok : Ok p (.holding []) k) (hplain : Plain k) (hkeep : ∀ i, i ∈ s.rest p → i ∈ k)
    (hunlock : ∀ l, .unlock l ∈ k → p ∈ s.inside l) : Inv s' := by
  have hrun := hr.running rfl
  have hrest' : s'.rest p = k := by rw [hrest, Function.update_self]
  have hmono : ∀ q l, Due s q l → Due s' q l := fun q l hd => hd.mono (fun hl => hlocked ▸ hl) fun r hw => by
    rw [hrest]
    by_cases hrp : r = p
    · rw [hrp, Function.update_self]
      exact hkeep _ (hrp ▸ hw)
    · rwa [Function.update_of_ne hrp]
  refine h.of_step hmode hcpu hmode' (fun _ _ _ => by rw [howner]) (fun q hq => by rw [hrest, Function.update_of_ne hq])
    (fun q _ => ⟨by rw [hchan], .inl (by rw [hstate])⟩) (fun _ _ => by rw [hlocked]) ⟨.holding [], ?_⟩
    (fun q l _ _ => hmono q l) (fun hs => ?_) (fun l hl => absurd (hrest' ▸ hl) (hplain l)) (fun q l hl => ?_)
    (fun l => (h.inside l).same (by rw [hlocked]) (by rw [hpid]) (by rw [hinside])) hpanicked
  · refine ⟨hrest'.symm ▸ hok, fun L => by rw [howner]; exact hr.owner L, List.nodup_nil, hnoff, ?_,
      fun h0 => absurd hnoff h0, fun _ => by rw [hstate]; exact hrun, nofun, nofun⟩
    rw [hrest', hintr]
    exact (and_iff_right hnoff).symm
  · rw [hstate, hrun] at hs
    cases hs
  · rw [hinside]
    by_cases hq : q = p
    · rw [hq, hrest'] at hl
      exact hq ▸ hunlock l hl
    · rw [hrest, Function.update_of_ne hq] at hl
      exact h.unlocks q l hl

theorem Inv.timer (h : Inv s) (hs : exec s (.timer c) = some s') : Inv s' := by
  unfold exec at hs
  dsimp only at hs
  cases hmode : (s.cpu c).mode with
  | proc p =>
    rw [hmode] at hs
    dsimp only at hs
    by_cases hon : (s.cpu c).intr ∧ s.state p = .running
    swap
    · rw [if_neg hon] at hs
      cases hs
    rw [if_pos hon] at hs
    cases hs
    obtain ⟨Γ, hr⟩ := h.runs hmode
    obtain ⟨rfl, hplain⟩ := hr.bare (.inl hon.1)
    obtain ⟨hnoff, hsret⟩ := hr.intr.mp hon.1
    have hcpu : ((s.setRest p (yieldTrap p ++ s.rest p)).setCpu c
        { s.cpu c with intr := false, mode := .proc p }).cpu c = { s.cpu c with intr := false, mode := .proc p } :=
      Function.update_self _ _ _
    refine h.enter hmode hr (fun c' hc => Function.update_of_ne hc _ _) (by rw [hcpu]) (by rw [hcpu]; exact hnoff)
      ?_ rfl rfl rfl rfl rfl rfl rfl h.panicked (hr.ok.yieldTrap hplain hsret) (fun l hl => ?_)
      (fun i hi => List.mem_append_right _ hi) fun l hl => h.unlocks p l ?_
    · rw [hcpu]
      exact iff_of_false nofun fun hno => hno (List.mem_append_left _ (by simp [yieldTrap]))
    · exact (List.mem_append.mp hl).elim (by simp [yieldTrap, acquire]) (hplain l)
    · exact (List.mem_append.mp hl).resolve_left (by simp [yieldTrap, acquire])
  | loop | push _ | take _ | test _ | release _ =>
    rw [hmode] at hs
    cases hs

omit [DecidableEq κ] in
/-- What is in order from the start needs no more than that. -/
theorem Inv.program (h : Inv s) (hmode : (s.cpu c).mode = .proc p) (hk : s.rest p = []) (hok : Ok p (.holding []) k)
    (hplain : Plain k) (hsret : .sret ∉ k) (hunlock : ∀ l, .unlock l ∈ k → p ∈ s.inside l) : Inv (s.setRest p k) := by
  obtain ⟨Γ, hr⟩ := h.runs hmode
  obtain ⟨rfl, -⟩ := hr.bare (.inr hk)
  have hnoff : (s.cpu c).noff = 0 := hr.noff
  refine h.enter hmode hr (fun _ _ => rfl) hmode hnoff ?_ rfl rfl rfl rfl rfl rfl rfl h.panicked hok hplain
    (fun i hi => by rw [hk] at hi; cases hi) hunlock
  refine hr.intr.trans (iff_of_true ⟨hnoff, ?_⟩ hsret)
  rw [hk]
  exact List.not_mem_nil

theorem Inv.call {op : Call n Λ} (h : Inv s) (hs : exec s (.call c op) = some s') : Inv s' := by
  unfold exec at hs
  dsimp only at hs
  cases hmode : (s.cpu c).mode with
  | proc p =>
    rw [hmode] at hs
    dsimp only at hs
    by_cases hk : s.rest p = []
    swap
    · rw [if_neg hk] at hs
      cases hs
    rw [if_pos hk] at hs
    cases op with
    | acquiresleep l =>
      cases hs
      refine h.program hmode hk .acquiresleep (fun m hm => ?_) ?_ fun m hm => ?_
      · simp [acquiresleep, acquire] at hm
      · simp [acquiresleep, acquire]
      · simp [acquiresleep, acquire] at hm
    | releasesleep l =>
      dsimp only at hs
      by_cases hin : p ∈ s.inside l
      swap
      · rw [if_neg hin] at hs
        cases hs
      rw [if_pos hin] at hs
      cases hs
      have hmem : ∀ i, i ∈ releasesleep p l → i = .push (.sleep l) ∨ i = .take (.sleep l) ∨ i = .unlock l ∨
          i ∈ wakeup p l ∨ i = .release (.sleep l) := fun i hi => by
        simpa [releasesleep, acquire] using hi
      refine h.program hmode hk .releasesleep (fun m hm => ?_) (fun hm => ?_) fun m hm => ?_
      · simpa using (hmem _ hm).imp_right fun hm => hm.imp_right fun hm => hm.imp_right fun hm => hm.imp_left of_mem_wakeup
      · simpa using (hmem _ hm).imp_right fun hm => hm.imp_right fun hm => hm.imp_right fun hm => hm.imp_left of_mem_wakeup
      · have : m = l := by
          simpa using (hmem _ hm).imp_right fun hm => hm.imp_right fun hm => hm.imp_right fun hm => hm.imp_left of_mem_wakeup
        exact this ▸ hin
    | kill q =>
      cases hs
      refine h.program hmode hk (.kill q) (fun m hm => ?_) (fun hm => ?_) fun m hm => ?_
      · simpa using of_mem_kill hm
      · simpa using of_mem_kill hm
      · simpa using of_mem_kill hm
  | loop | push _ | take _ | test _ | release _ =>
    rw [hmode] at hs
    cases hs

omit [DecidableEq κ] in
theorem Inv.boot : Inv (boot κ n Λ) where
  core c := ⟨nofun, rfl⟩
  once c c' p hc := nomatch hc
  off p _ := by
    refine ⟨nofun, ⟨_, _, rfl⟩, .cons ⟨nofun, fun l hl => ?_, ?_⟩ .resume (.release (fun l hl => ?_) List.mem_cons_self ?_)⟩
    · simp at hl
    · simp
    · simp at hl
    · rw [List.erase_cons_head]
      exact .cons ⟨nofun, nofun⟩ .sret .nil
  asleep p hp := nomatch hp
  commit p l hl := by simp [Scheduler.boot] at hl
  unlocks p l hl := by simp [Scheduler.boot] at hl
  inside l := ⟨fun _ => rfl, nofun⟩
  panicked := rfl

theorem Inv.step {a : Act κ n Λ} (h : Inv s) (hs : Scheduler.step s a = some s') : Inv s' := by
  unfold Scheduler.step at hs
  rw [if_pos h.panicked] at hs
  cases a with
  | core c => exact h.core_step hs
  | timer c => exact h.timer hs
  | call c op => exact h.call hs

end Steps

/-! ## Runs of the system -/

section Theorems

variable {s : State κ n Λ}

theorem inv (h : (system κ n Λ).Reachable s) : Inv s :=
  System.invariant Inv (fun _ hs => hs ▸ Inv.boot) (fun _ _ _ hi _ hs => hi.step hs) h

/-- **None of the panics of `acquire`, `release`, `pop_off` and `sched` ever happens**, on any number of cores: a core
    that has a spin lock has its interrupts off, and a process that is done in the kernel has given all of them back
    and has its interrupts on. -/
theorem never_panics (h : (system κ n Λ).Reachable s) :
    s.panicked = none ∧ (∀ c L, s.owner L = some c → (s.cpu c).intr = false) ∧
      ∀ c p, (s.cpu c).mode = .proc p → s.rest p = [] →
        (s.cpu c).noff = 0 ∧ (s.cpu c).intr = true ∧ ∀ L, s.owner L ≠ some c := by
  have hinv := inv h
  refine ⟨hinv.panicked, fun c L hown => ?_, fun c p hmode hk => ?_⟩
  · have hcore := hinv.core c
    unfold CoreOk at hcore
    cases hmode : (s.cpu c).mode with
    | loop | push i | take p =>
      rw [hmode] at hcore
      exact absurd hown (hcore.1 L)
    | test p | release p =>
      rw [hmode] at hcore
      exact hcore.2.2
    | proc p =>
      rw [hmode] at hcore
      obtain ⟨Γ, hr⟩ := hcore
      have hlen := List.length_pos_of_mem ((hr.owner L).mp hown)
      have hnoff := hr.noff
      refine Bool.eq_false_of_not_eq_true fun hintr => ?_
      have := (hr.intr.mp hintr).1
      omega
  · obtain ⟨Γ, hr⟩ := hinv.runs hmode
    have hbare : Γ = .holding [] := by
      have := hr.ok
      rw [hk] at this
      cases this
      rfl
    cases hbare
    have hnoff : (s.cpu c).noff = 0 := hr.noff
    exact ⟨hnoff, hr.intr.mpr ⟨hnoff, by rw [hk]; exact List.not_mem_nil⟩, fun L hown => nomatch (hr.owner L).mp hown⟩

/-- A process takes the sleep lock on the core `c`, and another one sleeps on it on the core `d`. -/
def contention {κ : Type} (c d : κ) : List (Act κ 2 Unit) :=
  List.replicate 7 (.core c) ++ [.call c (.acquiresleep ())] ++ List.replicate 5 (.core c) ++
    (List.replicate 11 (.core d) ++ [.call d (.acquiresleep ())] ++ List.replicate 7 (.core d))

/-- A core has the lock of the process that has gone to sleep on it, and its interrupts off. -/
theorem never_panics_contention :
    ∃ s : State (Fin 2) 2 Unit, s.panicked = none ∧ s.owner (.proc 1) = some 1 ∧ (s.cpu 1).intr = false := by
  obtain ⟨s, hs, hown⟩ := System.exists_reachable_of_run (M := system (Fin 2) 2 Unit) (s := boot (Fin 2) 2 Unit)
    (p := fun s => s.owner (.proc 1) = some 1) rfl (show (System.run _ _ (contention 0 1)).any _ = true by decide +kernel)
  obtain ⟨hpanicked, hintr, -⟩ := never_panics hs
  exact ⟨s, hpanicked, of_decide_eq_true hown, hintr 1 _ (of_decide_eq_true hown)⟩

/-- **No wakeup is lost.** At most one process is inside of a sleep lock; and a process can sleep on one only while
    somebody is inside of it, or while a process that runs on a core has its spin lock and has this process still
    before it in its `wakeup`. -/
theorem no_lost_wakeup (h : (system κ n Λ).Reachable s) :
    (∀ l, (s.inside l).length ≤ 1 ∧ (s.locked l = true ↔ s.inside l ≠ []) ∧ ∀ p ∈ s.inside l, s.pid l = some p) ∧
      ∀ p, s.state p = .sleeping → ∃ l, s.chan p = some l ∧
        (s.inside l ≠ [] ∨
          ∃ q c, (s.cpu c).mode = .proc q ∧ s.owner (.sleep l) = some c ∧ .wake p l ∈ s.rest q) := by
  have hinv := inv h
  have hinside : ∀ l, (s.inside l).length ≤ 1 ∧ (s.locked l = true ↔ s.inside l ≠ []) ∧
      ∀ p ∈ s.inside l, s.pid l = some p := fun l => by
    cases hlocked : s.locked l with
    | false =>
      have hempty := (hinv.inside l).1 hlocked
      rw [hempty]
      exact ⟨Nat.zero_le _, iff_of_false nofun fun hne => hne rfl, nofun⟩
    | true =>
      obtain ⟨p, hp, hpid⟩ := (hinv.inside l).2 hlocked
      rw [hp]
      exact ⟨le_rfl, iff_of_true rfl nofun, fun q hq => (List.mem_singleton.mp hq).symm ▸ hpid⟩
  refine ⟨hinside, fun p hp => ?_⟩
  obtain ⟨l, hl, hd⟩ := hinv.asleep p hp
  refine ⟨l, hl, ?_⟩
  rcases hd with hlocked | ⟨q, hwake⟩
  · exact .inl ((hinside l).2.1.mp hlocked)
  · have hunlock : .unlock l ∈ s.rest q → s.inside l ≠ [] := fun hu => List.ne_nil_of_mem (hinv.unlocks q l hu)
    by_cases hon : ∃ c, (s.cpu c).mode = .proc q
    · obtain ⟨c, hmode⟩ := hon
      obtain ⟨Γ, hr⟩ := hinv.runs hmode
      exact (hr.ok.waker hwake).symm.imp hunlock fun hheld => ⟨q, c, hmode, (hr.owner _).mpr hheld, hwake⟩
    · obtain ⟨-, -, hok⟩ := hinv.off q fun c hc => hon ⟨c, hc⟩
      exact .inl (hunlock ((hok.waker hwake).resolve_left (by simp [Ctx.holding])))

/-- The process 1 sleeps while the process 0 is inside. -/
theorem no_lost_wakeup_contention :
    ∃ s : State (Fin 2) 2 Unit, s.state 1 = .sleeping ∧ ∃ l, s.chan 1 = some l ∧
      (s.inside l ≠ [] ∨
        ∃ q c, (s.cpu c).mode = .proc q ∧ s.owner (.sleep l) = some c ∧ .wake 1 l ∈ s.rest q) := by
  obtain ⟨s, hs, hsleep⟩ := System.exists_reachable_of_run (M := system (Fin 2) 2 Unit) (s := boot (Fin 2) 2 Unit)
    (p := fun s => s.state 1 = .sleeping) rfl (show (System.run _ _ (contention 0 1)).any _ = true by decide +kernel)
  exact ⟨s, of_decide_eq_true hsleep, (no_lost_wakeup hs).2 1 (of_decide_eq_true hsleep)⟩

omit [DecidableEq κ] [DecidableEq Λ] in
/-- The spin lock that a core waits for -/
def State.Spins (s : State κ n Λ) (c : κ) (L : Lock n Λ) : Prop :=
  match (s.cpu c).mode with
  | .take p => L = .proc p
  | .proc p => ∃ k, s.rest p = .take L :: k
  | .loop | .push _ | .test _ | .release _ => False

theorem spins_of_stuck {c : κ} (hstuck : s.core c = none) :
    (∃ p, (s.cpu c).mode = .proc p ∧ s.rest p = []) ∨ ∃ L c', s.Spins c L ∧ s.owner L = some c' := by
  unfold State.core at hstuck
  unfold State.Spins
  cases hmode : (s.cpu c).mode with
  | loop =>
    rw [hmode] at hstuck
    cases hstuck
  | push i =>
    rw [hmode] at hstuck
    dsimp only at hstuck
    split at hstuck <;> cases hstuck
  | take p =>
    rw [hmode] at hstuck
    dsimp only [State.acquireTake] at hstuck
    split at hstuck
    · cases hstuck
    · next hne =>
      obtain ⟨c', hc'⟩ := Option.ne_none_iff_exists'.mp hne
      exact .inr ⟨.proc p, c', rfl, hc'⟩
  | test p =>
    rw [hmode] at hstuck
    dsimp only at hstuck
    split at hstuck <;> cases hstuck
  | release p =>
    rw [hmode] at hstuck
    cases hstuck
  | proc p =>
    rw [hmode] at hstuck
    dsimp only at hstuck
    cases hk : s.rest p with
    | nil => exact .inl ⟨p, rfl, hk⟩
    | cons i k =>
      rw [hk] at hstuck
      dsimp only at hstuck
      cases i with
      | take L =>
        dsimp only [State.instr, State.acquireTake] at hstuck
        split at hstuck
        · cases hstuck
        · next hne =>
          obtain ⟨c', hc'⟩ := Option.ne_none_iff_exists'.mp hne
          exact .inr ⟨L, c', ⟨k, hk⟩, hc'⟩
      | sched =>
        dsimp only [State.instr] at hstuck
        split at hstuck
        · cases hstuck
        · split at hstuck
          · cases hstuck
          · split at hstuck
            · cases hstuck
            · split at hstuck <;> cases hstuck
      | _ => cases hstuck

omit [DecidableEq κ] in
/-- Who spins holds only locks of a lower rank. -/
theorem Inv.rank_lt {c : κ} {L M : Lock n Λ} (h : Inv s) (hspin : s.Spins c L) (hown : s.owner M = some c) :
    M.rank < L.rank := by
  have hcore := h.core c
  unfold CoreOk at hcore
  unfold State.Spins at hspin
  cases hmode : (s.cpu c).mode with
  | take p =>
    rw [hmode] at hcore
    exact absurd hown (hcore.1 M)
  | proc p =>
    rw [hmode] at hcore hspin
    obtain ⟨Γ, hr⟩ := hcore
    obtain ⟨k, hk⟩ := hspin
    obtain ⟨Γ', hafter, -, -⟩ := (hk ▸ hr.ok).tail
    cases hafter with
    | take hrank => exact hrank M ((hr.owner M).mp hown)
  | loop | push _ | test _ | release _ =>
    rw [hmode] at hspin
    exact hspin.elim

/-- Who holds a spin lock is not done. -/
theorem Inv.busy {c : κ} {L : Lock n Λ} (h : Inv s) (hown : s.owner L = some c) :
    (s.core c).isSome = true ∨ ∃ M c', s.Spins c M ∧ s.owner M = some c' := by
  cases hstep : s.core c with
  | some s' => exact .inl rfl
  | none =>
    refine .inr ((spins_of_stuck hstep).resolve_left fun ⟨p, hmode, hk⟩ => ?_)
    obtain ⟨Γ, hr⟩ := h.runs hmode
    obtain ⟨rfl, -⟩ := hr.bare (.inr hk)
    exact nomatch (hr.owner L).mp hown

/-- **Spinning ends.** A core that cannot take a step runs a process that is done in the kernel, or it waits for a
    spin lock of a core that can take a step or that in turn waits for one of a third core, which can. -/
theorem spinning_ends {c : κ} (h : (system κ n Λ).Reachable s) (hstuck : s.core c = none) :
    (∃ p, (s.cpu c).mode = .proc p ∧ s.rest p = []) ∨
      ∃ L c', s.Spins c L ∧ s.owner L = some c' ∧ ((s.core c').isSome = true ∨
        ∃ M c'', s.Spins c' M ∧ s.owner M = some c'' ∧ (s.core c'').isSome = true) := by
  have hinv := inv h
  have hrank : ∀ L : Lock n Λ, L.rank ≤ 1 := fun L => by cases L <;> simp [Lock.rank]
  refine (spins_of_stuck hstuck).imp_right fun ⟨L, c', hspin, hown⟩ => ⟨L, c', hspin, hown, ?_⟩
  refine (hinv.busy hown).imp_right fun ⟨M, c'', hspin', hown'⟩ => ⟨M, c'', hspin', hown', ?_⟩
  -- the third one would have to wait for a lock of a rank above that of a process's
  refine (hinv.busy hown').resolve_right fun ⟨N, c₃, hspin'', _⟩ => ?_
  have h₁ := hinv.rank_lt hspin' hown
  have h₂ := hinv.rank_lt hspin'' hown'
  have h₃ := hrank N
  omega

/-- The core 1 waits for the spin lock of the sleep lock, which the process 0 has on the core 0. -/
theorem spinning_ends_contention :
    ∃ s : State (Fin 2) 2 Unit, s.core 1 = none ∧ ((∃ p, (s.cpu 1).mode = .proc p ∧ s.rest p = []) ∨
      ∃ L c', s.Spins 1 L ∧ s.owner L = some c' ∧ ((s.core c').isSome = true ∨
        ∃ M c'', s.Spins c' M ∧ s.owner M = some c'' ∧ (s.core c'').isSome = true)) := by
  obtain ⟨s, hs, hstuck⟩ := System.exists_reachable_of_run (M := system (Fin 2) 2 Unit) (s := boot (Fin 2) 2 Unit)
    (p := fun s => (s.core 1).isNone) rfl
    (show (System.run _ _ (List.replicate 7 (.core 0) ++ [.call 0 (.acquiresleep ())] ++ List.replicate 2 (.core 0) ++
      (List.replicate 11 (.core 1) ++ [.call 1 (.acquiresleep ())] ++ [.core 1]))).any _ = true by decide +kernel)
  have hnone : s.core 1 = none := Option.isNone_iff_eq_none.mp hstuck
  exact ⟨s, hnone, spinning_ends hs hnone⟩

end Theorems

end Xv6.Kernel.Scheduler
