import Mathlib
import Xv6.Lib.TransitionSystem
import Xv6.Lib.Tally

/-!
# The Barrier

`barrier` and `thread` of `notxv6/barrier.c`, for any number of threads and in any order of their steps.
The mutex and the condition variable behave as POSIX says; a thread may return from
`pthread_cond_wait` without a broadcast.

- `Inv`: where each thread can be in the round that is on, and whom `bstate.nthread` counts;
- `Safe`: no thread is a call ahead, and each reads the round of its call;
- `barrier_on_time`: runs in which nobody leaves `pthread_cond_wait` before the round is complete are safe,
  and those without spurious returns are of this kind;
- `barrier_spurious`: `barrier` does not look at the round again, and other runs go wrong.
-/

namespace Xv6.Notxv6.Barrier

open Xv6.Lib

/-! ## Threads -/

/-- Where a thread is in its call number `i` of `barrier`, or before it -/
inductive Pc where
  /-- `int t = bstate.round` -/
  | start (i : ℕ)
  /-- `assert (i == t)` -/
  | loaded (i t : ℕ)
  /-- `pthread_mutex_lock` -/
  | calling (i : ℕ)
  /-- `++bstate.nthread == nthread` -/
  | locked (i : ℕ)
  /-- `bstate.nthread = 0` and `bstate.round++` -/
  | complete (i : ℕ)
  /-- `pthread_cond_broadcast` -/
  | announcing (i : ℕ)
  /-- `pthread_cond_wait`, which gives the mutex back -/
  | enterWait (i : ℕ)
  /-- blocked on the condition variable -/
  | waiting (i : ℕ)
  /-- not blocked any more; `pthread_cond_wait` takes the mutex again -/
  | woken (i : ℕ)
  /-- `pthread_mutex_unlock` -/
  | leaving (i : ℕ)
  deriving DecidableEq

namespace Pc

/-- The calls that the thread has returned from -/
def returned : Pc → ℕ
  | start i | loaded i _ | calling i | locked i | complete i | announcing i | enterWait i | waiting i | woken i
  | leaving i => i

/-- The calls that the thread has made -/
def made : Pc → ℕ
  | start i | loaded i _ => i
  | calling i | locked i | complete i | announcing i | enterWait i | waiting i | woken i | leaving i => i + 1

/-- The thread has the mutex. -/
def Locks : Pc → Prop
  | locked _ | complete _ | announcing _ | enterWait _ | leaving _ => True
  | start _ | loaded _ _ | calling _ | waiting _ | woken _ => False

/-- What a broadcast does to a thread -/
def wake : Pc → Pc
  | waiting i => woken i
  | pc => pc

end Pc

/-- `bstate`, and the threads, of which there are `N`: the variable `nthread` -/
structure State (N : ℕ) where
  mutex : Option (Fin N)
  nthread : ℕ
  round : ℕ
  pc : Fin N → Pc

/-- What happens next: a thread goes on, or is unblocked without a broadcast -/
inductive Action (N : ℕ) where
  | run (t : Fin N)
  | spurious (t : Fin N)

/-- The number of calls that each thread makes -/
def CALLS : ℕ := 20000

variable {N : ℕ}

def State.goto (s : State N) (t : Fin N) (pc : Pc) : State N :=
  { s with pc := Function.update s.pc t pc }

/-- One step of a thread -/
def run (s : State N) (t : Fin N) : Option (State N) :=
  match s.pc t with
  | .start i => if i < CALLS then some (s.goto t (.loaded i s.round)) else none
  | .loaded i r => if i = r then some (s.goto t (.calling i)) else none
  | .calling i => if s.mutex = none then some { s.goto t (.locked i) with mutex := some t } else none
  | .locked i =>
    if s.nthread + 1 = N then some { s.goto t (.complete i) with nthread := s.nthread + 1 }
    else some { s.goto t (.enterWait i) with nthread := s.nthread + 1 }
  | .complete i => some { s.goto t (.announcing i) with nthread := 0, round := s.round + 1 }
  | .announcing i => some { s with pc := Function.update (fun u => (s.pc u).wake) t (.leaving i) }
  | .enterWait i => some { s.goto t (.waiting i) with mutex := none }
  | .waiting _ => none
  | .woken i => if s.mutex = none then some { s.goto t (.leaving i) with mutex := some t } else none
  | .leaving i => some { s.goto t (.start (i + 1)) with mutex := none }

def step (s : State N) : Action N → Option (State N)
  | .run t => run s t
  | .spurious t =>
    match s.pc t with
    | .waiting i => some (s.goto t (.woken i))
    | _ => none

variable (N) in
/-- `N` threads, after `barrier_init` -/
def barrier : System (State N) (Action N) where
  init s := s = ⟨none, 0, 0, fun _ => .start 0⟩
  step := step

/-- **No thread is a call ahead of another one, and each reads the round of its call.** -/
structure Safe (s : State N) : Prop where
  together : ∀ t u, (s.pc t).returned ≤ (s.pc u).made
  seen : ∀ t i r, s.pc t = .loaded i r → r = i

/-- A thread goes on from `pthread_cond_wait` only when its round is complete. -/
def OnTime (s : State N) : Action N → Prop
  | .run t => ∀ i, s.pc t = .woken i → i < s.round
  | .spurious _ => True

/-- No thread is unblocked without a broadcast. -/
def NotSpurious (_ : State N) : Action N → Prop
  | .run _ => True
  | .spurious _ => False

/-! ## The invariant -/

/-- In round `r` the thread has been counted. -/
def arrived (r : ℕ) : Pc → ℕ
  | .enterWait i | .waiting i | .woken i | .complete i => if i = r then 1 else 0
  | .start _ | .loaded _ _ | .calling _ | .locked _ | .announcing _ | .leaving _ => 0

/-- Where a thread can be in round `r`: in this one, or on its way out of the one before -/
def At (r : ℕ) : Pc → Prop
  | .start i | .calling i | .locked i | .complete i | .enterWait i => i = r
  | .loaded i t => i = r ∧ t = i
  | .waiting i | .woken i => i = r ∨ i + 1 = r
  | .announcing i | .leaving i => i + 1 = r

/-- **What holds in each round** -/
structure Inv (s : State N) : Prop where
  mutex : ∀ t, s.mutex = some t ↔ (s.pc t).Locks
  count : s.nthread = tally (arrived s.round) s.pc
  at_ : ∀ t, At s.round (s.pc t)
  full : ∀ t i, s.pc t = .complete i → s.nthread = N

section Steps

variable {s s' : State N} {t u : Fin N} {i : ℕ}

theorem inv_init (hs : (barrier N).init s) : Inv s := by
  cases hs
  refine ⟨fun t => ⟨nofun, False.elim⟩, ?_, fun t => rfl, nofun⟩
  exact (tally_eq_zero_iff.mpr fun t => rfl).symm

/-- At most one thread has the mutex. -/
theorem Inv.unique (h : Inv s) (ht : (s.pc t).Locks) (hu : (s.pc u).Locks) : u = t :=
  Option.some.inj (((h.mutex u).mpr hu).symm.trans ((h.mutex t).mpr ht))

/-- A thread goes on within the round. -/
theorem Inv.goto (h : Inv s) {p : Pc} {mutex' : Option (Fin N)} {n : ℕ} (hself : mutex' = some t ↔ p.Locks)
    (hother : ∀ u, u ≠ t → (mutex' = some u ↔ s.mutex = some u)) (hat : At s.round p)
    (hcount : n + arrived s.round (s.pc t) = s.nthread + arrived s.round p) (hfull : ∀ i, p = .complete i → n = N)
    (hn : n = s.nthread ∨ (s.pc t).Locks) : Inv ⟨mutex', n, s.round, Function.update s.pc t p⟩ := by
  refine ⟨(Function.forall_update_iff s.pc fun u pc => mutex' = some u ↔ pc.Locks).mpr
      ⟨hself, fun u hne => (hother u hne).trans (h.mutex u)⟩, ?_,
    (Function.forall_update_iff s.pc fun _ pc => At s.round pc).mpr ⟨hat, fun u _ => h.at_ u⟩,
    (Function.forall_update_iff s.pc fun _ pc => ∀ i, pc = .complete i → n = N).mpr ⟨hfull, fun u hne i hu => ?_⟩⟩
  · have htally := tally_update (arrived s.round) s.pc t p
    have := h.count
    dsimp only
    omega
  · -- a thread that has the mutex is not counted by another one
    have hlocks : (s.pc u).Locks := by
      rw [hu]
      exact trivial
    rcases hn with rfl | ht
    · exact h.full u i hu
    · exact absurd (h.unique ht hlocks) hne

/-- A thread goes on and keeps the mutex, or goes on without it. -/
theorem Inv.stay (h : Inv s) {p : Pc} {n : ℕ} (hlocks : p.Locks ↔ (s.pc t).Locks) (hat : At s.round p)
    (hcount : n + arrived s.round (s.pc t) = s.nthread + arrived s.round p) (hfull : ∀ i, p = .complete i → n = N)
    (hn : n = s.nthread ∨ (s.pc t).Locks) : Inv ⟨s.mutex, n, s.round, Function.update s.pc t p⟩ :=
  h.goto ((h.mutex t).trans hlocks.symm) (fun _ _ => Iff.rfl) hat hcount hfull hn

/-- A thread takes the mutex. -/
theorem Inv.take (h : Inv s) {p : Pc} (hfree : s.mutex = none) (hlocks : p.Locks) (hat : At s.round p)
    (hcount : arrived s.round (s.pc t) = arrived s.round p) (hfull : ∀ i, p ≠ .complete i) :
    Inv ⟨some t, s.nthread, s.round, Function.update s.pc t p⟩ := by
  refine h.goto (iff_of_true rfl hlocks) (fun u hu => ?_) hat (by rw [hcount]) (fun i hi => absurd hi (hfull i))
    (.inl rfl)
  rw [hfree]
  exact iff_of_false (fun he => hu (Option.some.inj he).symm) nofun

/-- A thread gives the mutex back. -/
theorem Inv.give (h : Inv s) {p : Pc} (ht : (s.pc t).Locks) (hlocks : ¬ p.Locks) (hat : At s.round p)
    (hcount : arrived s.round (s.pc t) = arrived s.round p) :
    Inv ⟨none, s.nthread, s.round, Function.update s.pc t p⟩ := by
  refine h.goto (iff_of_false nofun hlocks) (fun u hu => iff_of_false nofun fun he => ?_) hat (by rw [hcount])
    (fun i hi => absurd (hi ▸ trivial) hlocks) (.inl rfl)
  exact hu (h.unique ht ((h.mutex u).mp he))

/-- **Where the last thread has arrived, all others are in `pthread_cond_wait`.** -/
theorem Inv.all_arrived (h : Inv s) (ht : s.pc t = .complete i) (hu : u ≠ t) :
    s.pc u = .waiting s.round ∨ s.pc u = .woken s.round := by
  have hle : ∀ v, arrived s.round (s.pc v) ≤ 1 := by
    intro v
    unfold arrived
    split <;> first | exact Nat.zero_le 1 | split <;> decide
  have hall : arrived s.round (s.pc u) = 1 := by
    have hcard : tally (arrived s.round) s.pc = Fintype.card (Fin N) := by
      rw [← h.count, h.full t i ht, Fintype.card_fin]
    refine le_antisymm (hle u) (Nat.pos_of_ne_zero fun hzero => ?_)
    have hlt : tally (arrived s.round) s.pc < ∑ _ : Fin N, 1 :=
      Finset.sum_lt_sum (fun v _ => hle v) ⟨u, Finset.mem_univ u, by omega⟩
    rw [hcard] at hlt
    simp at hlt
  have hnot : ¬ (s.pc u).Locks := fun hlocks => hu (h.unique (by rw [ht]; trivial) hlocks)
  cases hpc : s.pc u with
  | waiting j =>
    have hj : j = s.round := by simpa [hpc, arrived] using hall
    exact .inl (by rw [hj])
  | woken j =>
    have hj : j = s.round := by simpa [hpc, arrived] using hall
    exact .inr (by rw [hj])
  | enterWait j => exact absurd (hpc ▸ trivial) hnot
  | complete j => exact absurd (hpc ▸ trivial) hnot
  | start j | loaded j r | calling j | locked j | announcing j | leaving j =>
    rw [hpc] at hall
    exact absurd hall Nat.zero_ne_one

/-- The last thread begins the next round, in which nobody has been counted. -/
theorem Inv.finish (h : Inv s) (ht : s.pc t = .complete i) :
    Inv ⟨s.mutex, 0, s.round + 1, Function.update s.pc t (.announcing i)⟩ := by
  have hi : i = s.round := by
    have hat := h.at_ t
    rwa [ht] at hat
  have hlocks : s.mutex = some t := by
    rw [h.mutex t, ht]
    exact trivial
  refine ⟨(Function.forall_update_iff s.pc fun u pc => s.mutex = some u ↔ pc.Locks).mpr
      ⟨iff_of_true hlocks trivial, fun u _ => h.mutex u⟩, ?_,
    (Function.forall_update_iff s.pc fun _ pc => At (s.round + 1) pc).mpr ⟨congrArg (· + 1) hi, fun u hu => ?_⟩,
    (Function.forall_update_iff s.pc fun _ pc => ∀ i, pc = .complete i → 0 = N).mpr ⟨nofun, fun u hu i hpc => ?_⟩⟩
  · refine (tally_eq_zero_iff.mpr ((Function.forall_update_iff s.pc fun _ pc => arrived (s.round + 1) pc = 0).mpr
      ⟨rfl, fun u hu => ?_⟩)).symm
    rcases h.all_arrived ht hu with hpc | hpc
    · rw [hpc]
      exact if_neg (Nat.succ_ne_self _).symm
    · rw [hpc]
      exact if_neg (Nat.succ_ne_self _).symm
  · rcases h.all_arrived ht hu with hpc | hpc
    · rw [hpc]
      exact .inr rfl
    · rw [hpc]
      exact .inr rfl
  · rcases h.all_arrived ht hu with hpc' | hpc'
    · nomatch hpc.symm.trans hpc'
    · nomatch hpc.symm.trans hpc'

/-- Being unblocked changes nothing for the round. -/
theorem Inv.wake (h : Inv s) : Inv { s with pc := fun u => (s.pc u).wake } := by
  have hlocks : ∀ pc : Pc, pc.wake.Locks ↔ pc.Locks := by rintro (_ | _) <;> exact Iff.rfl
  have harrived : ∀ pc : Pc, arrived s.round pc.wake = arrived s.round pc := by rintro (_ | _) <;> rfl
  have hat : ∀ pc : Pc, At s.round pc → At s.round pc.wake := by rintro (_ | _) <;> exact id
  have hcomplete : ∀ (pc : Pc) i, pc.wake = .complete i → pc = .complete i := by
    rintro (_ | _) i <;> first | exact id | nofun
  exact ⟨fun u => (h.mutex u).trans (hlocks _).symm,
    h.count.trans (Finset.sum_congr rfl fun u _ => (harrived (s.pc u)).symm),
    fun u => hat _ (h.at_ u), fun u i hu => h.full u i (hcomplete _ i hu)⟩

theorem Inv.run (h : Inv s) (hon : OnTime s (.run t)) (hs : run s t = some s') : Inv s' := by
  have hat := h.at_ t
  unfold Barrier.run at hs
  cases hpc : s.pc t with
  | start i =>
    simp only [hpc] at hs hat
    split at hs <;> cases hs
    exact h.stay (by rw [hpc]; exact Iff.rfl) ⟨hat, hat.symm⟩ (by rw [hpc]; rfl) nofun (.inl rfl)
  | loaded i r =>
    simp only [hpc] at hs hat
    split at hs <;> cases hs
    exact h.stay (by rw [hpc]; exact Iff.rfl) hat.1 (by rw [hpc]; rfl) nofun (.inl rfl)
  | calling i =>
    simp only [hpc] at hs hat
    split at hs <;> cases hs
    next hfree =>
    exact h.take hfree trivial hat (by rw [hpc]; rfl) nofun
  | locked i =>
    simp only [hpc] at hs hat
    have hcount : ∀ p, arrived s.round p = 1 →
        s.nthread + 1 + arrived s.round (s.pc t) = s.nthread + arrived s.round p := by
      intro p hp
      rw [hp, hpc]
      rfl
    split at hs <;> cases hs
    · next hlast =>
      exact h.stay (by rw [hpc]; exact Iff.rfl) hat (hcount _ (if_pos hat)) (fun _ _ => hlast) (.inr (hpc ▸ trivial))
    · exact h.stay (by rw [hpc]; exact Iff.rfl) hat (hcount _ (if_pos hat)) nofun (.inr (hpc ▸ trivial))
  | complete i =>
    simp only [hpc] at hs
    cases hs
    exact h.finish hpc
  | announcing i =>
    simp only [hpc] at hs hat
    cases hs
    refine h.wake.stay (t := t) (n := s.nthread) ?_ hat ?_ nofun (.inl rfl)
    · simp only [hpc]
      exact Iff.rfl
    · simp only [hpc]
      rfl
  | enterWait i =>
    simp only [hpc] at hs hat
    cases hs
    exact h.give (hpc ▸ trivial) id (.inl hat) (by rw [hpc]; rfl)
  | waiting i =>
    simp only [hpc] at hs
    nomatch hs
  | woken i =>
    simp only [hpc] at hs hat
    split at hs <;> cases hs
    next hfree =>
    -- the thread leaves the round before, as this one is not complete
    have hlt := hon i hpc
    have hi : i + 1 = s.round := hat.resolve_left hlt.ne
    exact h.take hfree trivial hi (by rw [hpc]; exact if_neg hlt.ne) nofun
  | leaving i =>
    simp only [hpc] at hs hat
    cases hs
    exact h.give (hpc ▸ trivial) id hat (by rw [hpc]; rfl)

theorem Inv.step {a : Action N} (h : Inv s) (hon : OnTime s a) (hs : step s a = some s') : Inv s' := by
  cases a with
  | run t => exact h.run hon hs
  | spurious t =>
    have hat := h.at_ t
    unfold Barrier.step at hs
    dsimp only at hs
    split at hs <;> cases hs
    next i hpc =>
    rw [hpc] at hat
    exact h.stay (by rw [hpc]; exact Iff.rfl) hat (by rw [hpc]; rfl) nofun (.inl rfl)

/-- In the invariant no thread is a call ahead. -/
theorem Inv.safe (h : Inv s) : Safe s := by
  have hreturned : ∀ u, (s.pc u).returned ≤ s.round := by
    intro u
    have hat := h.at_ u
    cases hpc : s.pc u <;> simp only [hpc, At] at hat <;> simp only [Pc.returned] <;> omega
  have hmade : ∀ u, s.round ≤ (s.pc u).made := by
    intro u
    have hat := h.at_ u
    cases hpc : s.pc u <;> simp only [hpc, At] at hat <;> simp only [Pc.made] <;> omega
  refine ⟨fun t u => (hreturned t).trans (hmade u), fun t i r hpc => ?_⟩
  have hat := h.at_ t
  rw [hpc] at hat
  exact hat.2

/-! ### Without spurious returns -/

/-- A broadcast comes before the next round has counted anybody, so that all whom it unblocks are of the round
    before. -/
structure Prompt (s : State N) : Prop where
  announcing : ∀ t i, s.pc t = .announcing i → s.nthread = 0
  woken : ∀ t i, s.pc t = .woken i → i + 1 = s.round

theorem prompt_init (hs : (barrier N).init s) : Prompt s := by
  cases hs
  exact ⟨nofun, nofun⟩

theorem Prompt.goto (hp : Prompt s) (h : Inv s) {p : Pc} {mutex' : Option (Fin N)} {n : ℕ}
    (hannouncing : ∀ i, p ≠ .announcing i) (hwoken : ∀ i, p ≠ .woken i) (hn : n = s.nthread ∨ (s.pc t).Locks) :
    Prompt ⟨mutex', n, s.round, Function.update s.pc t p⟩ := by
  refine ⟨(Function.forall_update_iff s.pc fun _ pc => ∀ i, pc = .announcing i → n = 0).mpr
      ⟨fun i hi => absurd hi (hannouncing i), fun u hne i hu => ?_⟩,
    (Function.forall_update_iff s.pc fun _ pc => ∀ i, pc = .woken i → i + 1 = s.round).mpr
      ⟨fun i hi => absurd hi (hwoken i), fun u _ => hp.woken u⟩⟩
  rcases hn with rfl | ht
  · exact hp.announcing u i hu
  · exact absurd (h.unique ht (hu ▸ trivial)) hne

/-- Nobody is left from the round before when the last thread arrives. -/
theorem Prompt.finish (hp : Prompt s) (h : Inv s) (ht : s.pc t = .complete i) :
    Prompt ⟨s.mutex, 0, s.round + 1, Function.update s.pc t (.announcing i)⟩ := by
  refine ⟨fun _ _ _ => rfl, (Function.forall_update_iff s.pc fun _ pc => ∀ i, pc = .woken i → i + 1 = s.round + 1).mpr
    ⟨nofun, fun u hu j hj => ?_⟩⟩
  rcases h.all_arrived ht hu with hpc | hpc
  · nomatch hj.symm.trans hpc
  · exact absurd (hp.woken u _ hpc) (Nat.succ_ne_self _)

theorem Prompt.wake (hp : Prompt s) (h : Inv s) (ht : s.pc t = .announcing i) :
    Prompt { s with pc := fun u => (s.pc u).wake } := by
  have hzero : s.nthread = 0 := hp.announcing t i ht
  refine ⟨fun _ _ _ => hzero, fun u j hj => ?_⟩
  have hat := h.at_ u
  cases hpc : s.pc u with
  | waiting k =>
    simp only [hpc, Pc.wake] at hj hat
    cases hj
    -- nobody has been counted yet
    refine hat.resolve_left fun hround => ?_
    have hle := le_tally (arrived s.round) s.pc u
    rw [← h.count, hzero, hpc] at hle
    exact absurd ((if_pos hround).symm.trans (Nat.le_zero.mp hle)) Nat.one_ne_zero
  | woken k =>
    simp only [hpc, Pc.wake] at hj
    cases hj
    exact hp.woken u _ hpc
  | start _ | loaded _ _ | calling _ | locked _ | complete _ | announcing _ | enterWait _ | leaving _ =>
    simp only [hpc, Pc.wake] at hj
    nomatch hj

theorem Prompt.run (hp : Prompt s) (h : Inv s) (hs : Barrier.run s t = some s') : Prompt s' := by
  unfold Barrier.run at hs
  cases hpc : s.pc t with
  | start i | loaded i r | calling i | woken i =>
    simp only [hpc] at hs
    split at hs <;> cases hs
    exact hp.goto h nofun nofun (.inl rfl)
  | locked i =>
    simp only [hpc] at hs
    split at hs <;> cases hs <;> exact hp.goto h nofun nofun (.inr (hpc ▸ trivial))
  | complete i =>
    simp only [hpc] at hs
    cases hs
    exact hp.finish h hpc
  | announcing i =>
    simp only [hpc] at hs
    cases hs
    exact (hp.wake h hpc).goto h.wake nofun nofun (.inl rfl)
  | enterWait i | leaving i =>
    simp only [hpc] at hs
    cases hs
    exact hp.goto h nofun nofun (.inl rfl)
  | waiting i =>
    simp only [hpc] at hs
    nomatch hs

/-- Whoever a broadcast has unblocked is on time. -/
theorem Prompt.onTime {a : Action N} (hp : Prompt s) (ha : NotSpurious s a) : OnTime s a := by
  cases a with
  | run t =>
    intro i hi
    have := hp.woken t i hi
    omega
  | spurious t => nomatch ha

end Steps

/-! ## Runs -/

/-- **The barrier holds the threads together** in every run in which nobody goes on from `pthread_cond_wait` before
    the round is complete; and this is the case if there are no spurious returns. -/
theorem barrier_on_time (s : State N) :
    ((barrier N).ReachableUnder OnTime s → Safe s) ∧
      ((barrier N).ReachableUnder NotSpurious s → (barrier N).ReachableUnder OnTime s) := by
  have hinv : ∀ {s : State N}, (barrier N).ReachableUnder OnTime s → Inv s := fun h =>
    System.invariant Inv (fun s => inv_init) (fun s a s' h hon hs => h.step hon hs) h
  refine ⟨fun h => (hinv h).safe, fun h => ?_⟩
  suffices hboth : (barrier N).ReachableUnder OnTime s ∧ Prompt s from hboth.1
  induction h with
  | init hs => exact ⟨.init hs, prompt_init hs⟩
  | @step s a s' _ ha hs ih =>
    obtain ⟨hreach, hp⟩ := ih
    refine ⟨.step hreach (hp.onTime ha) hs, ?_⟩
    cases a with
    | run t => exact hp.run (hinv hreach) hs
    | spurious t => nomatch ha

/-- The steps of a thread on its way into `pthread_cond_wait` -/
def waits (t : Fin N) : List (Action N) := List.replicate 5 (.run t)

/-- The state after `barrier_init` -/
def boot (N : ℕ) : State N := ⟨none, 0, 0, fun _ => .start 0⟩

/-- `OnTime` as a test -/
def onTime (s : State N) : Action N → Bool
  | .run t =>
    match s.pc t with
    | .woken i => i < s.round
    | _ => true
  | .spurious _ => true

theorem onTime_of_test (s : State N) (a : Action N) (h : onTime s a = true) : OnTime s a := by
  cases a with
  | run t =>
    intro i hi
    simp only [onTime, hi] at h
    exact of_decide_eq_true h
  | spurious t => trivial

/-- One of two threads has been through a round with the other, and reads the next one. -/
theorem barrier_on_time_two : ∃ s : State 2, s.pc 0 = .loaded 1 1 ∧ Safe s := by
  have hrun : ((barrier 2).runUnder onTime (boot 2)
      (waits 0 ++ List.replicate 7 (.run 1) ++ List.replicate 3 (.run 0))).any
        (fun s => decide (s.pc 0 = .loaded 1 1)) = true := by decide +kernel
  obtain ⟨s, hs, hpc⟩ := System.exists_reachableUnder_of_runUnder onTime_of_test rfl hrun
  exact ⟨s, of_decide_eq_true hpc, (barrier_on_time s).1 hs⟩

/-- **After a spurious return a thread is through before the other one has called**, and reads a round that is
    not that of its next call. -/
theorem barrier_spurious : ∃ s, (barrier 2).Reachable s ∧ ¬ (s.pc 0).returned ≤ (s.pc 1).made ∧
    s.pc 0 = .loaded 1 0 := by
  have hrun : ((barrier 2).run (boot 2) (waits 0 ++ [.spurious 0] ++ List.replicate 3 (.run 0))).any
      (fun s => decide (¬ (s.pc 0).returned ≤ (s.pc 1).made ∧ s.pc 0 = .loaded 1 0)) = true := by decide +kernel
  obtain ⟨s, hs, hpc⟩ := System.exists_reachable_of_run rfl hrun
  exact ⟨s, hs, of_decide_eq_true hpc⟩

end Xv6.Notxv6.Barrier
