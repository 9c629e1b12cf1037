import Mathlib
import Xv6.Lib.TransitionSystem

/-!
# The Ticket Lock of User Threads

`lock_acquire` and `lock_release` of `user/ulib.c` at the level of single loads, stores and atomic
additions, for any threads. The counters have 32 bits and wrap around.

- `Fifo`: what the lock is for: one thread holds it, and the others wait in a queue;
- `Represents`: the counters and the tickets stand for such a queue, modulo 2 ^ 32;
- `Represents.poll`: the ticket at the front is the only one that meets its turn;
- `fifo_mutual_exclusion`: in all runs in which fewer than 2 ^ 32 threads wait at once.
-/

namespace Xv6.User.TicketLock

open Xv6.Lib

/-! ## The lock -/

/-- Where a thread is -/
inductive Pc where
  /-- neither in nor before the lock -/
  | outside
  /-- the loop of `lock_acquire` -/
  | spinning (myturn : BitVec 32)
  /-- between `lock_acquire` and `lock_release` -/
  | inside
  /-- `lock_release` has loaded `turn`. -/
  | releasing (turn : BitVec 32)
  deriving DecidableEq

/-- The thread is between its `lock_acquire` and the end of its `lock_release`. -/
def Pc.Holds : Pc → Prop
  | .outside => False
  | .spinning _ => False
  | .inside => True
  | .releasing _ => True

/-- `lock_t`, the threads, and two logs: who has added to `ticket`, and who has entered -/
structure State (τ : Type*) where
  ticket : BitVec 32
  turn : BitVec 32
  pc : τ → Pc
  drawn : List τ
  entered : List τ

/-- One access to the lock -/
inductive Action (τ : Type*) where
  /-- `fetch_and_add(&lock->ticket, 1)` -/
  | draw (t : τ)
  /-- `fetch_and_add(&lock->turn, 0)`, and the comparison -/
  | poll (t : τ)
  /-- the load of `lock->turn` in `lock_release` -/
  | load (t : τ)
  /-- the store of `lock->turn` in `lock_release` -/
  | store (t : τ)

variable {τ : Type*} [DecidableEq τ]

def State.goto (s : State τ) (t : τ) (pc : Pc) : State τ := { s with pc := Function.update s.pc t pc }

/-- One step of a thread. Only a thread that holds the lock calls `lock_release`. -/
def step (s : State τ) : Action τ → Option (State τ)
  | .draw t =>
    match s.pc t with
    | .outside => some { s.goto t (.spinning s.ticket) with ticket := s.ticket + 1, drawn := s.drawn ++ [t] }
    | _ => none
  | .poll t =>
    match s.pc t with
    | .spinning myturn =>
      if s.turn = myturn then some { s.goto t .inside with entered := s.entered ++ [t] } else some s
    | _ => none
  | .load t =>
    match s.pc t with
    | .inside => some (s.goto t (.releasing s.turn))
    | _ => none
  | .store t =>
    match s.pc t with
    | .releasing turn => some { s.goto t .outside with turn := turn + 1 }
    | _ => none

variable (τ) in
/-- Any threads with one lock, from `lock_init` on -/
def lock : System (State τ) (Action τ) where
  init s := s = ⟨0, 0, fun _ => .outside, [], []⟩
  step := step

/-- The threads in the loop of `lock_acquire` -/
def State.waiting (s : State τ) : Set τ := {t | ∃ myturn, s.pc t = .spinning myturn}

/-- Fewer than 2 ^ 32 threads wait at once. -/
def Few (s : State τ) : Prop := s.waiting.encard < 2 ^ 32

/-! ## What the lock is for -/

/-- One thread holds the lock, and the others wait in a queue. -/
structure Fifo (τ : Type*) where
  holder : Option τ
  queue : List τ

/-- **The lock stands for a queue**: the threads in it have the tickets that follow on the last one that has
    entered, and `turn` is the ticket of the holder, or of the next thread to enter. -/
structure Represents (s : State τ) (f : Fifo τ) : Prop where
  drawn : s.drawn = s.entered ++ f.queue
  ticket : s.ticket = BitVec.ofNat 32 s.drawn.length
  turn : s.turn + BitVec.ofNat 32 f.holder.toList.length = BitVec.ofNat 32 s.entered.length
  holds : ∀ t, (s.pc t).Holds ↔ f.holder = some t
  loaded : ∀ t v, s.pc t = .releasing v → v = s.turn
  nodup : f.queue.Nodup
  queue : ∀ t myturn, s.pc t = .spinning myturn ↔
    ∃ j, f.queue[j]? = some t ∧ myturn = BitVec.ofNat 32 (s.entered.length + j)

section Steps

variable {s s' : State τ} {f : Fifo τ} {t : τ} {myturn v : BitVec 32}

theorem represents_init (hs : (lock τ).init s) : Represents s ⟨none, []⟩ := by
  cases hs
  exact ⟨rfl, rfl, rfl, fun t => ⟨False.elim, nofun⟩, nofun, List.nodup_nil,
    fun t myturn => ⟨nofun, fun ⟨j, hj, _⟩ => nomatch hj⟩⟩

omit [DecidableEq τ] in
/-- The threads that wait are those in the queue. -/
theorem Represents.mem_queue (h : Represents s f) : t ∈ f.queue ↔ t ∈ s.waiting := by
  rw [List.mem_iff_getElem?]
  constructor
  · rintro ⟨j, hj⟩
    exact ⟨_, (h.queue t _).mpr ⟨j, hj, rfl⟩⟩
  · rintro ⟨myturn, hpc⟩
    obtain ⟨j, hj, -⟩ := (h.queue t myturn).mp hpc
    exact ⟨j, hj⟩

theorem Represents.length_queue (h : Represents s f) (hfew : Few s) : f.queue.length < 2 ^ 32 := by
  have hset : s.waiting = ↑f.queue.toFinset := by
    ext t
    rw [List.coe_toFinset, Set.mem_ofPred_eq, h.mem_queue]
  unfold Few at hfew
  rw [hset, Set.encard_coe_eq_coe_finsetCard, List.toFinset_card_of_nodup h.nodup] at hfew
  exact_mod_cast hfew

/-- The thread `t` goes on to `p`, and the others stay where they are. -/
structure Moves (s s' : State τ) (t : τ) (p : Pc) : Prop where
  self : s'.pc t = p
  other : ∀ u, u ≠ t → s'.pc u = s.pc u

theorem moves_goto (p : Pc) : Moves s (s.goto t p) t p :=
  ⟨Function.update_self _ _ _, fun _ hu => Function.update_of_ne hu _ _⟩

omit [DecidableEq τ] in
/-- What holds of the thread that moves and of all others holds of every thread. -/
theorem Moves.forall {p : Pc} {C : τ → Pc → Prop} (h : Moves s s' t p) (hself : C t p)
    (hother : ∀ u, u ≠ t → C u (s.pc u)) (u : τ) : C u (s'.pc u) := by
  rcases eq_or_ne u t with rfl | hu
  · rw [h.self]
    exact hself
  · rw [h.other u hu]
    exact hother u hu

/-! ### What a step does -/

theorem step_draw (hs : step s (.draw t) = some s') :
    s.pc t = .outside ∧ Moves s s' t (.spinning s.ticket) ∧ s'.ticket = s.ticket + 1 ∧ s'.turn = s.turn ∧
      s'.drawn = s.drawn ++ [t] ∧ s'.entered = s.entered := by
  simp only [step] at hs
  split at hs
  · next hpc =>
    cases hs
    have hmoves := moves_goto (s := s) (t := t) (.spinning s.ticket)
    exact ⟨hpc, ⟨hmoves.self, hmoves.other⟩, rfl, rfl, rfl, rfl⟩
  · nomatch hs

theorem step_poll (hs : step s (.poll t) = some s') : (∃ myturn, s.pc t = .spinning myturn ∧ s.turn ≠ myturn ∧ s' = s) ∨
    s.pc t = .spinning s.turn ∧ Moves s s' t .inside ∧ s'.ticket = s.ticket ∧ s'.turn = s.turn ∧
      s'.drawn = s.drawn ∧ s'.entered = s.entered ++ [t] := by
  simp only [step] at hs
  split at hs
  · next myturn hpc =>
    split at hs
    · next hturn =>
      cases hs
      have hmoves := moves_goto (s := s) (t := t) .inside
      exact .inr ⟨hturn ▸ hpc, ⟨hmoves.self, hmoves.other⟩, rfl, rfl, rfl, rfl⟩
    · next hturn =>
      cases hs
      exact .inl ⟨myturn, hpc, hturn, rfl⟩
  · nomatch hs

theorem step_load (hs : step s (.load t) = some s') :
    s.pc t = .inside ∧ Moves s s' t (.releasing s.turn) ∧ s'.ticket = s.ticket ∧ s'.turn = s.turn ∧
      s'.drawn = s.drawn ∧ s'.entered = s.entered := by
  simp only [step] at hs
  split at hs
  · next hpc =>
    cases hs
    exact ⟨hpc, moves_goto _, rfl, rfl, rfl, rfl⟩
  · nomatch hs

theorem step_store (hs : step s (.store t) = some s') : ∃ v, s.pc t = .releasing v ∧ Moves s s' t .outside ∧
    s'.ticket = s.ticket ∧ s'.turn = v + 1 ∧ s'.drawn = s.drawn ∧ s'.entered = s.entered := by
  simp only [step] at hs
  split at hs
  · next v hpc =>
    cases hs
    have hmoves := moves_goto (s := s) (t := t) .outside
    exact ⟨v, hpc, ⟨hmoves.self, hmoves.other⟩, rfl, rfl, rfl, rfl⟩
  · nomatch hs

/-! ### What becomes of the queue -/

/-- A thread that takes a ticket goes to the end of the queue. -/
theorem Represents.draw (h : Represents s f) (hs : step s (.draw t) = some s') :
    Represents s' ⟨f.holder, f.queue ++ [t]⟩ := by
  obtain ⟨hpc, hmoves, hticket, hturn, hdrawn, hentered⟩ := step_draw hs
  have hnot : t ∉ f.queue := by
    rw [h.mem_queue]
    rintro ⟨myturn, hspin⟩
    exact nomatch hpc.symm.trans hspin
  have hfree : ¬ f.holder = some t := by
    rw [← h.holds t, hpc]
    exact id
  have hlen : s.drawn.length = s.entered.length + f.queue.length := by rw [h.drawn, List.length_append]
  refine ⟨?_, ?_, ?_, ?_, ?_, ?_, ?_⟩
  · rw [hdrawn, hentered, h.drawn, List.append_assoc]
  · rw [hticket, hdrawn, List.length_append, List.length_singleton, BitVec.ofNat_add, ← h.ticket]
    rfl
  · rw [hturn, hentered]
    exact h.turn
  · exact hmoves.forall (C := fun u pc => pc.Holds ↔ f.holder = some u) (iff_of_false id hfree) fun u _ => h.holds u
  · rw [hturn]
    exact hmoves.forall (C := fun _ pc => ∀ v, pc = .releasing v → v = s.turn) nofun fun u _ => h.loaded u
  · exact List.nodup_append_comm.mp (List.nodup_cons.mpr ⟨hnot, h.nodup⟩)
  · rw [hentered]
    refine hmoves.forall (C := fun u pc => ∀ myturn, pc = .spinning myturn ↔ ∃ j, (f.queue ++ [t])[j]? = some u ∧
      myturn = BitVec.ofNat 32 (s.entered.length + j)) (fun myturn => ?_) fun u hu myturn => ?_
    · -- the thread itself is behind all others, with the ticket that was next
      rw [h.ticket, hlen]
      constructor
      · intro he
        cases he
        exact ⟨f.queue.length, List.getElem?_concat_length, rfl⟩
      · rintro ⟨j, hj, rfl⟩
        rcases Nat.lt_trichotomy j f.queue.length with hlt | rfl | hgt
        · rw [List.getElem?_append_left hlt] at hj
          exact absurd (List.mem_of_getElem? hj) hnot
        · rfl
        · rw [List.getElem?_eq_none (by simpa using hgt)] at hj
          nomatch hj
    · refine (h.queue u myturn).trans (exists_congr fun j => and_congr_left fun _ => ?_)
      rcases Nat.lt_trichotomy j f.queue.length with hlt | rfl | hgt
      · rw [List.getElem?_append_left hlt]
      · rw [List.getElem?_concat_length, List.getElem?_eq_none le_rfl]
        exact ⟨nofun, fun he => absurd (Option.some.inj he).symm hu⟩
      · rw [List.getElem?_eq_none hgt.le, List.getElem?_eq_none (by simpa using hgt)]

/-- **Modulo 2 ^ 32 only the ticket at the front of the queue meets `turn`**, and only while nobody holds the
    lock. -/
theorem Represents.front (h : Represents s f) (hfew : Few s) (hpc : s.pc t = .spinning s.turn) :
    f.holder = none ∧ ∃ rest, f.queue = t :: rest := by
  obtain ⟨j, hj, hticket⟩ := (h.queue t s.turn).mp hpc
  have hjlt : j < f.queue.length := (List.getElem?_eq_some_iff.mp hj).1
  have hlen := h.length_queue hfew
  have hholder : f.holder.toList.length ≤ 1 := by cases f.holder <;> simp
  have hturn := h.turn
  rw [hticket, ← BitVec.ofNat_add, ← BitVec.toNat_inj, BitVec.toNat_ofNat, BitVec.toNat_ofNat] at hturn
  obtain ⟨rfl, hnone⟩ : j = 0 ∧ f.holder.toList.length = 0 := by omega
  refine ⟨?_, ?_⟩
  · cases hf : f.holder with
    | none => rfl
    | some u => simp [hf] at hnone
  · cases hq : f.queue with
    | nil => simp [hq] at hjlt
    | cons u rest =>
      rw [hq] at hj
      exact ⟨rest, by rw [Option.some.inj hj]⟩

/-- A thread that meets its turn takes the lock, from the front of the queue. -/
theorem Represents.poll (h : Represents s f) (hfew : Few s) (hs : step s (.poll t) = some s') :
    ∃ f', Represents s' f' := by
  rcases step_poll hs with ⟨-, -, -, rfl⟩ | ⟨hpc, hmoves, hticket, hturn, hdrawn, hentered⟩
  · exact ⟨f, h⟩
  obtain ⟨hholder, rest, hqueue⟩ := h.front hfew hpc
  have hnodup := h.nodup
  rw [hqueue, List.nodup_cons] at hnodup
  refine ⟨⟨some t, rest⟩, ?_, ?_, ?_, ?_, ?_, hnodup.2, ?_⟩
  · rw [hdrawn, hentered, h.drawn, hqueue, List.append_assoc]
    rfl
  · rw [hticket, hdrawn]
    exact h.ticket
  · have hfree := h.turn
    rw [hholder] at hfree
    rw [hturn, hentered, List.length_append, BitVec.ofNat_add, ← hfree]
    show s.turn + 1#32 = s.turn + 0#32 + 1#32
    rw [BitVec.add_zero]
  · refine hmoves.forall (C := fun u pc => pc.Holds ↔ some t = some u) (iff_of_true trivial rfl) fun u hu => ?_
    rw [h.holds u, hholder]
    exact iff_of_false nofun fun he => hu (Option.some.inj he).symm
  · rw [hturn]
    exact hmoves.forall (C := fun _ pc => ∀ v, pc = .releasing v → v = s.turn) nofun fun u _ => h.loaded u
  · rw [hentered, List.length_append, List.length_singleton]
    refine hmoves.forall (C := fun u pc => ∀ myturn, pc = .spinning myturn ↔ ∃ j, rest[j]? = some u ∧
      myturn = BitVec.ofNat 32 (s.entered.length + 1 + j)) (fun myturn => ?_) fun u hu myturn => ?_
    · exact ⟨nofun, fun ⟨j, hj, _⟩ => absurd (List.mem_of_getElem? hj) hnodup.1⟩
    · -- the others have moved up by one
      rw [h.queue u myturn, hqueue]
      constructor
      · rintro ⟨j, hj, rfl⟩
        cases j with
        | zero => exact absurd (Option.some.inj hj).symm hu
        | succ j => exact ⟨j, hj, by rw [Nat.add_assoc, Nat.add_comm 1]⟩
      · rintro ⟨j, hj, rfl⟩
        exact ⟨j + 1, hj, by rw [Nat.add_assoc, Nat.add_comm 1]⟩

/-- The holder loads `turn`, and nobody else writes it before the holder does. -/
theorem Represents.load (h : Represents s f) (hs : step s (.load t) = some s') : Represents s' f := by
  obtain ⟨hpc, hmoves, hticket, hturn, hdrawn, hentered⟩ := step_load hs
  have hholds := h.holds t
  have hqueue := h.queue t
  rw [hpc] at hholds hqueue
  refine ⟨?_, ?_, ?_, ?_, ?_, h.nodup, ?_⟩
  · rw [hdrawn, hentered]
    exact h.drawn
  · rw [hticket, hdrawn]
    exact h.ticket
  · rw [hturn, hentered]
    exact h.turn
  · exact hmoves.forall (C := fun u pc => pc.Holds ↔ f.holder = some u) hholds fun u _ => h.holds u
  · rw [hturn]
    refine hmoves.forall (C := fun _ pc => ∀ v, pc = .releasing v → v = s.turn) (fun v he => ?_) fun u _ => h.loaded u
    cases he
    rfl
  · rw [hentered]
    exact hmoves.forall (C := fun u pc => ∀ myturn, pc = .spinning myturn ↔ ∃ j, f.queue[j]? = some u ∧
      myturn = BitVec.ofNat 32 (s.entered.length + j))
      (fun myturn => iff_of_false nofun fun hj => nomatch (hqueue myturn).mpr hj) fun u _ => h.queue u

/-- The holder stores the next turn, and the lock is free. -/
theorem Represents.store (h : Represents s f) (hs : step s (.store t) = some s') : Represents s' ⟨none, f.queue⟩ := by
  obtain ⟨v, hpc, hmoves, hticket, hturn, hdrawn, hentered⟩ := step_store hs
  obtain rfl := h.loaded t v hpc
  have hholds := h.holds t
  have hqueue := h.queue t
  rw [hpc] at hholds hqueue
  have hholder : f.holder = some t := hholds.mp trivial
  -- No other task holds the lock, since the one that stores does.
  have hnot : ∀ u, u ≠ t → ¬ (s.pc u).Holds := by
    intro u hu
    rw [h.holds u, hholder]
    exact fun he => hu (Option.some.inj he).symm
  -- One goal for each clause; of the tasks only `t` has moved.
  refine ⟨?_, ?_, ?_, ?_, ?_, h.nodup, ?_⟩
  · rw [hdrawn, hentered]
    exact h.drawn
  · rw [hticket, hdrawn]
    exact h.ticket
  -- The turn comes up to the number of tasks that have entered.
  · have hheld := h.turn
    rw [hholder] at hheld
    rw [hturn, hentered, ← hheld]
    exact BitVec.add_zero _
  · exact hmoves.forall (C := fun u pc => pc.Holds ↔ none = some u) (iff_of_false id nofun)
      fun u hu => iff_of_false (hnot u hu) nofun
  · refine hmoves.forall (C := fun _ pc => ∀ v, pc = .releasing v → v = s'.turn) nofun fun u hu v he => ?_
    refine absurd ?_ (hnot u hu)
    rw [he]
    exact trivial
  · rw [hentered]
    exact hmoves.forall (C := fun u pc => ∀ myturn, pc = .spinning myturn ↔ ∃ j, f.queue[j]? = some u ∧
      myturn = BitVec.ofNat 32 (s.entered.length + j))
      (fun myturn => iff_of_false nofun fun hj => nomatch (hqueue myturn).mpr hj) fun u _ => h.queue u

/-- **Each step of a thread is one of the queue, or none.** -/
theorem Represents.step {a : Action τ} (h : Represents s f) (hfew : Few s) (hs : TicketLock.step s a = some s') :
    ∃ f', Represents s' f' := by
  cases a with
  | draw t => exact ⟨_, h.draw hs⟩
  | poll t => exact h.poll hfew hs
  | load t => exact ⟨_, h.load hs⟩
  | store t => exact ⟨_, h.store hs⟩

end Steps

/-! ## Runs -/

/-- **The lock excludes, and it is fair.** While fewer than 2 ^ 32 threads wait at once, at most one thread is
    between `lock_acquire` and `lock_release`, and threads enter in the order in which they add to `ticket`. -/
theorem fifo_mutual_exclusion (s : State τ) (hs : (lock τ).ReachableUnder (fun s _ => Few s) s) :
    (∀ t u, (s.pc t).Holds → (s.pc u).Holds → t = u) ∧ s.entered <+: s.drawn := by
  obtain ⟨f, h⟩ : ∃ f, Represents s f :=
    System.invariant (fun s => ∃ f, Represents s f) (fun s hs => ⟨_, represents_init hs⟩)
      (fun s a s' ⟨f, h⟩ hfew hstep => h.step hfew hstep) hs
  refine ⟨fun t u ht hu => ?_, f.queue, h.drawn.symm⟩
  rw [h.holds] at ht hu
  exact Option.some.inj (ht.symm.trans hu)

omit [DecidableEq τ] in
/-- With fewer than 2 ^ 32 threads there is nothing to watch. -/
theorem few_of_card [Fintype τ] (hcard : Fintype.card τ < 2 ^ 32) (s : State τ) : Few s := by
  have hle : s.waiting.encard ≤ (Fintype.card τ : ℕ∞) := by
    rw [← ENat.card_eq_coe_fintype_card, ← Set.encard_univ]
    exact Set.encard_le_encard (Set.subset_univ _)
  exact hle.trans_lt (by exact_mod_cast hcard)

/-- One thread has entered, and the other waits for it. -/
theorem fifo_mutual_exclusion_two : ∃ s : State Bool, s.entered = [true] ∧ s.drawn = [true, false] ∧
    ((∀ t u, (s.pc t).Holds → (s.pc u).Holds → t = u) ∧ s.entered <+: s.drawn) := by
  have hfew : ∀ s : State Bool, Few s := few_of_card (by decide)
  refine ⟨_, rfl, rfl, fifo_mutual_exclusion _ (.step (a := .poll true) (.step (a := .draw false)
    (.step (a := .draw true) (.init rfl) (hfew _) rfl) (hfew _) rfl) (hfew _) rfl)⟩

end Xv6.User.TicketLock
