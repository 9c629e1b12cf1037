import Mathlib
import Xv6.Lib.Linearizability
import Xv6.Kernel.BioQueue

/-!
# The Recycling Queue under Concurrent Calls

`enqueue` and `dequeue` of `bio.c` on their own: any number of tasks call them on any buffers,
and each load, store and compare-and-swap is a step. The links count modulo 2^32, and the
link of a buffer counts from zero whenever the buffer is enqueued, so that a task that has
read it once can take a later link for it.

- `fifo`: the sequential queue, which always keeps its last buffer;
- `Linearized`: the history is one of the atomic queue, and the queue is what the links from
  `head` lead through;
- `queue_linearizable`: so it is in every run in which the dummy is not enqueued while it is
  in the queue, a buffer is linked only behind one that is in the queue, and no task is
  overtaken by 2^32 changes of `head` or `tail`.
-/

namespace Xv6.Kernel.BioFifo

open Xv6.Lib
open Xv6.Kernel.Bio (PTR CNT CNTPTR PTRNULL nextLink linked)

/-! ## The sequential queue -/

inductive Op where
  | enqueue (b : ℕ)
  | dequeue
  deriving DecidableEq

/-- What a call does. `enqueue` returns nothing; it has won the compare-and-swap of `in_q`
    (`enqueued`) or has found it set (`present`). -/
inductive Res where
  | enqueued (b : ℕ)
  | present (b : ℕ)
  | dequeued (b : ℕ)
  /-- `dequeue` returns 0. -/
  | empty
  deriving DecidableEq

/-- The buffer that has been put into the queue -/
def Res.enq : Res → Option ℕ
  | .enqueued b => some b
  | _ => none

/-- The buffer that has been taken -/
def Res.deq : Res → Option ℕ
  | .dequeued b => some b
  | _ => none

/-- `dequeue` takes the first buffer of the queue, but not the last one. -/
inductive Fifo : List ℕ → Op → Res → List ℕ → Prop where
  | enqueued {q : List ℕ} {b : ℕ} : b ∉ q → Fifo q (.enqueue b) (.enqueued b) (q ++ [b])
  | present (q : List ℕ) (b : ℕ) : Fifo q (.enqueue b) (.present b) q
  | dequeued (b c : ℕ) (q : List ℕ) : Fifo (b :: c :: q) .dequeue (.dequeued b) (c :: q)
  | empty (b : ℕ) : Fifo [b] .dequeue .empty [b]

/-- The queue that `binit` leaves: the dummy, and the buffers in order -/
def initial : List ℕ := NBUF :: List.range' 0 NBUF

def fifo : SeqObject (List ℕ) Op Res := ⟨initial, Fifo⟩

/-! ## The code -/

/-- Where a task is: which access to shared memory comes next, with the local variables -/
inductive Pc where
  | idle
  -- `enqueue`
  | enqFlag (b : ℕ)
  | enqNull (b : ℕ)
  | enqTail (b : ℕ)
  | enqNext (b tail : ℕ)
  | enqCheck (b tail next : ℕ)
  | enqLink (b tail next : ℕ)
  | enqHelp (b tail next : ℕ)
  | enqSwing (b tail : ℕ)
  -- `dequeue`
  | deqHead
  | deqTail (head : ℕ)
  | deqNext (head tail : ℕ)
  | deqCheck (head tail next : ℕ)
  | deqHelp (tail next : ℕ)
  | deqCas (head next : ℕ)
  | deqFlag (ret : ℕ)
  deriving DecidableEq

structure State (τ : Type*) where
  head : ℕ
  tail : ℕ
  qnext : ℕ → ℕ
  inQ : ℕ → ℕ
  task : τ → Pc
  -- what has happened so far, which the code does not keep
  history : List (Event τ Op Res)
  /-- How often `head` and `tail` have been changed -/
  headChanges : ℕ
  tailChanges : ℕ
  /-- How often they had been changed when the task loaded them -/
  headSeen : τ → ℕ
  tailSeen : τ → ℕ

inductive Act (τ : Type*) where
  | call (t : τ) (op : Op)
  /-- The next access of a task to shared memory -/
  | run (t : τ)

variable {τ : Type*} [DecidableEq τ]

namespace State

variable (s : State τ)

def goto (t : τ) (pc : Pc) : State τ := { s with task := Function.update s.task t pc }

/-- The call of the task returns. -/
def finish (t : τ) (r : Res) : State τ :=
  { s.goto t .idle with history := s.history ++ [.ret t r] }

/-- The task has just loaded `head`. -/
def sawHead (t : τ) : State τ :=
  { s with headSeen := Function.update s.headSeen t s.headChanges }

def sawTail (t : τ) : State τ :=
  { s with tailSeen := Function.update s.tailSeen t s.tailChanges }

/-- `head` is replaced by the word `w`. -/
def setHead (w : ℕ) : State τ := { s with head := w, headChanges := s.headChanges + 1 }

/-- `CAS64(&bcache.tail, &tail, CNTPTR(CNT(tail) + 1, y))` -/
def swing (tail y : ℕ) : State τ :=
  if s.tail = tail then { s with tail := nextLink tail y, tailChanges := s.tailChanges + 1 } else s

end State

/-- The next access of a task -/
def runStep (s : State τ) (t : τ) : Option (State τ) :=
  match s.task t with
  | .idle => none
  | .enqFlag b =>
    if s.inQ b = 0 then some ({ s with inQ := Function.update s.inQ b 1 }.goto t (.enqNull b))
    else some (s.finish t (.present b))
  | .enqNull b =>
    some ({ s with qnext := Function.update s.qnext b (CNTPTR 0 PTRNULL) }.goto t (.enqTail b))
  | .enqTail b => some ((s.sawTail t).goto t (.enqNext b s.tail))
  | .enqNext b tail => some (s.goto t (.enqCheck b tail (s.qnext (PTR tail))))
  | .enqCheck b tail next =>
    some (s.goto t (if tail = s.tail then
      if PTR next = PTRNULL then .enqLink b tail next else .enqHelp b tail next
    else .enqTail b))
  | .enqLink b tail next =>
    if s.qnext (PTR tail) = next then
      some ({ s with qnext := Function.update s.qnext (PTR tail) (nextLink next b) }.goto t
        (.enqSwing b tail))
    else some (s.goto t (.enqTail b))
  | .enqHelp b tail next => some ((s.swing tail (PTR next)).goto t (.enqTail b))
  | .enqSwing b tail => some ((s.swing tail b).finish t (.enqueued b))
  | .deqHead => some ((s.sawHead t).goto t (.deqTail s.head))
  | .deqTail head => some ((s.sawTail t).goto t (.deqNext head s.tail))
  | .deqNext head tail => some (s.goto t (.deqCheck head tail (s.qnext (PTR head))))
  | .deqCheck head tail next =>
    if head = s.head then
      if PTR head = PTR tail then
        if PTR next = PTRNULL then some (s.finish t .empty)
        else some (s.goto t (.deqHelp tail next))
      else some (s.goto t (.deqCas head next))
    else some (s.goto t .deqHead)
  | .deqHelp tail next => some ((s.swing tail (PTR next)).goto t .deqHead)
  | .deqCas head next =>
    if s.head = head then
      some ((s.setHead (nextLink head (PTR next))).goto t (.deqFlag (PTR head)))
    else some (s.goto t .deqHead)
  | .deqFlag ret => some ({ s with inQ := Function.update s.inQ ret 0 }.finish t (.dequeued ret))

def Op.start : Op → Pc
  | .enqueue b => .enqFlag b
  | .dequeue => .deqHead

/-- An operation that is called with one of the buffers -/
def Op.Valid : Op → Prop
  | .enqueue b => b ≤ NBUF
  | .dequeue => True

instance : DecidablePred Op.Valid
  | .enqueue b => inferInstanceAs (Decidable (b ≤ NBUF))
  | .dequeue => inferInstanceAs (Decidable True)

def step (s : State τ) : Act τ → Option (State τ)
  | .call t op =>
    if s.task t = .idle ∧ op.Valid then
      some { s.goto t op.start with history := s.history ++ [.call t op] }
    else none
  | .run t => runStep s t

/-- The state after `binit` -/
def binit : State τ where
  head := CNTPTR 0 NBUF
  tail := CNTPTR NBUF (NBUF - 1)
  qnext b := if b = NBUF then CNTPTR 1 0 else if b + 1 < NBUF then CNTPTR 1 (b + 1)
    else CNTPTR 0 PTRNULL
  inQ b := if b < NBUF then 1 else 0
  task _ := .idle
  history := []
  headChanges := 0
  tailChanges := 0
  headSeen _ := 0
  tailSeen _ := 0

variable (τ) in
def system : System (State τ) (Act τ) where
  init s := s = binit
  step := step

/-! ## The property and the condition -/

omit [DecidableEq τ] in
variable (s : State τ) in
/-- The buffer behind `b` -/
def State.link (b : ℕ) : Option ℕ := linked (s.qnext b)

/-- **The queue is linearizable** so far: the history is one of the atomic queue with the
    linearization `log`, whose queue `q` the links from `head` lead through. -/
structure Linearized [DecidableEq τ] (s : State τ) (log : List (Op × Res)) (q : List ℕ)
    (p : τ → Progress Op Res) : Prop where
  atomic : fifo.Atomic s.history log q p
  chain : Chain s.link (some (PTR s.head)) q
  nodup : q.Nodup
  buffers : ∀ b ∈ q, b ≤ NBUF
  /-- Buffers are dequeued in the order in which they have been enqueued. -/
  order : initial ++ log.filterMap (·.2.enq) = log.filterMap (·.2.deq) ++ q
  /-- A buffer that is dequeued twice has been enqueued in between. -/
  twice : ∀ l₁ l₂ l₃ b, log = l₁ ++ (.dequeue, .dequeued b) :: l₂ ++ (.dequeue, .dequeued b) :: l₃ →
    (.enqueue b, .enqueued b) ∈ l₂
  /-- A buffer is in the queue if its enqueue has returned and no dequeue has taken it since. -/
  visible : ∀ b, (∀ t, s.task t ≠ .deqFlag b) →
    initial.count b + Event.returns (.enqueued b) s.history ≤
      Event.returns (.dequeued b) s.history + q.count b

/-- The buffer that a task holds outside of the queue -/
def Pc.carry : Pc → Option ℕ
  | .enqNull b | .enqTail b | .enqNext b _ | .enqCheck b _ _ | .enqLink b _ _ | .enqHelp b _ _
  | .deqFlag b => some b
  | _ => none

namespace State

variable (s : State τ)

omit [DecidableEq τ] in
/-- The links from `head` lead to the buffer. -/
def Queued (b : ℕ) : Prop := ∃ q, Chain s.link (some (PTR s.head)) q ∧ b ∈ q

end State

/-- The condition on a step of a task:
    an `enqueue` of the dummy that finds its `in_q` clear does not find it in the queue or held by
    another call; a compare-and-swap that links a buffer links it behind one that is in the queue;
    and where a task compares `head` or `tail` with the value it has loaded, fewer than 2^32 changes
    lie between. -/
def Careful (s : State τ) : Act τ → Prop
  | .call _ _ => True
  | .run t =>
    match s.task t with
    | .enqFlag b => b = NBUF → s.inQ b = 0 → ¬ s.Queued b ∧ ∀ t', (s.task t').carry ≠ some b
    | .enqLink _ tail next => s.qnext (PTR tail) = next → s.Queued (PTR tail)
    | .enqCheck _ _ _ | .enqHelp _ _ _ | .enqSwing _ _ | .deqHelp _ _ =>
      s.tailChanges < s.tailSeen t + 2 ^ 32
    | .deqCheck _ _ _ | .deqCas _ _ => s.headChanges < s.headSeen t + 2 ^ 32
    | _ => True

/-! ## What is sequential -/

section Sequential

variable {log l₁ l₂ l₃ : List (Op × Res)} {q q' : List ℕ} {op : Op} {r : Res} {b : ℕ}

theorem initial_nodup : initial.Nodup := by decide

theorem mem_initial (h : b ∈ initial) : b ≤ NBUF := by
  simp only [initial, List.mem_cons, List.mem_range'_1] at h
  omega

theorem Legal.prefix (h : fifo.Legal (l₁ ++ l₂) q) : ∃ q₁, fifo.Legal l₁ q₁ := by
  generalize hl : l₁ ++ l₂ = log at h
  induction h generalizing l₂ with
  | nil =>
    obtain ⟨rfl, rfl⟩ := List.append_eq_nil_iff.mp hl
    exact ⟨_, .nil⟩
  | @snoc log q q' op r hlegal hnext ih =>
    rcases List.eq_nil_or_concat l₂ with rfl | ⟨l, e, rfl⟩
    · rw [List.append_nil] at hl
      exact ⟨q', hl ▸ .snoc hlegal hnext⟩
    · rw [List.concat_eq_append, ← List.append_assoc] at hl
      obtain ⟨hinit, -⟩ := List.append_inj' hl rfl
      exact ih hinit

/-- The last operation of a run, and the queues around it -/
theorem Legal.last (h : fifo.Legal (log ++ [(op, r)]) q') :
    ∃ q, fifo.Legal log q ∧ Fifo q op r q' := by
  generalize hl : log ++ [(op, r)] = log' at h
  cases h with
  | nil => simp at hl
  | snoc hlegal hnext =>
    obtain ⟨rfl, he⟩ := List.append_inj' hl rfl
    cases he
    exact ⟨_, hlegal, hnext⟩

theorem Legal.nodup (h : fifo.Legal log q) : q.Nodup := by
  induction h with
  | nil => exact initial_nodup
  | snoc _ hnext ih =>
    cases hnext with
    | enqueued hb => exact ih.append (List.nodup_singleton _) (List.disjoint_singleton.mpr hb)
    | present => exact ih
    | dequeued => exact ih.of_cons
    | empty => exact ih

/-- **First in, first out.** -/
theorem Legal.order (h : fifo.Legal log q) :
    initial ++ log.filterMap (·.2.enq) = log.filterMap (·.2.deq) ++ q := by
  induction h with
  | nil => simp [fifo]
  | snoc _ hnext ih =>
    rw [List.filterMap_append, List.filterMap_append, ← List.append_assoc, ih]
    cases hnext <;> simp [Res.enq, Res.deq]

/-- The result tells the operation. -/
theorem Legal.enqueue (h : fifo.Legal log q) (hmem : (op, .enqueued b) ∈ log) : op = .enqueue b := by
  induction h with
  | nil => cases hmem
  | snoc _ hnext ih =>
    rcases List.mem_append.mp hmem with hold | hnew
    · exact ih hold
    · cases List.mem_singleton.mp hnew
      cases hnext
      rfl

/-- What has been put into the queue has been taken or is in it. -/
theorem Legal.count (h : fifo.Legal log q) (b : ℕ) :
    initial.count b + results (.enqueued b) log = results (.dequeued b) log + q.count b := by
  induction h with
  | nil => exact (Nat.zero_add _).symm
  | @snoc _ s s' _ _ _ hnext ih =>
    rw [results_snoc, results_snoc]
    cases hnext with
    | @enqueued _ c hc =>
      have hcount : (s ++ [c]).count b = s.count b + if c = b then 1 else 0 := by
        simp [List.count_singleton]
      simp only [Res.enqueued.injEq, reduceCtorEq, if_false, hcount]
      omega
    | present => simpa using ih
    | dequeued c d q =>
      have hcount : (c :: d :: q).count b = (d :: q).count b + if c = b then 1 else 0 := by
        simp [List.count_cons]
      simp only [Res.dequeued.injEq, reduceCtorEq, if_false]
      omega
    | empty => simpa using ih

/-- What has been put back since a buffer was taken is what makes it to be taken again. -/
theorem mem_of_results (h : fifo.Legal (l₁ ++ l₂) q)
    (hpos : 0 < results (.enqueued b) l₂) : (.enqueue b, .enqueued b) ∈ l₂ := by
  obtain ⟨⟨op, r⟩, hmem, hr⟩ := List.countP_pos_iff.mp hpos
  obtain rfl : r = .enqueued b := by simpa using hr
  rw [← Legal.enqueue h (List.mem_append_right _ hmem)]
  exact hmem

/-- **No buffer is taken twice** without being put back. -/
theorem Legal.twice
    (h : fifo.Legal (l₁ ++ (.dequeue, .dequeued b) :: l₂ ++ (.dequeue, .dequeued b) :: l₃) q) :
    (.enqueue b, .enqueued b) ∈ l₂ := by
  set e : Op × Res := (.dequeue, .dequeued b) with he
  have hsplit : l₁ ++ e :: l₂ ++ e :: l₃ = l₁ ++ [e] ++ l₂ ++ [e] ++ l₃ := by simp
  rw [hsplit] at h
  -- behind the first of the two operations the buffer is not in the queue
  obtain ⟨q₂, h₂⟩ := Legal.prefix h
  obtain ⟨q₁, h₁, hlast⟩ := Legal.last h₂
  obtain ⟨q₀, h₀⟩ := Legal.prefix h₁
  obtain ⟨qb, hb, hfirst⟩ := Legal.last h₀
  have hout : q₀.count b = 0 := by
    have hnd := Legal.nodup hb
    cases hfirst
    exact List.count_eq_zero.mpr (List.nodup_cons.mp hnd).1
  -- in front of the second one it is
  have hin : 0 < q₁.count b := by
    cases hlast
    exact List.count_pos_iff.mpr List.mem_cons_self
  have hcount := Legal.count h₁ b
  have hcount₀ := Legal.count h₀ b
  simp only [results, List.countP_append] at hcount hcount₀
  exact mem_of_results h₁ (by simp only [results]; omega)

end Sequential

/-! ## The invariant -/

section Invariant

omit [DecidableEq τ]

variable {s s' : State τ} {q q' : List ℕ} {t : τ} {b head tail next : ℕ}

/-- `head` as the task has loaded it. While nobody has changed `head` since, it is current. -/
structure HeadSeen (s : State τ) (t : τ) (head : ℕ) : Prop where
  le : s.headSeen t ≤ s.headChanges
  count : CNT head = s.headSeen t % 2 ^ 32
  current : s.headSeen t = s.headChanges → head = s.head

/-- `tail` as the task has loaded it -/
structure TailSeen (s : State τ) (t : τ) (tail : ℕ) : Prop where
  le : s.tailSeen t ≤ s.tailChanges
  count : CNT tail = (NBUF + s.tailSeen t) % 2 ^ 32
  current : s.tailSeen t = s.tailChanges → tail = s.tail

/-- Nobody has changed `head` since the task has loaded it. -/
def HeadCurrent (s : State τ) (t : τ) : Prop := s.headSeen t = s.headChanges

def TailCurrent (s : State τ) (t : τ) : Prop := s.tailSeen t = s.tailChanges

/-- What the task has found out about the queue, as far as it still matters -/
def Local (s : State τ) (t : τ) : Pc → Prop
  | .enqFlag b => b ≤ NBUF
  | .enqTail b => s.link b = none
  | .enqNext b tail => s.link b = none ∧ TailSeen s t tail
  | .enqCheck b tail next =>
    s.link b = none ∧ TailSeen s t tail ∧
      (TailCurrent s t → PTR next ≠ PTRNULL → s.link (PTR tail) = some (PTR next))
  | .enqLink b tail next => s.link b = none ∧ TailSeen s t tail ∧ PTR next = PTRNULL
  | .enqHelp b tail next =>
    s.link b = none ∧ TailSeen s t tail ∧ (TailCurrent s t → s.link (PTR tail) = some (PTR next))
  | .enqSwing b tail => TailSeen s t tail ∧ (TailCurrent s t → s.link (PTR tail) = some b)
  | .deqTail head => HeadSeen s t head
  | .deqNext head tail =>
    HeadSeen s t head ∧ TailSeen s t tail ∧
      (HeadCurrent s t → PTR tail ≠ PTR head → PTR s.tail ≠ PTR head)
  | .deqCheck head tail next =>
    HeadSeen s t head ∧ TailSeen s t tail ∧
      (HeadCurrent s t → PTR tail ≠ PTR head → PTR s.tail ≠ PTR head ∧ PTR next ≠ PTRNULL) ∧
      (HeadCurrent s t → PTR next ≠ PTRNULL → s.link (PTR head) = some (PTR next))
  | .deqHelp tail next =>
    TailSeen s t tail ∧ (TailCurrent s t → s.link (PTR tail) = some (PTR next))
  | .deqCas head next =>
    HeadSeen s t head ∧
      (HeadCurrent s t → PTR s.tail ≠ PTR head ∧ s.link (PTR head) = some (PTR next))
  | _ => True

/-- The queue `q` of the links, and the words that lead to its ends -/
structure Shape (s : State τ) (q : List ℕ) : Prop where
  chain : Chain s.link (some (PTR s.head)) q
  nodup : q.Nodup
  buffers : ∀ b ∈ q, b ≤ NBUF
  tail : PTR s.tail ∈ q
  headCount : CNT s.head = s.headChanges % 2 ^ 32
  tailCount : CNT s.tail = (NBUF + s.tailChanges) % 2 ^ 32

/-- A buffer that is in the queue or held by a task is marked, but for the dummy. -/
structure Marks (s : State τ) (q : List ℕ) : Prop where
  queued : ∀ b ∈ q, b ≠ NBUF → s.inQ b = 1
  carried : ∀ t b, (s.task t).carry = some b → b ∉ q ∧ b ≤ NBUF ∧ (b ≠ NBUF → s.inQ b = 1)
  sole : ∀ t t' b, (s.task t).carry = some b → (s.task t').carry = some b → t = t'

structure Inv (s : State τ) (q : List ℕ) : Prop where
  shape : Shape s q
  marks : Marks s q
  loc : ∀ t, Local s t (s.task t)

/-! ### What other tasks rely on -/

/-- What may happen to the queue while a task does not run: `head` and `tail` are counted, links
    of the queue stay, and a `tail` that has left the head of the queue does not come back to
    it before the head is taken. -/
structure Evolves (s : State τ) (q : List ℕ) (s' : State τ) (q' : List ℕ) : Prop where
  headLe : s.headChanges ≤ s'.headChanges
  headSame : s'.headChanges = s.headChanges → s'.head = s.head
  tailLe : s.tailChanges ≤ s'.tailChanges
  tailSame : s'.tailChanges = s.tailChanges → s'.tail = s.tail
  link : ∀ a ∈ q, a ∈ q' → ∀ b, s.link a = some b → s'.link a = some b
  tailHead : s'.headChanges = s.headChanges → PTR s.tail ≠ PTR s.head → PTR s'.tail ≠ PTR s.head

theorem Evolves.refl (s : State τ) (q : List ℕ) : Evolves s q s q :=
  ⟨le_rfl, fun _ => rfl, le_rfl, fun _ => rfl, fun _ _ _ _ => id, fun _ => id⟩

theorem HeadSeen.evolve (h : HeadSeen s t head) (he : Evolves s q s' q')
    (hseen : s'.headSeen t = s.headSeen t) : HeadSeen s' t head := by
  have hle := he.headLe
  have hseenLe := h.le
  refine ⟨by omega, by rw [hseen]; exact h.count, fun hcur => ?_⟩
  have hsame : s'.headChanges = s.headChanges := by omega
  rw [he.headSame hsame]
  exact h.current (by omega)

theorem TailSeen.evolve (h : TailSeen s t tail) (he : Evolves s q s' q')
    (hseen : s'.tailSeen t = s.tailSeen t) : TailSeen s' t tail := by
  have hle := he.tailLe
  have hseenLe := h.le
  refine ⟨by omega, by rw [hseen]; exact h.count, fun hcur => ?_⟩
  have hsame : s'.tailChanges = s.tailChanges := by omega
  rw [he.tailSame hsame]
  exact h.current (by omega)

theorem Shape.head_mem (h : Shape s q) : PTR s.head ∈ q := by
  obtain ⟨xs, rfl, -⟩ := h.chain.eq_cons
  exact List.mem_cons_self

/-- While `head` is current, so is the link that the task has read from its buffer. -/
theorem link_head_evolve (h : HeadSeen s t head) (hshape : Shape s q) (hshape' : Shape s' q')
    (he : Evolves s q s' q') (hseen : s'.headSeen t = s.headSeen t) (hcur : HeadCurrent s' t) :
    HeadCurrent s t ∧ s'.headChanges = s.headChanges ∧ head = s.head ∧
      ∀ b, s.link (PTR head) = some b → s'.link (PTR head) = some b := by
  have hle := he.headLe
  have hseenLe := h.le
  rw [HeadCurrent] at hcur
  have hold : s.headSeen t = s.headChanges := by omega
  have hsame : s'.headChanges = s.headChanges := by omega
  obtain rfl := h.current hold
  refine ⟨hold, hsame, rfl, he.link _ hshape.head_mem ?_⟩
  rw [← he.headSame hsame]
  exact hshape'.head_mem

theorem link_tail_evolve (h : TailSeen s t tail) (hshape : Shape s q) (hshape' : Shape s' q')
    (he : Evolves s q s' q') (hseen : s'.tailSeen t = s.tailSeen t) (hcur : TailCurrent s' t) :
    TailCurrent s t ∧ ∀ b, s.link (PTR tail) = some b → s'.link (PTR tail) = some b := by
  have hle := he.tailLe
  have hseenLe := h.le
  rw [TailCurrent] at hcur
  have hold : s.tailSeen t = s.tailChanges := by omega
  have hsame : s'.tailChanges = s.tailChanges := by omega
  obtain rfl := h.current hold
  refine ⟨hold, he.link _ hshape.tail ?_⟩
  rw [← he.tailSame hsame]
  exact hshape'.tail

/-- What a task has found out stays true while others run. -/
theorem Local.evolve {pc : Pc} (h : Local s t pc) (hshape : Shape s q) (hshape' : Shape s' q')
    (he : Evolves s q s' q') (hhead : s'.headSeen t = s.headSeen t)
    (htail : s'.tailSeen t = s.tailSeen t)
    (hcarry : ∀ b, pc.carry = some b → s.link b = none → s'.link b = none) : Local s' t pc := by
  -- what a task has read stays true while the counter beside the pointer has not moved
  cases pc with
  | enqTail b => exact hcarry b rfl h
  | enqNext b tail => exact ⟨hcarry b rfl h.1, h.2.evolve he htail⟩
  | enqCheck b tail next =>
    obtain ⟨hb, hseen, hlink⟩ := h
    refine ⟨hcarry b rfl hb, hseen.evolve he htail, fun hcur hnext => ?_⟩
    obtain ⟨hold, hkeep⟩ := link_tail_evolve hseen hshape hshape' he htail hcur
    exact hkeep _ (hlink hold hnext)
  | enqLink b tail next => exact ⟨hcarry b rfl h.1, h.2.1.evolve he htail, h.2.2⟩
  | enqHelp b tail next =>
    obtain ⟨hb, hseen, hlink⟩ := h
    refine ⟨hcarry b rfl hb, hseen.evolve he htail, fun hcur => ?_⟩
    obtain ⟨hold, hkeep⟩ := link_tail_evolve hseen hshape hshape' he htail hcur
    exact hkeep _ (hlink hold)
  | enqSwing b tail =>
    obtain ⟨hseen, hlink⟩ := h
    refine ⟨hseen.evolve he htail, fun hcur => ?_⟩
    obtain ⟨hold, hkeep⟩ := link_tail_evolve hseen hshape hshape' he htail hcur
    exact hkeep _ (hlink hold)
  | deqTail head => exact HeadSeen.evolve h he hhead
  | deqNext head tail =>
    obtain ⟨hh, ht, hne⟩ := h
    refine ⟨hh.evolve he hhead, ht.evolve he htail, fun hcur hpt => ?_⟩
    obtain ⟨hold, hsame, rfl, -⟩ := link_head_evolve hh hshape hshape' he hhead hcur
    exact he.tailHead hsame (hne hold hpt)
  | deqCheck head tail next =>
    obtain ⟨hh, ht, hne, hlink⟩ := h
    refine ⟨hh.evolve he hhead, ht.evolve he htail, fun hcur hpt => ?_, fun hcur hnext => ?_⟩
    · obtain ⟨hold, hsame, rfl, -⟩ := link_head_evolve hh hshape hshape' he hhead hcur
      exact ⟨he.tailHead hsame (hne hold hpt).1, (hne hold hpt).2⟩
    · obtain ⟨hold, -, -, hkeep⟩ := link_head_evolve hh hshape hshape' he hhead hcur
      exact hkeep _ (hlink hold hnext)
  | deqHelp tail next =>
    obtain ⟨hseen, hlink⟩ := h
    refine ⟨hseen.evolve he htail, fun hcur => ?_⟩
    obtain ⟨hold, hkeep⟩ := link_tail_evolve hseen hshape hshape' he htail hcur
    exact hkeep _ (hlink hold)
  | deqCas head next =>
    obtain ⟨hh, hcas⟩ := h
    refine ⟨hh.evolve he hhead, fun hcur => ?_⟩
    obtain ⟨hold, hsame, rfl, hkeep⟩ := link_head_evolve hh hshape hshape' he hhead hcur
    exact ⟨he.tailHead hsame (hcas hold).1, hkeep _ (hcas hold).2⟩
  | _ => exact h

/-! ### Steps -/

/-- The words of the queue are those of the other state. -/
structure SameQueue (s s' : State τ) : Prop where
  head : s'.head = s.head
  tail : s'.tail = s.tail
  qnext : s'.qnext = s.qnext
  headChanges : s'.headChanges = s.headChanges
  tailChanges : s'.tailChanges = s.tailChanges

theorem SameQueue.link (h : SameQueue s s') : s'.link = s.link := by
  funext b
  rw [State.link, State.link, h.qnext]

theorem SameQueue.shape (h : SameQueue s s') (hshape : Shape s q) : Shape s' q where
  chain := by rw [h.link, h.head]; exact hshape.chain
  nodup := hshape.nodup
  buffers := hshape.buffers
  tail := by rw [h.tail]; exact hshape.tail
  headCount := by rw [h.head, h.headChanges]; exact hshape.headCount
  tailCount := by rw [h.tail, h.tailChanges]; exact hshape.tailCount

theorem SameQueue.evolves (h : SameQueue s s') (q : List ℕ) : Evolves s q s' q where
  headLe := h.headChanges.ge
  headSame _ := h.head
  tailLe := h.tailChanges.ge
  tailSame _ := h.tail
  link := fun a _ _ b hb => by rw [h.link]; exact hb
  tailHead := fun _ hne => by rw [h.tail]; exact hne

/-- Only the task `t` has moved. -/
structure Others (s : State τ) (t : τ) (s' : State τ) : Prop where
  task : ∀ t', t' ≠ t → s'.task t' = s.task t'
  headSeen : ∀ t', t' ≠ t → s'.headSeen t' = s.headSeen t'
  tailSeen : ∀ t', t' ≠ t → s'.tailSeen t' = s.tailSeen t'

/-- A step of the task `t` -/
theorem Inv.step_of (hi : Inv s q) (hshape : Shape s' q') (hmarks : Marks s' q')
    (he : Evolves s q s' q') (hothers : Others s t s')
    (hlink : ∀ t' b, t' ≠ t → (s.task t').carry = some b → s.link b = none → s'.link b = none)
    (hown : Local s' t (s'.task t)) : Inv s' q' where
  shape := hshape
  marks := hmarks
  loc t' := by
    by_cases ht : t' = t
    · rw [ht]; exact hown
    · rw [hothers.task t' ht]
      exact (hi.loc t').evolve hi.shape hshape he (hothers.headSeen t' ht) (hothers.tailSeen t' ht)
        fun b => hlink t' b ht

/-- The task holds the same buffer as before, or none. -/
theorem Marks.of_carry (h : Marks s q) (hq : s'.inQ = s.inQ) (hothers : Others s t s')
    (hcarry : ∀ b, (s'.task t).carry = some b → (s.task t).carry = some b) : Marks s' q := by
  have hall : ∀ t' b, (s'.task t').carry = some b → (s.task t').carry = some b := by
    intro t' b hb
    by_cases ht : t' = t
    · subst ht; exact hcarry b hb
    · rwa [hothers.task t' ht] at hb
  refine ⟨fun b hb hne => by rw [hq]; exact h.queued b hb hne, fun t' b hb => ?_, fun t₁ t₂ b h₁ h₂ => ?_⟩
  · rw [hq]; exact h.carried t' b (hall t' b hb)
  · exact h.sole t₁ t₂ b (hall t₁ b h₁) (hall t₂ b h₂)

/-- A step that leaves the queue alone -/
theorem Inv.quiet (hi : Inv s q) (hsame : SameQueue s s') (hq : s'.inQ = s.inQ)
    (hothers : Others s t s') (hcarry : ∀ b, (s'.task t).carry = some b → (s.task t).carry = some b)
    (hown : Local s' t (s'.task t)) : Inv s' q :=
  hi.step_of (hsame.shape hi.shape) (hi.marks.of_carry hq hothers hcarry) (hsame.evolves q) hothers
    (fun _ _ _ _ hb => by rw [hsame.link]; exact hb) hown

/-- The link of a buffer of the queue leads to another one, which is not the first. -/
theorem Shape.succ (h : Shape s q) {a y : ℕ} (ha : a ∈ q) (hy : s.link a = some y) :
    y ∈ q ∧ y ≠ PTR s.head := by
  obtain ⟨xs, ys, rfl⟩ := List.append_of_mem ha
  have hnext := h.chain.next_eq
  rw [hy] at hnext
  obtain ⟨zs, rfl⟩ : ∃ zs, ys = y :: zs := by
    cases ys with
    | nil => cases hnext
    | cons z zs => cases hnext; exact ⟨zs, rfl⟩
  have hhead := h.chain.head_eq
  have hnd := List.nodup_append.mp h.nodup
  refine ⟨by simp, fun heq => ?_⟩
  cases xs with
  | nil =>
    cases hhead
    exact (List.nodup_cons.mp hnd.2.1).1 (heq ▸ List.mem_cons_self)
  | cons x xs =>
    cases hhead
    exact hnd.2.2 (PTR s.head) List.mem_cons_self y (by simp) heq.symm

/-- A buffer of the queue without a link is the last one. -/
theorem Shape.last (h : Shape s q) {a : ℕ} (ha : a ∈ q) (hnone : s.link a = none) :
    ∃ xs, q = xs ++ [a] := by
  obtain ⟨xs, ys, rfl⟩ := List.append_of_mem ha
  have hnext := h.chain.next_eq
  rw [hnone] at hnext
  cases ys with
  | nil => exact ⟨xs, rfl⟩
  | cons y ys => cases hnext

theorem CNT_CNTPTR {x y : ℕ} (hy : y < 2 ^ 32) : CNT (CNTPTR x y) = x % 2 ^ 32 := by
  have hor := Nat.two_pow_add_eq_or_of_lt (i := 32) hy x
  rw [CNT, CNTPTR, Nat.shiftLeft_eq, Nat.mul_comm x, ← hor, Nat.shiftRight_eq_div_pow]
  omega

theorem CNT_nextLink {x y : ℕ} (hy : y < 2 ^ 32) : CNT (nextLink x y) = (CNT x + 1) % 2 ^ 32 :=
  CNT_CNTPTR hy

theorem linked_CNTPTR {x y : ℕ} (hy : y < PTRNULL) : linked (CNTPTR x y) = some y := by
  have hlt : y < 2 ^ 32 := hy.trans Bio.PTRNULL_lt
  rw [linked, Bio.PTR_CNTPTR hlt, if_neg hy.ne]

theorem Shape.lt (h : Shape s q) {b : ℕ} (hb : b ∈ q) : b < 2 ^ 32 :=
  (Bio.lt_of_le_NBUF (h.buffers b hb)).trans Bio.PTRNULL_lt

/-- A word that compares equal has not been changed, unless it has been changed 2^32 times. -/
theorem TailSeen.of_eq (h : TailSeen s t tail) (hshape : Shape s q) (heq : tail = s.tail)
    (hrecent : s.tailChanges < s.tailSeen t + 2 ^ 32) : TailCurrent s t := by
  have hcount := h.count
  have hle := h.le
  rw [heq, hshape.tailCount] at hcount
  rw [TailCurrent]
  omega

theorem HeadSeen.of_eq (h : HeadSeen s t head) (hshape : Shape s q) (heq : head = s.head)
    (hrecent : s.headChanges < s.headSeen t + 2 ^ 32) : HeadCurrent s t := by
  have hcount := h.count
  have hle := h.le
  rw [heq, hshape.headCount] at hcount
  rw [HeadCurrent]
  omega

@[simp] theorem swing_head (s : State τ) (tail y : ℕ) : (s.swing tail y).head = s.head := by
  rw [State.swing]; split <;> rfl

@[simp] theorem swing_qnext (s : State τ) (tail y : ℕ) : (s.swing tail y).qnext = s.qnext := by
  rw [State.swing]; split <;> rfl

@[simp] theorem swing_inQ (s : State τ) (tail y : ℕ) : (s.swing tail y).inQ = s.inQ := by
  rw [State.swing]; split <;> rfl

@[simp] theorem swing_task (s : State τ) (tail y : ℕ) : (s.swing tail y).task = s.task := by
  rw [State.swing]; split <;> rfl

@[simp] theorem swing_history (s : State τ) (tail y : ℕ) :
    (s.swing tail y).history = s.history := by
  rw [State.swing]; split <;> rfl

@[simp] theorem swing_headChanges (s : State τ) (tail y : ℕ) :
    (s.swing tail y).headChanges = s.headChanges := by
  rw [State.swing]; split <;> rfl

@[simp] theorem swing_headSeen (s : State τ) (tail y : ℕ) :
    (s.swing tail y).headSeen = s.headSeen := by
  rw [State.swing]; split <;> rfl

@[simp] theorem swing_tailSeen (s : State τ) (tail y : ℕ) :
    (s.swing tail y).tailSeen = s.tailSeen := by
  rw [State.swing]; split <;> rfl

theorem swing_tail {y : ℕ} (h : s.tail = tail) : (s.swing tail y).tail = nextLink tail y := by
  rw [State.swing, if_pos h]

theorem swing_tailChanges {y : ℕ} (h : s.tail = tail) :
    (s.swing tail y).tailChanges = s.tailChanges + 1 := by
  rw [State.swing, if_pos h]

@[simp] theorem swing_link (s : State τ) (tail y : ℕ) : (s.swing tail y).link = s.link := by
  funext b
  rw [State.link, State.link, swing_qnext]

/-- Moving `tail` on to the buffer behind it -/
theorem Shape.swing {y : ℕ} (h : Shape s q) (hseen : TailSeen s t tail)
    (hlink : TailCurrent s t → s.link (PTR tail) = some y)
    (hrecent : s.tailChanges < s.tailSeen t + 2 ^ 32) :
    Shape (s.swing tail y) q ∧ Evolves s q (s.swing tail y) q := by
  by_cases heq : s.tail = tail
  · have htail := h.tail
    rw [heq] at htail
    obtain ⟨hy, hne⟩ := h.succ htail (hlink (hseen.of_eq h heq.symm hrecent))
    have hptr : PTR (s.swing tail y).tail = y := by
      rw [swing_tail heq, Bio.PTR_nextLink (h.lt hy)]
    have hchanges := swing_tailChanges (y := y) heq
    constructor
    · refine ⟨?_, h.nodup, h.buffers, hptr.symm ▸ hy, ?_, ?_⟩
      · rw [swing_link, swing_head]; exact h.chain
      · rw [swing_head, swing_headChanges]; exact h.headCount
      · rw [swing_tail heq, hchanges, CNT_nextLink (h.lt hy), ← heq, h.tailCount, Nat.mod_add_mod,
          Nat.add_assoc]
    · refine ⟨(swing_headChanges ..).ge, fun _ => swing_head .., by omega, fun hsame => ?_, ?_, ?_⟩
      · omega
      · exact fun a _ _ b hb => by rw [swing_link]; exact hb
      · exact fun _ _ => by rw [hptr]; exact hne
  · rw [State.swing, if_neg heq]
    exact ⟨h, .refl s q⟩

end Invariant

/-! ### Steps that change the queue -/

section Steps

variable {s s' : State τ} {q q' : List ℕ} {t : τ} {b head tail next ret : ℕ} {pc : Pc} {r : Res}

@[simp] theorem goto_task (s : State τ) (t : τ) (pc : Pc) : (s.goto t pc).task t = pc :=
  Function.update_self ..

@[simp] theorem finish_task (s : State τ) (t : τ) (r : Res) : (s.finish t r).task t = .idle :=
  Function.update_self ..

theorem others_goto (htask : s'.task = s.task) (hhead : s'.headSeen = s.headSeen)
    (htail : s'.tailSeen = s.tailSeen) : Others s t (s'.goto t pc) where
  task := fun t' ht => (Function.update_of_ne ht ..).trans (congrFun htask t')
  headSeen := fun t' _ => congrFun hhead t'
  tailSeen := fun t' _ => congrFun htail t'

/-- An `enqueue` finds the flag of its buffer clear. -/
theorem Inv.enqFlag (hi : Inv s q) (hpc : s.task t = .enqFlag b) (hclear : s.inQ b = 0)
    (hg : Careful s (.run t)) :
    Inv ({ s with inQ := Function.update s.inQ b 1 }.goto t (.enqNull b)) q := by
  have hb : b ≤ NBUF := by
    have hloc := hi.loc t
    rw [hpc] at hloc
    exact hloc
  -- the buffer is nowhere, for otherwise it would be marked
  have hout : b ∉ q ∧ ∀ t', (s.task t').carry ≠ some b := by
    by_cases hdummy : b = NBUF
    · rw [Careful, hpc] at hg
      obtain ⟨hnot, hcarry⟩ := hg hdummy hclear
      exact ⟨fun hmem => hnot ⟨q, hi.shape.chain, hmem⟩, hcarry⟩
    · refine ⟨fun hmem => ?_, fun t' hcarry => ?_⟩
      · have := hi.marks.queued b hmem hdummy
        omega
      · have := (hi.marks.carried t' b hcarry).2.2 hdummy
        omega
  have hothers : Others s t ({ s with inQ := Function.update s.inQ b 1 }.goto t (.enqNull b)) :=
    others_goto rfl rfl rfl
  have hflag : ∀ b', s.inQ b' = 1 → Function.update s.inQ b 1 b' = 1 := by
    intro b' h
    by_cases hbb : b' = b
    · rw [hbb, Function.update_self]
    · rw [Function.update_of_ne hbb, h]
  have hsame : SameQueue s ({ s with inQ := Function.update s.inQ b 1 }.goto t (.enqNull b)) :=
    ⟨rfl, rfl, rfl, rfl, rfl⟩
  refine hi.step_of (hsame.shape hi.shape) ⟨?_, ?_, ?_⟩ (hsame.evolves q) hothers
    (fun _ _ _ _ hl => hl) (by rw [goto_task]; trivial)
  · exact fun b' hb' hne => hflag b' (hi.marks.queued b' hb' hne)
  · intro t' b' hcarry
    by_cases ht : t' = t
    · rw [ht, goto_task] at hcarry
      cases hcarry
      exact ⟨hout.1, hb, fun _ => Function.update_self ..⟩
    · rw [hothers.task t' ht] at hcarry
      obtain ⟨h1, h2, h3⟩ := hi.marks.carried t' b' hcarry
      exact ⟨h1, h2, fun hne => hflag b' (h3 hne)⟩
  · intro t₁ t₂ b' h₁ h₂
    by_cases ht₁ : t₁ = t <;> by_cases ht₂ : t₂ = t
    · rw [ht₁, ht₂]
    · rw [ht₁, goto_task] at h₁
      cases h₁
      rw [hothers.task t₂ ht₂] at h₂
      exact absurd h₂ (hout.2 t₂)
    · rw [ht₂, goto_task] at h₂
      cases h₂
      rw [hothers.task t₁ ht₁] at h₁
      exact absurd h₁ (hout.2 t₁)
    · rw [hothers.task t₁ ht₁] at h₁
      rw [hothers.task t₂ ht₂] at h₂
      exact hi.marks.sole t₁ t₂ b' h₁ h₂

omit [DecidableEq τ] in
/-- Writing the link of one buffer -/
theorem link_update (s : State τ) (a w : ℕ) :
    ({ s with qnext := Function.update s.qnext a w } : State τ).link =
      Function.update s.link a (linked w) := by
  funext b
  by_cases hb : b = a
  · subst hb; simp [State.link]
  · simp [State.link, hb]

/-- `enqueue` clears the link of its buffer, which is not in the queue. -/
theorem Inv.enqNull (hi : Inv s q) (hpc : s.task t = .enqNull b) :
    Inv ({ s with qnext := Function.update s.qnext b (CNTPTR 0 PTRNULL) }.goto t (.enqTail b)) q := by
  have hcarry : (s.task t).carry = some b := by rw [hpc]; rfl
  obtain ⟨hout, -, -⟩ := hi.marks.carried t b hcarry
  set s' := ({ s with qnext := Function.update s.qnext b (CNTPTR 0 PTRNULL) } : State τ).goto t
    (.enqTail b) with hs'
  have hlink : s'.link = Function.update s.link b none := by
    have hnull : linked (CNTPTR 0 PTRNULL) = none := by decide
    rw [← hnull]
    exact link_update s b _
  have hothers : Others s t s' := others_goto rfl rfl rfl
  refine hi.step_of ⟨?_, hi.shape.nodup, hi.shape.buffers, hi.shape.tail, hi.shape.headCount,
    hi.shape.tailCount⟩ (hi.marks.of_carry rfl hothers ?_) ⟨le_rfl, fun _ => rfl, le_rfl,
    fun _ => rfl, ?_, fun _ => id⟩ hothers ?_ ?_
  · rw [hlink]
    exact hi.shape.chain.update hout none
  · rw [hs', goto_task, hpc]
    exact fun _ h => h
  · intro a ha _ c hc
    have hne : a ≠ b := fun hab => hout (hab ▸ ha)
    rw [hlink, Function.update_of_ne hne]
    exact hc
  · intro t' b' ht hcarry' hnone
    have hne : b' ≠ b := fun hbb => ht (hi.marks.sole t' t b (hbb ▸ hcarry') hcarry)
    rw [hlink, Function.update_of_ne hne]
    exact hnone
  · rw [hs', goto_task]
    show s'.link b = none
    rw [hlink, Function.update_self]

/-- `enqueue` links its buffer behind the last one. -/
theorem Inv.enqLink (hi : Inv s q) (hpc : s.task t = .enqLink b tail next)
    (hcas : s.qnext (PTR tail) = next) (hg : Careful s (.run t)) :
    b ∉ q ∧
      Inv ({ s with qnext := Function.update s.qnext (PTR tail) (nextLink next b) }.goto t
        (.enqSwing b tail)) (q ++ [b]) := by
  have hcarry : (s.task t).carry = some b := by rw [hpc]; rfl
  obtain ⟨hout, hb, hmark⟩ := hi.marks.carried t b hcarry
  have hloc := hi.loc t
  rw [hpc] at hloc
  obtain ⟨hnone, hseen, hnull⟩ := hloc
  -- the buffer that is linked to is the last one of the queue
  rw [Careful, hpc] at hg
  obtain ⟨q₁, hq₁, hmem⟩ := hg hcas
  rw [hq₁.unique hi.shape.chain] at hmem
  have hend : s.link (PTR tail) = none := by
    rw [State.link, hcas, linked, if_pos hnull]
  obtain ⟨xs, rfl⟩ := hi.shape.last hmem hend
  set s' := ({ s with qnext := Function.update s.qnext (PTR tail) (nextLink next b) } :
    State τ).goto t (.enqSwing b tail) with hs'
  have hlink : s'.link = Function.update s.link (PTR tail) (some b) := by
    rw [← linked_CNTPTR (x := CNT next + 1) (Bio.lt_of_le_NBUF hb)]
    exact link_update s _ _
  have hothers : Others s t s' := others_goto rfl rfl rfl
  refine ⟨hout, hi.step_of ⟨?_, ?_, ?_, List.mem_append_left _ hi.shape.tail, hi.shape.headCount,
    hi.shape.tailCount⟩ ⟨?_, ?_, ?_⟩ ⟨le_rfl, fun _ => rfl, le_rfl, fun _ => rfl, ?_, fun _ => id⟩
    hothers ?_ ?_⟩
  · rw [hlink]
    exact hi.shape.chain.snoc hi.shape.nodup hout hnone
  · exact hi.shape.nodup.append (List.nodup_singleton _) (List.disjoint_singleton.mpr hout)
  · intro b' hb'
    rcases List.mem_append.mp hb' with hold | hnew
    · exact hi.shape.buffers b' hold
    · rw [List.mem_singleton.mp hnew]; exact hb
  · intro b' hb' hne
    rcases List.mem_append.mp hb' with hold | hnew
    · exact hi.marks.queued b' hold hne
    · rw [List.mem_singleton.mp hnew] at hne ⊢
      exact hmark hne
  · intro t' b' hcarry'
    by_cases ht : t' = t
    · rw [ht, hs', goto_task] at hcarry'
      cases hcarry'
    · rw [hothers.task t' ht] at hcarry'
      obtain ⟨h1, h2, h3⟩ := hi.marks.carried t' b' hcarry'
      refine ⟨fun hmem' => ?_, h2, h3⟩
      rcases List.mem_append.mp hmem' with hold | hnew
      · exact h1 hold
      · rw [List.mem_singleton.mp hnew] at hcarry'
        exact ht (hi.marks.sole t' t b hcarry' hcarry)
  · intro t₁ t₂ b' h₁ h₂
    have hkeep : ∀ t', (s'.task t').carry = some b' → (s.task t').carry = some b' := by
      intro t' h
      by_cases ht : t' = t
      · rw [ht, hs', goto_task] at h
        cases h
      · rwa [hothers.task t' ht] at h
    exact hi.marks.sole t₁ t₂ b' (hkeep t₁ h₁) (hkeep t₂ h₂)
  · intro a _ _ c hc
    have hne : a ≠ PTR tail := fun hat => by rw [hat, hend] at hc; cases hc
    rw [hlink, Function.update_of_ne hne]
    exact hc
  · intro t' b' _ hcarry' hnone'
    have hne : b' ≠ PTR tail := fun hbt => (hi.marks.carried t' b' hcarry').1 (hbt ▸ hmem)
    rw [hlink, Function.update_of_ne hne]
    exact hnone'
  · rw [hs', goto_task]
    refine ⟨⟨hseen.le, hseen.count, hseen.current⟩, fun _ => ?_⟩
    show s'.link (PTR tail) = some b
    rw [hlink, Function.update_self]

/-- What replacing `head` leaves alone -/
theorem setHead_frame (s : State τ) (w : ℕ) (t : τ) (pc : Pc) :
    ((s.setHead w).goto t pc).tail = s.tail ∧
      ((s.setHead w).goto t pc).tailChanges = s.tailChanges ∧
      ((s.setHead w).goto t pc).link = s.link ∧ ((s.setHead w).goto t pc).inQ = s.inQ ∧
      Others s t ((s.setHead w).goto t pc) :=
  ⟨rfl, rfl, rfl, rfl, others_goto rfl rfl rfl⟩

/-- `dequeue` takes the first buffer of the queue, which has another one behind it. -/
theorem Inv.deqCas (hi : Inv s q) (hpc : s.task t = .deqCas head next) (hcas : s.head = head)
    (hg : Careful s (.run t)) :
    ∃ rest, q = PTR head :: PTR next :: rest ∧
      Inv ((s.setHead (nextLink head (PTR next))).goto t (.deqFlag (PTR head))) (PTR next :: rest) := by
  have hloc := hi.loc t
  rw [hpc] at hloc
  obtain ⟨hseen, hlocal⟩ := hloc
  simp only [Careful, hpc] at hg
  obtain ⟨htail, hlink⟩ := hlocal (hseen.of_eq hi.shape hcas.symm hg)
  subst hcas
  obtain ⟨xs, rfl, hxs⟩ := hi.shape.chain.eq_cons
  rw [hlink] at hxs
  obtain ⟨rest, rfl, hrest⟩ := hxs.eq_cons
  have hlt : PTR next < 2 ^ 32 := hi.shape.lt (List.mem_cons_of_mem _ List.mem_cons_self)
  have hnd := List.nodup_cons.mp hi.shape.nodup
  have hfree : ∀ t', (s.task t').carry ≠ some (PTR s.head) := fun t' hc =>
    (hi.marks.carried t' _ hc).1 List.mem_cons_self
  have hptr : PTR (nextLink s.head (PTR next)) = PTR next := Bio.PTR_nextLink hlt
  have hcnt : CNT (nextLink s.head (PTR next)) = (s.headChanges + 1) % 2 ^ 32 := by
    rw [CNT_nextLink hlt, hi.shape.headCount, Nat.mod_add_mod]
  -- the counter moves on, so what others have read of `head` is stale now
  refine ⟨rest, rfl, ?_⟩
  generalize nextLink s.head (PTR next) = w at hptr hcnt ⊢
  generalize hs' : (s.setHead w).goto t (.deqFlag (PTR s.head)) = s'
  have hhead : s'.head = w := by rw [← hs']; rfl
  have hchanges : s'.headChanges = s.headChanges + 1 := by rw [← hs']; rfl
  have hmoved : s'.headChanges ≠ s.headChanges := hchanges.trans_ne (Nat.succ_ne_self _)
  obtain ⟨htail', htailChanges, hlinks, hinQ, hothers⟩ :=
    hs' ▸ setHead_frame s w t (.deqFlag (PTR s.head))
  have htask : s'.task t = .deqFlag (PTR s.head) := by rw [← hs', goto_task]
  refine hi.step_of ⟨?_, hnd.2, fun b hb => hi.shape.buffers b (List.mem_cons_of_mem _ hb), ?_, ?_, ?_⟩
    ⟨?_, ?_, ?_⟩ ⟨hchanges ▸ Nat.le_succ _, fun h => absurd h hmoved, htailChanges.ge, fun _ => htail',
      ?_, fun h => absurd h hmoved⟩ hothers ?_ ?_
  · rw [hlinks, hhead, hptr]
    exact hxs
  · rw [htail']
    exact (List.mem_cons.mp hi.shape.tail).resolve_left htail
  · rw [hhead, hchanges]
    exact hcnt
  · rw [htail', htailChanges]
    exact hi.shape.tailCount
  · intro b hb hne
    rw [hinQ]
    exact hi.marks.queued b (List.mem_cons_of_mem _ hb) hne
  · intro t' b hcarry
    by_cases ht : t' = t
    · rw [ht, htask] at hcarry
      cases hcarry
      refine ⟨hnd.1, hi.shape.buffers _ List.mem_cons_self, fun hne => ?_⟩
      rw [hinQ]
      exact hi.marks.queued _ List.mem_cons_self hne
    · rw [hothers.task t' ht] at hcarry
      obtain ⟨h1, h2, h3⟩ := hi.marks.carried t' b hcarry
      refine ⟨fun hmem => h1 (List.mem_cons_of_mem _ hmem), h2, ?_⟩
      rw [hinQ]
      exact h3
  · intro t₁ t₂ b h₁ h₂
    by_cases ht₁ : t₁ = t <;> by_cases ht₂ : t₂ = t
    · rw [ht₁, ht₂]
    · rw [ht₁, htask] at h₁
      cases h₁
      rw [hothers.task t₂ ht₂] at h₂
      exact absurd h₂ (hfree t₂)
    · rw [ht₂, htask] at h₂
      cases h₂
      rw [hothers.task t₁ ht₁] at h₁
      exact absurd h₁ (hfree t₁)
    · rw [hothers.task t₁ ht₁] at h₁
      rw [hothers.task t₂ ht₂] at h₂
      exact hi.marks.sole t₁ t₂ b h₁ h₂
  · intro a _ _ c hc
    rw [hlinks]
    exact hc
  · intro t' b _ _ hnone
    rw [hlinks]
    exact hnone
  · rw [htask]
    trivial

/-- `dequeue` clears the flag of the buffer that it has taken. -/
theorem Inv.deqFlag (hi : Inv s q) (hpc : s.task t = .deqFlag ret) :
    Inv ({ s with inQ := Function.update s.inQ ret 0 }.finish t r) q := by
  have hcarry : (s.task t).carry = some ret := by rw [hpc]; rfl
  obtain ⟨hout, -, -⟩ := hi.marks.carried t ret hcarry
  set s' := ({ s with inQ := Function.update s.inQ ret 0 } : State τ).finish t r with hs'
  have hsame : SameQueue s s' := ⟨rfl, rfl, rfl, rfl, rfl⟩
  have hothers : Others s t s' :=
    ⟨fun t' ht => Function.update_of_ne ht .., fun _ _ => rfl, fun _ _ => rfl⟩
  have hkeep : ∀ t' b, (s'.task t').carry = some b → t' ≠ t ∧ (s.task t').carry = some b := by
    intro t' b h
    have ht : t' ≠ t := fun ht => by rw [ht, hs', finish_task] at h; cases h
    exact ⟨ht, by rwa [hothers.task t' ht] at h⟩
  have hflag : ∀ b, b ≠ ret → s'.inQ b = s.inQ b := fun b hb => Function.update_of_ne hb ..
  refine hi.step_of (hsame.shape hi.shape) ⟨?_, ?_, ?_⟩ (hsame.evolves q) hothers
    (fun _ _ _ _ hl => hl) (by rw [hs', finish_task]; trivial)
  · intro b hb hne
    rw [hflag b fun hbr => hout (hbr ▸ hb)]
    exact hi.marks.queued b hb hne
  · intro t' b hcarry'
    obtain ⟨ht, hold⟩ := hkeep t' b hcarry'
    rw [hflag b fun hbr => ht (hi.marks.sole t' t ret (hbr ▸ hold) hcarry)]
    exact hi.marks.carried t' b hold
  · exact fun t₁ t₂ b h₁ h₂ => hi.marks.sole t₁ t₂ b (hkeep t₁ b h₁).2 (hkeep t₂ b h₂).2

omit [DecidableEq τ] in
/-- A task moves `tail` on. -/
theorem Inv.swing {y : ℕ} (hi : Inv s q) (hseen : TailSeen s t tail)
    (hlink : TailCurrent s t → s.link (PTR tail) = some y)
    (hrecent : s.tailChanges < s.tailSeen t + 2 ^ 32)
    (hs' : s'.head = (s.swing tail y).head ∧ s'.tail = (s.swing tail y).tail ∧
      s'.qnext = s.qnext ∧ s'.inQ = s.inQ ∧ s'.headChanges = s.headChanges ∧
      s'.tailChanges = (s.swing tail y).tailChanges)
    (hothers : Others s t s') (hcarry : ∀ b, (s'.task t).carry = some b → (s.task t).carry = some b)
    (hown : Local s' t (s'.task t)) : Inv s' q := by
  obtain ⟨hhead, htail, hqnext, hinQ, hheadChanges, htailChanges⟩ := hs'
  obtain ⟨hshape, he⟩ := hi.shape.swing hseen hlink hrecent
  have hsame : SameQueue (s.swing tail y) s' :=
    ⟨hhead, htail, by rw [hqnext, swing_qnext], by rw [hheadChanges, swing_headChanges], htailChanges⟩
  have hlinks : s'.link = s.link := by rw [hsame.link, swing_link]
  have he' : Evolves s q s' q := by
    refine ⟨hheadChanges.ge, fun _ => by rw [hhead, swing_head], ?_, fun hc => ?_, ?_, fun hc hne => ?_⟩
    · rw [htailChanges]; exact he.tailLe
    · rw [htail]; exact he.tailSame (by rw [← htailChanges]; exact hc)
    · exact fun a _ _ c hc => by rw [hlinks]; exact hc
    · rw [htail]; exact he.tailHead (swing_headChanges ..) hne
  exact hi.step_of (hsame.shape hshape) (hi.marks.of_carry hinQ hothers hcarry) he' hothers
    (fun _ _ _ _ hb => by rw [hlinks]; exact hb) hown

end Steps

/-! ## The linearization -/

section Simulation

variable {s s' : State τ} {q q' : List ℕ} {t : τ} {op : Op} {r : Res}

/-- How far a task is. A `dequeue` that has found nothing behind the current `head` may have taken
    place already (`single`), if it is going to return 0. -/
def Pc.progress (single : Bool) : Pc → Progress Op Res
  | .idle => .idle
  | .enqFlag b | .enqNull b | .enqTail b | .enqNext b _ | .enqCheck b _ _ | .enqLink b _ _
  | .enqHelp b _ _ => .pending (.enqueue b)
  | .enqSwing b _ => .done (.enqueued b)
  | .deqCheck _ _ next => if single = true ∧ PTR next = PTRNULL then .done .empty else .pending .dequeue
  | .deqFlag b => .done (.dequeued b)
  | .deqHead | .deqTail _ | .deqNext _ _ | .deqHelp _ _ | .deqCas _ _ => .pending .dequeue

/-- How far the tasks are, where `c` chooses the tasks that are going to return 0 -/
def progress (s : State τ) (c : τ → Bool) (t : τ) : Progress Op Res :=
  (s.task t).progress (c t && decide (s.headSeen t = s.headChanges))

/-- The atomic queue can be where the tasks are, whichever of them are going to return 0. -/
def Sim (s : State τ) (q : List ℕ) : Prop := ∀ c, ∃ log, fifo.Atomic s.history log q (progress s c)

theorem progress_step (hothers : Others s t s') (hchanges : s'.headChanges = s.headChanges)
    (c : τ → Bool) (x : Bool) :
    progress s' c = Function.update (progress s (Function.update c t x)) t
      ((s'.task t).progress (c t && decide (s'.headSeen t = s'.headChanges))) := by
  funext t'
  by_cases ht : t' = t
  · subst ht
    rw [Function.update_self, progress]
  · rw [Function.update_of_ne ht, progress, progress, Function.update_of_ne ht, hothers.task t' ht,
      hothers.headSeen t' ht, hchanges]

theorem progress_self (s : State τ) (c : τ → Bool) (t : τ) :
    progress s (Function.update c t false) t = (s.task t).progress false := by
  rw [progress, Function.update_self, Bool.false_and]

/-- A step at which nothing takes place -/
theorem Sim.quiet (h : Sim s q) (hothers : Others s t s') (hchanges : s'.headChanges = s.headChanges)
    (hhist : s'.history = s.history)
    (hp : ∀ x, (s'.task t).progress x = (s.task t).progress false) : Sim s' q := by
  intro c
  obtain ⟨log, ha⟩ := h (Function.update c t false)
  refine ⟨log, ?_⟩
  rw [hhist, progress_step hothers hchanges c false, hp, ← progress_self s c t,
    Function.update_eq_self]
  exact ha

/-- A step at which the operation of the task takes place -/
theorem Sim.take (h : Sim s q) (hothers : Others s t s') (hchanges : s'.headChanges = s.headChanges)
    (hhist : s'.history = s.history) (hold : (s.task t).progress false = .pending op)
    (hnew : ∀ x, (s'.task t).progress x = .done r) (hnext : Fifo q op r q') : Sim s' q' := by
  intro c
  obtain ⟨log, ha⟩ := h (Function.update c t false)
  refine ⟨log ++ [(op, r)], ?_⟩
  rw [hhist, progress_step hothers hchanges c false, hnew]
  exact .take ha ((progress_self s c t).trans hold) hnext

/-- A step at which the task returns; `x` tells whether it has been going to return 0. -/
theorem Sim.ret (h : Sim s q) (x : Bool) (hothers : Others s t s')
    (hchanges : s'.headChanges = s.headChanges) (hhist : s'.history = s.history ++ [.ret t r])
    (hold : (s.task t).progress (x && decide (s.headSeen t = s.headChanges)) = .done r)
    (hidle : s'.task t = .idle) : Sim s' q := by
  intro c
  obtain ⟨log, ha⟩ := h (Function.update c t x)
  refine ⟨log, ?_⟩
  have hdone : progress s (Function.update c t x) t = .done r := by
    rw [progress, Function.update_self]
    exact hold
  rw [hhist, progress_step hothers hchanges c x, hidle]
  exact .ret ha hdone

/-- The operation takes place, and the task returns. -/
theorem Sim.takeRet (h : Sim s q) (hothers : Others s t s')
    (hchanges : s'.headChanges = s.headChanges) (hhist : s'.history = s.history ++ [.ret t r])
    (hold : (s.task t).progress false = .pending op) (hidle : s'.task t = .idle)
    (hnext : Fifo q op r q') : Sim s' q' := by
  intro c
  obtain ⟨log, ha⟩ := h (Function.update c t false)
  refine ⟨log ++ [(op, r)], ?_⟩
  have htake := ha.take ((progress_self s c t).trans hold) hnext
  have hret := htake.ret (Function.update_self ..)
  rw [Function.update_idem] at hret
  rw [hhist, progress_step hothers hchanges c false, hidle]
  exact hret

/-- A task calls an operation. -/
theorem Sim.call (h : Sim s q) (hothers : Others s t s') (hchanges : s'.headChanges = s.headChanges)
    (hhist : s'.history = s.history ++ [.call t op]) (hold : s.task t = .idle)
    (hnew : ∀ x, (s'.task t).progress x = .pending op) : Sim s' q := by
  intro c
  obtain ⟨log, ha⟩ := h (Function.update c t false)
  refine ⟨log, ?_⟩
  have hidle : progress s (Function.update c t false) t = .idle := by rw [progress_self, hold]; rfl
  rw [hhist, progress_step hothers hchanges c false, hnew]
  exact .call op ha hidle

/-- A `dequeue` loads the link of `head`. If there is none, the queue is a single buffer. -/
theorem Sim.deqNext {head tail : ℕ} (h : Sim s q) (hi : Inv s q) (hpc : s.task t = .deqNext head tail) :
    Sim (s.goto t (.deqCheck head tail (s.qnext (PTR head)))) q := by
  set s' := s.goto t (.deqCheck head tail (s.qnext (PTR head))) with hs'
  have hothers : Others s t s' := others_goto rfl rfl rfl
  have htask : s'.task t = .deqCheck head tail (s.qnext (PTR head)) := goto_task ..
  intro c
  obtain ⟨log, ha⟩ := h (Function.update c t false)
  have hpending : progress s (Function.update c t false) t = .pending .dequeue := by
    rw [progress_self, hpc]; rfl
  rw [show s'.history = s.history from rfl, progress_step hothers rfl c false, htask]
  by_cases hsingle : (c t && decide (s'.headSeen t = s'.headChanges)) = true ∧
      PTR (s.qnext (PTR head)) = PTRNULL
  · have hloc := hi.loc t
    rw [hpc] at hloc
    rw [Bool.and_eq_true, decide_eq_true_eq] at hsingle
    obtain ⟨⟨hc, hcur⟩, hnull⟩ := hsingle
    obtain rfl := hloc.1.current hcur
    -- nothing is linked behind the first buffer
    obtain ⟨xs, rfl, hxs⟩ := hi.shape.chain.eq_cons
    have hnone : s.link (PTR s.head) = none := by rw [State.link, linked, if_pos hnull]
    rw [hnone] at hxs
    obtain rfl := hxs.eq_nil
    refine ⟨log ++ [(.dequeue, .empty)], ?_⟩
    rw [Pc.progress, if_pos ⟨by rw [hc, decide_eq_true hcur]; rfl, hnull⟩]
    exact .take ha hpending (.empty _)
  · refine ⟨log, ?_⟩
    rw [Pc.progress, if_neg hsingle, ← hpending, Function.update_eq_self]
    exact ha

/-- A `dequeue` takes the first buffer. Nobody else's `head` is current then. -/
theorem Sim.deqCas {head next w : ℕ} {rest : List ℕ} (h : Sim s (PTR head :: PTR next :: rest))
    (hi : Inv s (PTR head :: PTR next :: rest)) (hpc : s.task t = .deqCas head next) :
    Sim ((s.setHead w).goto t (.deqFlag (PTR head))) (PTR next :: rest) := by
  intro c
  obtain ⟨log, ha⟩ := h fun _ => false
  refine ⟨log ++ [(.dequeue, .dequeued (PTR head))], ?_⟩
  have hpending : progress s (fun _ => false) t = .pending .dequeue := by
    rw [progress, hpc]; rfl
  have hnew : progress ((s.setHead w).goto t (.deqFlag (PTR head))) c =
      Function.update (progress s fun _ => false) t (.done (.dequeued (PTR head))) := by
    funext t'
    by_cases ht : t' = t
    · subst ht
      rw [Function.update_self, progress, goto_task]
      rfl
    · have htask : ((s.setHead w).goto t (.deqFlag (PTR head))).task t' = s.task t' :=
        Function.update_of_ne ht ..
      have hseen : ((s.setHead w).goto t (.deqFlag (PTR head))).headSeen t' = s.headSeen t' := rfl
      have hchanges : ((s.setHead w).goto t (.deqFlag (PTR head))).headChanges = s.headChanges + 1 :=
        rfl
      rw [Function.update_of_ne ht, progress, progress, htask, hseen, hchanges]
      have hloc := hi.loc t'
      -- only a test of an empty queue could still be about the old head
      cases hp : s.task t' with
      | deqCheck head' tail' next' =>
        rw [hp] at hloc
        have hle := hloc.1.le
        rw [decide_eq_false (by omega), Bool.and_false, Bool.false_and]
      | _ => rfl
  rw [hnew]
  exact .take ha hpending (.dequeued ..)

end Simulation

/-! ## Runs -/

section Runs

variable {s s' : State τ} {q : List ℕ} {t : τ} {b tail next : ℕ} {pc : Pc} {r : Res}

/-- The invariant of a run -/
def Good (s : State τ) : Prop := ∃ q, Inv s q ∧ Sim s q

theorem others_finish (htask : s'.task = s.task) (hhead : s'.headSeen = s.headSeen)
    (htail : s'.tailSeen = s.tailSeen) : Others s t (s'.finish t r) :=
  ⟨fun t' ht => (Function.update_of_ne ht ..).trans (congrFun htask t'),
    fun t' _ => congrFun hhead t', fun t' _ => congrFun htail t'⟩

theorem others_sawHead : Others s t ((s.sawHead t).goto t pc) :=
  ⟨fun _ ht => Function.update_of_ne ht .., fun _ ht => Function.update_of_ne ht .., fun _ _ => rfl⟩

theorem others_sawTail : Others s t ((s.sawTail t).goto t pc) :=
  ⟨fun _ ht => Function.update_of_ne ht .., fun _ _ => rfl, fun _ ht => Function.update_of_ne ht ..⟩

/-- A task that has just loaded `tail` -/
theorem tailSeen_sawTail (hi : Inv s q) : TailSeen ((s.sawTail t).goto t pc) t s.tail where
  le := (Function.update_self t s.tailChanges s.tailSeen).le
  count := by
    rw [show ((s.sawTail t).goto t pc).tailSeen t = s.tailChanges from Function.update_self ..]
    exact hi.shape.tailCount
  current _ := rfl

theorem headSeen_sawHead (hi : Inv s q) : HeadSeen ((s.sawHead t).goto t pc) t s.head where
  le := (Function.update_self t s.headChanges s.headSeen).le
  count := by
    rw [show ((s.sawHead t).goto t pc).headSeen t = s.headChanges from Function.update_self ..]
    exact hi.shape.headCount
  current _ := rfl

/-- A step of one task from one access to the next, which leaves the queue alone -/
theorem good_goto (hi : Inv s q) (hsim : Sim s q) (hcarry : pc.carry = (s.task t).carry)
    (hp : ∀ x, pc.progress x = (s.task t).progress false) (hown : Local (s.goto t pc) t pc) :
    Good (s.goto t pc) := by
  have hothers : Others s t (s.goto t pc) := others_goto rfl rfl rfl
  refine ⟨q, hi.quiet ⟨rfl, rfl, rfl, rfl, rfl⟩ rfl hothers (fun b hb => ?_) ?_,
    hsim.quiet hothers rfl rfl fun x => ?_⟩
  · rwa [goto_task, hcarry] at hb
  · rwa [goto_task]
  · rw [goto_task, hp]

/-- A step of a task that moves `tail` on -/
theorem good_swing {y : ℕ} (hi : Inv s q) (hsim : Sim s q) (hseen : TailSeen s t tail)
    (hlink : TailCurrent s t → s.link (PTR tail) = some y)
    (hrecent : s.tailChanges < s.tailSeen t + 2 ^ 32)
    (hcarry : ∀ b, pc.carry = some b → (s.task t).carry = some b)
    (hp : ∀ x, pc.progress x = (s.task t).progress false)
    (hown : Local ((s.swing tail y).goto t pc) t pc) : Good ((s.swing tail y).goto t pc) := by
  have hothers : Others s t ((s.swing tail y).goto t pc) :=
    others_goto (swing_task ..) (swing_headSeen ..) (swing_tailSeen ..)
  refine ⟨q, hi.swing hseen hlink hrecent ⟨rfl, rfl, swing_qnext .., swing_inQ ..,
    swing_headChanges .., rfl⟩ hothers (fun b hb => ?_) ?_,
    hsim.quiet hothers (swing_headChanges ..) (swing_history ..) fun x => ?_⟩
  · rw [goto_task] at hb
    exact hcarry b hb
  · rwa [goto_task]
  · rw [goto_task, hp]

/-- **One access** of a task keeps the invariant. -/
theorem good_run (hi : Inv s q) (hsim : Sim s q) (hg : Careful s (.run t))
    (h : runStep s t = some s') : Good s' := by
  have hloc := hi.loc t
  rw [runStep] at h
  cases hpc : s.task t with
  | idle => rw [hpc] at h; cases h
  | enqFlag b =>
    simp only [hpc] at h
    split at h
    · next hclear =>
      cases h
      refine ⟨q, hi.enqFlag hpc hclear hg, hsim.quiet (t := t) (others_goto rfl rfl rfl) rfl rfl
        fun x => ?_⟩
      rw [goto_task, hpc]
      rfl
    · cases h
      refine ⟨q, hi.quiet (t := t) ⟨rfl, rfl, rfl, rfl, rfl⟩ rfl (others_finish rfl rfl rfl) (fun b hb => ?_) ?_,
        hsim.takeRet (t := t) (others_finish rfl rfl rfl) rfl rfl (by rw [hpc]; rfl) (finish_task ..)
          (.present q b)⟩
      · rw [finish_task] at hb; cases hb
      · rw [finish_task]; trivial
  | enqNull b =>
    simp only [hpc] at h
    cases h
    refine ⟨q, hi.enqNull hpc, hsim.quiet (t := t) (others_goto rfl rfl rfl) rfl rfl fun x => ?_⟩
    rw [goto_task, hpc]
    rfl
  | enqTail b =>
    rw [hpc] at hloc
    simp only [hpc] at h
    cases h
    refine ⟨q, hi.quiet (t := t) ⟨rfl, rfl, rfl, rfl, rfl⟩ rfl others_sawTail (fun b hb => ?_) ?_,
      hsim.quiet (t := t) others_sawTail rfl rfl fun x => ?_⟩
    · rw [goto_task] at hb; rwa [hpc]
    · rw [goto_task]; exact ⟨hloc, tailSeen_sawTail hi⟩
    · rw [goto_task, hpc]; rfl
  | enqNext b tail =>
    rw [hpc] at hloc
    simp only [hpc] at h
    cases h
    refine good_goto hi hsim (by rw [hpc]; rfl) (fun x => by rw [hpc]; rfl) ⟨hloc.1,
      ⟨hloc.2.le, hloc.2.count, hloc.2.current⟩, fun _ hnext => ?_⟩
    exact if_neg hnext
  | enqCheck b tail next =>
    rw [hpc] at hloc
    obtain ⟨hb, hseen, hlink⟩ := hloc
    simp only [hpc] at h
    cases h
    have hseen' : ∀ pc, TailSeen (s.goto t pc) t tail := fun _ =>
      ⟨hseen.le, hseen.count, hseen.current⟩
    refine good_goto hi hsim ?_ (fun x => ?_) ?_
    · rw [hpc]; split <;> [split <;> rfl; rfl]
    · rw [hpc]; split <;> [split <;> rfl; rfl]
    · split
      · split
        · next hnull => exact ⟨hb, hseen' _, hnull⟩
        · next hnext => exact ⟨hb, hseen' _, fun hcur => hlink hcur hnext⟩
      · exact hb
  | enqLink b tail next =>
    simp only [hpc] at h
    split at h
    · next hcas =>
      cases h
      obtain ⟨hout, hi'⟩ := hi.enqLink hpc hcas hg
      refine ⟨q ++ [b], hi', hsim.take (t := t) (others_goto rfl rfl rfl) rfl rfl (by rw [hpc]; rfl)
        (fun x => ?_) (.enqueued hout)⟩
      rw [goto_task]
      rfl
    · cases h
      rw [hpc] at hloc
      exact good_goto hi hsim (by rw [hpc]; rfl) (fun x => by rw [hpc]; rfl) hloc.1
  | enqHelp b tail next =>
    rw [hpc] at hloc
    simp only [Careful, hpc] at hg h
    cases h
    refine good_swing hi hsim hloc.2.1 hloc.2.2 hg (fun b hb => by rw [hpc]; exact hb)
      (fun x => by rw [hpc]; rfl) ?_
    show ((s.swing tail (PTR next)).goto t (.enqTail b)).link b = none
    exact (congrFun (swing_link ..) b).trans hloc.1
  | enqSwing b tail =>
    rw [hpc] at hloc
    simp only [Careful, hpc] at hg h
    cases h
    have hothers : Others s t ((s.swing tail b).finish t (.enqueued b)) :=
      others_finish (swing_task ..) (swing_headSeen ..) (swing_tailSeen ..)
    refine ⟨q, hi.swing hloc.1 hloc.2 hg ⟨rfl, rfl, swing_qnext .., swing_inQ ..,
      swing_headChanges .., rfl⟩ hothers (fun b hb => ?_) ?_,
      hsim.ret false hothers (swing_headChanges ..) ?_ (by rw [hpc]; rfl) (finish_task ..)⟩
    · rw [finish_task] at hb; cases hb
    · rw [finish_task]; trivial
    · exact congrArg (· ++ [.ret t (.enqueued b)]) (swing_history ..)
  | deqHead =>
    simp only [hpc] at h
    cases h
    refine ⟨q, hi.quiet (t := t) ⟨rfl, rfl, rfl, rfl, rfl⟩ rfl others_sawHead (fun b hb => ?_) ?_,
      hsim.quiet (t := t) others_sawHead rfl rfl fun x => ?_⟩
    · rw [goto_task] at hb; cases hb
    · rw [goto_task]; exact headSeen_sawHead hi
    · rw [goto_task, hpc]; rfl
  | deqTail head =>
    rw [hpc] at hloc
    simp only [hpc] at h
    cases h
    refine ⟨q, hi.quiet (t := t) ⟨rfl, rfl, rfl, rfl, rfl⟩ rfl others_sawTail (fun b hb => ?_) ?_,
      hsim.quiet (t := t) others_sawTail rfl rfl fun x => ?_⟩
    · rw [goto_task] at hb; cases hb
    · rw [goto_task]
      exact ⟨⟨hloc.le, hloc.count, hloc.current⟩, tailSeen_sawTail hi, fun _ => id⟩
    · rw [goto_task, hpc]; rfl
  | deqNext head tail =>
    have hsim' := hsim.deqNext hi hpc
    rw [hpc] at hloc
    obtain ⟨hhead, htail, hne⟩ := hloc
    simp only [hpc] at h
    cases h
    refine ⟨q, hi.quiet (t := t) ⟨rfl, rfl, rfl, rfl, rfl⟩ rfl (others_goto rfl rfl rfl) (fun b hb => ?_) ?_,
      hsim'⟩
    · rw [goto_task] at hb; cases hb
    · rw [goto_task]
      refine ⟨⟨hhead.le, hhead.count, hhead.current⟩, ⟨htail.le, htail.count, htail.current⟩,
        fun hcur hpt => ⟨hne hcur hpt, fun hnull => ?_⟩, fun _ hnext => ?_⟩
      · -- the queue has another buffer, which `tail` leads to
        obtain rfl := hhead.current hcur
        obtain ⟨xs, hxs⟩ := hi.shape.last hi.shape.head_mem (by rw [State.link, linked, if_pos hnull])
        obtain ⟨ys, hys, -⟩ := hi.shape.chain.eq_cons
        have hnd := hi.shape.nodup
        have htailMem := hi.shape.tail
        cases xs with
        | nil =>
          rw [hxs] at htailMem
          exact hne hcur hpt (List.mem_singleton.mp htailMem)
        | cons x xs =>
          rw [hxs] at hys hnd
          cases hys
          exact (List.nodup_cons.mp hnd).1 (by simp)
      · exact if_neg hnext
  | deqCheck head tail next =>
    rw [hpc] at hloc
    obtain ⟨hhead, htail, hne, hlink⟩ := hloc
    simp only [Careful, hpc] at hg h
    split at h
    · next heq =>
      have hcur : s.headSeen t = s.headChanges := hhead.of_eq hi.shape heq hg
      split at h
      · next hpt =>
        split at h
        · next hnull =>
          cases h
          refine ⟨q, hi.quiet (t := t) ⟨rfl, rfl, rfl, rfl, rfl⟩ rfl (others_finish rfl rfl rfl)
            (fun b hb => ?_) ?_, hsim.ret true (t := t) (others_finish rfl rfl rfl) rfl rfl ?_
            (finish_task ..)⟩
          · rw [finish_task] at hb; cases hb
          · rw [finish_task]; trivial
          · rw [hpc, Pc.progress, if_pos ⟨by rw [decide_eq_true hcur]; rfl, hnull⟩]
        · next hnext =>
          cases h
          refine good_goto hi hsim (by rw [hpc]; rfl) (fun x => by rw [hpc]; rfl)
            ⟨⟨htail.le, htail.count, htail.current⟩, fun _ => ?_⟩
          rw [← hpt]
          exact hlink hcur hnext
      · next hpt =>
        cases h
        obtain ⟨hne', hnext⟩ := hne hcur fun he => hpt he.symm
        exact good_goto hi hsim (by rw [hpc]; rfl) (fun x => by rw [hpc]; rfl)
          ⟨⟨hhead.le, hhead.count, hhead.current⟩, fun _ => ⟨hne', hlink hcur hnext⟩⟩
    · cases h
      exact good_goto hi hsim (by rw [hpc]; rfl) (fun x => by rw [hpc]; rfl) trivial
  | deqHelp tail next =>
    rw [hpc] at hloc
    simp only [Careful, hpc] at hg h
    cases h
    exact good_swing hi hsim hloc.1 hloc.2 hg (fun b hb => by cases hb) (fun x => by rw [hpc]; rfl) trivial
  | deqCas head next =>
    simp only [hpc] at h
    split at h
    · next hcas =>
      cases h
      obtain ⟨rest, rfl, hi'⟩ := hi.deqCas hpc hcas hg
      exact ⟨_, hi', hsim.deqCas hi hpc⟩
    · cases h
      exact good_goto hi hsim (by rw [hpc]; rfl) (fun x => by rw [hpc]; rfl) trivial
  | deqFlag ret =>
    simp only [hpc] at h
    cases h
    exact ⟨q, hi.deqFlag hpc, hsim.ret false (t := t) (others_finish rfl rfl rfl) rfl rfl
      (by rw [hpc]; rfl) (finish_task ..)⟩

theorem good_step {a : Act τ} (h : Good s) (hg : Careful s a) (hstep : step s a = some s') :
    Good s' := by
  obtain ⟨q, hi, hsim⟩ := h
  cases a with
  | run t => exact good_run hi hsim hg hstep
  | call t op =>
    simp only [step] at hstep
    split at hstep
    · next hidle =>
      cases hstep
      obtain ⟨hidle, hvalid⟩ := hidle
      have hothers : Others s t { s.goto t op.start with history := s.history ++ [.call t op] } :=
        ⟨fun _ ht => Function.update_of_ne ht .., fun _ _ => rfl, fun _ _ => rfl⟩
      have htask : ({ s.goto t op.start with history := s.history ++ [.call t op] } : State τ).task t =
          op.start := Function.update_self ..
      refine ⟨q, hi.quiet (t := t) ⟨rfl, rfl, rfl, rfl, rfl⟩ rfl hothers (fun b hb => ?_) ?_,
        hsim.call (t := t) hothers rfl rfl hidle fun x => ?_⟩
      · rw [htask] at hb
        cases op <;> cases hb
      · rw [htask]
        cases op with
        | enqueue b => exact hvalid
        | dequeue => trivial
      · rw [htask]
        cases op <;> rfl
    · cases hstep

omit [DecidableEq τ] in
theorem binit_link : (binit : State τ).link = (Bio.binit : Bio.State τ).link := rfl

theorem good_binit : Good (binit : State τ) := by
  have hhead : PTR (CNTPTR 0 NBUF) = NBUF := by decide
  have htail : PTR (CNTPTR NBUF (NBUF - 1)) = NBUF - 1 := by decide
  have hheadCount : CNT (CNTPTR 0 NBUF) = 0 % 2 ^ 32 := by decide
  have htailCount : CNT (CNTPTR NBUF (NBUF - 1)) = (NBUF + 0) % 2 ^ 32 := by decide
  have hmem : NBUF - 1 ∈ initial := by decide
  refine ⟨initial, ⟨⟨?_, initial_nodup, fun _ => mem_initial, ?_, hheadCount, htailCount⟩,
    ⟨fun b hb hne => ?_, fun t b hb => (nomatch hb), fun t _ b hb => (nomatch hb)⟩,
    fun t => trivial⟩, fun c => ⟨[], .init⟩⟩
  · show Chain _ (some (PTR (CNTPTR 0 NBUF))) initial
    rw [binit_link, hhead]
    exact Bio.binit_chain
  · show PTR (CNTPTR NBUF (NBUF - 1)) ∈ initial
    rw [htail]
    exact hmem
  · have hle := mem_initial hb
    exact if_pos (by omega)

theorem good_of_reachable (h : (system τ).ReachableUnder Careful s) : Good s :=
  System.invariant Good (fun _ hinit => hinit ▸ good_binit) (fun _ _ _ hi hg hs => good_step hi hg hs) h

/-- A buffer that has been enqueued is in the queue or has been dequeued. -/
theorem visible (hsim : Sim s q) (hfree : ∀ t, s.task t ≠ .deqFlag b) :
    initial.count b + Event.returns (.enqueued b) s.history ≤
      Event.returns (.dequeued b) s.history + q.count b := by
  obtain ⟨log, ha⟩ := hsim fun _ => false
  have hcount := Legal.count ha.legal b
  obtain ⟨ts, -, hin⟩ := ha.count_returns (.enqueued b)
  obtain ⟨us, hus, hout⟩ := ha.count_returns (.dequeued b)
  have hnone : us = ∅ := by
    refine Finset.eq_empty_of_forall_notMem fun t ht => ?_
    have hdone := (hus t).mp ht
    rw [progress, Bool.false_and] at hdone
    cases hp : s.task t with
    | deqFlag b' =>
      rw [hp] at hdone
      cases hdone
      exact hfree t hp
    | _ =>
      rw [hp] at hdone
      simp [Pc.progress] at hdone
  rw [hnone, Finset.card_empty] at hout
  omega

/-- **The recycling queue.** In runs whose steps are all careful, the calls are linearizable to a
    queue that keeps its last buffer, and the links lead through what is in it. -/
theorem queue_linearizable (hs : (system τ).ReachableUnder Careful s) :
    ∃ log q p, Linearized s log q p := by
  obtain ⟨q, hi, hsim⟩ := good_of_reachable hs
  obtain ⟨log, ha⟩ := hsim fun _ => false
  exact ⟨log, q, _, {
    atomic := ha
    chain := hi.shape.chain
    nodup := hi.shape.nodup
    buffers := hi.shape.buffers
    order := Legal.order ha.legal
    twice := fun l₁ l₂ l₃ b hlog => Legal.twice (hlog ▸ ha.legal)
    visible := fun b hfree => visible hsim hfree }⟩

/-! ## A dequeue, and a link that comes too late -/

omit [DecidableEq τ] in
/-- A `dequeue` that nobody overtakes -/
theorem careful_of_current {s : State τ} {t : τ} (hpc : (∃ head tail next, s.task t = .deqCheck head tail next) ∨
    ∃ head next, s.task t = .deqCas head next) (h : s.headSeen t = s.headChanges) :
    Careful s (.run t) := by
  rcases hpc with ⟨_, _, _, hpc⟩ | ⟨_, _, hpc⟩ <;>
    simp only [Careful, hpc] <;> omega

/-- One `dequeue` after `binit` returns the dummy. -/
theorem dequeue_linearizable : ∃ s : State Unit,
    s.history = [.call () .dequeue, .ret () (.dequeued NBUF)] ∧
      ∃ log q p, Linearized s log q p := by
  have h₀ : (system Unit).ReachableUnder Careful binit := .init rfl
  have h₁ := h₀.step (a := .call () .dequeue) (by trivial) rfl
  have h₂ := h₁.step (a := .run ()) (by trivial) rfl
  have h₃ := h₂.step (a := .run ()) (by trivial) rfl
  have h₄ := h₃.step (a := .run ()) (by trivial) rfl
  have h₅ := h₄.step (a := .run ()) (careful_of_current (.inl ⟨_, _, _, rfl⟩) rfl) rfl
  have h₆ := h₅.step (a := .run ()) (careful_of_current (.inr ⟨_, _, rfl⟩) rfl) rfl
  have h₇ := h₆.step (a := .run ()) (by trivial) rfl
  exact ⟨_, rfl, queue_linearizable h₇⟩

/-- A call of `dequeue` that nobody interrupts -/
def dequeues (t : Fin 3) : List (Act (Fin 3)) := .call t .dequeue :: List.replicate 6 (.run t)

/-- The first `n` accesses of a call of `enqueue` -/
def enqueues (t : Fin 3) (b n : ℕ) : List (Act (Fin 3)) :=
  .call t (.enqueue b) :: List.replicate n (.run t)

/-- The task 0 is about to link the buffer 30 behind 29 when 29 leaves the queue. The task 2 has
    cleared the link of 29, to enqueue it again, when the task 0 goes on and returns. Then the
    task 1 finds a single buffer in the queue, which is not 30. -/
def lateLink : List (Act (Fin 3)) :=
  [dequeues 1, enqueues 0 30 5, (List.replicate 29 (dequeues 1)).flatten, enqueues 1 0 7, dequeues 1,
    enqueues 2 29 2, List.replicate 2 (.run 0), .call 1 .dequeue :: List.replicate 4 (.run 1)].flatten

theorem enqueue_invisible : ¬ ∀ s : State (Fin 3), (system (Fin 3)).Reachable s →
    ∃ log q p, Linearized s log q p := by
  intro hall
  have hrun : ((system (Fin 3)).run binit lateLink).any (fun s =>
      decide (PTR s.head = 0 ∧ s.link 0 = none ∧ (∀ t, s.task t ≠ .deqFlag 30) ∧
        Event.returns (.enqueued 30) s.history = 1 ∧
        Event.returns (.dequeued 30) s.history = 1 ∧
        s.history.getLast? = some (.ret 1 .empty))) = true := by
    decide +kernel
  obtain ⟨s, hs, hp⟩ := System.exists_reachable_of_run rfl hrun
  obtain ⟨hhead, hlink, hfree, henq, hdeq, -⟩ := of_decide_eq_true hp
  obtain ⟨log, q, p, hlin⟩ := hall s hs
  -- the queue is the buffer 0 alone
  have hq : q = [0] := by
    have hchain : Chain s.link (some 0) [0] := .cons (by rw [hlink]; exact .nil none)
    rw [← hhead] at hchain
    exact hlin.chain.unique (hhead ▸ hchain)
  have hvisible := hlin.visible 30 hfree
  have hinit : initial.count 30 = 1 := by decide
  rw [henq, hdeq, hq, hinit] at hvisible
  exact absurd hvisible (by decide)

end Runs

end Xv6.Kernel.BioFifo
