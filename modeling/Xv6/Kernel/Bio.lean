import Mathlib
import Xv6.Lib.TransitionSystem
import Xv6.Kernel.Param

/-!
# The Buffer Cache

The lock-free buffer cache of `bio.c`: a table with one word for each block, which
packs a reference count and the index of a buffer, and a queue of buffers that may
be recycled. Each load, store and compare-and-swap of shared memory is a step, and
the sleep-lock of a buffer is a mutex.

A task is one use of the cache: the calls from `bget` to the `brelse` of the buffer
it returns, with the `bpin` calls in between, or one `bunpin`. A process that holds
several buffers is several tasks.
-/

namespace Xv6.Kernel.Bio

open Xv6.Lib

/-! ## Packed words (`buf.h`) -/

/-- The index of no buffer. -/
def NONE : ℕ := 0x1f

def REFCNT (x : ℕ) : ℕ := x >>> 5

def IDX (x : ℕ) : ℕ := x &&& NONE

/-- A word of the table, 32 bits wide. -/
def REFCNT_IDX (x y : ℕ) : ℕ := ((x <<< 5) ||| y) % 2 ^ 32

def INC_REFCNT (x : ℕ) : ℕ := REFCNT_IDX (REFCNT x + 1) (IDX x)

/-- `REFCNT(x) - 1` in 32 bits -/
def decRefcnt (x : ℕ) : ℕ := (REFCNT x + (2 ^ 32 - 1)) % 2 ^ 32

def DEC_REFCNT (x : ℕ) : ℕ := REFCNT_IDX (decRefcnt x) (IDX x)

def PTRNULL : ℕ := 0xffffffff

def CNT (x : ℕ) : ℕ := x >>> 32

def PTR (x : ℕ) : ℕ := x &&& PTRNULL

/-- A link of the queue, 64 bits wide. -/
def CNTPTR (x y : ℕ) : ℕ := ((x <<< 32) ||| y) % 2 ^ 64

/-- The link to `y` that replaces `x`. -/
def nextLink (x y : ℕ) : ℕ := CNTPTR (CNT x + 1) y

/-! ## Tasks -/

/-- What follows a call of `enqueue`. -/
inductive Cont where
  /-- `bget` has hit the block `n` in the buffer `idx`, and puts back the one it had taken -/
  | hit (n idx : ℕ)
  /-- `brelse` returns -/
  | done
  deriving DecidableEq

/-- Where a task is: which access to shared memory comes next, with the local variables
    of the function. `n` is the block, and `w` the word of `bget`'s `refcnt_idx`. -/
inductive Pc where
  | idle
  -- `bget`; `b` is the buffer taken from the queue, where there is one
  /-- Load `hashtable[n]` -/
  | lookup (n : ℕ) (b : Option ℕ)
  /-- Count a reference to the buffer that `w` names -/
  | hit (n : ℕ) (b : Option ℕ) (w : ℕ)
  /-- `acquiresleep` on a buffer that had the block -/
  | lock (n b : ℕ)
  /-- Load the block `k` of the buffer that was dequeued, to free that block's entry -/
  | evictBlock (n w b : ℕ)
  | evictRead (n w b k : ℕ)
  | evict (n w b k expect : ℕ)
  /-- Enter the buffer `b` for the block -/
  | install (n b w : ℕ)
  /-- `acquiresleep` on the buffer just entered, and the stores to its fields -/
  | lockNew (n b : ℕ)
  | setValid (n b : ℕ)
  | setDev (n b : ℕ)
  | setBlock (n b : ℕ)
  /-- `bget` has returned `b` for the block `n` -/
  | holding (n b : ℕ)
  -- `dequeue`, on behalf of `bget`
  | deqHead (n w : ℕ)
  | deqTail (n w head : ℕ)
  | deqNext (n w head tail : ℕ)
  | deqCheck (n w head tail next : ℕ)
  | deqHelp (n w tail next : ℕ)
  | deqCas (n w head next : ℕ)
  | deqFlag (n w ret : ℕ)
  -- `enqueue`
  | enqFlag (b : ℕ) (c : Cont)
  | enqNull (b : ℕ) (c : Cont)
  | enqTail (b : ℕ) (c : Cont)
  | enqNext (b : ℕ) (c : Cont) (tail : ℕ)
  | enqCheck (b : ℕ) (c : Cont) (tail next : ℕ)
  | enqLink (b : ℕ) (c : Cont) (tail next : ℕ)
  | enqHelp (b : ℕ) (c : Cont) (tail next : ℕ)
  | enqSwing (b : ℕ) (c : Cont) (tail : ℕ)
  -- `brelse`; `k` is the block number read from the buffer
  | relDev (n b : ℕ)
  | relHolding (n b : ℕ)
  | relUnlock (n b : ℕ)
  | relBlock (n b : ℕ)
  | relRead (n b k : ℕ)
  | relCas (n b k w : ℕ)
  -- `bpin`
  | pinBlock (n b : ℕ)
  | pinRead (n b k : ℕ)
  | pinCas (n b k w : ℕ)
  -- `bunpin`; `n` is the block of the pinned buffer
  | unpinBlock (n b : ℕ)
  | unpinRead (n b k : ℕ)
  | unpinCas (n b k w : ℕ)
  deriving DecidableEq

/-- What the caller of `enqueue` does next. -/
def Cont.pc : Cont → Pc
  | .hit n idx => .lock n idx
  | .done => .idle

/-! ## The cache -/

structure Buf (τ : Type*) where
  valid : Bool
  dev : ℕ
  blockno : ℕ
  /-- The task that has the sleep-lock -/
  lock : Option τ
  qnext : ℕ
  inQ : ℕ

structure State (τ : Type*) where
  hashtable : ℕ → ℕ
  buf : ℕ → Buf τ
  head : ℕ
  tail : ℕ
  task : τ → Pc
  /-- How many `bpin` of each buffer have not been undone by `bunpin` -/
  pins : ℕ → ℕ
  panic : Option String

inductive Act (τ : Type*) where
  | bget (t : τ) (dev n : ℕ)
  | brelse (t : τ)
  | bpin (t : τ)
  /-- `bunpin` of a buffer that is pinned -/
  | bunpin (t : τ) (b : ℕ)
  /-- The next access of a task to shared memory -/
  | run (t : τ)

variable {τ : Type*} [DecidableEq τ]

namespace State

variable (s : State τ)

def goto (t : τ) (pc : Pc) : State τ := { s with task := Function.update s.task t pc }

def setWord (n w : ℕ) : State τ := { s with hashtable := Function.update s.hashtable n w }

def setBuf (b : ℕ) (x : Buf τ) : State τ := { s with buf := Function.update s.buf b x }

end State

/-- The accesses of `bget`, without those in `dequeue`. -/
def bgetStep (s : State τ) (t : τ) : Pc → Option (State τ)
  | .lookup n b =>
    let w := s.hashtable n
    some (s.goto t (if IDX w ≠ NONE then .hit n b w else
      match b with
      | some b => .install n b w
      | none => .deqHead n w))
  | .hit n b w =>
    if s.hashtable n = w then
      some ((s.setWord n (INC_REFCNT w)).goto t (match b with
        | some b => .enqFlag b (.hit n (IDX w))
        | none => .lock n (IDX w)))
    else some (s.goto t (.lookup n b))
  | .lock n b =>
    if (s.buf b).lock = none then
      some ((s.setBuf b { s.buf b with lock := some t }).goto t (.holding n b))
    else none
  | .evictBlock n w b => some (s.goto t (.evictRead n w b (s.buf b).blockno))
  | .evictRead n w b k => some (s.goto t (.evict n w b k (REFCNT_IDX 0 (IDX (s.hashtable k)))))
  | .evict n w b k expect =>
    if s.hashtable k = expect then
      some ((s.setWord k (REFCNT_IDX 0 NONE)).goto t (.install n b w))
    else some (s.goto t (.deqHead n w))
  | .install n b w =>
    if s.hashtable n = w then some ((s.setWord n (REFCNT_IDX 1 b)).goto t (.lockNew n b))
    else some (s.goto t (.lookup n (some b)))
  | .lockNew n b =>
    if (s.buf b).lock = none then
      some ((s.setBuf b { s.buf b with lock := some t }).goto t (.setValid n b))
    else none
  | .setValid n b => some ((s.setBuf b { s.buf b with valid := false }).goto t (.setDev n b))
  | .setDev n b => some ((s.setBuf b { s.buf b with dev := 1 }).goto t (.setBlock n b))
  | .setBlock n b => some ((s.setBuf b { s.buf b with blockno := n }).goto t (.holding n b))
  | _ => none

/-- The accesses of `dequeue`. -/
def dequeueStep (s : State τ) (t : τ) : Pc → Option (State τ)
  | .deqHead n w => some (s.goto t (.deqTail n w s.head))
  | .deqTail n w head => some (s.goto t (.deqNext n w head s.tail))
  | .deqNext n w head tail => some (s.goto t (.deqCheck n w head tail (s.buf (PTR head)).qnext))
  | .deqCheck n w head tail next =>
    if head = s.head then
      if PTR head = PTR tail then
        if PTR next = PTRNULL then some { s with panic := some "bget: no buffers" }
        else some (s.goto t (.deqHelp n w tail next))
      else some (s.goto t (.deqCas n w head next))
    else some (s.goto t (.deqHead n w))
  | .deqHelp n w tail next =>
    some ({ s with tail := if s.tail = tail then nextLink tail (PTR next) else s.tail }.goto t
      (.deqHead n w))
  | .deqCas n w head next =>
    if s.head = head then
      some ({ s with head := nextLink head (PTR next) }.goto t (.deqFlag n w (PTR head)))
    else some (s.goto t (.deqHead n w))
  | .deqFlag n w ret =>
    some ((s.setBuf ret { s.buf ret with inQ := 0 }).goto t (.evictBlock n w ret))
  | _ => none

/-- The accesses of `enqueue`. -/
def enqueueStep (s : State τ) (t : τ) : Pc → Option (State τ)
  | .enqFlag b c =>
    if (s.buf b).inQ = 0 then some ((s.setBuf b { s.buf b with inQ := 1 }).goto t (.enqNull b c))
    else some (s.goto t c.pc)
  | .enqNull b c =>
    some ((s.setBuf b { s.buf b with qnext := CNTPTR 0 PTRNULL }).goto t (.enqTail b c))
  | .enqTail b c => some (s.goto t (.enqNext b c s.tail))
  | .enqNext b c tail => some (s.goto t (.enqCheck b c tail (s.buf (PTR tail)).qnext))
  | .enqCheck b c tail next =>
    if tail = s.tail then
      if PTR next = PTRNULL then some (s.goto t (.enqLink b c tail next))
      else some (s.goto t (.enqHelp b c tail next))
    else some (s.goto t (.enqTail b c))
  | .enqLink b c tail next =>
    let x := s.buf (PTR tail)
    if x.qnext = next then
      some ((s.setBuf (PTR tail) { x with qnext := nextLink next b }).goto t (.enqSwing b c tail))
    else some (s.goto t (.enqTail b c))
  | .enqHelp b c tail next =>
    some ({ s with tail := if s.tail = tail then nextLink tail (PTR next) else s.tail }.goto t
      (.enqTail b c))
  | .enqSwing b c tail =>
    some ({ s with tail := if s.tail = tail then nextLink tail b else s.tail }.goto t c.pc)
  | _ => none

/-- The accesses of `brelse`, without those in `enqueue`. -/
def brelseStep (s : State τ) (t : τ) : Pc → Option (State τ)
  | .relDev n b =>
    if (s.buf b).dev ≠ 1 then some { s with panic := some "brelse" }
    else some (s.goto t (.relHolding n b))
  | .relHolding n b =>
    if (s.buf b).lock ≠ some t then some { s with panic := some "brelse" }
    else some (s.goto t (.relUnlock n b))
  | .relUnlock n b => some ((s.setBuf b { s.buf b with lock := none }).goto t (.relBlock n b))
  | .relBlock n b => some (s.goto t (.relRead n b (s.buf b).blockno))
  | .relRead n b k => some (s.goto t (.relCas n b k (s.hashtable k)))
  | .relCas n b k w =>
    if s.hashtable k = w then
      some ((s.setWord k (REFCNT_IDX (decRefcnt w) (IDX w))).goto t
        (if decRefcnt w = 0 then .enqFlag b .done else .idle))
    else some (s.goto t (.relRead n b k))
  | _ => none

/-- The accesses of `bpin` and `bunpin`. -/
def pinStep (s : State τ) (t : τ) : Pc → Option (State τ)
  | .pinBlock n b => some (s.goto t (.pinRead n b (s.buf b).blockno))
  | .pinRead n b k => some (s.goto t (.pinCas n b k (s.hashtable k)))
  | .pinCas n b k w =>
    if s.hashtable k = w then
      some { (s.setWord k (INC_REFCNT w)).goto t (.holding n b) with
        pins := Function.update s.pins b (s.pins b + 1) }
    else some (s.goto t (.pinRead n b k))
  | .unpinBlock n b => some (s.goto t (.unpinRead n b (s.buf b).blockno))
  | .unpinRead n b k => some (s.goto t (.unpinCas n b k (s.hashtable k)))
  | .unpinCas n b k w =>
    if s.hashtable k = w then some ((s.setWord k (DEC_REFCNT w)).goto t .idle)
    else some (s.goto t (.unpinRead n b k))
  | _ => none

/-- The next access of a task. -/
def runStep (s : State τ) (t : τ) : Option (State τ) :=
  let pc := s.task t
  bgetStep s t pc <|> dequeueStep s t pc <|> enqueueStep s t pc <|> brelseStep s t pc <|>
    pinStep s t pc

/-- Callers release and pin only what they hold, and unpin only what is pinned. -/
def exec (s : State τ) : Act τ → Option (State τ)
  | .bget t dev n =>
    match s.task t with
    | .idle =>
      if dev ≠ 1 then some { s with panic := some "bget" } else some (s.goto t (.lookup n none))
    | _ => none
  | .brelse t =>
    match s.task t with
    | .holding n b => some (s.goto t (.relDev n b))
    | _ => none
  | .bpin t =>
    match s.task t with
    | .holding n b => some (s.goto t (.pinBlock n b))
    | _ => none
  | .bunpin t b =>
    match s.task t with
    | .idle =>
      if 0 < s.pins b then
        some { s.goto t (.unpinBlock (s.buf b).blockno b) with
          pins := Function.update s.pins b (s.pins b - 1) }
      else none
    | _ => none
  | .run t => runStep s t

/-- A panic stops every task. -/
def step (s : State τ) (a : Act τ) : Option (State τ) :=
  if s.panic.isSome then none else exec s a

/-- The state after `binit`: the buffer `NBUF` is the dummy of the queue, and the others
    follow it in order. -/
def binit : State τ where
  hashtable := fun _ => REFCNT_IDX 0 NONE
  buf := fun b =>
    { valid := false, dev := 0, blockno := 0, lock := none
      qnext := if b = NBUF then CNTPTR 1 0 else if b + 1 < NBUF then CNTPTR 1 (b + 1)
        else CNTPTR 0 PTRNULL
      inQ := if b < NBUF then 1 else 0 }
  head := CNTPTR 0 NBUF
  tail := CNTPTR NBUF (NBUF - 1)
  task := fun _ => .idle
  pins := fun _ => 0
  panic := none

variable (τ) in
def system : System (State τ) (Act τ) where
  init s := s = binit
  step := step

end Xv6.Kernel.Bio
