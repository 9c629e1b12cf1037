import Mathlib
import Xv6.Lib.ByteBlock
import Xv6.Lib.TransitionSystem
import Xv6.Kernel.Param
import Xv6.Kernel.Riscv

/-!
# Swapping Pages

Pages move between memory and the slots of the swap area: `pageout` and `pagein`,
and the `swappageclone` of `fork`, run by any number of threads. A step is one
`swaplock` section, one `bread` to `brelse` section, one read of an entry outside
of them, or one store to an entry. What the page of an entry held when it was paged
out is kept as history.
-/

namespace Xv6.Kernel.Swap

open Xv6.Lib

/-- `PTE_PGOUT` -/
def pteOut (idx : ℕ) (pte : Pte) : Pte := { pte with ppn := idx, v := false, pg := true }

/-- `PTE_PGIN`, with the page number of `pa` -/
def pteIn (mem : ℕ) (pte : Pte) : Pte := { pte with ppn := mem, v := true, pg := false }

/-! ## Entries and threads -/

/-- Where the `pagein` of an entry is. The holder of `slock` is the only one to run it,
    so that an entry has at most one. -/
inductive Pagein where
  | idle
  /-- Has `slock`, has found `PTE_PG` and read the slot -/
  | entered (idx : ℕ)
  /-- `kalloc` has returned `mem` -/
  | allocated (idx mem : ℕ)
  /-- `swappg_refcnt[idx]` has been decremented -/
  | dropped (idx mem : ℕ)
  /-- The block has been copied to `mem`, the entry is about to be stored -/
  | loaded (idx mem : ℕ)
  deriving DecidableEq

/-- A user page-table entry for one page. -/
structure Entry where
  pte : Pte
  /-- The process, which is to say the `slock`, the entry belongs to -/
  proc : ℕ
  pagein : Pagein
  /-- What the page held when it was last paged out -/
  saved : ByteBlock

/-- What a thread does on entries in general: `pageout` for somebody who needs a
    page, or `swappageclone` for `fork`. -/
inductive Thread (κ : Type*) where
  | idle
  /-- `pageout` has stored the slot `i` in the entry and is to write the page `pa` to it -/
  | write (pa i : ℕ)
  /-- `pageout` is to return `pa` to `kalloc` -/
  | written (pa : ℕ)
  /-- `uvmcopy` has found `PTE_PG` in `p` and calls `swappageclone` for the child's `q` -/
  | cloneEnter (p q : κ)
  /-- `swappageclone` has read the slot -/
  | cloneRead (p q : κ) (idx : ℕ)
  /-- `swappageclone` has incremented `swappg_refcnt[idx]` -/
  | cloneCounted (p q : κ) (idx : ℕ)
  /-- `mappages` has stored the child's entry, with `PTE_V` -/
  | cloneMapped (q : κ)
  deriving DecidableEq

/-- The child's entry that a thread is to fill. -/
def Thread.target {κ : Type*} : Thread κ → Option κ
  | .cloneEnter _ q | .cloneRead _ q _ | .cloneCounted _ q _ | .cloneMapped q => some q
  | _ => none

/-! ## The system -/

structure State (κ τ : Type*) where
  entry : κ → Entry
  thread : τ → Thread κ
  /-- Physical pages -/
  mem : ℕ → ByteBlock
  /-- Pages that `kalloc` may return -/
  free : Finset ℕ
  /-- The blocks from `swapstart` on -/
  disk : ℕ → ByteBlock
  /-- `swappg_refcnt[]` -/
  refCnt : ℕ → ℕ
  panic : Option String

variable {κ τ : Type*}

namespace State

/-- The first slot that `pageout` finds unused. -/
def freeSlot (s : State κ τ) : Option ℕ :=
  (List.range SWAP_SPACE_BLOCKS).find? fun i => s.refCnt i == 0

variable [DecidableEq κ] [DecidableEq τ]

def setEntry (s : State κ τ) (p : κ) (e : Entry) : State κ τ :=
  { s with entry := Function.update s.entry p e }

def setThread (s : State κ τ) (t : τ) (c : Thread κ) : State κ τ :=
  { s with thread := Function.update s.thread t c }

def setRefCnt (s : State κ τ) (i n : ℕ) : State κ τ :=
  { s with refCnt := Function.update s.refCnt i n }

def setPage (s : State κ τ) (f : ℕ) (b : ByteBlock) : State κ τ :=
  { s with mem := Function.update s.mem f b }

def setBlock (s : State κ τ) (i : ℕ) (b : ByteBlock) : State κ τ :=
  { s with disk := Function.update s.disk i b }

/-- A `fork` is at work on the entry, whose process does not run yet. -/
def forking [Fintype τ] (s : State κ τ) (p : κ) : Bool :=
  decide (∃ t, (s.thread t).target = some p)

end State

inductive Act (κ τ : Type*) where
  /-- A user store to the page of the entry `p` -/
  | write (p : κ) (off : ℕ) (b : UInt8)
  /-- The next step of `pagein`, which is offered `page` by `kalloc` -/
  | pagein (p : κ) (page : Option ℕ)
  /-- The first `swaplock` section of `pageout` -/
  | pageout (t : τ) (p : κ)
  /-- `uvmcopy` finds the entry `p` of the parent paged out -/
  | clone (t : τ) (p q : κ)
  /-- The next step of `pageout` or `swappageclone`; `mapped` says whether
      `mappages` finds memory for page tables -/
  | thread (t : τ) (mapped : Bool)

variable [DecidableEq κ] [DecidableEq τ]

/-- `pagein` -/
def pageinStep [Fintype κ] [Fintype τ] (s : State κ τ) (p : κ) (page : Option ℕ) :
    Option (State κ τ) :=
  let e := s.entry p
  match e.pagein with
  | .idle =>
    -- `acquiresleep` waits for the process' other threads.
    if s.forking p || decide (∃ q, (s.entry q).proc = e.proc ∧ (s.entry q).pagein ≠ .idle) then none
    else if e.pte.pg then some (s.setEntry p { e with pagein := .entered e.pte.ppn }) else some s
  | .entered idx =>
    match page with
    | none => some (s.setEntry p { e with pagein := .idle })
    | some m =>
      if m ∈ s.free then
        some { (s.setPage m fun _ => 5).setEntry p { e with pagein := .allocated idx m } with
          free := s.free.erase m }
      else none
  | .allocated idx m =>
    if s.refCnt idx ≤ 0 then some { s with panic := some "pagein" }
    else some ((s.setRefCnt idx (s.refCnt idx - 1)).setEntry p { e with pagein := .dropped idx m })
  | .dropped idx m => some ((s.setPage m (s.disk idx)).setEntry p { e with pagein := .loaded idx m })
  | .loaded _ m => some (s.setEntry p { e with pte := pteIn m e.pte, pagein := .idle })

/-- The `swaplock` section of `pageout` that looks for a slot. Both ways of finding
    none, and an entry that has been paged out by somebody else, end the call. -/
def pageoutStep [Fintype τ] (s : State κ τ) (t : τ) (p : κ) : Option (State κ τ) :=
  let e := s.entry p
  if s.forking p then none
  else match s.thread t with
  | .idle =>
    if e.pte.v then
      match s.freeSlot with
      | some i =>
        some (((s.setRefCnt i 1).setEntry p
          { e with pte := pteOut i e.pte, saved := s.mem e.pte.ppn }).setThread t
            (.write e.pte.ppn i))
      | none => some s
    else some s
  | _ => none

/-- The rest of `pageout`, and `swappageclone`. -/
def threadStep (s : State κ τ) (t : τ) (mapped : Bool) : Option (State κ τ) :=
  match s.thread t with
  | .idle => none
  | .write pa i => some ((s.setBlock i (s.mem pa)).setThread t (.written pa))
  | .written pa => some { s.setThread t .idle with free := insert pa s.free }
  | .cloneEnter p q => some (s.setThread t (.cloneRead p q (s.entry p).pte.ppn))
  | .cloneRead p q idx =>
    some ((s.setRefCnt idx (s.refCnt idx + 1)).setThread t (.cloneCounted p q idx))
  | .cloneCounted p q _ =>
    if mapped then
      if (s.entry q).pte.v then some { s with panic := some "mappages: remap" }
      else some ((s.setEntry q { s.entry q with
        pte := { (s.entry p).pte with v := true }, saved := (s.entry p).saved }).setThread t
          (.cloneMapped q))
    else some (s.setThread t .idle)
  | .cloneMapped q =>
    some ((s.setEntry q { s.entry q with pte := { (s.entry q).pte with v := false } }).setThread t .idle)

def exec [Fintype κ] [Fintype τ] (s : State κ τ) : Act κ τ → Option (State κ τ)
  | .write p off b =>
    let pte := (s.entry p).pte
    if pte.v && pte.w && pte.u && !s.forking p && decide (off < PGSIZE) then
      some (s.setPage pte.ppn (Function.update (s.mem pte.ppn) off b))
    else none
  | .pagein p page => pageinStep s p page
  | .pageout t p => pageoutStep s t p
  | .clone t p q =>
    if decide (s.thread t = .idle) && (s.entry p).pte.pg && !s.forking p && !s.forking q &&
        decide ((s.entry q).pte = .zero) && decide ((s.entry q).pagein = .idle) then
      some (s.setThread t (.cloneEnter p q))
    else none
  | .thread t mapped => threadStep s t mapped

/-- A panic stops every thread. -/
def step [Fintype κ] [Fintype τ] (s : State κ τ) (a : Act κ τ) : Option (State κ τ) :=
  if s.panic.isSome then none else exec s a

/-- Nothing is paged out, and every page in memory has one entry. -/
structure Init (s : State κ τ) : Prop where
  pte : ∀ p, (s.entry p).pte = .zero ∨ ((s.entry p).pte.v = true ∧ (s.entry p).pte.pg = false)
  pagein : ∀ p, (s.entry p).pagein = .idle
  thread : ∀ t, s.thread t = .idle
  refCnt : ∀ i, s.refCnt i = 0
  apart : ∀ p q, (s.entry p).pte.v = true → (s.entry q).pte.v = true →
    (s.entry p).pte.ppn = (s.entry q).pte.ppn → p = q
  free : ∀ p, (s.entry p).pte.v = true → (s.entry p).pte.ppn ∉ s.free
  panic : s.panic = none

variable (κ τ) in
def system [Fintype κ] [Fintype τ] : System (State κ τ) (Act κ τ) where
  init := Init
  step := step

end Xv6.Kernel.Swap
