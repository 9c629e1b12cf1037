import Mathlib
import Xv6.Lib.TransitionSystem
import Xv6.Kernel.Param
import Xv6.Kernel.Riscv

/-!
# Free Lists

The page allocator with its free list for each CPU: `kalloc`, `ksteal`, `kfree`
and `kincget` on the linked lists themselves, for any number of callers. A
section of `kmems[j].lock` or of `ref_lock` is one step; between `push_off` and
`pop_off` a CPU runs one call. The allocator does not swap: a `kalloc` that
finds no page returns null.

Pages are numbered by `pa / PGSIZE`, and a pointer to a page is its number.
-/

namespace Xv6.Kernel.FreeLists

open Xv6.Lib

/-! ## Memory of the allocator -/

/-- `kmems[]`, `ref_cnt[]` and the first word of every page. -/
structure Kmems where
  /-- `((struct run *)pa)->next` -/
  next : ℕ → Option ℕ
  /-- `kmems[i].freelist` -/
  freelist : Fin NCPU → Option ℕ
  refCnt : ℕ → ℕ

/-- What `memset(pa, c, PGSIZE)` leaves in the first word of a page. -/
def junk (c : ℕ) : Option ℕ := some (c * 0x0101010101010101 / PGSIZE)

/-- The loop of `ksteal`: `none` if it follows a null pointer or does not end in
    `fuel` rounds. -/
def kstealLoop (next : ℕ → Option ℕ) : ℕ → ℕ → Option ℕ → Option ℕ
  | 0, _, _ => none
  | fuel + 1, slow, fast =>
    match fast with
    | none => some slow
    | some f =>
      match next f with
      | none => some slow
      | some g => (next slow).bind fun slow' => kstealLoop next fuel slow' (next g)

namespace Kmems

variable (k : Kmems)

def setNext (q : ℕ) (v : Option ℕ) : Kmems := { k with next := Function.update k.next q v }

def setFreelist (i : Fin NCPU) (v : Option ℕ) : Kmems :=
  { k with freelist := Function.update k.freelist i v }

/-- `ksteal(head)`: cut the list behind its first half, and the second half. -/
def ksteal (fuel head : ℕ) : Option (Kmems × Option ℕ) :=
  (kstealLoop k.next fuel head (k.next head)).map fun slow => (k.setNext slow none, k.next slow)

/-- The section of `kalloc` on its own list: `r = kmems[i].freelist` and, if there
    is a page, `kmems[i].freelist = r->next`. -/
def kallocOwn (i : Fin NCPU) : Option ℕ × Kmems :=
  match k.freelist i with
  | none => (none, k)
  | some r => (some r, k.setFreelist i (k.next r))

/-- The section of `kalloc` on the list of CPU `j`: `r = kmems[j].freelist` and, if
    there is a page, `kmems[j].freelist = ksteal(r)`. -/
def kallocSteal (fuel : ℕ) (j : Fin NCPU) : Option (Option ℕ × Kmems) :=
  match k.freelist j with
  | none => some (none, k)
  | some r => (k.ksteal fuel r).map fun (k', rest) => (some r, k'.setFreelist j rest)

/-- The section of `kalloc` that keeps the rest of what it stole:
    `kmems[i].freelist = r->next`. -/
def kallocInstall (i : Fin NCPU) (r : ℕ) : Kmems := k.setFreelist i (k.next r)

/-- `kincget`, with the count it returns. -/
def kincget (q : ℕ) : ℕ × Kmems :=
  (k.refCnt q + 1, { k with refCnt := Function.update k.refCnt q (k.refCnt q + 1) })

/-- The `ref_lock` section of `kfree`, behind its test of the address; the page is
    filled with junk when its last reference goes. -/
def kfreeRef (q : ℕ) : Except String (ℕ × Kmems) :=
  if k.refCnt q < 1 then .error "kfree ref_cnt" else
  let res := k.refCnt q - 1
  let k' := { k with refCnt := Function.update k.refCnt q res }
  .ok (res, if res > 0 then k' else k'.setNext q (junk 1))

/-- The section of `kfree` on the list of its CPU: `r->next = kmems[i].freelist;
    kmems[i].freelist = r`. -/
def kfreePush (i : Fin NCPU) (q : ℕ) : Kmems := (k.setNext q (k.freelist i)).setFreelist i (some q)

end Kmems

/-! ## Calls in progress -/

/-- Where a caller stands between the sections of a call. -/
inductive Pc where
  | idle
  /-- `kalloc` on CPU `i`, before its section on the list of CPU `j`; at `NCPU` the
      loop is over and nothing was found -/
  | steal (i : Fin NCPU) (j : ℕ)
  /-- `kalloc` on CPU `i` holds the list it cut off, with head `r` -/
  | install (i : Fin NCPU) (r : ℕ)
  /-- `kalloc` after `pop_off`, with the page `r` -/
  | found (r : ℕ)
  /-- `kalloc` returned -/
  | returned (r : Option ℕ)
  /-- `kfree` of a page whose last reference it dropped -/
  | freeing (q : ℕ)
  deriving DecidableEq

structure State (τ : Type*) where
  mem : Kmems
  /-- a call is between `push_off` and `pop_off` on the CPU -/
  off : Fin NCPU → Bool
  pc : τ → Pc
  /-- the references to the page in the hands of callers -/
  held : ℕ → ℕ
  /-- the message of the `panic` that stopped the system -/
  panic : Option String

/-- One step of a caller. -/
inductive Act (τ : Type*) where
  /-- `kalloc` up to the end of the section on its own list -/
  | kalloc (p : τ) (i : Fin NCPU)
  /-- one round of the stealing loop of `kalloc` -/
  | steal (p : τ)
  /-- the section of `kalloc` that installs the rest of what it stole -/
  | install (p : τ)
  /-- `kincget` in `kalloc`, and its return -/
  | finish (p : τ)
  /-- the caller takes the returned value -/
  | collect (p : τ)
  /-- `kfree(pa)` up to the end of its `ref_lock` section -/
  | kfree (p : τ) (pa : ℕ)
  /-- the section of `kfree` on the list of the CPU it runs on -/
  | push (p : τ) (i : Fin NCPU)
  /-- `kincget(pa)` by a caller that holds the page -/
  | kincget (p : τ) (q : ℕ)
  /-- somebody who holds the page writes to its first word -/
  | write (q : ℕ) (v : Option ℕ)

/-- The caller an action is a step of, if it is a step in the allocator. -/
def Act.caller {τ : Type*} : Act τ → Option τ
  | kalloc p _ | steal p | install p | finish p | collect p | kfree p _ | push p _ | kincget p _ =>
    some p
  | write _ _ => none

/-- `end` is the linker's; the pages between it and `PHYSTOP` are managed. -/
def pages (kend : ℕ) : List ℕ :=
  List.range' (pgRoundUp kend / PGSIZE) (PHYSTOP / PGSIZE - pgRoundUp kend / PGSIZE)

variable {τ : Type*} [DecidableEq τ]

namespace State

def setPc (s : State τ) (p : τ) (pc : Pc) : State τ := { s with pc := Function.update s.pc p pc }

def setOff (s : State τ) (i : Fin NCPU) (b : Bool) : State τ :=
  { s with off := Function.update s.off i b }

end State

/-- One round of the loop `for (int j = 0; j < NCPU && !r; j++)`. -/
def stealRound (kend : ℕ) (s : State τ) (p : τ) (i : Fin NCPU) (j : ℕ) : Option (State τ) :=
  if hj : j < NCPU then
    if j = i then some (s.setPc p (.steal i (j + 1)))
    else
      match s.mem.kallocSteal (pages kend).length ⟨j, hj⟩ with
      | none => some { s with panic := some "ksteal" }
      | some (none, _) => some (s.setPc p (.steal i (j + 1)))
      | some (some r, mem) => some ({ s with mem := mem }.setPc p (.install i r))
  else some ((s.setOff i false).setPc p (.returned none))

/-- The step of a caller, in a system whose kernel ends at `kend`. Following a null
    pointer in `ksteal`, or not leaving its loop, stops the system like a panic. -/
def exec (kend : ℕ) (s : State τ) : Act τ → Option (State τ)
  | .kalloc p i =>
    match s.pc p, s.off i, s.mem.kallocOwn i with
    | .idle, false, (some r, mem) => some ({ s with mem := mem }.setPc p (.found r))
    | .idle, false, (none, _) => some ((s.setOff i true).setPc p (.steal i 0))
    | _, _, _ => none
  | .steal p =>
    match s.pc p with
    | .steal i j => stealRound kend s p i j
    | _ => none
  | .install p =>
    match s.pc p with
    | .install i r =>
      some (({ s with mem := s.mem.kallocInstall i r }.setOff i false).setPc p (.found r))
    | _ => none
  | .finish p =>
    match s.pc p with
    | .found r =>
      match s.mem.kincget r with
      | (1, mem) =>
        some ({ s with
          mem := mem.setNext r (junk 5)
          held := Function.update s.held r (s.held r + 1) }.setPc p (.returned (some r)))
      | (_, mem) => some { s with mem := mem, panic := some "kalloc_ref_cnt" }
    | _ => none
  | .collect p =>
    match s.pc p with
    | .returned _ => some (s.setPc p .idle)
    | _ => none
  | .kfree p pa =>
    match s.pc p with
    | .idle =>
      if pa % PGSIZE ≠ 0 ∨ pa < kend ∨ PHYSTOP ≤ pa then some { s with panic := some "kfree" }
      else
        match s.mem.kfreeRef (pa / PGSIZE) with
        | .error msg => some { s with panic := some msg }
        | .ok (res, mem) =>
          some ({ s with
            mem := mem
            held := Function.update s.held (pa / PGSIZE) (s.held (pa / PGSIZE) - 1) }.setPc p
              (if res > 0 then .idle else .freeing (pa / PGSIZE)))
    | _ => none
  | .push p i =>
    match s.pc p, s.off i with
    | .freeing q, false => some ({ s with mem := s.mem.kfreePush i q }.setPc p .idle)
    | _, _ => none
  | .kincget p q =>
    match s.pc p with
    | .idle =>
      if s.held q = 0 then none
      else
        some { s with
          mem := (s.mem.kincget q).2
          held := Function.update s.held q (s.held q + 1) }
    | _ => none
  | .write q v => if s.held q = 0 then none else some { s with mem := s.mem.setNext q v }

def step (kend : ℕ) (s : State τ) (a : Act τ) : Option (State τ) :=
  if s.panic.isSome then none else exec kend s a

/-! ## Boot -/

/-- One round of `freerange` on the boot CPU: `ref_cnt[i] = 1; kfree(p)`. -/
def freeOne (k : Kmems) (q : ℕ) : Kmems :=
  match { k with refCnt := Function.update k.refCnt q 1 }.kfreeRef q with
  | .error _ => k
  | .ok (_, k') => k'.kfreePush ⟨0, by decide⟩ q

/-- The allocator after `kinit`; the contents of memory are arbitrary. -/
def kinit (kend : ℕ) (next : ℕ → Option ℕ) : Kmems :=
  (pages kend).foldl freeOne { next := next, freelist := fun _ => none, refCnt := fun _ => 0 }

def init (kend : ℕ) (next : ℕ → Option ℕ) : State τ where
  mem := kinit kend next
  off := fun _ => false
  pc := fun _ => .idle
  held := fun _ => 0
  panic := none

variable (τ) in
def system (kend : ℕ) : System (State τ) (Act τ) where
  init s := ∃ next, s = init kend next
  step := step kend

end Xv6.Kernel.FreeLists
