import Mathlib
import Xv6.Lib.TransitionSystem
import Xv6.Kernel.Exec
import Xv6.Kernel.Fault
import Xv6.Kernel.FixedMapping
import Xv6.Kernel.Threads
import Xv6.Kernel.UserPointers

/-!
# The Trapframe Pages of Threads

A thread shares the page table of its process, so that `clone` has to find an address of its
own for the thread's trapframe page. It takes the first one from `PHYSTOP_INCLUDESUPPG` on at
which no page is in memory. The heap and the mappings get their pages on demand, and give
them to the swap area: that an address has no page says little about whether it is taken.
Nor do `sbrk` and `mmap`, which go by the table of areas, know of the page.

- `setguardpage`, `clone`: the two halves of the call, between which other threads can run;
- `InMemory`: a trapframe page is in memory, and only the call that unmaps it takes it away;
- `Outside`: the page has no address below `sz` or in an area;
- `trapframe_pages_outside`: in runs in which every step meets its condition the trapframe
  pages of living threads stay outside, and for the steps that choose addresses the
  condition is exact.
-/

namespace Xv6.Kernel

open PageTable (look)

/-! ## Looking for an address -/

namespace PageTable

/-- `kwalkaddr` -/
def kwalkaddr (pt : PageTable) (va : ℕ) : ℕ :=
  match pt.look va with
  | some (_, pte) => if pte.v then pte.pa else 0
  | none => 0

theorem keepsLeaf_setU (u : Bool) : KeepsLeaf fun p => { p with u := u } :=
  ⟨fun _ hp h => hp h, fun _ h => h⟩

/-- `*pte |= PTE_U` and `*pte &= ~PTE_U` -/
def setU (pt : PageTable) (u : Bool) (σ : Slot) : PageTable :=
  pt.modify (fun p => { p with u := u }) (keepsLeaf_setU u) σ

/-- `walk(pagetable, va, PGSIZE)` finds an entry, where `kalloc` can still give `n` pages. -/
def walkAlloc (pt : PageTable) (va n : ℕ) : Bool :=
  match pt.growRoot (px 2 va) n with
  | none => false
  | some (pt, n) => (pt.growMid (px 2 va) (px 1 va) n).isSome

/-- The loop of `clone` over the addresses from `va` on -/
def findTrapVa (pt : PageTable) : ℕ → ℕ → Option ℕ
  | 0, _ => none
  | fuel + 1, va =>
    if va < USYSCALL then
      if pt.kwalkaddr va = 0 then some va else findTrapVa pt fuel (va + PGSIZE)
    else none

end PageTable

namespace TrapframePages

open Xv6.Lib ThreadShared
open FixedMapping (sysMmap)
open MmapPlacement (holeTop Passes)
open Threads (PHYSTOP_INCLUDESUPPG)

/-- `trap_va`: the first address from `PHYSTOP_INCLUDESUPPG` on without a page in memory; the
    pages up to `USYSCALL` are turns enough. -/
def searchTrapVa (pt : PageTable) : Option ℕ :=
  pt.findTrapVa ((USYSCALL - PHYSTOP_INCLUDESUPPG) / PGSIZE + 1) PHYSTOP_INCLUDESUPPG

/-! ## `clone` -/

/-- `setguardpage` for the stack at `tstack`; the result tells whether it returns 0. -/
def setguardpage (files : ℕ → Inode) (s : Space) (k : Answers) (tstack : ℕ) :
    Except String (Space × Bool) :=
  match s.pagetable.walk tstack with
  | .error e => .error e
  | .ok pte =>
    let there := pte.any fun σ => (s.pagetable.get σ).v
    match (if there then .ok (s, some false) else s.vmaHandle files k tstack) with
    | .error e => .error e
    | .ok (s, none) => .ok (s, false)
    | .ok (s, some _) =>
      match s.pagetable.slot tstack with
      | none => .error "kerneltrap"
      | some σ =>
        if (s.pagetable.get σ).v then .ok ({ s with pagetable := s.pagetable.setU false σ }, true)
        else .error "setguardpage2"

/-- What the rest of the kernel answers to `clone` -/
structure CloneAnswers where
  /-- The trapframe page, if `allocproc` finds a free slot and gets one -/
  trapframe : Option Page
  /-- Pages of the process that `kalloc` pages out for it -/
  evicted : List (ℕ × ℕ)
  fault : Answers

/-- `clone` up to the search: the trapframe page of the new thread, or `none` for -1 -/
def cloneGuard (files : ℕ → Inode) (s : Space) (k : CloneAnswers) (stack : ℕ) :
    Except String (Space × Option Page) :=
  if stack % PGSIZE ≠ 0 then .ok (s, none)
  else
    let s := s.evictAll k.evicted
    match k.trapframe with
    | none => .ok (s, none)
    | some trapframe =>
      match setguardpage files s k.fault stack with
      | .error e => .error e
      | .ok (s, ok) => .ok (s, if ok then some trapframe else none)

/-- `PA2PTE(np->trapframe) | PTE_R | PTE_W | PTE_V` -/
def trapframePte (trapframe : Page) : Pte :=
  { Pte.zero with ppn := (trapframe : ℕ) / PGSIZE, v := true, r := true, w := true }

/-- The pages that `walk` can get for the page table, and those that are paged out for them -/
structure TableAnswers where
  tables : ℕ
  evicted : List (ℕ × ℕ)

/-- `clone` from the search on: the address of the trapframe page, or `none` for -1. Whether
    `mappages` has mapped the page is not looked at. -/
def cloneTrapframe (s : Space) (k : TableAnswers) (trapframe : Page) :
    Except String (Space × Option ℕ) :=
  match searchTrapVa s.pagetable with
  | none => .ok (s, none)
  | some va =>
    let s := s.evictAll k.evicted
    match s.pagetable.mapPage va false (trapframePte trapframe) k.tables with
    | .error e => .error e
    | .ok (pt, _) => .ok ({ s with pagetable := pt }, some va)

/-- `clone(fcn, arg1, arg2, stack)`, as far as it changes the address space -/
def clone (files : ℕ → Inode) (s : Space) (k : CloneAnswers) (k' : TableAnswers) (stack : ℕ) :
    Except String (Space × Option ℕ) :=
  match cloneGuard files s k stack with
  | .error e => .error e
  | .ok (s, none) => .ok (s, none)
  | .ok (s, some trapframe) => cloneTrapframe s k' trapframe

/-! ## The system -/

/-- A thread: where its trapframe page is mapped, and its stack -/
structure Thread where
  trapVa : ℕ
  tstack : ℕ
  deriving DecidableEq

/-- A thread that `clone` is making, after `setguardpage` -/
structure Cloning where
  trapframe : Page
  tstack : ℕ
  deriving DecidableEq

/-- An address space with the threads on it -/
structure State where
  space : Space
  threads : List Thread
  /-- The calls of `clone` that have come to the search -/
  cloning : List Cloning
  /-- The threads that have exited and have not been joined -/
  zombies : List Thread

/-- The pages from `sz` on are in both page tables alike. -/
def SameAbove (sz : ℕ) (pt pt' : PageTable) : Prop :=
  ∀ va, PGSIZE ∣ va → sz ≤ va → pt'.look va = pt.look va

/-- `uvmalloc` has mapped pages where there were none in memory, between `sz` and `newsz`. -/
def Grows (sz newsz : ℕ) (pt pt' : PageTable) : Prop :=
  ∀ va, PGSIZE ∣ va → sz ≤ va →
    if va < newsz then pt.kwalkaddr va = 0 else pt'.look va = pt.look va

/-- What the threads of a process do to their address space. -/
inductive Act where
  | mmap (addr : ℕ) (length : ℤ) (prot flags : ℕ) (f : Option File) (offset : ℕ)
  | munmap (writei : FileWrite → Bool) (addr : ℕ) (length : ℤ)
  | sbrk (n : ℤ)
  /-- `sbrknaive`, with what `uvmalloc` makes of the page table if it finds memory -/
  | sbrknaive (n : ℤ) (uvmalloc : (sz newsz : ℕ) → (pt : PageTable) → Option {pt' // Grows sz newsz pt pt'})
  /-- `exec`, with the page table of the new program -/
  | exec (ip : ℕ) (phs : List (Option ProgHdr)) (fits : Bool) (pt : PageTable)
  /-- The child of a `fork` goes on, with its page table. -/
  | fork (pt : PageTable)
  /-- `clone` up to the search -/
  | guard (k : CloneAnswers) (stack : ℕ)
  /-- The rest of a `clone` -/
  | place (c : Cloning) (k : TableAnswers)
  /-- `exit` of a thread -/
  | exit (t : Thread)
  /-- `join` frees a thread. -/
  | join (t : Thread)
  /-- `tpkill` frees a thread, whose stack keeps its guard page. -/
  | reap (t : Thread)
  | fault (k : Answers) (va : ℕ)
  /-- Whatever else is done to entries below the size: pages are marked or copied for
      copy-on-write, paged out -/
  | rework (f : (sz : ℕ) → (pt : PageTable) → {pt' // SameAbove sz pt pt'})

/-- One step; no step is a panic. -/
def step (files : ℕ → Inode) (s : State) : Act → Option State
  | .mmap addr length prot flags f offset =>
    match sysMmap s.space.shared addr length prot flags f offset with
    | .error _ => none
    | .ok (ts', _, _) => some { s with space := { s.space with shared := ts' } }
  | .munmap writei addr length =>
    match s.space.toAddrSpace.munmap writei addr (ofInt length) with
    | .error _ => none
    | .ok (t, _, _) => some { s with space := { s.space with toAddrSpace := t } }
  | .sbrk n =>
    if IsInt n then
      match s.space.toAddrSpace.vmaSbrk n with
      | .error _ => none
      | .ok (t, _, _) => some { s with space := { s.space with toAddrSpace := t } }
    else none
  | .sbrknaive n uvmalloc =>
    if IsInt n then
      let sz := s.space.shared.sz
      let grown := uvmalloc sz (PageTable.uvmallocSize sz (add64 sz (ofInt n))) s.space.pagetable
      match s.space.toAddrSpace.growproc n (grown.map Subtype.val) with
      | .error _ => none
      | .ok (t, _) => some { s with space := { s.space with toAddrSpace := t } }
    else none
  | .exec ip phs fits pt =>
    match s.space.shared.exec ip phs fits with
    | .error _ => none
    -- what runs on the old page table does not run in this address space
    | .ok (ts', true) => some ⟨{ s.space with shared := ts', pagetable := pt }, [], [], []⟩
    | .ok (ts', false) => some { s with space := { s.space with shared := ts' } }
  | .fork pt => some ⟨{ s.space with pagetable := pt }, [], [], []⟩
  | .guard k stack =>
    match cloneGuard files s.space k stack with
    | .error _ => none
    | .ok (t, none) => some { s with space := t }
    | .ok (t, some trapframe) => some { s with space := t, cloning := ⟨trapframe, stack⟩ :: s.cloning }
  | .place c k =>
    if c ∈ s.cloning then
      match cloneTrapframe s.space k c.trapframe with
      | .error _ => none
      | .ok (t, none) => some { s with space := t, cloning := s.cloning.erase c }
      | .ok (t, some va) =>
        some { s with
          space := t
          threads := ⟨va, c.tstack⟩ :: s.threads
          cloning := s.cloning.erase c }
    else none
  | .exit t =>
    if t ∈ s.threads then
      match s.space.pagetable.uvmunmap t.trapVa 1 0 with
      | .error _ => none
      | .ok (pt, _) =>
        some { s with
          space := { s.space with pagetable := pt }
          threads := s.threads.erase t
          zombies := t :: s.zombies }
    else none
  | .join t =>
    if t ∈ s.zombies then
      (s.space.pagetable.slot t.tstack).map fun σ =>
        { s with
          space := { s.space with pagetable := s.space.pagetable.setU true σ }
          zombies := s.zombies.erase t }
    else none
  | .reap t => if t ∈ s.zombies then some { s with zombies := s.zombies.erase t } else none
  | .fault k va =>
    match s.space.vmaHandle files k va with
    | .error _ => none
    | .ok (t, _) => some { s with space := t }
  | .rework f => some { s with space := { s.space with pagetable := f s.space.shared.sz s.space.pagetable } }

/-- A process without areas and threads -/
structure Init (s : State) : Prop where
  areas : FixedMapping.Init s.space.toAddrSpace
  threads : s.threads = []
  cloning : s.cloning = []
  zombies : s.zombies = []

def system (files : ℕ → Inode) : System State Act where
  init := Init
  step := step files

/-! ## Pages in memory -/

/-- A page of 4 KiB that is in memory -/
def InMemory (pt : PageTable) (f : ℕ) : Prop :=
  ∃ pte, pt.look f = some (false, pte) ∧ pte.v = true ∧ pte.pg = false ∧ pte.pa ≠ 0

section Pages

open PageTable
open PageLedger (PagesOut evictions)

variable {pt pt' : PageTable} {f va n : ℕ} {pte : Pte}

theorem InMemory.kwalkaddr_ne (h : InMemory pt f) : pt.kwalkaddr f ≠ 0 := by
  obtain ⟨pte, hlook, hv, -, hpa⟩ := h
  rw [kwalkaddr, hlook]
  simpa [hv] using hpa

theorem InMemory.congr (h : InMemory pt f) (heq : pt'.look f = pt.look f) : InMemory pt' f := by
  obtain ⟨pte, hlook, hpte⟩ := h
  exact ⟨pte, heq.trans hlook, hpte⟩

/-- Only pages below the size are paged out. -/
theorem InMemory.pagesOut {sz : ℕ} {l : List (ℕ × ℕ)} (h : InMemory pt f) (hf : PGSIZE ∣ f)
    (hsz : sz ≤ f) (hout : PagesOut sz l pt pt') : InMemory pt' f := by
  refine h.congr (hout.2 f fun x _ hx heq => ?_)
  obtain ⟨c, rfl⟩ := hf
  simp only [PGSIZE] at *
  omega

/-- `mappages` takes no place where a page is in memory. -/
theorem InMemory.mapPage {suppg ok : Bool} (h : InMemory pt f) (hv : pte.v = true)
    (hmap : pt.mapPage va suppg pte n = .ok (pt', ok)) : InMemory pt' f := by
  cases ok with
  | false => exact h.congr (by rw [look_mapPage_false hmap])
  | true =>
    refine h.congr ?_
    obtain ⟨old, hlook, hold, -⟩ := h
    rw [look_mapPage hmap hv, if_neg]
    rintro ⟨hf, hsame⟩
    cases suppg with
    | true => exact nomatch (PageLedger.look_none_of_mapPage hmap hsame).symm.trans hlook
    | false =>
      have hva : pt.look va = some (false, old) := (look_congr hsame.symm).trans hlook
      exact Bool.false_ne_true ((look_of_mapPage hmap hva).symm.trans hold)

/-- The entry of another page is stored. -/
theorem look_setLow_of_ne (hva : va < MAXVA) (h : f / PGSIZE ≠ va / PGSIZE) :
    (pt.setLow va pte).look f = pt.look f := by
  rw [setLow, look_modifyMid hva]
  split
  · next hsame =>
    have hidx := (px_eq_iff_suppg hva hsame.1).mpr hsame.2
    have h0 : px 0 f ≠ px 0 va := fun h0 => h ((px_eq_iff_page hva hsame.1).mp ⟨hidx, h0⟩)
    rw [look, if_pos hsame.1, hidx.1, hidx.2]
    cases pt.midAt (px 2 va) (px 1 va) with
    | none => rfl
    | some e =>
      cases e with
      | leaf old hp => rfl
      | table t => simp [MidEntry.modifyTable, MidEntry.look, Function.update_of_ne h0]
  · rfl

/-- `kwalkaddr` does not ask whether the user has access. -/
theorem kwalkaddr_setU {σ : Slot} (hσ : pt.slot va = some σ) (u : Bool) (f : ℕ) :
    (pt.setU u σ).kwalkaddr f = pt.kwalkaddr f := by
  rw [kwalkaddr, kwalkaddr]
  rcases UserCopy.look_modify (keepsLeaf_setU u) (fun _ => ⟨rfl, rfl⟩) hσ f with heq | heq
  · rw [setU, heq]
  · rw [setU, heq]
    cases pt.look f <;> rfl

theorem InMemory.setU {σ : Slot} (h : InMemory pt f) (hσ : pt.slot va = some σ) (u : Bool) :
    InMemory (pt.setU u σ) f := by
  rcases UserCopy.look_modify (keepsLeaf_setU u) (fun _ => ⟨rfl, rfl⟩) hσ f with heq | heq
  · exact h.congr heq
  · obtain ⟨pte, hlook, hv, hpg, hpa⟩ := h
    rw [hlook] at heq
    exact ⟨{ pte with u := u }, heq, hv, hpg, hpa⟩

/-- `uvmunmap` leaves the pages outside of its range. -/
theorem InMemory.uvmunmap {start doFree : ℕ} {rel : List Release} (h : InMemory pt f)
    (hf : PGSIZE ∣ f) (hunmap : pt.uvmunmap start n doFree = .ok (pt', rel))
    (hout : f < start ∨ add64 start (n * PGSIZE) ≤ f) : InMemory pt' f := by
  obtain ⟨pte, hlook, hv, hpg, hpa⟩ := h
  obtain ⟨σ, hσ, hget⟩ := Option.map_eq_some_iff.mp (entry_of_look hlook)
  -- the entry is one of a level-0 page, which no other address has
  obtain ⟨-, ⟨_, -, -, -, -, hsuper⟩ | ⟨t, -, rfl, hentry, -⟩⟩ := PageLedger.slot_cases hσ
  · cases hlook.symm.trans hsuper
  have hstart : PGSIZE ∣ start := by
    rw [PageTable.uvmunmap] at hunmap
    split at hunmap
    · cases hunmap
    next halign => exact Nat.dvd_of_mod_eq_zero (not_not.mp halign)
  have hmet : ¬ pt.Meets (add64 start (n * PGSIZE)) start PGSIZE (.low (px 2 f) (px 1 f) (px 0 f)) := by
    rintro ⟨b, hb, hlt, hbσ⟩
    obtain ⟨hdvd, hle⟩ := hb.aligned hstart (Nat.dvd_refl _)
    have : f = b := PageLedger.eq_of_div hf hdvd (page_eq_of_slot_low hσ hbσ)
    omega
  obtain ⟨hσ', hget'⟩ := (uvmunmap_without hunmap).same hσ hmet
  obtain ⟨-, ⟨_, -, -, hslot, -, -⟩ | ⟨t', -, -, hentry', hlook'⟩⟩ := PageLedger.slot_cases hσ'
  · cases hslot
  · have hsame : t' (px 0 f) = pte := by rw [← hentry', hget', hget]
    rw [hsame] at hlook'
    exact ⟨pte, by rw [hlook', if_pos (by simp [Pte.present, hv])], hv, hpg, hpa⟩

end Pages

/-! ## Faults and guard pages -/

section Faults

open PageTable
open PageLedger (PagesOut Faulted evictions pagesOut_evictAll)

variable {files : ℕ → Inode} {s s' : Space} {k : Answers} {va f : ℕ}

theorem exists_faulted {r : Option Bool} (h : s.vmaHandle files k va = .ok (s', r)) :
    ∃ ops, Faulted s k (pgRoundDown va) s' ops := by
  rw [← Space.vmaHandlePages_fst] at h
  cases hcall : s.vmaHandlePages files k va with
  | error e =>
    rw [hcall] at h
    cases h
  | ok x =>
    rw [hcall] at h
    obtain ⟨⟨t, r'⟩, ops⟩ := x
    cases h
    exact ⟨ops, PageLedger.vmaHandlePages_faulted hcall⟩

theorem shared_of_fault {r : Option Bool} (h : s.vmaHandle files k va = .ok (s', r)) :
    s'.shared = s.shared := by
  obtain ⟨ops, hf⟩ := exists_faulted h
  cases hf <;> assumption

/-- A fault leaves the pages from the size on that are in memory. -/
theorem InMemory.fault {r : Option Bool} (h : InMemory s.pagetable f) (hf : PGSIZE ∣ f)
    (hsz : s.shared.sz ≤ f) (hcall : s.vmaHandle files k va = .ok (s', r)) :
    InMemory s'.pagetable f := by
  obtain ⟨ops, hfault⟩ := exists_faulted hcall
  cases hfault with
  | kept hshared hout => exact h.pagesOut hf hsz hout
  | @pagein l pte mem n pt hshared hlt hlook hpg hmem hout hpt =>
    -- the page that comes back is not in memory, and so another one
    have hne : f / PGSIZE ≠ pgRoundDown va / PGSIZE := by
      intro hsame
      obtain ⟨old, hold, -, hnot, -⟩ := h
      cases hold.symm.trans ((look_congr hsame).trans hlook)
      exact Bool.false_ne_true (hnot.symm.trans hpg)
    exact (h.pagesOut hf hsz hout).congr (by rw [hpt, look_setLow_of_ne hlt hne])
  | mapped hshared harea hwalk hmem hout hmap => exact (h.pagesOut hf hsz hout).mapPage rfl hmap
  | failed hshared harea hmem hip hout => exact h.pagesOut hf hsz hout

theorem absent_pagesOut {sz : ℕ} {l : List (ℕ × ℕ)} {pt pt' : PageTable}
    (h : pt.kwalkaddr f = 0) (hout : PagesOut sz l pt pt') : pt'.kwalkaddr f = 0 := by
  rw [kwalkaddr] at h ⊢
  rcases hout.1 f with heq | ⟨pte, idx, -, -, -, heq⟩
  · rwa [heq]
  · rw [heq]
    rfl

/-- A fault brings a page into memory in the super page of its address only. -/
theorem absent_fault {r : Option Bool} (h : s.pagetable.kwalkaddr f = 0)
    (hfar : f / SUPPGSIZE ≠ va / SUPPGSIZE) (hcall : s.vmaHandle files k va = .ok (s', r)) :
    s'.pagetable.kwalkaddr f = 0 := by
  have hround : pgRoundDown va / SUPPGSIZE = va / SUPPGSIZE := by
    simp only [pgRoundDown, roundDown, PGSIZE, SUPPGSIZE]
    omega
  obtain ⟨ops, hfault⟩ := exists_faulted hcall
  cases hfault with
  | kept hshared hout => exact absent_pagesOut h hout
  | @pagein l pte mem n pt hshared hlt hlook hpg hmem hout hpt =>
    have hne : f / PGSIZE ≠ pgRoundDown va / PGSIZE := fun hsame =>
      hfar ((suppg_of_page hsame).trans hround)
    rw [hpt, kwalkaddr, look_setLow_of_ne hlt hne]
    exact absent_pagesOut h hout
  | @mapped v mem n m pt hshared harea hwalk hmem hout hmap =>
    have hne : ¬ (f < MAXVA ∧ f / (if (PageLedger.kindOf v).suppg then SUPPGSIZE else PGSIZE) =
        PageLedger.baseOf (PageLedger.kindOf v) (pgRoundDown va) /
          (if (PageLedger.kindOf v).suppg then SUPPGSIZE else PGSIZE)) := by
      rintro ⟨-, hsame⟩
      rw [PageLedger.baseOf] at hsame
      split at hsame
      · rw [suppgRoundDown_div] at hsame
        exact hfar (hsame.trans hround)
      · exact hfar ((suppg_of_page hsame).trans hround)
    rw [kwalkaddr, look_mapPage hmap rfl, if_neg hne]
    exact absent_pagesOut h hout
  | failed hshared harea hmem hip hout => exact absent_pagesOut h hout

theorem finish_none {suppg : Bool} {pte : Pte} (h : s.finish k va suppg pte = .ok (s', none)) :
    PagesOut s.shared.sz (evictions k) s.pagetable s'.pagetable := by
  rw [Space.finish] at h
  split at h
  · cases h
  next pt ok hmap =>
  cases ok with
  | true => cases h
  | false =>
    cases h
    have hout := pagesOut_evictAll (l := evictions k) s fun x hx => List.mem_append_right k.evicted hx
    refine hout.trans ⟨fun a => .inl ?_, fun a _ => ?_⟩
    · rw [look_mapPage_false hmap]
    · rw [look_mapPage_false hmap]

/-- **A fault that is not handled** changes the page table by the pages that are paged out for it. -/
theorem vmaHandle_none (h : s.vmaHandle files k va = .ok (s', none)) :
    PagesOut s.shared.sz (evictions k) s.pagetable s'.pagetable := by
  -- At most the pages of the list `evictions` are paged out, and those only.
  have hevict := pagesOut_evictAll (l := evictions k) s
    fun x hx => List.mem_append_left k.tablesEvicted hx
  -- Mapping a page of an area fails before it allocates, or behind the eviction.
  have harea : ∀ v p, s.mapArea files k v p = .ok (s', none) →
      PagesOut s.shared.sz (evictions k) s.pagetable s'.pagetable := by
    intro v p h
    rw [Space.mapArea] at h
    split at h
    · split at h
      · split at h
        · cases h
          exact .refl _ _ _
        · exact finish_none (s := s.fill _ _ _) h
      · dsimp only at h
        split at h
        · cases h
          exact hevict
        · exact hevict.trans (finish_none (s := (s.evictAll k.evicted).fill _ _ _) h)
    · split at h
      · cases h
      dsimp only at h
      split at h
      · cases h
      split at h
      · cases h
        exact .refl _ _ _
      · exact finish_none (s := s.fill _ _ _) h
  -- The page is out of reach, is paged in, is there, or is mapped.
  rw [Space.vmaHandle] at h
  split at h
  · cases h
    exact .refl _ _ _
  dsimp only at h
  split at h
  · cases h
  split at h
  · split at h
    · rw [Space.pagein] at h
      dsimp only at h
      split at h
      · cases h
        exact hevict
      · cases h
    split at h
    · cases h
      exact .refl _ _ _
    split at h
    · cases h
    split at h
    · cases h
    · exact harea _ _ h
  · split at h
    · cases h
      exact .refl _ _ _
    split at h
    · cases h
    · exact harea _ _ h

/-- The page at `va` is in memory and closed to the user. -/
def Closed (pt : PageTable) (va : ℕ) : Prop :=
  ∃ σ, pt.slot va = some σ ∧ (pt.get σ).v = true ∧ (pt.get σ).u = false

/-- **What `setguardpage` does**: it fails as the fault does, or it closes a page that was there or
    has been brought in. -/
theorem setguardpage_cases {tstack : ℕ} {ok : Bool}
    (h : setguardpage files s k tstack = .ok (s', ok)) :
    (ok = false ∧ s.vmaHandle files k tstack = .ok (s', none)) ∨
    (ok = true ∧ ∃ t σ, t.pagetable.slot tstack = some σ ∧
      s' = { t with pagetable := t.pagetable.setU false σ } ∧
      (t = s ∨ ¬ Closed s.pagetable tstack ∧ ∃ l, s.vmaHandle files k tstack = .ok (t, some l))) := by
  rw [setguardpage] at h
  split at h
  · cases h
  next pte hwalk =>
  have hslot : pte = s.pagetable.slot tstack := by
    rw [walk] at hwalk
    split at hwalk
    · cases hwalk
    · exact (Except.ok.inj hwalk).symm
  subst hslot
  dsimp only at h
  -- Whether an entry is there decides if the fault handler is called.
  generalize hthere : (s.pagetable.slot tstack).any (fun σ => (s.pagetable.get σ).v) = there at h
  cases there with
  | true =>
    rw [if_pos rfl] at h
    dsimp only at h
    split at h
    · cases h
    next σ hσ =>
    split at h
    · cases h
      exact .inr ⟨rfl, s, σ, hσ, rfl, .inl rfl⟩
    · cases h
  | false =>
    rw [if_neg Bool.false_ne_true] at h
    -- The fault is handled only where no closed page is.
    have hopen : ¬ Closed s.pagetable tstack := by
      rintro ⟨σ, hσ, hv, -⟩
      rw [hσ, Option.any_some, hv] at hthere
      cases hthere
    split at h
    · cases h
    · next t hcall =>
      cases h
      exact .inl ⟨rfl, hcall⟩
    · next t l hcall =>
      split at h
      · cases h
      next σ hσ =>
      split at h
      · cases h
        exact .inr ⟨rfl, t, σ, hσ, rfl, .inr ⟨hopen, l, hcall⟩⟩
      · cases h

end Faults

/-! ## Areas and the end of the memory -/

/-- No address of the page at `f` is below `sz` or in an area. -/
structure Outside (ts : ThreadShared) (f : ℕ) : Prop where
  sz_le : ts.sz ≤ f
  areas : ∀ k < MAX_VMA, ∀ va, f ≤ va → va < f + PGSIZE → (ts.vmAreas k).covers va = false

/-- The `len` bytes from `addr` on have no address of the page at `f`. -/
def Avoids (addr len f : ℕ) : Prop :=
  ∀ va, f ≤ va → va < f + PGSIZE → ¬ (addr ≤ va ∧ va < add64 addr len)

section Areas

variable {ts ts' : ThreadShared} {f j : ℕ} {v : Vma}

theorem covers_of_used (hv : v.used = true) (va : ℕ) :
    v.covers va = false ↔ ¬ (v.addr ≤ va ∧ va < add64 v.addr v.length) := by
  simp [Vma.covers, hv]

theorem Outside.setSlot (h : Outside ts f)
    (hv : ∀ va, f ≤ va → va < f + PGSIZE → v.covers va = false) : Outside (ts.setSlot j v) f := by
  refine ⟨h.sz_le, fun k hk => ?_⟩
  by_cases hkj : k = j
  · subst hkj
    rwa [setSlot_self]
  · rw [setSlot_of_ne _ _ hkj]
    exact h.areas k hk

/-- The page stays outside when an area is made if and only if the area avoids it. -/
theorem Outside.setSlot_iff (h : Outside ts f) (hj : j < MAX_VMA) (hv : v.used = true) :
    Outside (ts.setSlot j v) f ↔ Avoids v.addr v.length f := by
  constructor
  · intro ho va hlo hhi
    have := ho.areas j hj va hlo hhi
    rwa [setSlot_self, covers_of_used hv] at this
  · intro havoid
    exact h.setSlot fun va hlo hhi => (covers_of_used hv va).mpr (havoid va hlo hhi)

/-- Areas of which none covers more than before -/
theorem Outside.mono (h : Outside ts f) (hsz : ts'.sz = ts.sz)
    (hv : ∀ k < MAX_VMA, ∀ va, (ts'.vmAreas k).covers va = true → (ts.vmAreas k).covers va = true) :
    Outside ts' f := by
  refine ⟨hsz ▸ h.sz_le, fun k hk va hlo hhi => ?_⟩
  have := h.areas k hk va hlo hhi
  rw [Bool.eq_false_iff] at this ⊢
  exact mt (hv k hk va) this

theorem Outside.resize (h : Outside ts f) {sz : ℕ} (hsz : sz ≤ f) : Outside { ts with sz := sz } f :=
  ⟨hsz, h.areas⟩

/-! ### `sbrk` -/

/-- The end of the heap moves: the page stays outside if and only if it is not below the new end. -/
theorem outside_sbrk_iff {s s' : AddrSpace} {n : ℤ} {ret : ℕ} {rel : List PageTable.Release}
    (h : Outside s.shared f) (hcall : s.vmaSbrk n = .ok (s', ret, rel)) :
    Outside s'.shared f ↔ (s.shared.spaceEnough n = true → add64 s.shared.sz (ofInt n) ≤ f) := by
  rcases AddrSpace.vmaSbrk_cases hcall with ⟨hno, rfl, -⟩ | ⟨henough, -, ts, r, refs, pt', hcreate, rfl⟩
  · exact iff_of_true h fun hyes => nomatch hno.symm.trans hyes
  have hmoved : ∀ {j : ℕ} {v : Vma}, add64 v.addr v.length = add64 s.shared.sz (ofInt n) →
      add64 s.shared.sz (ofInt n) ≤ f → Outside (s.shared.setSlot j v) f := by
    intro j v hend hle
    refine h.setSlot fun va hlo _ => ?_
    -- an area that ends at the new size
    have : ¬ va < add64 v.addr v.length := by omega
    simp [Vma.covers, this]
  have hsz : ts.sz = s.shared.sz := by
    rcases FixedMapping.createHeap_cases rfl hcreate with
      ⟨j, -, -, -, -, -, rfl⟩ | ⟨-, rfl | ⟨-, j, -, -, -, rfl⟩⟩ <;> rfl
  rw [hsz]
  refine ⟨fun ho _ => ho.sz_le, fun hle => ?_⟩
  have hle := hle henough
  refine Outside.resize ?_ hle
  rcases FixedMapping.createHeap_cases rfl hcreate with
    ⟨j, -, -, -, -, haddr, rfl⟩ | ⟨-, rfl | ⟨-, j, -, -, -, rfl⟩⟩
  · refine hmoved ?_ hle
    rw [haddr]
    simp only [add64]
    omega
  · exact h
  · exact hmoved rfl hle

/-! ### `mmap` -/

/-- The call passes the tests of the kernel, and its area is to begin at `a`. -/
def AsksFor (ts : ThreadShared) (addr len prot flags : ℕ) (file : Option File) (a : ℕ) : Prop :=
  if addr = 0 then
    fileAllows file prot flags = true ∧ FixedMapping.isInode file = true ∧
      ∃ i < MAX_DYN_VMA, (∀ k < i, ¬ Passes ts (mapSuppg flags) len k) ∧
        Passes ts (mapSuppg flags) len i ∧
        a = roundDown (pageOf (mapSuppg flags)) (sub64 (holeTop ts (mapSuppg flags) i) len)
  else FixedMapping.accepts ts addr prot flags file = true ∧ a = addr

variable {addr len prot flags offset ret a b : ℕ} {length : ℤ} {file : Option File} {refs : List RefOp}

theorem AsksFor.unique (h : AsksFor ts addr len prot flags file a)
    (h' : AsksFor ts addr len prot flags file b) : a = b := by
  rw [AsksFor] at h h'
  split at h
  · next haddr =>
    rw [if_pos haddr] at h'
    obtain ⟨-, -, i, -, hfirst, hpass, rfl⟩ := h
    obtain ⟨-, -, i', -, hfirst', hpass', rfl⟩ := h'
    -- the first slot that passes is one slot
    rcases Nat.lt_trichotomy i i' with hlt | rfl | hgt
    · exact absurd hpass (hfirst' i hlt)
    · rfl
    · exact absurd hpass' (hfirst i' hgt)
  · next haddr =>
    rw [if_neg haddr] at h'
    exact h.2.trans h'.2.symm

/-- `mmap` is refused, or makes the area that it asks for. -/
theorem sysMmap_spec (h : sysMmap ts addr length prot flags file offset = .ok (ts', ret, refs)) :
    (ts' = ts ∧ ∀ a, ¬ AsksFor ts addr (ofInt length) prot flags file a) ∨
    ∃ j v, j < MAX_VMA ∧ v.used = true ∧ v.length = ofInt length ∧
      AsksFor ts addr (ofInt length) prot flags file v.addr ∧ ts' = ts.setSlot j v := by
  simp only [sysMmap, vmaCreate] at h
  -- With address 0 the kernel chooses the place.
  by_cases haddr : addr = 0
  · simp only [AsksFor, if_pos haddr] at h ⊢
    split at h
    · next hallows =>
      cases h
      refine .inl ⟨rfl, fun a hasks => ?_⟩
      rw [hasks.1] at hallows
      cases hallows
    next hallows =>
    replace hallows : fileAllows file prot flags = true := by simpa using hallows
    replace h := Except.ok.inj h
    rw [createDynamic] at h
    have hbefore : ∀ k < 0, ¬ Passes ts (mapSuppg flags) (ofInt length) k :=
      fun k hk => absurd hk (Nat.not_lt_zero k)
    split at h
    · next hnone =>
      cases h
      have := MmapPlacement.findHole_eq_none (i := 0) le_rfl hbefore hnone
      refine .inl ⟨rfl, ?_⟩
      rintro a ⟨_, _, i, hi, _, hpass, _⟩
      exact this i hi hpass
    next i e hfound =>
    -- The first gap that is wide enough is taken.
    obtain ⟨hi, hfirst, hpass, rfl⟩ := MmapPlacement.findHole_eq_some (i := 0) le_rfl hbefore hfound
    have hi' : i < MAX_VMA := Nat.lt_of_lt_of_le hi (by decide)
    simp only [setupVma] at h
    split at h
    · cases h
      exact .inr ⟨i, _, hi', rfl, rfl, ⟨hallows, rfl, i, hi, hfirst, hpass, rfl⟩, rfl⟩
    -- A file must be an inode.
    next fd =>
    split at h
    · next htype =>
      cases h
      refine .inl ⟨rfl, ?_⟩
      rintro a ⟨_, hinode, _⟩
      refine htype ?_
      simpa [FixedMapping.isInode] using hinode
    · next htype =>
      cases h
      have hinode : FixedMapping.isInode (some fd) = true := by simpa [FixedMapping.isInode] using htype
      exact .inr ⟨i, _, hi', rfl, rfl, ⟨hallows, hinode, i, hi, hfirst, hpass, rfl⟩, rfl⟩
  -- With another address the area must lie where the caller asks.
  · simp only [AsksFor, if_neg haddr] at h ⊢
    split at h
    · next hallows =>
      cases h
      refine .inl ⟨rfl, ?_⟩
      rintro a ⟨haccepts, _⟩
      simp only [FixedMapping.accepts, Bool.and_eq_true] at haccepts
      rw [haccepts.1.1.1] at hallows
      cases hallows
    next hallows =>
    have hcreate := Except.ok.inj h
    -- It lies there, uncovered, or it is refused.
    rcases FixedMapping.createFix_cases hcreate with rfl | ⟨hinode, huncovered, j, hj, hj', hju, rfl⟩
    · refine .inl ⟨rfl, ?_⟩
      rintro a ⟨haccepts, _⟩
      exact FixedMapping.createFix_ne haccepts hcreate rfl
    · refine .inr ⟨j, _, hj', rfl, rfl, ⟨?_, rfl⟩, rfl⟩
      simp only [FixedMapping.accepts, Bool.and_eq_true, Bool.not_eq_true', List.any_eq_true]
      refine ⟨⟨⟨by simpa using hallows, ?_⟩, j, FixedMapping.mem_fixSlots.mpr ⟨hj, hj'⟩, by simp [hju]⟩,
        hinode⟩
      simpa [List.any_eq_false] using huncovered

/-- The page stays outside when a mapping is made if and only if the mapping avoids it. -/
theorem outside_mmap_iff (h : Outside ts f)
    (hcall : sysMmap ts addr length prot flags file offset = .ok (ts', ret, refs)) :
    Outside ts' f ↔ ∀ a, AsksFor ts addr (ofInt length) prot flags file a → Avoids a (ofInt length) f := by
  rcases sysMmap_spec hcall with ⟨rfl, hno⟩ | ⟨j, v, hj, hu, hlen, hasks, rfl⟩
  · exact iff_of_true h fun a hasks => absurd hasks (hno a)
  · rw [h.setSlot_iff hj hu, hlen]
    exact ⟨fun havoid a ha => ha.unique hasks ▸ havoid, fun havoid => havoid _ hasks⟩

end Areas

/-! ## What a call leaves of a trapframe page -/

/-- The addresses that `clone` looks at -/
def Candidate (va : ℕ) : Prop := PGSIZE ∣ va ∧ PHYSTOP_INCLUDESUPPG ≤ va ∧ va < USYSCALL

/-- The first candidate at which no page is in memory -/
def FirstAbsent (pt : PageTable) (u : ℕ) : Prop :=
  Candidate u ∧ pt.kwalkaddr u = 0 ∧ ∀ va, Candidate va → va < u → pt.kwalkaddr va ≠ 0

/-- A page at which a trapframe page of a thread is mapped, and nothing else has it -/
structure Lives (s : AddrSpace) (f : ℕ) : Prop where
  candidate : Candidate f
  outside : Outside s.shared f
  inMemory : InMemory s.pagetable f

section Calls

variable {s s' : AddrSpace} {ts ts' : ThreadShared} {pt pt' : PageTable} {f : ℕ}

/-- The search, from a candidate on before which all pages are in memory -/
theorem findTrapVa_spec {fuel va : ℕ} (hdvd : PGSIZE ∣ va) (hlow : PHYSTOP_INCLUDESUPPG ≤ va)
    (hbefore : ∀ w, Candidate w → w < va → pt.kwalkaddr w ≠ 0)
    (hfuel : USYSCALL ≤ va + fuel * PGSIZE) :
    match pt.findTrapVa fuel va with
    | some u => FirstAbsent pt u
    | none => ∀ w, Candidate w → pt.kwalkaddr w ≠ 0 := by
  induction fuel generalizing va with
  | zero => exact fun w hw => hbefore w hw (by have := hw.2.2; omega)
  | succ fuel ih =>
    rw [PageTable.findTrapVa]
    by_cases hva : va < USYSCALL
    · rw [if_pos hva]
      by_cases habsent : pt.kwalkaddr va = 0
      · rw [if_pos habsent]
        exact ⟨⟨hdvd, hlow, hva⟩, habsent, hbefore⟩
      · rw [if_neg habsent]
        refine ih (Nat.dvd_add hdvd (Nat.dvd_refl _)) (by omega) (fun w hw hlt => ?_)
          (by simp only [PGSIZE] at *; omega)
        -- there is no candidate between two turns
        have hle : w ≤ va := by
          obtain ⟨c, rfl⟩ := hdvd
          obtain ⟨⟨d, rfl⟩, -⟩ := hw
          simp only [PGSIZE] at *
          omega
        rcases Nat.eq_or_lt_of_le hle with rfl | hlt
        · exact habsent
        · exact hbefore w hw hlt
    · rw [if_neg hva]
      exact fun w hw => hbefore w hw (by have := hw.2.2; omega)

/-- **What the search finds** -/
theorem searchTrapVa_spec (pt : PageTable) :
    match searchTrapVa pt with
    | some u => FirstAbsent pt u
    | none => ∀ w, Candidate w → pt.kwalkaddr w ≠ 0 :=
  findTrapVa_spec (by decide) le_rfl (fun w hw hlt => absurd hw.2.1 (Nat.not_le.mpr hlt)) (by decide)

/-! ### `sbrk` and `sbrknaive` -/

/-- Giving pages below the size back -/
theorem InMemory.uvmdealloc {oldsz newsz sz : ℕ} {rel : List PageTable.Release} (h : InMemory pt f)
    (hf : Candidate f) (hsz : oldsz ≤ f) (hcall : pt.uvmdealloc oldsz newsz = .ok (pt', sz, rel)) :
    InMemory pt' f ∧ sz ≤ f := by
  obtain ⟨hdvd, hlow, hhigh⟩ := hf
  have hpg : PGSIZE ≤ f := le_trans (by decide) hlow
  have hbound : f + PGSIZE ≤ 2 ^ 64 := by
    simp only [USYSCALL, TRAPFRAME, TRAMPOLINE, MAXVA, PGSIZE] at *
    omega
  have hup : pgRoundUp oldsz ≤ f :=
    (roundUp_le_iff (by decide) hdvd (by simp only [PGSIZE] at *; omega)).mpr hsz
  rw [PageTable.uvmdealloc] at hcall
  split at hcall
  · cases hcall
    exact ⟨h, hsz⟩
  next hshrink =>
  split at hcall
  · next hpages =>
    dsimp only at hcall
    split at hcall
    · cases hcall
    next pt₁ rel₁ hunmap =>
    cases hcall
    have hdiv : PGSIZE ∣ pgRoundUp oldsz := dvd_roundUp _ _
    have hdiv' : PGSIZE ∣ pgRoundUp newsz := dvd_roundUp _ _
    obtain ⟨c, hc⟩ := hdiv
    obtain ⟨d, hd⟩ := hdiv'
    refine ⟨h.uvmunmap hdvd hunmap (.inr ((Nat.mod_le _ _).trans ?_)), ?_⟩
    · split
      · next hzero =>
        -- the first page of the address space is kept
        have hone : pgRoundUp PGSIZE = PGSIZE := by decide
        have hnone : pgRoundUp 0 = 0 := by decide
        subst hzero
        dsimp only
        rw [hc] at hup hpages ⊢
        rw [hnone] at hpages ⊢
        rw [hone]
        simp only [PGSIZE] at *
        omega
      · dsimp only
        rw [hc] at hup hpages ⊢
        rw [hd] at hpages ⊢
        simp only [PGSIZE] at *
        omega
    · split
      · exact hpg
      · exact (Nat.le_of_lt (Nat.lt_of_not_le hshrink)).trans hsz
  · cases hcall
    exact ⟨h, (Nat.le_of_lt (Nat.lt_of_not_le hshrink)).trans hsz⟩

/-- `sbrk` gives back pages below the size, or none. -/
theorem vmaSbrk_pages {n : ℤ} {ret : ℕ} {rel : List PageTable.Release}
    (hcall : s.vmaSbrk n = .ok (s', ret, rel)) :
    s'.pagetable = s.pagetable ∨ ∃ sz rel', s.pagetable.uvmdealloc s.shared.sz
      (add64 s.shared.sz (ofInt n)) = .ok (s'.pagetable, sz, rel') := by
  simp only [AddrSpace.vmaSbrk] at hcall
  split at hcall
  · cases hcall
    exact .inl rfl
  split at hcall
  · cases hcall
  next pt' newsz rel₁ hdealloc =>
  split at hcall
  · cases hcall
  cases hcall
  split at hdealloc
  · exact .inr ⟨newsz, _, hdealloc⟩
  · cases hdealloc
    exact .inl rfl

theorem Lives.sbrk {n : ℤ} {ret : ℕ} {rel : List PageTable.Release} (h : Lives s f)
    (hcall : s.vmaSbrk n = .ok (s', ret, rel)) (hclear : s.shared.spaceEnough n = true →
      add64 s.shared.sz (ofInt n) ≤ f) : Lives s' f := by
  refine ⟨h.candidate, (outside_sbrk_iff h.outside hcall).mpr hclear, ?_⟩
  rcases vmaSbrk_pages hcall with heq | ⟨sz, rel', hdealloc⟩
  · exact heq ▸ h.inMemory
  · exact (h.inMemory.uvmdealloc h.candidate h.outside.sz_le hdealloc).1

/-- `sbrknaive` maps its pages at once, and would not get past the trapframe page. -/
theorem Lives.growproc {n ret : ℤ}
    {grown : Option {pt' // Grows s.shared.sz
      (PageTable.uvmallocSize s.shared.sz (add64 s.shared.sz (ofInt n))) s.pagetable pt'}}
    (h : Lives s f) (hcall : s.growproc n (grown.map Subtype.val) = .ok (s', ret)) : Lives s' f := by
  simp only [AddrSpace.growproc] at hcall
  split at hcall
  · split at hcall
    · cases hcall
    split at hcall
    · cases hcall
      exact h
    next pt hgrown =>
    cases hcall
    obtain ⟨⟨pt, hgrows⟩, -, rfl⟩ := Option.map_eq_some_iff.mp hgrown
    have hpage := hgrows f h.candidate.1 h.outside.sz_le
    split at hpage
    · exact absurd hpage h.inMemory.kwalkaddr_ne
    · next hge => exact ⟨h.candidate, h.outside.resize (Nat.le_of_not_lt hge), h.inMemory.congr hpage⟩
  split at hcall
  · split at hcall
    · cases hcall
    next pt' newsz rel hdealloc =>
    cases hcall
    obtain ⟨hmem, hle⟩ := h.inMemory.uvmdealloc h.candidate h.outside.sz_le hdealloc
    exact ⟨h.candidate, h.outside.resize hle, hmem⟩
  · cases hcall
    exact h

/-! ### `munmap` -/

/-- `munmap` asks for no more than the area has, and for no address of the page. -/
def CutClear (s : AddrSpace) (addr len f : ℕ) : Prop :=
  ∀ i, s.mmapped addr = some i →
    (s.shared.vmAreas i).addr + pgRoundDown len ≤
      add64 (s.shared.vmAreas i).addr (s.shared.vmAreas i).length ∧
    (f + PGSIZE ≤ addr ∨ addr + pgRoundDown len ≤ f)

/-- What is left of an area covers no more than the area. -/
theorem covers_of_cut {v : Vma} {addr len va : ℕ} (hlen : v.addr + len ≤ add64 v.addr v.length)
    (hcov : (v.cut addr len).covers va = true) : v.covers va = true := by
  rw [Vma.cut] at hcov
  split at hcov
  · simp [Vma.covers] at hcov
  simp only [Vma.covers, Bool.and_eq_true, decide_eq_true_eq] at hcov ⊢
  obtain ⟨⟨hu, hlo⟩, hhi⟩ := hcov
  refine ⟨⟨hu, ?_⟩, ?_⟩
  · split at hlo
    · simp only [add64] at *
      omega
    · exact hlo
  · split at hhi
    · simp only [add64, sub64] at *
      omega
    · simp only [add64, sub64] at *
      omega

theorem Lives.munmap {writei : FileWrite → Bool} {addr len ret : ℕ} {eff : MunmapEffects}
    (h : Lives s f) (hclear : CutClear s addr len f)
    (hcall : s.munmap writei addr len = .ok (s', ret, eff)) : Lives s' f := by
  rcases AddrSpace.munmap_cases hcall with ⟨rfl, -⟩ | ⟨-, -, -, i, pt', rel, doFree, hfind, hunmap, rfl⟩
  · exact h
  obtain ⟨hlen, hout⟩ := hclear i hfind
  obtain ⟨hi, -⟩ := AddrSpace.mmapped_spec hfind
  refine ⟨h.candidate, h.outside.setSlot fun va hlo hhi => ?_, ?_⟩
  · have := h.outside.areas i hi va hlo hhi
    rw [Bool.eq_false_iff] at this ⊢
    exact mt (covers_of_cut hlen) this
  · refine h.inMemory.uvmunmap h.candidate.1 hunmap ?_
    -- the length is a number of pages
    have hpages : pgRoundUp (pgRoundDown len) / PGSIZE * PGSIZE = pgRoundDown len := by
      have hlt : add64 (s.shared.vmAreas i).addr (s.shared.vmAreas i).length < 2 ^ 64 :=
        Nat.mod_lt _ (by decide)
      simp only [pgRoundUp, pgRoundDown, roundUp, roundDown, add64, PGSIZE] at *
      omega
    rw [hpages, add64]
    have := Nat.mod_le (addr + pgRoundDown len) (2 ^ 64)
    rcases hout with hlow | hhigh
    · exact .inl (by simp only [PGSIZE] at hlow; omega)
    · exact .inr (this.trans hhigh)

/-! ### A failing `exec` -/

theorem outside_loadHeaders {ip sz sz' : ℕ} {phs : List (Option ProgHdr)} {refs : List RefOp} {done : Bool}
    (h : Outside ts f)
    (hclear : ∀ ph, some ph ∈ phs → ph.load = true → Avoids ph.vaddr ph.memsz f)
    (hcall : loadHeaders ip ts sz phs = .ok (ts', sz', refs, done)) : Outside ts' f := by
  -- induction on the headers still to come
  induction phs generalizing ts sz refs with
  | nil =>
    cases hcall
    exact h
  | cons hd phs ih =>
    have hrest : ∀ ph, some ph ∈ phs → ph.load = true → Avoids ph.vaddr ph.memsz f :=
      fun ph hph => hclear ph (List.mem_cons_of_mem _ hph)
    cases hd with
    | none =>
      cases hcall
      exact h
    | some ph =>
      rw [loadHeaders] at hcall
      split at hcall
      · exact ih h hrest hcall
      next hload =>
      split at hcall
      · cases hcall
        exact h
      split at hcall
      · cases hcall
      next ts₁ r refs₁ hcreate =>
      split at hcall
      · cases hcall
      next hloop =>
      cases hcall
      refine ih ?_ hrest hloop
      rcases FixedMapping.createFix_cases (Except.ok.inj hcreate) with rfl | ⟨-, -, j, -, hj, -, rfl⟩
      · exact h
      · exact (h.setSlot_iff hj rfl).mpr (hclear ph List.mem_cons_self (by simpa using hload))

theorem outside_exec {ip : ℕ} {phs : List (Option ProgHdr)} {fits : Bool} (h : Outside ts f)
    (hclear : ∀ ph, some ph ∈ phs → ph.load = true → Avoids ph.vaddr ph.memsz f)
    (hcall : ts.exec ip phs fits = .ok (ts', false)) : Outside ts' f := by
  have hexec : Outside ts.vmaExecClear.1 f := by
    refine h.mono rfl fun k _ va hcov => ?_
    simp only [vmaExecClear] at hcov
    split at hcov
    · simp [Vma.covers] at hcov
    · exact hcov
  rw [ThreadShared.exec] at hcall
  split at hcall
  · cases hcall
  · next hload =>
    cases hcall
    exact outside_loadHeaders hexec hclear hload
  · next hload =>
    split at hcall
    · cases hcall
    split at hcall
    · cases hcall
      exact outside_loadHeaders hexec hclear hload
    · cases hcall

end Calls

/-! ## What `clone` does -/

section Clone

open PageTable
open PageLedger (PagesOut evictions pagesOut_evictAll)

variable {files : ℕ → Inode} {s s' : Space} {k : CloneAnswers} {k' : TableAnswers} {stack f va n : ℕ}
  {pt pt' : PageTable} {pte : Pte}

theorem Lives.evictAll (h : Lives s.toAddrSpace f) (l : List (ℕ × ℕ)) :
    Lives (s.evictAll l).toAddrSpace f :=
  ⟨h.candidate, h.outside,
    h.inMemory.pagesOut h.candidate.1 h.outside.sz_le (pagesOut_evictAll s fun _ hx => hx)⟩

theorem Lives.fault {k : Answers} {r : Option Bool} (h : Lives s.toAddrSpace f)
    (hcall : s.vmaHandle files k va = .ok (s', r)) : Lives s'.toAddrSpace f := by
  refine ⟨h.candidate, ?_, h.inMemory.fault h.candidate.1 h.outside.sz_le hcall⟩
  rw [shared_of_fault hcall]
  exact h.outside

theorem Lives.setU {σ : Slot} (h : Lives s.toAddrSpace f) (hσ : s.pagetable.slot va = some σ) (u : Bool) :
    Lives { s.toAddrSpace with pagetable := s.pagetable.setU u σ } f :=
  ⟨h.candidate, h.outside, h.inMemory.setU hσ u⟩

/-- `clone` up to the search leaves every trapframe page. -/
theorem Lives.guard {r : Option Page} (h : Lives s.toAddrSpace f)
    (hcall : cloneGuard files s k stack = .ok (s', r)) : Lives s'.toAddrSpace f := by
  rw [cloneGuard] at hcall
  split at hcall
  · cases hcall
    exact h
  have hevict := h.evictAll k.evicted
  dsimp only at hcall
  split at hcall
  · cases hcall
    exact hevict
  split at hcall
  · cases hcall
  next t ok hguard =>
  cases hcall
  rcases setguardpage_cases hguard with ⟨-, hfault⟩ | ⟨-, t, σ, hσ, rfl, rfl | ⟨-, l, hfault⟩⟩
  · exact hevict.fault hfault
  · exact hevict.setU hσ false
  · exact (hevict.fault hfault).setU hσ false

theorem mapPage_walkAlloc {ok : Bool} (h : pt.mapPage va false pte n = .ok (pt', ok)) :
    ok = pt.walkAlloc va n := by
  unfold mapPage at h
  simp only [Bool.false_eq_true, if_false] at h
  split at h
  · cases h
  split at h
  · cases h
  split at h
  · next hroot =>
    cases h
    rw [walkAlloc, hroot]
  next pt₁ n₁ hroot =>
  split at h
  · next hmid =>
    cases h
    rw [walkAlloc, hroot]
    dsimp only
    rw [hmid]
    rfl
  next pt₂ hmid =>
  rw [walkAlloc, hroot]
  dsimp only
  rw [hmid]
  split at h
  · split at h <;> cases h
    rfl
  · cases h

theorem FirstAbsent.unique {u : ℕ} (h : FirstAbsent pt u) (h' : FirstAbsent pt va) : u = va := by
  rcases Nat.lt_trichotomy u va with hlt | heq | hgt
  · exact absurd h.2.1 (h'.2.2 u h.1 hlt)
  · exact heq
  · exact absurd h'.2.1 (h.2.2 va h'.1 hgt)

/-- **What the search and `mappages` do** -/
theorem cloneTrapframe_cases {trapframe : Page} {r : Option ℕ}
    (h : cloneTrapframe s k' trapframe = .ok (s', r)) :
    (r = none ∧ s' = s ∧ ∀ w, Candidate w → s.pagetable.kwalkaddr w ≠ 0) ∨
    ∃ va pt ok, r = some va ∧ FirstAbsent s.pagetable va ∧
      (s.evictAll k'.evicted).pagetable.mapPage va false (trapframePte trapframe) k'.tables = .ok (pt, ok) ∧
      s' = { s.evictAll k'.evicted with pagetable := pt } := by
  rw [cloneTrapframe] at h
  have hsearch := searchTrapVa_spec s.pagetable
  split at h
  · next hnone =>
    cases h
    rw [hnone] at hsearch
    exact .inl ⟨rfl, rfl, hsearch⟩
  next va hva =>
  rw [hva] at hsearch
  dsimp only at h
  split at h
  · cases h
  next pt ok hmap =>
  cases h
  exact .inr ⟨va, pt, ok, rfl, hsearch, hmap, rfl⟩

/-- The first address without a page is outside, and the page table can get the pages that it needs
    for it. -/
def PlaceClear (s : Space) (k' : TableAnswers) : Prop :=
  ∀ u, FirstAbsent s.pagetable u →
    Outside s.shared u ∧ (s.evictAll k'.evicted).pagetable.walkAlloc u k'.tables = true

/-- **The new trapframe page** is where it should be if and only if the search has met its condition. -/
theorem place_iff {trapframe : Page} (h : cloneTrapframe s k' trapframe = .ok (s', some va)) :
    Lives s'.toAddrSpace va ↔ PlaceClear s k' := by
  rcases cloneTrapframe_cases h with ⟨hnone, -⟩ | ⟨va', pt, ok, hva, hfirst, hmap, rfl⟩
  · cases hnone
  obtain rfl : va = va' := Option.some.inj hva
  have hwalk := mapPage_walkAlloc hmap
  constructor
  · intro hlives u hu
    obtain rfl := hu.unique hfirst
    refine ⟨hlives.outside, ?_⟩
    cases ok with
    | true => exact hwalk.symm
    | false =>
      -- the page is not there if `mappages` has found no memory
      have habsent := absent_pagesOut hfirst.2.1 (pagesOut_evictAll (l := k'.evicted) s fun _ hx => hx)
      refine absurd ?_ hlives.inMemory.kwalkaddr_ne
      rwa [kwalkaddr, look_mapPage_false hmap]
  · intro hclear
    obtain ⟨hout, halloc⟩ := hclear va hfirst
    rw [halloc] at hwalk
    subst hwalk
    refine ⟨hfirst.1, hout, trapframePte trapframe, ?_, rfl, rfl, ?_⟩
    · rw [look_mapPage hmap rfl, if_pos ⟨(mapPage_ok hmap).1, rfl⟩]
    · obtain ⟨-, hdvd, hne⟩ := trapframe.facts
      show (trapframe : ℕ) / PGSIZE * PGSIZE ≠ 0
      rwa [Nat.div_mul_cancel hdvd]

/-- The other trapframe pages stay, and the new one is none of them. -/
theorem Lives.place {trapframe : Page} {r : Option ℕ} (h : Lives s.toAddrSpace f)
    (hcall : cloneTrapframe s k' trapframe = .ok (s', r)) : Lives s'.toAddrSpace f ∧ r ≠ some f := by
  rcases cloneTrapframe_cases hcall with ⟨rfl, rfl, -⟩ | ⟨va, pt, ok, rfl, hfirst, hmap, rfl⟩
  · exact ⟨h, nofun⟩
  have hevict := h.evictAll k'.evicted
  refine ⟨⟨h.candidate, h.outside, hevict.inMemory.mapPage rfl hmap⟩, fun heq => ?_⟩
  obtain rfl : va = f := Option.some.inj heq
  exact h.inMemory.kwalkaddr_ne hfirst.2.1

/-! ### A `clone` that fails -/

/-- The page table is as before the call, except for pages that `kalloc` has paged out. -/
def AsBefore (s : Space) (k : CloneAnswers) (s' : Space) : Prop :=
  PagesOut s.shared.sz (k.evicted ++ evictions k.fault) s.pagetable s'.pagetable

/-- There is an address for the search to find, apart from the super page that the stack begins in,
    or the stack has its guard page already. -/
def FailClear (s : Space) (k : CloneAnswers) (stack : ℕ) : Prop :=
  (∃ u, Candidate u ∧ s.pagetable.kwalkaddr u = 0 ∧ u / SUPPGSIZE ≠ stack / SUPPGSIZE) ∨
    Closed (s.evictAll k.evicted).pagetable stack

theorem pagesOut_mono {sz : ℕ} {l l' : List (ℕ × ℕ)} (h : PagesOut sz l pt pt') (hl : ∀ x ∈ l, x ∈ l') :
    PagesOut sz l' pt pt' :=
  ⟨h.1, fun a ha => h.2 a fun x hx => ha x (hl x hx)⟩

theorem asBefore_evict (s : Space) (k : CloneAnswers) :
    AsBefore s k (s.evictAll k.evicted) :=
  pagesOut_evictAll s fun _ hx => List.mem_append_left _ hx

/-- What `look` finds depends on the entry only. -/
theorem look_congr_slot (hslot : pt'.slot f = pt.slot f)
    (hget : ∀ σ, pt.slot f = some σ → pt'.get σ = pt.get σ) : pt'.look f = pt.look f := by
  cases h : pt.slot f with
  | none =>
    rw [PageLedger.look_of_slot_none h, PageLedger.look_of_slot_none (hslot.trans h)]
  | some σ =>
    have hsame := hget σ h
    obtain ⟨-, ⟨pte, -, -, rfl, hg, hl⟩ | ⟨t, -, rfl, hg, hl⟩⟩ := PageLedger.slot_cases h <;>
      obtain ⟨-, ⟨pte', -, -, heq, hg', hl'⟩ | ⟨t', -, heq, hg', hl'⟩⟩ :=
        PageLedger.slot_cases (hslot.trans h)
    · rw [hl, hl', ← hg, ← hg', hsame]
    · cases heq
    · cases heq
    · rw [hl, hl', ← hg, ← hg', hsame]

/-- Closing a page that is closed changes nothing. -/
theorem look_setU_closed {σ : Slot} (hσ : pt.slot va = some σ) (hv : (pt.get σ).v = true)
    (hu : (pt.get σ).u = false) (f : ℕ) : (pt.setU false σ).look f = pt.look f := by
  have hsame : (pt.setU false σ).get σ = pt.get σ := by
    rw [setU, get_modify_self hσ]
    ext <;> simp [hu]
  refine look_congr_slot ?_ fun τ _ => ?_
  · by_cases hf : pt.slot f = some σ
    · have hslot : (pt.setU false σ).slot f = some σ ∨ (pt.setU false σ).slot f = none ∧ (pt.get σ).v = false :=
        slot_modify_self hf
      rcases hslot with heq | ⟨-, hgone⟩
      · exact heq.trans hf.symm
      · exact nomatch hv.symm.trans hgone
    · exact slot_modify_of_ne hf
  · by_cases hτ : τ = σ
    · rw [hτ, hsame]
    · exact get_modify_of_ne hτ

/-- **A `clone` that fails before the search** leaves the page table as it was. -/
theorem asBefore_guard (hcall : cloneGuard files s k stack = .ok (s', none)) : AsBefore s k s' := by
  have hevict := asBefore_evict s k
  rw [cloneGuard] at hcall
  split at hcall
  · cases hcall
    exact .refl _ _ _
  dsimp only at hcall
  split at hcall
  · cases hcall
    exact hevict
  split at hcall
  · cases hcall
  next t ok hguard =>
  cases ok with
  | true => cases hcall
  | false =>
    cases hcall
    rcases setguardpage_cases hguard with ⟨-, hfault⟩ | ⟨htrue, -⟩
    · exact hevict.trans (pagesOut_mono (vmaHandle_none hfault) fun x hx => List.mem_append_right _ hx)
    · cases htrue

/-- A `clone` that comes to the search has its guard page. -/
theorem cloneGuard_some {trapframe : Page} (hcall : cloneGuard files s k stack = .ok (s', some trapframe)) :
    setguardpage files (s.evictAll k.evicted) k.fault stack = .ok (s', true) := by
  rw [cloneGuard] at hcall
  split at hcall
  · cases hcall
  dsimp only at hcall
  split at hcall
  · cases hcall
  split at hcall
  · cases hcall
  next t ok hguard =>
  cases ok with
  | true =>
    cases hcall
    exact hguard
  | false => cases hcall

/-- What is absent stays so up to the search, apart from the super page of the stack. -/
theorem absent_guard {trapframe : Page} (hcall : cloneGuard files s k stack = .ok (s', some trapframe))
    (h : s.pagetable.kwalkaddr f = 0) (hfar : f / SUPPGSIZE ≠ stack / SUPPGSIZE) :
    s'.pagetable.kwalkaddr f = 0 := by
  have habsent := absent_pagesOut h (asBefore_evict s k)
  rcases setguardpage_cases (cloneGuard_some hcall) with
    ⟨hfalse, -⟩ | ⟨-, t, σ, hσ, rfl, rfl | ⟨-, l, hfault⟩⟩
  · cases hfalse
  · exact (kwalkaddr_setU hσ false f).trans habsent
  · exact (kwalkaddr_setU hσ false f).trans (absent_fault habsent hfar hfault)

/-- Where the guard page is there already, `setguardpage` changes nothing. -/
theorem asBefore_closed {trapframe : Page} (hcall : cloneGuard files s k stack = .ok (s', some trapframe))
    (hclosed : Closed (s.evictAll k.evicted).pagetable stack) : AsBefore s k s' := by
  rcases setguardpage_cases (cloneGuard_some hcall) with
    ⟨hfalse, -⟩ | ⟨-, t, σ, hσ, rfl, rfl | ⟨hopen, -⟩⟩
  · cases hfalse
  · obtain ⟨τ, hτ, hv, hu⟩ := hclosed
    obtain rfl : τ = σ := Option.some.inj (hτ.symm.trans hσ)
    have hlook := look_setU_closed hσ hv hu
    exact (asBefore_evict s k).trans ⟨fun a => .inl (hlook a), fun a _ => hlook a⟩
  · exact absurd hclosed hopen

/-- **A `clone` that fails** leaves the page table as it was, if it does not fail in the search after it
    has closed the first page of the stack. -/
theorem clone_failed (hcall : clone files s k k' stack = .ok (s', none)) (hclear : FailClear s k stack) :
    AsBefore s k s' := by
  rw [clone] at hcall
  split at hcall
  · cases hcall
  · next hguard =>
    cases hcall
    exact asBefore_guard hguard
  next t trapframe hguard =>
  rcases cloneTrapframe_cases hcall with ⟨-, rfl, hfull⟩ | ⟨va, pt, ok, hva, -⟩
  · rcases hclear with ⟨u, hu, habsent, hfar⟩ | hclosed
    · exact absurd (absent_guard hguard habsent hfar) (hfull u hu)
    · exact asBefore_closed hguard hclosed
  · cases hva

end Clone

/-! ## Runs -/

/-- What is promised of the trapframe pages: those of living threads are outside of everything else, and
    no two are at one address. -/
structure Apart (s : State) : Prop where
  outside : ∀ t ∈ s.threads, Outside s.space.shared t.trapVa
  distinct : (s.threads.map Thread.trapVa).Nodup

/-- They are mapped as well, so that the search passes them by. -/
structure Inv (s : State) : Prop where
  lives : ∀ t ∈ s.threads, Lives s.space.toAddrSpace t.trapVa
  distinct : (s.threads.map Thread.trapVa).Nodup

theorem Inv.apart {s : State} (hi : Inv s) : Apart s := ⟨fun t ht => (hi.lives t ht).outside, hi.distinct⟩

/-- Every step meets the condition of its kind. -/
def Careful (s : State) : Act → Prop
  | .mmap addr length prot flags f _ => ∀ t ∈ s.threads, ∀ a,
    AsksFor s.space.shared addr (ofInt length) prot flags f a → Avoids a (ofInt length) t.trapVa
  | .munmap _ addr length => ∀ t ∈ s.threads, CutClear s.space.toAddrSpace addr (ofInt length) t.trapVa
  | .sbrk n => ∀ t ∈ s.threads, s.space.shared.spaceEnough n = true →
    add64 s.space.shared.sz (ofInt n) ≤ t.trapVa
  | .exec _ phs _ _ => ∀ t ∈ s.threads, ∀ ph, some ph ∈ phs → ph.load = true →
    Avoids ph.vaddr ph.memsz t.trapVa
  | .place _ k => PlaceClear s.space k
  | _ => True

/-- The steps that choose addresses -/
def Chooses : Act → Prop
  | .mmap .. | .sbrk _ | .place .. => True
  | _ => False

section Runs

variable {files : ℕ → Inode} {s s' : State}

theorem inv_init (h : Init s) : Inv s := by
  refine ⟨fun t ht => ?_, ?_⟩
  · rw [h.threads] at ht
    cases ht
  · rw [h.threads]
    exact List.nodup_nil

/-- A step that leaves the threads, and each of their trapframe pages -/
theorem Inv.keep (hi : Inv s) (hthreads : s'.threads = s.threads)
    (h : ∀ t ∈ s.threads, Lives s.space.toAddrSpace t.trapVa → Lives s'.space.toAddrSpace t.trapVa) :
    Inv s' := by
  refine ⟨fun t ht => ?_, hthreads ▸ hi.distinct⟩
  rw [hthreads] at ht
  exact h t ht (hi.lives t ht)

/-- `exit` of a thread takes its own trapframe page away. -/
theorem Inv.exit {t : Thread} {pt : PageTable} {rel : List PageTable.Release} (hi : Inv s)
    (ht : t ∈ s.threads) (hunmap : s.space.pagetable.uvmunmap t.trapVa 1 0 = .ok (pt, rel)) :
    Inv { s with
      space := { s.space with pagetable := pt }
      threads := s.threads.erase t
      zombies := t :: s.zombies } := by
  refine ⟨fun x hx => ?_, hi.distinct.sublist (List.erase_sublist.map _)⟩
  obtain ⟨hne, hmem⟩ := (List.Nodup.of_map _ hi.distinct).mem_erase_iff.mp hx
  have hva : x.trapVa ≠ t.trapVa := fun heq => hne (List.inj_on_of_nodup_map hi.distinct hmem ht heq)
  have hlives := hi.lives x hmem
  refine ⟨hlives.candidate, hlives.outside, hlives.inMemory.uvmunmap hlives.candidate.1 hunmap ?_⟩
  -- the two pages are different ones
  obtain ⟨c, hc⟩ := hlives.candidate.1
  obtain ⟨d, hd⟩ := (hi.lives t ht).candidate.1
  have hmod : add64 t.trapVa (1 * PGSIZE) ≤ t.trapVa + 1 * PGSIZE := Nat.mod_le _ _
  simp only [PGSIZE] at *
  omega

/-- **The rest of a `clone`** keeps the trapframe pages apart if and only if the search has met its
    condition. -/
theorem inv_place_iff (hi : Inv s) {c : Cloning} {k : TableAnswers}
    (h : step files s (.place c k) = some s') : Inv s' ↔ PlaceClear s.space k := by
  simp only [step] at h
  split at h
  · split at h
    · cases h
    · next t hcall =>
      cases h
      rcases cloneTrapframe_cases hcall with ⟨-, rfl, hfull⟩ | ⟨va, pt, ok, hva, -⟩
      · exact iff_of_true (hi.keep rfl fun _ _ h => h) fun u hu => absurd hu.2.1 (hfull u hu.1)
      · cases hva
    · next t va hcall =>
      cases h
      constructor
      · intro hi'
        exact (place_iff hcall).mp (hi'.lives ⟨va, c.tstack⟩ List.mem_cons_self)
      · intro hclear
        refine ⟨fun x hx => ?_, List.nodup_cons.mpr ⟨fun hmem => ?_, hi.distinct⟩⟩
        · rcases List.mem_cons.mp hx with rfl | hx
          · exact (place_iff hcall).mpr hclear
          · exact ((hi.lives x hx).place hcall).1
        · obtain ⟨x, hx, heq⟩ := List.mem_map.mp hmem
          exact ((hi.lives x hx).place hcall).2 (congrArg some heq.symm)
  · cases h

theorem inv_step {a : Act} (hi : Inv s) (hg : Careful s a) (h : step files s a = some s') : Inv s' := by
  -- Each call keeps the trapframe pages by its own lemma; which of its conditions is needed is in
  -- `Careful`.
  cases a with
  | mmap addr length prot flags f offset =>
    simp only [step] at h
    split at h
    · cases h
    next ts' ret refs hcall =>
    cases h
    exact hi.keep rfl fun t ht hl => ⟨hl.candidate, (outside_mmap_iff hl.outside hcall).mpr (hg t ht), hl.inMemory⟩
  | munmap writei addr length =>
    simp only [step] at h
    split at h
    · cases h
    next t ret eff hcall =>
    cases h
    exact hi.keep rfl fun t ht hl => hl.munmap (hg t ht) hcall
  | sbrk n =>
    simp only [step] at h
    split at h
    · split at h
      · cases h
      next t ret rel hcall =>
      cases h
      exact hi.keep rfl fun t ht hl => hl.sbrk hcall (hg t ht)
    · cases h
  | sbrknaive n uvmalloc =>
    simp only [step] at h
    split at h
    · split at h
      · cases h
      next t ret hcall =>
      cases h
      exact hi.keep rfl fun t ht hl => hl.growproc hcall
    · cases h
  | exec ip phs fits pt =>
    simp only [step] at h
    split at h
    · cases h
    · cases h
      exact ⟨fun t ht => (nomatch ht), List.nodup_nil⟩
    · next ts' hcall =>
      cases h
      exact hi.keep rfl fun t ht hl => ⟨hl.candidate, outside_exec hl.outside (hg t ht) hcall, hl.inMemory⟩
  | fork pt =>
    cases h
    exact ⟨fun t ht => (nomatch ht), List.nodup_nil⟩
  | guard k stack =>
    simp only [step] at h
    split at h
    · cases h
    · next hcall =>
      cases h
      exact hi.keep rfl fun t _ hl => hl.guard hcall
    · next hcall =>
      cases h
      exact hi.keep rfl fun t _ hl => hl.guard hcall
  | place c k => exact (inv_place_iff hi h).mpr hg
  | exit t =>
    simp only [step] at h
    split at h
    · next ht =>
      split at h
      · cases h
      next pt rel hunmap =>
      cases h
      exact hi.exit ht hunmap
    · cases h
  | join t =>
    simp only [step] at h
    split at h
    · obtain ⟨σ, hσ, rfl⟩ := Option.map_eq_some_iff.mp h
      exact hi.keep rfl fun t _ hl => hl.setU hσ true
    · cases h
  | reap t =>
    simp only [step] at h
    split at h
    · cases h
      exact hi.keep rfl fun _ _ hl => hl
    · cases h
  | fault k va =>
    simp only [step] at h
    split at h
    · cases h
    next t r hcall =>
    cases h
    exact hi.keep rfl fun t _ hl => hl.fault hcall
  | rework f =>
    cases h
    -- The rest of the kernel keeps the entries of the trapframe pages.
    refine hi.keep rfl fun t _ hl => ⟨hl.candidate, hl.outside, hl.inMemory.congr ?_⟩
    exact (f s.space.shared.sz s.space.pagetable).2 t.trapVa hl.candidate.1 hl.outside.sz_le

/-- **For the steps that choose addresses the conditions are exact.** -/
theorem inv_iff_careful {a : Act} (hi : Inv s) (ha : Chooses a) (h : step files s a = some s') :
    Inv s' ↔ Careful s a := by
  refine ⟨fun hi' => ?_, fun hg => inv_step hi hg h⟩
  cases a with
  | mmap addr length prot flags f offset =>
    simp only [step] at h
    split at h
    · cases h
    next ts' ret refs hcall =>
    cases h
    exact fun t ht => (outside_mmap_iff (hi.lives t ht).outside hcall).mp (hi'.lives t ht).outside
  | sbrk n =>
    simp only [step] at h
    split at h
    · split at h
      · cases h
      next t ret rel hcall =>
      cases h
      exact fun t ht => (outside_sbrk_iff (hi.lives t ht).outside hcall).mp (hi'.lives t ht).outside
    · cases h
  | place c k => exact (inv_place_iff hi h).mp hi'
  | munmap | sbrknaive | exec | fork | guard | exit | join | reap | fault | rework => exact ha.elim

theorem inv_of_reachable (hs : (system files).ReachableUnder Careful s) : Inv s :=
  System.invariant Inv (fun _ => inv_init) (fun _ _ _ => inv_step) hs

/-- **Trapframe pages of threads stay out of user memory.** In runs in which every step meets its
    condition the trapframe pages of living threads have no address in an area or below the size, and no
    two are at one address; the next step that chooses an address keeps it so if and only if it meets its
    condition; and a `clone` that fails leaves the page table as it was. -/
theorem trapframe_pages_outside (hs : (system files).ReachableUnder Careful s) :
    Apart s ∧
    (∀ a s', Chooses a → step files s a = some s' → (Inv s' ↔ Careful s a)) ∧
    (∀ k k' stack t, clone files s.space k k' stack = .ok (t, none) → FailClear s.space k stack →
      AsBefore s.space k t) :=
  have hi := inv_of_reachable hs
  ⟨hi.apart, fun _ _ ha h => inv_iff_careful hi ha h, fun _ _ _ _ hcall hclear => clone_failed hcall hclear⟩

end Runs

/-- The first process, before any of its pages is there -/
def initcode : State := ⟨{ FixedMapping.initcode with mem := fun _ => 0 }, [], [], []⟩

theorem init_initcode : (system FaultPages.noFile).init initcode :=
  ⟨FixedMapping.init_initcode, rfl, rfl, rfl⟩

/-- There is a free slot, and memory for everything. -/
def cloning : CloneAnswers := ⟨some ⟨KERNBASE, kernbase_page⟩, [], generous⟩

/-- A thread whose stack begins at the old end of the memory -/
def makesThread : List Act :=
  [.guard cloning PGSIZE, .place ⟨⟨KERNBASE, kernbase_page⟩, PGSIZE⟩ ⟨2, []⟩]

/-- The conditions of these steps, as a test -/
def careful (s : State) : Act → Bool
  | .sbrk _ => s.threads.isEmpty
  | .guard _ _ => true
  | .place _ k =>
    match searchTrapVa s.space.pagetable with
    | none => true
    | some u => decide (s.space.shared.sz ≤ u) &&
      ((List.range MAX_VMA).all fun j => !(s.space.shared.vmAreas j).used ||
        decide (add64 (s.space.shared.vmAreas j).addr (s.space.shared.vmAreas j).length ≤ u)) &&
      (s.space.evictAll k.evicted).pagetable.walkAlloc u k.tables
  | _ => false

theorem careful_sound (s : State) (a : Act) (h : careful s a = true) : Careful s a := by
  cases a with
  | sbrk n =>
    intro t ht
    rw [careful, List.isEmpty_iff] at h
    rw [h] at ht
    cases ht
  | guard k stack => trivial
  | place c k =>
    intro u hu
    have hsearch := searchTrapVa_spec s.space.pagetable
    rw [careful] at h
    split at h
    · next hnone =>
      rw [hnone] at hsearch
      exact absurd hu.2.1 (hsearch u hu.1)
    next v hv =>
    rw [hv] at hsearch
    obtain rfl := hu.unique hsearch
    simp only [Bool.and_eq_true, decide_eq_true_eq, List.all_eq_true, List.mem_range, Bool.or_eq_true,
      Bool.not_eq_true'] at h
    obtain ⟨⟨hsz, hareas⟩, halloc⟩ := h
    refine ⟨⟨hsz, fun j hj va hlo _ => ?_⟩, halloc⟩
    rcases hareas j hj with hfree | hend
    · simp [Vma.covers, hfree]
    · have : ¬ va < add64 (s.space.shared.vmAreas j).addr (s.space.shared.vmAreas j).length := by omega
      simp [Vma.covers, this]
  | mmap | munmap | sbrknaive | exec | fork | exit | join | reap | fault | rework => cases h

/-- Two pages of heap and a thread on them: its trapframe page is the first that the search looks at. -/
theorem trapframe_page_of_thread :
    ∃ s : State, s.threads = [⟨PHYSTOP_INCLUDESUPPG, PGSIZE⟩] ∧ Apart s := by
  have hrun : ((system FaultPages.noFile).runUnder careful initcode (.sbrk (2 * PGSIZE) :: makesThread)).any
      (fun s => s.threads == [⟨PHYSTOP_INCLUDESUPPG, PGSIZE⟩]) = true := by
    decide +kernel
  obtain ⟨s, hs, hp⟩ := System.exists_reachableUnder_of_runUnder careful_sound init_initcode hrun
  exact ⟨s, by simpa using hp, (trapframe_pages_outside hs).1⟩

/-- **A thread in the heap.** The heap has grown beyond `PHYSTOP_INCLUDESUPPG`, where it has no page yet:
    the first one becomes the trapframe page of the thread. -/
theorem trapframe_in_heap : ¬ ∀ s, (system FaultPages.noFile).Reachable s → Apart s := by
  intro h
  have hrun : ((system FaultPages.noFile).run initcode
      (.sbrk 0x70000000 :: .sbrk 0x20000000 :: makesThread)).any (fun s =>
        s.threads == [⟨PHYSTOP_INCLUDESUPPG, PGSIZE⟩] &&
          decide (PHYSTOP_INCLUDESUPPG < s.space.shared.sz)) = true := by
    decide +kernel
  obtain ⟨s, hs, hp⟩ := System.exists_reachable_of_run init_initcode hrun
  simp only [Bool.and_eq_true, beq_iff_eq, decide_eq_true_eq] at hp
  have := (h s hs).outside ⟨PHYSTOP_INCLUDESUPPG, PGSIZE⟩ (by rw [hp.1]; exact List.mem_cons_self)
  exact absurd this.sz_le (Nat.not_le.mpr hp.2)

end TrapframePages

end Xv6.Kernel
