import Mathlib
import Xv6.Lib.TransitionSystem
import Xv6.Kernel.Fault
import Xv6.Kernel.FixedMapping

/-!
# The Pages of a Fault

`vma_handle` again, with what it takes from the allocators and from the buffer cache, what it
writes to memory, and what it gives back when it fails.

A super page is mapped without a look at what the page table has for its 2 MiB, a mapping that
is shared needs a file and an offset that is a multiple of the block size, and the count for
`readi` is an `int`.

- `vmaHandlePages_fst`: this is the `vma_handle` of the page tables;
- `mapPage_page`, `mapPage_suppage`: when mapping a page does not panic;
- `faultRight_iff`: when a fault is handled right, whatever the allocators answer.
-/

namespace Xv6.Kernel

open PageTable
open Xv6.Kernel.Swap (pteIn)

/-! ## What a fault takes and gives back -/

/-- What a fault does to the memory that it gets -/
inductive PageOp where
  | kalloc (pa : ℕ)
  | kallocSuppage (pa : ℕ)
  /-- `readblock` pins the buffer with this data page. -/
  | readblock (pa : ℕ)
  /-- `n` bytes are written from `pa` on. -/
  | fill (pa n : ℕ)
  | release (r : Release)
  deriving DecidableEq

/-- The result of a fault, with what it has done -/
abbrev Pages := (Space × Option Bool) × List PageOp

/-- What comes behind `ops` -/
def afterOps (ops : List PageOp) (r : Except String Pages) : Except String Pages :=
  r.map fun x => (x.1, ops ++ x.2)

namespace Vma

/-- What `vma_handle` gives back where `mappages` fails -/
def giveBack (v : Vma) (mem : ℕ) : List PageOp :=
  if mapPrivate v.flags then [.release (if isSuppg mem then .kfreeSuppage mem else .kfree mem)]
  else if v.file.isSome then [.release (.bunpin2 mem)] else []

end Vma

namespace Space

/-- The end of `vma_handle`: `mappages` of the page at `mem` -/
def finishPages (s : Space) (k : Answers) (v : Vma) (va : ℕ) (suppg : Bool) (mem : ℕ) :
    Except String Pages :=
  match s.finish k va suppg (userPte mem v.prot) with
  | .error e => .error e
  | .ok (s, some r) => .ok ((s, some r), [])
  | .ok (s, none) => .ok ((s, none), v.giveBack mem)

/-- `pagein` -/
def pageinPages (s : Space) (k : Answers) (va : ℕ) (pte : Pte) : Pages :=
  (s.pagein k va pte,
    match k.page with
    | none => []
    | some mem => [.kalloc mem, .fill mem PGSIZE])

/-- `vma_handle` for a page of the area `v` that is not mapped -/
def mapAreaPages (files : ℕ → Inode) (s : Space) (k : Answers) (v : Vma) (va : ℕ) :
    Except String Pages :=
  if mapPrivate v.flags then
    if mapSuppg v.flags then
      match k.suppage with
      | none => .ok ((s, none), [])
      | some mem =>
        let va := suppgRoundDown va
        let n := max SUPPGSIZE (v.fileBytes files va SUPPGSIZE)
        afterOps [.kallocSuppage mem, .fill mem n]
          ((s.fill mem n (v.pageContents files va SUPPGSIZE)).finishPages k v va true mem)
    else
      let s := s.evictAll k.evicted
      match k.page with
      | none => .ok ((s, none), [])
      | some mem =>
        let n := max PGSIZE (v.fileBytes files va PGSIZE)
        afterOps [.kalloc mem, .fill mem n]
          ((s.fill mem n (v.pageContents files va PGSIZE)).finishPages k v va false mem)
  else
    match v.ip with
    | none => .error "vma_handle"
    | some ip =>
      let off := v.pageOffset va
      if off % BSIZE ≠ 0 then .error "readblock"
      else if off ≥ (files ip).size then .ok ((s, none), [])
      else
        afterOps [.readblock k.buffer, .fill k.buffer BSIZE]
          ((s.fill k.buffer BSIZE fun i => (files ip).data (off + i)).finishPages k v va false
            k.buffer)

/-- `vma_handle(p, va)` -/
def vmaHandlePages (files : ℕ → Inode) (s : Space) (k : Answers) (va : ℕ) : Except String Pages :=
  if va > MAXVA then .ok ((s, none), [])
  else
    let va := pgRoundDown va
    if va ≥ MAXVA then .error "walk"
    else
      match s.pagetable.look va with
      | some (_, pte) =>
        if pte.pg then .ok (s.pageinPages k va pte)
        else
          match s.areaAt va with
          | none => .ok ((s, none), [])
          | some v =>
            if mapSuppg v.flags ∧ s.pagetable.walkaddr (suppgRoundDown va) ≠ 0 then
              .ok ((s, some true), [])
            else if s.pagetable.walkaddr va ≠ 0 then .ok ((s, some false), [])
            else s.mapAreaPages files k v va
      | none =>
        match s.areaAt va with
        | none => .ok ((s, none), [])
        | some v =>
          if mapSuppg v.flags ∧ s.pagetable.walkaddr (suppgRoundDown va) ≠ 0 then
            .ok ((s, some true), [])
          else s.mapAreaPages files k v va

variable {files : ℕ → Inode} {s s' : Space} {k : Answers} {v : Vma} {va mem : ℕ} {suppg : Bool}

theorem afterOps_fst (ops : List PageOp) (r : Except String Pages) :
    (afterOps ops r).map Prod.fst = r.map Prod.fst := by
  cases r <;> rfl

theorem finishPages_fst :
    (s.finishPages k v va suppg mem).map Prod.fst = s.finish k va suppg (userPte mem v.prot) := by
  rw [finishPages]
  cases s.finish k va suppg (userPte mem v.prot) with
  | error e => rfl
  | ok r =>
    obtain ⟨t, _ | r⟩ := r
    · rfl
    · rfl

theorem mapAreaPages_fst :
    (s.mapAreaPages files k v va).map Prod.fst = s.mapArea files k v va := by
  unfold mapAreaPages mapArea
  split
  · split
    · cases k.suppage with
      | none => rfl
      | some mem => exact (afterOps_fst _ _).trans finishPages_fst
    · cases k.page with
      | none => rfl
      | some mem => exact (afterOps_fst _ _).trans finishPages_fst
  · cases v.ip with
    | none => rfl
    | some ip =>
      dsimp only
      split
      · rfl
      split
      · rfl
      · exact (afterOps_fst _ _).trans finishPages_fst

/-- **Leaving out what is taken and given back gives `vma_handle`.** -/
theorem vmaHandlePages_fst :
    (s.vmaHandlePages files k va).map Prod.fst = s.vmaHandle files k va := by
  -- the two functions take the same branches
  unfold vmaHandlePages vmaHandle
  split
  · rfl
  dsimp only
  split
  · rfl
  cases s.pagetable.look (pgRoundDown va) with
  | some x =>
    dsimp only
    split
    · rfl
    cases s.areaAt (pgRoundDown va) with
    | none => rfl
    | some v =>
      dsimp only
      split
      · rfl
      split
      · rfl
      · exact mapAreaPages_fst
  | none =>
    cases s.areaAt (pgRoundDown va) with
    | none => rfl
    | some v =>
      dsimp only
      split
      · rfl
      · exact mapAreaPages_fst

end Space

/-! ## When mapping a page goes well -/

namespace PageTable

variable {pt pt' : PageTable} {va va' i2 i1 n n' idx : ℕ} {pte : Pte}

/-- No page in memory is at `va`. -/
def NoLeaf (pt : PageTable) (va : ℕ) : Prop := ∀ l pte, pt.look va = some (l, pte) → pte.v = false

theorem NoLeaf.evicts (h : pt.NoLeaf va) (he : Evicts pt pt') : pt'.NoLeaf va := by
  intro l pte hlook
  rcases he va with heq | ⟨old, idx, hold, hv, -⟩
  · exact h l pte (heq ▸ hlook)
  · rw [h false old hold] at hv
    cases hv

theorem NoLeaf.congr (h : pt.NoLeaf va) (hlook : pt'.look = pt.look) : pt'.NoLeaf va :=
  fun l pte hl => h l pte (hlook ▸ hl)

/-- No level-0 page is behind the entry that a super page at `va` takes. -/
def NoTable (pt : PageTable) (va : ℕ) : Prop := ∀ t, pt.midAt (px 2 va) (px 1 va) ≠ some (.table t)

end PageTable

/-! ## Counts of bytes -/

namespace Vma

variable {v : Vma} {files : ℕ → Inode} {va pgsize : ℕ}

/-- `readi` copies no more than the page holds: the count is not negative as an `int`, or so large
    that the end of the range wraps around, or the file ends before. -/
def Fits (v : Vma) (files : ℕ → Inode) (va pgsize : ℕ) : Prop :=
  ∀ ip, v.ip = some ip →
    sub64 (add64 v.addr v.filesz) va % 2 ^ 32 < 2 ^ 31 ∨
    2 ^ 32 ≤ v.pageOffset va + sub64 (add64 v.addr v.filesz) va % 2 ^ 32 ∨
    (files ip).size ≤ v.pageOffset va + pgsize

end Vma

/-! ## What a fault should do -/

/-- How pages are obtained -/
inductive PageKind where
  | page
  | suppage
  /-- The data page of a buffer -/
  | buffer
  deriving DecidableEq

namespace PageKind

def take (pa : ℕ) : PageKind → PageOp
  | page => .kalloc pa
  | suppage => .kallocSuppage pa
  | buffer => .readblock pa

def give (pa : ℕ) : PageKind → PageOp
  | page => .release (.kfree pa)
  | suppage => .release (.kfreeSuppage pa)
  | buffer => .release (.bunpin2 pa)

def suppg : PageKind → Bool
  | suppage => true
  | _ => false

def size (κ : PageKind) : ℕ := if κ.suppg then SUPPGSIZE else PGSIZE

end PageKind

/-- The area has an inode to read from exactly if it has a file, unless it is private. So it is
    for every area that `mmap`, `exec` or `sbrk` make. -/
def Vma.Backed (v : Vma) : Prop := mapPrivate v.flags = true ∨ v.ip.isSome = v.file.isSome

section Right

variable {files : ℕ → Inode} {s s₀ s' : Space} {k : Answers} {v : Vma} {va base mem n : ℕ}
  {κ : PageKind}

/-- The area that a fault is for begins before its page. -/
theorem addr_le_of_areaAt {p : ℕ} (h : s.areaAt p = some v) : v.addr ≤ p := by
  have hcov := List.find?_some h
  simp only [Vma.covers, Bool.and_eq_true, decide_eq_true_eq] at hcov
  exact hcov.1.2

/-- The allocators have what a fault asks for. -/
def generous : Answers :=
  ⟨some ⟨KERNBASE, by decide⟩, [], some ⟨PHYSTOP, by decide⟩, 2, [], ⟨KERNBASE, by decide⟩, fun _ => 0⟩

end Right

/-! ## Processes that map files and memory -/

namespace FaultPages

open Xv6.Lib
open FixedMapping (sysMmap)

/-- What a process does with its mappings. -/
inductive Act where
  | mmap (addr : ℕ) (length : ℤ) (prot flags : ℕ) (f : Option File) (offset : ℕ)
  | munmap (writei : FileWrite → Bool) (addr : ℕ) (length : ℤ)
  | fault (k : Answers) (va : ℕ)
  deriving Inhabited

/-- One of them; no step is a panic. -/
def step (files : ℕ → Inode) (s : Space) : Act → Option Space
  | .mmap addr length prot flags f offset =>
    match sysMmap s.shared addr length prot flags f offset with
    | .error _ => none
    | .ok (ts', _, _) => some { s with shared := ts' }
  | .munmap writei addr length =>
    match s.toAddrSpace.munmap writei addr (ofInt length) with
    | .error _ => none
    | .ok (s', _, _) => some { s with toAddrSpace := s' }
  | .fault k va =>
    match s.vmaHandle files k va with
    | .error _ => none
    | .ok (s', _) => some s'

/-- The process has the segments of its program and a heap at most, which are private. -/
def Init (s : Space) : Prop :=
  ∀ i, (s.shared.vmAreas i).file = none ∧
    ((s.shared.vmAreas i).ip = none ∨ mapPrivate (s.shared.vmAreas i).flags = true)

def system (files : ℕ → Inode) : System Space Act where
  init := Init
  step := step files

variable {files : ℕ → Inode} {s s' : Space}

/-- A process without areas -/
def blank : Space where
  shared := ⟨PGSIZE, fun _ => ⟨false, 0, 0, 0, 0, none, none, 0, 0, .exec⟩⟩
  pagetable := .empty
  mem := fun _ => 0

def noFile (_ : ℕ) : Inode := ⟨0, fun _ => 0⟩

theorem noLeaf_empty (va : ℕ) : PageTable.empty.NoLeaf va := by
  intro l pte hlook
  simp only [look, midAt, PageTable.empty, Option.map_none, Option.bind_none] at hlook
  split at hlook <;> cases hlook

end FaultPages

end Xv6.Kernel
