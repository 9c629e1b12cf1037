import Mathlib
import Xv6.Kernel.Vma
import Xv6.Kernel.Sbrk

/-!
# Loading a Program

The part of `exec` that changes the table of areas: `vma_exec_clear` removes the segments
and the heap of the old program, the loop over the program headers makes an area for every
loadable segment, and the end of the last segment with two pages of stack becomes the size
of the process.

A call that fails half way keeps the old size and page table, but not the old areas.
-/

namespace Xv6.Kernel

/-- `struct proghdr`; `load` is `ph.type == ELF_PROG_LOAD`. -/
structure ProgHdr where
  load : Bool
  flags : ℕ
  off : ℕ
  vaddr : ℕ
  filesz : ℕ
  memsz : ℕ
  deriving DecidableEq

/-- `flags2prot` -/
def flags2prot (flags : ℕ) : ℕ :=
  1 + (if flags.testBit 0 then 4 else 0) + (if flags.testBit 1 then 2 else 0)

/-- The tests that a loadable header has to pass. -/
def ProgHdr.wellFormed (ph : ProgHdr) : Bool :=
  !(decide (ph.memsz < ph.filesz) || decide (add64 ph.vaddr ph.memsz < ph.vaddr) ||
    decide (ph.vaddr % PGSIZE ≠ 0))

namespace ThreadShared

/-- `vma_exec_clear`: the table, and the inodes that are given up. -/
def vmaExecClear (ts : ThreadShared) : ThreadShared × List ℕ :=
  let gone := fun j => (ts.vmAreas j).used &&
    ((ts.vmAreas j).type == .exec || (ts.vmAreas j).type == .heap)
  (⟨ts.sz, fun j =>
      if FIX_START_ADDR ≤ j ∧ j < MAX_VMA ∧ gone j = true then { ts.vmAreas j with used := false }
      else ts.vmAreas j⟩,
    fixSlots.flatMap fun j =>
      if (ts.vmAreas j).used && (ts.vmAreas j).type == .exec then (ts.vmAreas j).ip.toList else [])

/-- `vma_create` for a segment of the program `ip`. -/
def createSegment (ts : ThreadShared) (ip : ℕ) (ph : ProgHdr) :
    Except String (ThreadShared × ℕ × List RefOp) :=
  ts.vmaCreate ph.vaddr ph.memsz (flags2prot ph.flags) 2 none
    (if ph.filesz ≠ 0 then some ip else none) ph.off ph.filesz .exec

/-- The loop over the program headers for a process that pages its program in on demand;
    `none` stands for a header that cannot be read. Returns the table, the size, the
    references taken and whether the end was reached. -/
def loadHeaders (ip : ℕ) (ts : ThreadShared) (sz : ℕ) :
    List (Option ProgHdr) → Except String (ThreadShared × ℕ × List RefOp × Bool)
  | [] => .ok (ts, sz, [], true)
  | none :: _ => .ok (ts, sz, [], false)
  | some ph :: phs =>
    if !ph.load then loadHeaders ip ts sz phs
    else if !ph.wellFormed then .ok (ts, sz, [], false)
    else
      match ts.createSegment ip ph with
      | .error e => .error e
      | .ok (ts', _, refs) =>
        -- the error value is a `uint64` and never found to be below 0
        match loadHeaders ip ts' (add64 ph.vaddr ph.memsz) phs with
        | .error e => .error e
        | .ok (ts'', sz', refs', done) => .ok (ts'', sz', refs ++ refs', done)

/-- The size of a process whose last segment ends at `sz`, with two pages for the stack. -/
def withStack (sz : ℕ) : ℕ :=
  PageTable.uvmallocSize (pgRoundUp sz) (add64 (pgRoundUp sz) (2 * PGSIZE))

/-- `exec` of the program `ip` with these headers; `fits` says whether there is memory for
    the stack and the arguments fit onto it. `walk` takes no address from `MAXVA` on. -/
def exec (ts : ThreadShared) (ip : ℕ) (phs : List (Option ProgHdr)) (fits : Bool) :
    Except String (ThreadShared × Bool) :=
  match loadHeaders ip ts.vmaExecClear.1 0 phs with
  | .error e => .error e
  | .ok (ts', _, _, false) => .ok (ts', false)
  | .ok (ts', sz, _, true) =>
    if withStack sz > MAXVA then .error "walk"
    else if !fits then .ok (ts', false)
    else .ok ({ ts' with sz := withStack sz }, true)

end ThreadShared

end Xv6.Kernel
