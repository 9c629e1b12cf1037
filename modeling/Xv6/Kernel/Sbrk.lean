import Mathlib
import Xv6.Kernel.Vma

/-!
# Growing and Shrinking a Process

The calls that move the end of a process's memory: `sbrk`, which changes the heap area
and leaves the pages to page faults, and `sbrknaive`, which allocates at once.

- `spaceEnough`, `updateHeapVma`, `vmaSbrk`: `mmap.c`;
- `uvmdealloc`, `uvmallocSize`, `growproc`: `vm.c` and `proc.c`;
- `vmaSbrk_cases`: all that a call of `sbrk` can do.
-/

namespace Xv6.Kernel

/-- An `int` that is passed for a `uint64` or a `size_t`. -/
def ofInt (n : ℤ) : ℕ := (n % 2 ^ 64).toNat

/-- The values of an `int`. -/
def IsInt (n : ℤ) : Prop := -2 ^ 31 ≤ n ∧ n < 2 ^ 31

instance (n : ℤ) : Decidable (IsInt n) := inferInstanceAs (Decidable (_ ∧ _))

theorem ofInt_lt (n : ℤ) : ofInt n < 2 ^ 64 := by
  rw [ofInt]
  omega

theorem ofInt_of_nonneg {n : ℤ} (h : IsInt n) (hn : 0 ≤ n) : (ofInt n : ℤ) = n := by
  rw [ofInt]
  have := h.2
  omega

theorem ofInt_of_neg {n : ℤ} (h : IsInt n) (hn : n < 0) : (ofInt n : ℤ) = 2 ^ 64 + n := by
  rw [ofInt]
  have := h.1
  omega

namespace PageTable

/-- `uvmdealloc(pagetable, oldsz, newsz)`: the number of pages fits into an `int` for every
    size below `MAXVA`. -/
def uvmdealloc (pt : PageTable) (oldsz newsz : ℕ) :
    Except String (PageTable × ℕ × List Release) :=
  if newsz ≥ oldsz then .ok (pt, oldsz, [])
  else if pgRoundUp newsz < pgRoundUp oldsz then
    let npages := (pgRoundUp oldsz - pgRoundUp newsz) / PGSIZE
    -- the first page of the address space is never mapped
    let (newsz', npages') := if newsz = 0 then (PGSIZE, npages - 1) else (newsz, npages)
    match pt.uvmunmap (pgRoundUp newsz') npages' 1 with
    | .error e => .error e
    | .ok (pt', rel) => .ok (pt', newsz', rel)
  else .ok (pt, newsz, [])

/-- What `uvmalloc(pagetable, oldsz, newsz, xperm)` returns when memory does not run out. -/
def uvmallocSize (oldsz newsz : ℕ) : ℕ := if newsz < oldsz then oldsz else newsz

end PageTable

namespace ThreadShared

/-- The used slot for chosen addresses with the highest number. -/
def lastDyn (ts : ThreadShared) : Option ℕ :=
  (List.range MAX_DYN_VMA).reverse.find? fun i => (ts.vmAreas i).used

/-- `space_enough(p, n)`: of the new end `sz + n` it is asked that no area in a fixed slot
    covers it and that the area of the last used slot does not start below it. The sum is
    a `uint64`, so that it is never found to be negative. -/
def spaceEnough (ts : ThreadShared) (n : ℤ) : Bool :=
  let addr := add64 ts.sz (ofInt n)
  !(fixSlots.any fun j => (ts.vmAreas j).covers addr && (ts.vmAreas j).type != .heap) &&
    (match ts.lastDyn with
      | some i => !decide (addr > (ts.vmAreas i).addr)
      | none => true) &&
    decide (addr ≤ USYSCALL)

/-- `update_heap_vma(p, addr, n)`: the error value of `vma_create` is a `uint64` and never
    below 0, so the size changes in any case. -/
def updateHeapVma (ts : ThreadShared) (addr : ℕ) (n : ℤ) : Except String (ThreadShared × ℕ) :=
  match ts.vmaCreate addr (ofInt n) 3 2 none none 0 0 .heap with
  | .error e => .error e
  | .ok (ts', _, _) => .ok ({ ts' with sz := add64 ts'.sz (ofInt n) }, addr)

end ThreadShared

namespace AddrSpace

/-- `vma_sbrk(p, n)` -/
def vmaSbrk (s : AddrSpace) (n : ℤ) : Except String (AddrSpace × ℕ × List PageTable.Release) :=
  let addr := s.shared.sz
  if !s.shared.spaceEnough n then .ok (s, failed, [])
  else
    match (if n < 0 then s.pagetable.uvmdealloc addr (add64 addr (ofInt n))
      else .ok (s.pagetable, addr, [])) with
    | .error e => .error e
    | .ok (pt', _, rel) =>
      match s.shared.updateHeapVma addr n with
      | .error e => .error e
      | .ok (ts', _) => .ok (⟨ts', pt'⟩, addr, rel)

/-- `growproc(n)` for `sbrknaive`, with `grown` the page table that `uvmalloc` leaves, if
    there is memory enough; `walk` takes no address from `MAXVA` on. -/
def growproc (s : AddrSpace) (n : ℤ) (grown : Option PageTable) : Except String (AddrSpace × ℤ) :=
  let sz := s.shared.sz
  if n > 0 then
    let newsz := PageTable.uvmallocSize sz (add64 sz (ofInt n))
    if newsz > MAXVA then .error "walk"
    else
      match grown with
      | none => .ok (s, -1)
      | some pt => .ok (⟨{ s.shared with sz := newsz }, pt⟩, 0)
  else if n < 0 then
    match s.pagetable.uvmdealloc sz (add64 sz (ofInt n)) with
    | .error e => .error e
    | .ok (pt', newsz, _) => .ok (⟨{ s.shared with sz := newsz }, pt'⟩, 0)
  else .ok (s, 0)

/-! ## What `sbrk` does -/

/-- A call of `sbrk` is refused, or it moves the end of the memory whether or not
    `vma_create` has changed the heap area accordingly. -/
theorem vmaSbrk_cases {s s' : AddrSpace} {n : ℤ} {ret : ℕ} {rel : List PageTable.Release}
    (h : s.vmaSbrk n = .ok (s', ret, rel)) :
    (s.shared.spaceEnough n = false ∧ s' = s ∧ ret = failed) ∨
    (s.shared.spaceEnough n = true ∧ ret = s.shared.sz ∧ ∃ ts r refs pt',
      s.shared.createHeap s.shared.sz (ofInt n) 3 2 none none 0 0 = .ok (ts, r, refs) ∧
      s' = ⟨{ ts with sz := add64 ts.sz (ofInt n) }, pt'⟩) := by
  simp only [vmaSbrk] at h
  split at h
  · next henough =>
    cases h
    exact .inl ⟨by simpa using henough, rfl, rfl⟩
  next henough =>
  split at h
  · cases h
  next pt' newsz rel' hdealloc =>
  split at h
  · cases h
  next ts' r hupdate =>
  cases h
  rw [ThreadShared.updateHeapVma] at hupdate
  split at hupdate
  · cases hupdate
  next ts r refs hcreate =>
  cases hupdate
  exact .inr ⟨by simpa using henough, rfl, ts, r, refs, pt', hcreate, rfl⟩

end AddrSpace

end Xv6.Kernel
