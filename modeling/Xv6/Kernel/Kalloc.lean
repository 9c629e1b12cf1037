import Mathlib
import Xv6.Lib.ByteBlock
import Xv6.Kernel.Riscv

/-!
# The Page Allocator

Physical pages with their reference counts, as `kalloc.c` keeps them. The
functions are cut at the places where other processes can run in between: each
definition is one critical section, or one of the accesses to a page that are
made outside of them.
-/

namespace Xv6.Kernel

open Xv6.Lib

/-- Physical memory by page number (`COW_REFIDX` numbers pages from `KERNBASE` on). -/
structure Kmem where
  /-- `end`, the first address after the kernel -/
  kend : ℕ
  /-- `ref_cnt[]` -/
  refCnt : ℕ → ℕ
  /-- The pages on the free lists of all CPUs -/
  freelist : Finset ℕ
  mem : ℕ → ByteBlock

namespace Kmem

/-- `kincget` -/
def kincget (k : Kmem) (q : ℕ) : ℕ × Kmem :=
  (k.refCnt q + 1, { k with refCnt := Function.update k.refCnt q (k.refCnt q + 1) })

/-- `kfree` up to the end of its `ref_lock` section, with the count it finds. -/
def kfreeRef (k : Kmem) (q : ℕ) : Except String (ℕ × Kmem) :=
  if q * PGSIZE < k.kend ∨ PHYSTOP ≤ q * PGSIZE then .error "kfree"
  else if k.refCnt q < 1 then .error "kfree ref_cnt"
  else .ok (k.refCnt q - 1, { k with refCnt := Function.update k.refCnt q (k.refCnt q - 1) })

/-- The `ref_lock` section of `kalloc_cow`: either the entry becomes writable in
    place, or one reference is dropped and a page has to be allocated. -/
def kallocCowRef (k : Kmem) (pte : Pte) : Except String (Kmem × Option Pte) :=
  if k.refCnt pte.ppn < 1 then .error "kalloc_cow ref_cnt"
  else if k.refCnt pte.ppn = 1 then .ok (k, some pte.decow)
  else if k.refCnt pte.ppn - 1 < 1 then .error "kfree_cow ref_cnt"
  else .ok ({ k with refCnt := Function.update k.refCnt pte.ppn (k.refCnt pte.ppn - 1) }, none)

/-- `kalloc` takes the page `q` off a free list. -/
def pop (k : Kmem) (q : ℕ) : Kmem := { k with freelist := k.freelist.erase q }

/-- `kfree` puts the page `q` on a free list. -/
def push (k : Kmem) (q : ℕ) : Kmem := { k with freelist := insert q k.freelist }

/-- Replace the contents of the page `q`. -/
def setPage (k : Kmem) (q : ℕ) (b : ByteBlock) : Kmem := { k with mem := Function.update k.mem q b }

theorem setPage_mem_self (k : Kmem) (q : ℕ) (b : ByteBlock) : (k.setPage q b).mem q = b :=
  Function.update_self ..

theorem setPage_mem_of_ne (k : Kmem) {q r : ℕ} (b : ByteBlock) (h : r ≠ q) :
    (k.setPage q b).mem r = k.mem r := Function.update_of_ne h ..

/-! ## What the sections do -/

/-- `kalloc_cow` writes in place exactly when it finds the count to be one; else it
    drops a reference. -/
theorem kallocCowRef_ok {k k' : Kmem} {pte : Pte} {r : Option Pte}
    (h : k.kallocCowRef pte = .ok (k', r)) :
    (k.refCnt pte.ppn = 1 ∧ k' = k ∧ r = some pte.decow) ∨
    (2 ≤ k.refCnt pte.ppn ∧ r = none ∧
      k' = { k with refCnt := Function.update k.refCnt pte.ppn (k.refCnt pte.ppn - 1) }) := by
  unfold kallocCowRef at h
  split at h
  · cases h
  next hpos =>
  split at h
  next hone => cases h; exact .inl ⟨hone, rfl, rfl⟩
  next hone =>
  split at h
  · cases h
  · cases h; exact .inr ⟨by omega, rfl, rfl⟩

/-- `kfree` drops a reference, of which there was one. -/
theorem kfreeRef_ok {k k' : Kmem} {q res : ℕ} (h : k.kfreeRef q = .ok (res, k')) :
    1 ≤ k.refCnt q ∧ res = k.refCnt q - 1 ∧
      k' = { k with refCnt := Function.update k.refCnt q (k.refCnt q - 1) } := by
  unfold kfreeRef at h
  split at h
  · cases h
  split at h
  · cases h
  · cases h; exact ⟨by omega, rfl, rfl⟩

end Kmem

end Xv6.Kernel
