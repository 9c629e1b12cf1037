import Mathlib
import Xv6.Kernel.Riscv
import Xv6.Lib.Blocks
import Xv6.Lib.LinkedList
import Xv6.Lib.TransitionSystem

/-!
# The Allocator of User Programs

`umalloc.c` keeps the free blocks in a circular list that begins at a static header of size 0. `free` looks for the
place of a block by its address and joins it with its neighbours; `malloc` takes the first block that is large enough
and gives out its end; `malloc_align` gives out the middle of one and links what is left on both sides.

- `State`: the headers in memory, `freep`, and what the program has obtained from `sbrk` and from the allocator;
- `free`, `morecore`, `malloc`, `mallocAlign`: the functions;
- `Act`, `step`, `system`: calls of a program, which also writes into the blocks it has;
- `Ring`: the headers lead through a list of blocks and back to the first.

An address is a number of bytes.
-/

namespace Xv6.User.Umalloc

open Xv6.Lib Xv6.Kernel

/-! ## Data -/

/-- `union header` -/
structure Header where
  ptr : ℕ
  /-- In units of `sizeof(Header)` -/
  size : UInt32
  deriving DecidableEq

/-- `sizeof(Header)` -/
@[simp] def HEADER : ℕ := 16

/-- The headers, by address -/
abbrev Mem := ℕ → Header

/-- `p->s.ptr = ptr` -/
def setPtr (m : Mem) (p ptr : ℕ) : Mem := Function.update m p { m p with ptr := ptr }

/-- `p->s.size = size` -/
def setSize (m : Mem) (p : ℕ) (size : UInt32) : Mem := Function.update m p { m p with size := size }

/-- The block that a header is the header of -/
def blockAt (m : Mem) (p : ℕ) : Block := ⟨p, HEADER * (m p).size.toNat⟩

structure State where
  mem : Mem
  /-- `none` is the null pointer. -/
  freep : Option ℕ
  /-- The memory that `sbrk` has returned -/
  heap : List Block
  /-- The blocks that have been handed out and not freed, with their headers -/
  used : List Block

/-- **`sbrk`**: `grow heap n` is the address it returns to a program that has got `heap` from it. New memory is above
    the program's data, is aligned, and has not been handed out before. -/
structure Sbrk (base : ℕ) where
  grow : List Block → ℤ → Option ℕ
  fresh : ∀ {heap n a}, grow heap n = some a → 0 ≤ n →
    base + HEADER ≤ a ∧ HEADER ∣ a ∧ a + n.toNat ≤ MAXVA ∧ ∀ r ∈ heap, r.Apart ⟨a, n.toNat⟩

/-- The address behind `lo` and all of the heap -/
def brk (lo : ℕ) (heap : List Block) : ℕ :=
  heap.foldr (fun r a => max ((r.limit + (HEADER - 1)) / HEADER * HEADER) a) lo

theorem brk_spec {lo : ℕ} (hlo : HEADER ∣ lo) (heap : List Block) :
    lo ≤ brk lo heap ∧ HEADER ∣ brk lo heap ∧ ∀ r ∈ heap, r.limit ≤ brk lo heap := by
  induction heap with
  | nil => exact ⟨le_rfl, hlo, nofun⟩
  | cons r heap ih =>
    obtain ⟨hle, hdvd, hmax⟩ := ih
    have hcons : brk lo (r :: heap) = max ((r.limit + (HEADER - 1)) / HEADER * HEADER) (brk lo heap) := rfl
    rw [hcons]
    refine ⟨hle.trans (le_max_right _ _), ?_, List.forall_mem_cons.mpr ⟨?_, fun c hc =>
      (hmax c hc).trans (le_max_right _ _)⟩⟩
    · rcases max_choice ((r.limit + (HEADER - 1)) / HEADER * HEADER) (brk lo heap) with h | h <;> rw [h]
      · exact Nat.dvd_mul_left _ _
      · exact hdvd
    · refine le_trans ?_ (le_max_left _ _)
      dsimp only [HEADER]
      omega

/-- The `sbrk` of the kernel, for a heap that begins at `lo`: the memory is behind what there is. -/
def contiguous {base lo : ℕ} (hbase : base + HEADER ≤ lo) (hlo : HEADER ∣ lo) : Sbrk base where
  grow heap n := if 0 ≤ brk lo heap + n ∧ brk lo heap + n ≤ MAXVA then some (brk lo heap) else none
  fresh {heap n a} hgrow hn := by
    obtain ⟨hle, hdvd, hmax⟩ := brk_spec hlo heap
    by_cases hfits : 0 ≤ (brk lo heap : ℤ) + n ∧ (brk lo heap : ℤ) + n ≤ (MAXVA : ℕ)
    · rw [if_pos hfits] at hgrow
      obtain rfl := Option.some.inj hgrow
      exact ⟨hbase.trans hle, hdvd, by omega, fun r hr => .inl (hmax r hr)⟩
    · rw [if_neg hfits] at hgrow
      nomatch hgrow

namespace State

/-- More than the number of free blocks -/
def fuel (s : State) : ℕ := Block.total s.heap + 1

/-! ## Freeing -/

/-- The search of `free` for the block behind which `bp` belongs -/
def spot (m : Mem) (bp : ℕ) : ℕ → ℕ → Option ℕ
  | 0, _ => none
  | fuel + 1, p =>
    if bp > p ∧ bp < (m p).ptr then some p
    else if p ≥ (m p).ptr ∧ (bp > p ∨ bp < (m p).ptr) then some p
    else spot m bp fuel (m p).ptr

/-- `bp` is linked to what follows `p`, or takes it. -/
def linkUpper (m : Mem) (bp p : ℕ) : Mem :=
  if bp + HEADER * (m bp).size.toNat = (m p).ptr then
    let m := setSize m bp ((m bp).size + (m (m p).ptr).size)
    setPtr m bp (m (m p).ptr).ptr
  else setPtr m bp (m p).ptr

/-- `p` is linked to `bp`, or takes it. -/
def linkLower (m : Mem) (bp p : ℕ) : Mem :=
  if p + HEADER * (m p).size.toNat = bp then
    let m := setSize m p ((m p).size + (m bp).size)
    setPtr m p (m bp).ptr
  else setPtr m p bp

/-- `free(ap)`; `none` if its search does not end -/
def free (s : State) (ap : ℕ) : Option State :=
  match s.freep with
  | none => none
  | some freep =>
    let bp := ap - HEADER
    match spot s.mem bp s.fuel freep with
    | none => none
    | some p => some { s with mem := linkLower (linkUpper s.mem bp p) bp p, freep := some p }

/-! ## More Memory -/

/-- An argument of 64 bits that is passed for an `int` -/
def toInt (n : ℕ) : ℤ := (BitVec.ofNat 32 n).toInt

/-- Negative numbers give memory back. -/
def sbrk {base : ℕ} (k : Sbrk base) (s : State) (n : ℤ) : Option (ℕ × State) :=
  (k.grow s.heap n).map fun p =>
    (p, { s with heap :=
      if n < 0 then s.heap.map fun r => ⟨r.addr, min r.limit (p - n.natAbs) - r.addr⟩
      else ⟨p, n.toNat⟩ :: s.heap })

/-- What `morecore` asks for when it is called for `nu` units -/
def atLeast (nu : UInt32) : UInt32 := if nu < 4096 then 4096 else nu

/-- `morecore` up to its call of `free` -/
def obtain {base : ℕ} (k : Sbrk base) (s : State) (nu : UInt32) : Option (ℕ × State) :=
  let nu := atLeast nu
  (s.sbrk k (toInt (nu.toNat * HEADER))).map fun (p, s) => (p, { s with mem := setSize s.mem p nu })

/-- `morecore(nu)` -/
def morecore {base : ℕ} (k : Sbrk base) (s : State) (nu : UInt32) : Option (State × Option ℕ) :=
  match s.obtain k nu with
  | none => some (s, none)
  | some (p, s) => (s.free (p + HEADER)).map fun s => (s, s.freep)

/-! ## Allocating -/

/-- The static header is the only one in the list before the first call. -/
def start (base : ℕ) (s : State) : State × ℕ :=
  match s.freep with
  | some prevp => (s, prevp)
  | none => ({ s with mem := setSize (setPtr s.mem base base) base 0, freep := some base }, base)

/-- The units of a block for `nbytes` bytes, and of its header -/
def nunits (nbytes : UInt32) : UInt32 := UInt32.ofNat ((nbytes.toNat + HEADER - 1) / HEADER + 1)

/-- The loop of `malloc` and of `malloc_align`, which differ in how they take a block out of one that is large enough -/
def search {base : ℕ} (k : Sbrk base) (take : State → ℕ → ℕ → State × ℕ) (nunits : UInt32) :
    ℕ → State → ℕ → ℕ → Option (State × Option ℕ)
  | 0, _, _, _ => none
  | fuel + 1, s, prevp, p =>
    if (s.mem p).size ≥ nunits then
      let (s, ret) := take s prevp p
      some (s, some ret)
    else if s.freep = some p then
      match s.morecore k nunits with
      | none => none
      | some (s, none) => some (s, none)
      | some (s, some p) => search k take nunits fuel s p (s.mem p).ptr
    else search k take nunits fuel s p (s.mem p).ptr

/-- A block of the right size is unlinked; of a larger one the end is taken. -/
def takeEnd (nunits : UInt32) (s : State) (prevp p : ℕ) : State × ℕ :=
  if (s.mem p).size = nunits then
    ({ s with mem := setPtr s.mem prevp (s.mem p).ptr, freep := some prevp,
              used := ⟨p, HEADER * nunits.toNat⟩ :: s.used }, p + HEADER)
  else
    let m := setSize s.mem p ((s.mem p).size - nunits)
    let p := p + HEADER * (m p).size.toNat
    ({ s with mem := setSize m p nunits, freep := some prevp, used := ⟨p, HEADER * nunits.toNat⟩ :: s.used },
      p + HEADER)

/-- The block is cut so that the one that is taken ends its header at the end of a page. -/
def takeAligned (ounits : UInt32) (s : State) (prevp p : ℕ) : State × ℕ :=
  let align_addr := pgRoundUp (p + HEADER) - HEADER
  let sz := UInt32.ofNat ((align_addr - p) / HEADER)
  let psz := (s.mem p).size
  let ret := align_addr
  let m := setSize s.mem ret ounits
  let right := ret + HEADER * ounits.toNat
  let m := setSize m right (psz - ounits - sz)
  let m := if sz = 0 then setPtr m right (m p).ptr else setSize (setPtr m right p) p sz
  ({ s with mem := setPtr m prevp right, freep := some prevp, used := ⟨ret, HEADER * ounits.toNat⟩ :: s.used },
    ret + HEADER)

/-- Enough for a search before and one after `morecore` -/
def searchFuel (s : State) : ℕ := 2 * s.fuel + 1

/-- `malloc(nbytes)`; `none` if a loop does not end -/
def malloc {base : ℕ} (k : Sbrk base) (s : State) (nbytes : UInt32) : Option (State × Option ℕ) :=
  let (s, prevp) := s.start base
  search k (takeEnd (nunits nbytes)) (nunits nbytes) s.searchFuel s prevp (s.mem prevp).ptr

/-- `malloc_align(oribytes)`; `none` if a loop does not end -/
def mallocAlign {base : ℕ} (k : Sbrk base) (s : State) (oribytes : UInt32) : Option (State × Option ℕ) :=
  let nbytes := oribytes + 4096
  let (s, prevp) := s.start base
  search k (takeAligned (nunits oribytes)) (nunits nbytes) s.searchFuel s prevp (s.mem prevp).ptr

end State

/-! ## Programs -/

inductive Act (base : ℕ) where
  | malloc (nbytes : UInt32) (k : Sbrk base)
  | mallocAlign (oribytes : UInt32) (k : Sbrk base)
  /-- A pointer to a block that has been handed out -/
  | free (ap : ℕ)
  /-- The program writes into a block that it has. -/
  | write (a : ℕ) (v : Header)

/-- A step of a program; `none` also when it has no right to take it -/
def step {base : ℕ} (s : State) : Act base → Option State
  | .malloc nbytes k => (s.malloc k nbytes).map Prod.fst
  | .mallocAlign oribytes k => (s.mallocAlign k oribytes).map Prod.fst
  | .free ap =>
    if ∃ b ∈ s.used, b.addr + HEADER = ap then
      { s with used := s.used.filter fun b => b.addr + HEADER ≠ ap }.free ap
    else none
  | .write a v =>
    if HEADER ∣ a ∧ ∃ b ∈ s.used, b.addr + HEADER ≤ a ∧ a < b.limit then
      some { s with mem := Function.update s.mem a v }
    else none

/-- A program begins without memory of its own. -/
def system (base : ℕ) : System State (Act base) where
  init s := s.freep = none ∧ s.heap = [] ∧ s.used = []
  step := step

end Xv6.User.Umalloc
