import Mathlib

/-!
# Addresses and Page-Table Entries

The constants, rounding macros and page-table entry macros of `riscv.h`, and the
part of the memory layout of `memlayout.h` that user address spaces depend on.

A `uint64` is a natural number below `2 ^ 64`; the operations that can wrap
(`add64`, `sub64` and the rounding macros) wrap explicitly.
-/

namespace Xv6.Kernel

/-! ## 64-bit arithmetic -/

/-- `a + b` on `uint64`. -/
def add64 (a b : ℕ) : ℕ := (a + b) % 2 ^ 64

/-- `a - b` on `uint64`. -/
def sub64 (a b : ℕ) : ℕ := (a + (2 ^ 64 - b)) % 2 ^ 64

/-- `(uint64)(int)a`: the low 32 bits of `a`, sign-extended. -/
def signExtend32 (a : ℕ) : ℕ :=
  if a % 2 ^ 32 < 2 ^ 31 then a % 2 ^ 32 else a % 2 ^ 32 + (2 ^ 64 - 2 ^ 32)

/-! ## Pages -/

/-- Bytes in a page -/
@[simp] def PGSIZE : ℕ := 4096

/-- Bytes in a super page -/
@[simp] def SUPPGSIZE : ℕ := 2097152

/-- `((sz) + g - 1) & ~(g - 1)`, for `g` a power of two. -/
def roundUp (g sz : ℕ) : ℕ := add64 sz (g - 1) / g * g

/-- `(a) & ~(g - 1)`, for `g` a power of two. -/
def roundDown (g a : ℕ) : ℕ := a / g * g

/-- `PGROUNDUP` -/
def pgRoundUp (sz : ℕ) : ℕ := roundUp PGSIZE sz

/-- `PGROUNDDOWN` -/
def pgRoundDown (a : ℕ) : ℕ := roundDown PGSIZE a

/-- `SUPPGROUNDUP` -/
def suppgRoundUp (sz : ℕ) : ℕ := roundUp SUPPGSIZE sz

/-- `SUPPGROUNDDOWN` -/
def suppgRoundDown (a : ℕ) : ℕ := roundDown SUPPGSIZE a

theorem roundDown_le (g a : ℕ) : roundDown g a ≤ a := Nat.div_mul_le_self a g

theorem dvd_roundDown (g a : ℕ) : g ∣ roundDown g a := Nat.dvd_mul_left g _

theorem dvd_roundUp (g a : ℕ) : g ∣ roundUp g a := Nat.dvd_mul_left g _

/-- Rounding down stays above every multiple of `g` that the argument is above. -/
theorem le_roundDown_iff {g a b : ℕ} (hg : 0 < g) (hb : g ∣ b) : b ≤ roundDown g a ↔ b ≤ a := by
  obtain ⟨k, rfl⟩ := hb
  rw [roundDown, Nat.mul_comm (a / g) g, Nat.mul_le_mul_left_iff hg, Nat.le_div_iff_mul_le hg,
    Nat.mul_comm k g]

/-- Without wrapping, rounding up stays below every multiple of `g` above the argument. -/
theorem roundUp_le_iff {g a b : ℕ} (hg : 0 < g) (hb : g ∣ b) (ha : a + g ≤ 2 ^ 64) :
    roundUp g a ≤ b ↔ a ≤ b := by
  obtain ⟨k, rfl⟩ := hb
  have hwrap : add64 a (g - 1) = a + (g - 1) := Nat.mod_eq_of_lt (by omega)
  rw [roundUp, hwrap, Nat.mul_comm _ g, Nat.mul_le_mul_left_iff hg, ← Nat.lt_succ_iff,
    Nat.div_lt_iff_lt_mul hg, Nat.succ_mul, Nat.mul_comm k g]
  omega

theorem le_roundUp {g a : ℕ} (hg : 0 < g) (ha : a + g ≤ 2 ^ 64) : a ≤ roundUp g a :=
  (roundUp_le_iff hg (dvd_roundUp g a) ha).mp (Nat.le_refl _)

/-! ## Memory layout -/

/-- One beyond the highest virtual address -/
@[simp] def MAXVA : ℕ := 2 ^ 38

/-- The trampoline page -/
@[simp] def TRAMPOLINE : ℕ := MAXVA - PGSIZE

/-- The trapframe page of the process -/
@[simp] def TRAPFRAME : ℕ := TRAMPOLINE - PGSIZE

/-- The page shared read-only with the user -/
@[simp] def USYSCALL : ℕ := TRAPFRAME - PGSIZE

/-- Start of physical memory -/
@[simp] def KERNBASE : ℕ := 2 ^ 31

/-- `KERNBASE` and 128 MiB: the end of the pages handed out by `kalloc` -/
@[simp] def PHYSTOP : ℕ := 2 ^ 31 + 2 ^ 27

/-- The platform-level interrupt controller -/
@[simp] def PLIC : ℕ := 0x0c000000

/-- `IS_SUPPG`: is `pa` the address of a super page? -/
def isSuppg (pa : ℕ) : Bool := decide (PHYSTOP ≤ pa) || decide (pa = PLIC)

/-! ## Page-table entries -/

/-- A page-table entry: `ppn` is what stands from bit 10 on (a physical page
    number or, under `PTE_PG`, a swap slot), the rest are the flag bits. -/
@[ext] structure Pte where
  ppn : ℕ
  /-- Valid -/
  v : Bool
  r : Bool
  w : Bool
  x : Bool
  /-- User can access -/
  u : Bool
  /-- The global bit, which the kernel never sets -/
  g : Bool
  /-- Accessed -/
  a : Bool
  /-- Dirty -/
  d : Bool
  /-- Copy-on-write -/
  cow : Bool
  /-- Paged out -/
  pg : Bool
  deriving DecidableEq

namespace Pte

/-- The entry whose bits are all zero. -/
def zero : Pte := ⟨0, false, false, false, false, false, false, false, false, false, false⟩

/-- `PTE2PA` -/
def pa (p : Pte) : ℕ := p.ppn * PGSIZE

/-- `PTE_FLAGS(*pte) == PTE_V` -/
def onlyV (p : Pte) : Bool :=
  p.v && !(p.r || p.w || p.x || p.u || p.g || p.a || p.d || p.cow || p.pg)

/-- `PTE_ENCOW` -/
def encow (p : Pte) : Pte := { p with w := false, cow := true }

/-- `PTE_DECOW` -/
def decow (p : Pte) : Pte := { p with cow := false, w := true }

/-- The entry stands for a page, in memory or in swap. -/
def present (p : Pte) : Bool := p.v || p.pg

end Pte

end Xv6.Kernel
