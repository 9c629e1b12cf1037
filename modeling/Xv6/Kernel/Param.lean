import Mathlib.Init

/-!
# Kernel Constants

The constants of `param.h`, `fs.h`, `riscv.h`, `memlayout.h` and `proc.h` that
the modelled functions use, under their own names.
-/

namespace Xv6.Kernel

/-! ## `param.h` -/

/-- Maximum number of CPUs. -/
def NCPU : Nat := 8

/-- Maximum number of blocks any file-system operation writes. -/
def MAXOPBLOCKS : Nat := 10

/-- Maximum number of data blocks in the on-disk log. -/
def LOGSIZE : Nat := MAXOPBLOCKS * 3

/-- Size of the disk block cache. -/
def NBUF : Nat := MAXOPBLOCKS * 3

/-- Size of the swap region in blocks. -/
def SWAP_SPACE_BLOCKS : Nat := 1024

end Xv6.Kernel
