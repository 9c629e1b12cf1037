import Mathlib
import Xv6.Kernel.Directory

/-!
# Directories as Lists of Entries

The content of a directory as the list of its entries, and what the loops over its bytes and
the writes of single entries are on this list.

- `dirents`: the entries that the bytes of a directory stand for;
- `findFrom`, `emptyFrom`: the searches of `dirlookup` and `dirlink`;
- `putEntry`: an entry in place of another one or behind the last.
-/

namespace Xv6.Kernel.Fs

/-! ## Entries -/

/-- An entry that 16 bytes can hold: `inum` is an unsigned `short`, and the name ends at the
    first zero. -/
structure Dirent.Fits (de : Dirent) : Prop where
  inum : de.inum < 2 ^ 16
  name : de.name.length ≤ DIRSIZ
  string : (0 : UInt8) ∉ de.name

namespace Dirent

theorem length_encode {de : Dirent} (h : de.name.length ≤ DIRSIZ) :
    de.encode.length = direntSize := by
  simp only [encode, List.length_append, List.length_cons, List.length_nil, List.length_replicate,
    DIRSIZ, direntSize] at *
  omega

/-- The entry that `unlink` writes. -/
theorem encode_zero : (⟨0, []⟩ : Dirent).encode = List.replicate direntSize 0 := by decide

theorem zero_fits : (⟨0, []⟩ : Dirent).Fits where
  inum := by decide
  name := by decide
  string := List.not_mem_nil

end Dirent

/-! ## The content of a directory -/

/-- The bytes of a directory are whole entries, and offsets in it do not wrap. -/
structure Whole (d : Dinode) : Prop where
  aligned : d.size % direntSize = 0
  small : d.size < 2 ^ 32

/-- The entries of a directory. -/
def dirents (d : Dinode) : List Dirent :=
  (List.range (d.size / direntSize)).map fun k =>
    Dirent.decode ((d.data.drop (direntSize * k)).take direntSize)

@[simp] theorem length_dirents (d : Dinode) : (dirents d).length = d.size / direntSize := by
  simp [dirents]

theorem Whole.size {d : Dinode} (h : Whole d) : d.size = direntSize * (dirents d).length := by
  have := h.aligned
  rw [length_dirents]
  unfold direntSize at *
  omega

/-- The entry `k` is `de` now; `k` may be the number of entries. -/
def putEntry (l : List Dirent) (k : ℕ) (de : Dirent) : List Dirent :=
  l.take k ++ de :: l.drop (k + 1)

theorem length_putEntry {l : List Dirent} {k : ℕ} (de : Dirent) (hk : k ≤ l.length) :
    (putEntry l k de).length = max l.length (k + 1) := by
  simp only [putEntry, List.length_append, List.length_take, List.length_cons, List.length_drop]
  omega

/-- A write of whole bytes at an offset within the file. -/
theorem length_overwrite {data bytes : List UInt8} {off : ℕ} (h : off ≤ data.length) :
    (State.overwrite data off bytes).length = max data.length (off + bytes.length) := by
  simp only [State.overwrite, List.length_append, List.length_take, List.length_drop]
  omega

/-- A directory with an entry written is made of whole entries. -/
theorem Whole.overwrite {d : Dinode} {k : ℕ} {de : Dirent} (h : Whole d)
    (hk : k ≤ (dirents d).length) (hname : de.name.length ≤ DIRSIZ)
    (hsmall : direntSize * k + direntSize < 2 ^ 32) :
    Whole { d with data := State.overwrite d.data (direntSize * k) de.encode } := by
  have hsize := h.size
  have hold := h.small
  have hoff : direntSize * k ≤ d.data.length := by
    change _ ≤ d.size
    rw [hsize]
    exact Nat.mul_le_mul_left _ hk
  have hlen : (State.overwrite d.data (direntSize * k) de.encode).length = _ :=
    length_overwrite hoff
  rw [Dirent.length_encode hname] at hlen
  change _ = max d.size _ at hlen
  constructor
  · rw [Dinode.size, hlen, hsize]
    unfold direntSize
    omega
  · rw [Dinode.size, hlen]
    omega

end Xv6.Kernel.Fs
