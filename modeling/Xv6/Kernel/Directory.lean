import Mathlib
import Xv6.Kernel.Inode

/-!
# Directories and Path Names

The directory layer of `fs.c`: entries of 16 bytes, `dirlookup` and `dirlink`, the elements
of a path, and `namex`, which walks along them.

A directory on the disk is the content of an inode. The directories that a device makes up
are given by what its functions answer: `DevDirs`.
-/

namespace Xv6.Kernel.Fs

/-! ## Entries -/

/-- Bytes of a name in a directory -/
def DIRSIZ : ℕ := 14

/-- `sizeof(struct dirent)` -/
def direntSize : ℕ := 16

/-- `struct dirent`, the name without what follows its end. -/
structure Dirent where
  inum : ℕ
  name : List UInt8
  deriving DecidableEq

namespace Dirent

/-- The bytes of an entry: the number in 16 bits, low byte first, and the name filled up
    with zeros, as `strncpy` leaves it. -/
def encode (de : Dirent) : List UInt8 :=
  [UInt8.ofNat de.inum, UInt8.ofNat (de.inum / 256)] ++ de.name ++
    List.replicate (DIRSIZ - de.name.length) 0

/-- The entry that 16 bytes stand for. -/
def decode : List UInt8 → Dirent
  | lo :: hi :: name => ⟨lo.toNat + 256 * hi.toNat, name.takeWhile (· ≠ 0)⟩
  | _ => ⟨0, []⟩

end Dirent

/-- `readi` of one entry, which has to be there whole. -/
def direntAt (d : Dinode) (off : ℕ) : Option Dirent :=
  let bytes := d.readi off direntSize
  if bytes.length ≠ direntSize then none else some (Dirent.decode bytes)

/-- The loop of `dirlookup` over a directory on the disk, from `off` on: the number and the
    place of the entry with this name. The entries of the directory are turns enough. -/
def findEntry (d : Dinode) (name : List UInt8) : ℕ → ℕ → Except Stop (Option (ℕ × ℕ))
  | 0, _ => .ok none
  | fuel + 1, off =>
    if off < d.size then
      match direntAt d off with
      | none => .error (.panic "dirlookup read")
      | some de =>
        if de.inum ≠ 0 ∧ de.name = name then .ok (some (de.inum, off))
        else findEntry d name fuel (off + direntSize)
    else .ok none

/-- The loop of `dirlink` that looks for an empty entry. -/
def emptyEntry (d : Dinode) : ℕ → ℕ → Except Stop ℕ
  | 0, off => .ok off
  | fuel + 1, off =>
    if off < d.size then
      match direntAt d off with
      | none => .error (.panic "dirlink read")
      | some de => if de.inum = 0 then .ok off else emptyEntry d fuel (off + direntSize)
    else .ok off

/-- Turns enough for a loop over a directory. -/
def turns (d : Dinode) : ℕ := d.size / direntSize + 1

/-- What the functions of `devsw` answer: which device inodes are directories, what is read
    from these, and the numbers whose inodes `inode_read` makes up. -/
structure DevDirs where
  isdir : BitVec 16 → ℕ → Bool
  entries : ℕ → List Dirent
  inodeRead : BitVec 16 → Bool
  /-- `ip->major` after `inode_read` -/
  major : BitVec 16

namespace DevDirs

/-- `IS_DEV_DIR(ip)` -/
def isDevDir (dv : DevDirs) (ip : ℕ) (d : Dinode) : Bool :=
  d.type == .device && dv.isdir d.major ip

/-- The loop of `dirlookup` over a directory of a device. -/
def find (dv : DevDirs) (ip : ℕ) (name : List UInt8) : Option (ℕ × ℕ) :=
  (((dv.entries ip).zipIdx).find? fun e => e.1.inum ≠ 0 ∧ e.1.name = name).map
    fun e => (e.1.inum, direntSize * e.2)

end DevDirs

namespace State

variable (dv : DevDirs)

/-- What `dirlookup` finds out before it takes a reference. -/
def lookup (ip : ℕ) (d : Dinode) (name : List UInt8) : Except Stop (Option (ℕ × ℕ)) :=
  if d.type ≠ .dir ∧ dv.isDevDir ip d = false then .error (.panic "dirlookup not DIR")
  else if dv.isDevDir ip d then .ok (dv.find ip name)
  else findEntry d name (turns d) 0

/-- `devsw[dp->major].inode_read(ip)` for an inode that is not valid yet. -/
def inodeRead (s : State) (dp ip : ℕ) : State :=
  if s.mem ip = none ∧ dv.isDevDir dp (s.inode dp) ∧ dv.inodeRead (s.inode dp).major then
    s.setMem ip (some { s.inode ip with type := .device, major := dv.major, nlink := 1 })
  else s

/-- `dirlookup(dp, name, poff)`: the inode and the place of its entry. -/
def dirlookup (s : State) (dp : ℕ) (name : List UInt8) :
    Except Stop (Option (ℕ × ℕ) × State) := do
  match ← lookup dv dp (s.inode dp) name with
  | none => .ok (none, s)
  | some (inum, off) =>
    let s ← s.iget inum
    .ok (some (inum, off), s.inodeRead dv dp inum)

/-- `dirlink(dp, name, inum)`: 0 or -1. -/
def dirlink (s : State) (dp : ℕ) (name : List UInt8) (inum : ℕ) : Except Stop (ℤ × State) := do
  if (s.inode dp).type = .device then .ok (-1, s)
  else
    match ← s.dirlookup dv dp name with
    | (some (ip, _), s) =>
      let s ← s.iput ip
      .ok (-1, s)
    | (none, s) =>
      let off ← emptyEntry (s.inode dp) (turns (s.inode dp)) 0
      let (n, s) := s.writei dp (Dirent.encode ⟨inum, name⟩) off
      if n ≠ direntSize then .ok (-1, s) else .ok (0, s)

end State

/-! ## Paths -/

/-- `'/'` -/
def slash : UInt8 := 47

/-- `skipelem(path, name)`: the next element, cut to `DIRSIZ` bytes, and what follows it. -/
def skipelem (path : List UInt8) : Option (List UInt8 × List UInt8) :=
  let path := path.dropWhile (· = slash)
  if path = [] then none
  else some ((path.takeWhile (· ≠ slash)).take DIRSIZ,
    (path.dropWhile (· ≠ slash)).dropWhile (· = slash))

/-- The elements of a path, as `skipelem` finds them one after the other; each of them takes
    a character at least. -/
def elemsFrom : ℕ → List UInt8 → List (List UInt8)
  | 0, _ => []
  | fuel + 1, path =>
    match skipelem path with
    | none => []
    | some (name, rest) => name :: elemsFrom fuel rest

def elems (path : List UInt8) : List (List UInt8) := elemsFrom path.length path

namespace State

variable (dv : DevDirs)

/-- The loop of `namex` at the inode `ip`, with these elements still to come. Returns the
    inode and the last element. -/
def walk (parent : Bool) (s : State) (ip : ℕ) :
    List (List UInt8) → Except Stop (Option (ℕ × List UInt8) × State)
  | [] => do
    if parent then
      let s ← s.iput ip
      .ok (none, s)
    else .ok (some (ip, []), s)
  | name :: rest => do
    let s ← s.ilock ip
    if (s.inode ip).type ≠ .dir ∧ dv.isDevDir ip (s.inode ip) = false then
      let s ← s.iunlockput ip
      .ok (none, s)
    else if parent ∧ rest = [] then
      -- stop one level early
      let s ← s.iunlock ip
      .ok (some (ip, name), s)
    else
      match ← s.dirlookup dv ip name with
      | (none, s) =>
        let s ← s.iunlockput ip
        .ok (none, s)
      | (some (next, _), s) =>
        let s ← s.iunlockput ip
        walk parent s next rest

/-- `namex(path, nameiparent, name)` -/
def namex (s : State) (path : List UInt8) (parent : Bool) :
    Except Stop (Option (ℕ × List UInt8) × State) := do
  if path.head? = some slash then
    let s ← s.iget ROOTINO
    s.walk dv parent ROOTINO (elems path)
  else (s.idup s.cwd).walk dv parent s.cwd (elems path)

/-- `namei(path)` -/
def namei (s : State) (path : List UInt8) : Except Stop (Option ℕ × State) := do
  let (r, s) ← s.namex dv path false
  .ok (r.map (·.1), s)

/-- `nameiparent(path, name)` -/
def nameiparent (s : State) (path : List UInt8) :
    Except Stop (Option (ℕ × List UInt8) × State) := s.namex dv path true

end State

end Xv6.Kernel.Fs
