import Mathlib
import Xv6.Kernel.Param

/-!
# Inodes

The inode layer of `fs.c` as one process sees it between its own steps: the inodes on the
disk, the inode table, reading and writing the content of an inode.

The inode table has one entry for each number that is referred to, so it is kept by inode
number: a bag of the references and, for each number, the copy in memory once it is valid.
The blocks of an inode's content are a list of bytes; whether a write finds a free block
when it needs one is answered by a list, as the free map is not modelled here.

- `iget`, `idup`, `ilock`, `iunlock`, `iput`, `ialloc`, `iupdate`, `itrunc`;
- `readi`, `writei`;
- `Same`: the parts of the state that a function on inodes leaves alone.
-/

namespace Xv6.Kernel.Fs

/-! ## The state -/

/-- `type` of a `struct dinode` -/
inductive InodeType where
  | free
  /-- `T_DIR` -/
  | dir
  /-- `T_FILE` -/
  | file
  /-- `T_DEVICE` -/
  | device
  /-- `T_SYMLINK` -/
  | symlink
  deriving DecidableEq

/-- `struct dinode`, with the bytes of its blocks in place of their addresses; `size` is
    their number. -/
structure Dinode where
  type : InodeType
  major : BitVec 16
  minor : BitVec 16
  nlink : BitVec 16
  data : List UInt8
  deriving DecidableEq

namespace Dinode

def size (d : Dinode) : ℕ := d.data.length

/-- `memset(dip, 0, sizeof(*dip)); dip->type = type` -/
def fresh (type : InodeType) : Dinode := ⟨type, 0, 0, 0, []⟩

/-- `readi(ip, 0, dst, off, n)`: the bytes that are copied. -/
def readi (d : Dinode) (off n : ℕ) : List UInt8 :=
  if off > d.size ∨ (off + n) % 2 ^ 32 < off then [] else (d.data.drop off).take n

end Dinode

/-- `type` of a `struct file` -/
inductive FileType where
  | none
  | pipe
  | inode
  | device
  | sock
  deriving DecidableEq

/-- `struct file`. An entry that nobody refers to has been closed, and has no type. -/
structure File where
  ref : ℕ
  type : FileType
  readable : Bool
  writable : Bool
  ip : ℕ
  off : ℕ
  major : BitVec 16
  idle : ref = 0 → type = .none

/-- Why a call does not return: a panic, or it waits for somebody else. -/
inductive Stop where
  | panic (msg : String)
  | sleep
  deriving DecidableEq

/-- The root directory -/
def ROOTINO : ℕ := 1

/-- Entries of the inode table -/
def NINODE : ℕ := 50

/-- Entries of the file table -/
def NFILE : ℕ := 100

/-- Open files of a process -/
def NOFILE : ℕ := 16

/-- Device numbers -/
def NDEV : ℕ := 10

/-- Size of a block -/
def BSIZE : ℕ := 4096

/-- Blocks of a file at most: `NDIRECT + NINDIRECT + 10 * NINDIRECT` -/
def MAXFILE : ℕ := 11 + 1024 + 10 * 1024

structure State where
  /-- `sb.ninodes` -/
  ninodes : ℕ
  /-- the inodes on the disk -/
  disk : ℕ → Dinode
  /-- one element for each reference to an entry of the inode table -/
  refs : Multiset ℕ
  /-- the copies in memory that are valid -/
  mem : ℕ → Option Dinode
  /-- the inodes whose sleep-locks are held -/
  locked : Finset ℕ
  /-- the file table -/
  files : ℕ → File
  /-- the open files of the process -/
  ofile : ℕ → Option ℕ
  /-- the current directory of the process -/
  cwd : ℕ
  /-- `log.outstanding` -/
  outstanding : ℕ
  /-- whether the next allocations of a block succeed -/
  balloc : List Bool
  /-- the inodes whose block on the disk was accessed -/
  iblocks : List ℕ

namespace State

/-- What the holder of the lock finds in the copy in memory. -/
def inode (s : State) (ip : ℕ) : Dinode := (s.mem ip).getD (s.disk ip)

def setMem (s : State) (ip : ℕ) (d : Option Dinode) : State :=
  { s with mem := Function.update s.mem ip d }

@[simp] theorem setMem_mem (s : State) (ip : ℕ) (d : Option Dinode) :
    (s.setMem ip d).mem = Function.update s.mem ip d := rfl

@[simp] theorem inode_setMem_self (s : State) (ip : ℕ) (d : Dinode) :
    (s.setMem ip (some d)).inode ip = d := by simp [inode]

/-! ## The inode table -/

/-- `iget(dev, inum)` -/
def iget (s : State) (inum : ℕ) : Except Stop State :=
  if inum ∈ s.refs then .ok { s with refs := inum ::ₘ s.refs }
  else if s.refs.toFinset.card ≥ NINODE then .error (.panic "iget: no inodes")
  else .ok { s with refs := inum ::ₘ s.refs, mem := Function.update s.mem inum none }

/-- `idup(ip)` -/
def idup (s : State) (ip : ℕ) : State := { s with refs := ip ::ₘ s.refs }

/-- `iupdate(ip)` -/
def iupdate (s : State) (ip : ℕ) : State :=
  { s with disk := Function.update s.disk ip (s.inode ip), iblocks := s.iblocks ++ [ip] }

/-- Change a locked inode and write it to the disk. -/
def store (s : State) (ip : ℕ) (d : Dinode) : State := (s.setMem ip (some d)).iupdate ip

/-- `ilock(ip)` -/
def ilock (s : State) (ip : ℕ) : Except Stop State :=
  if ip ∉ s.refs then .error (.panic "ilock")
  else if ip ∈ s.locked then .error .sleep
  else
    match s.mem ip with
    | some _ => .ok { s with locked := insert ip s.locked }
    | none =>
      if (s.disk ip).type = .free then .error (.panic "ilock: no type")
      else
        .ok { s with
          locked := insert ip s.locked
          mem := Function.update s.mem ip (some (s.disk ip))
          iblocks := s.iblocks ++ [ip] }

/-- `iunlock(ip)` -/
def iunlock (s : State) (ip : ℕ) : Except Stop State :=
  if ip ∉ s.locked ∨ ip ∉ s.refs then .error (.panic "iunlock")
  else .ok { s with locked := s.locked.erase ip }

/-- `itrunc(ip)` -/
def itrunc (s : State) (ip : ℕ) : State := s.store ip { s.inode ip with data := [] }

/-- `iput(ip)`: the last reference to an inode without links frees it. -/
def iput (s : State) (ip : ℕ) : Except Stop State :=
  if s.refs.count ip = 1 ∧ (s.mem ip).any fun d => d.nlink = 0 then
    if ip ∈ s.locked then .error .sleep
    else
      let s := s.itrunc ip
      let s := s.store ip { s.inode ip with type := .free }
      .ok { s with refs := s.refs.erase ip, mem := Function.update s.mem ip none }
  else .ok { s with refs := s.refs.erase ip }

/-- `iunlockput(ip)` -/
def iunlockput (s : State) (ip : ℕ) : Except Stop State := do
  let s ← s.iunlock ip
  s.iput ip

/-- `ialloc(dev, type)`: the first free inode on the disk. -/
def ialloc (s : State) (type : InodeType) : Except Stop (Option ℕ × State) :=
  match (List.range' 1 (s.ninodes - 1)).find? fun inum => (s.disk inum).type = .free with
  | none => .ok (none, s)
  | some inum => do
    let s ← { s with disk := Function.update s.disk inum (.fresh type) }.iget inum
    .ok (some inum, s)

/-! ## Writing -/

/-- How many of `n` bytes from `off` on find a block, in a file of `size` bytes: the loop of
    `writei`, a block a turn, and the answers that are left. -/
def room (size : ℕ) : ℕ → ℕ → ℕ → List Bool → ℕ × List Bool
  | 0, _, _, answers => (0, answers)
  | fuel + 1, off, n, answers =>
    if n = 0 then (0, answers)
    else
      let m := min n (BSIZE - off % BSIZE)
      if off / BSIZE * BSIZE < size then
        let (tot, answers) := room size fuel (off + m) (n - m) answers
        (m + tot, answers)
      else
        match answers with
        | true :: answers =>
          let (tot, answers) := room size fuel (off + m) (n - m) answers
          (m + tot, answers)
        | _ => (0, answers.tail)

/-- `bytes` in place of what stands at `off`. -/
def overwrite (data : List UInt8) (off : ℕ) (bytes : List UInt8) : List UInt8 :=
  data.take off ++ bytes ++ data.drop (off + bytes.length)

/-- `writei(ip, 0, src, off, n)`: the number of bytes written, or -1. -/
def writei (s : State) (ip : ℕ) (src : List UInt8) (off : ℕ) : ℤ × State :=
  let d := s.inode ip
  if off > d.size ∨ (off + src.length) % 2 ^ 32 < off then (-1, s)
  else if off + src.length > MAXFILE * BSIZE then (-1, s)
  else
    let (tot, answers) := room d.size (src.length / BSIZE + 2) off src.length s.balloc
    (tot, { s with balloc := answers }.store ip { d with data := overwrite d.data off (src.take tot) })

/-! ## The log -/

/-- `begin_op()`, once the log has room. -/
def beginOp (s : State) : State := { s with outstanding := s.outstanding + 1 }

/-- `end_op()` -/
def endOp (s : State) : State := { s with outstanding := s.outstanding - 1 }

end State

end Xv6.Kernel.Fs
