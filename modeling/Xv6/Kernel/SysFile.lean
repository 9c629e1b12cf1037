import Mathlib
import Xv6.Kernel.Directory

/-!
# System Calls on Files

The calls of `sysfile.c` that name files: `open`, `link`, `unlink`, `mkdir`, `mknod` and
`symlink`, each from its arguments to its return value.

A string argument that cannot be copied from the user is `none`. The buffer of `open` for
path names is on the stack: `stack` are the bytes from its first one on, before the call
copies its argument there.
-/

namespace Xv6.Kernel.Fs

/-! ## Flags of `open` -/

/-- `MAXPATH` -/
def MAXPATH : ℕ := 128

/-- `MAXSYMLINKDEPTH` -/
def MAXSYMLINKDEPTH : ℕ := 10

/-- `omode & O_WRONLY` -/
def wronly (omode : BitVec 32) : Bool := omode.getLsbD 0

/-- `omode & O_RDWR` -/
def rdwr (omode : BitVec 32) : Bool := omode.getLsbD 1

/-- `omode & O_NOFOLLOW` -/
def nofollow (omode : BitVec 32) : Bool := omode.getLsbD 2

/-- `omode & O_CREATE` -/
def creates (omode : BitVec 32) : Bool := omode.getLsbD 9

/-- `omode & O_TRUNC` -/
def truncates (omode : BitVec 32) : Bool := omode.getLsbD 10

namespace State

/-! ## The file table -/

def putFile (s : State) (f : ℕ) (file : File) : State :=
  { s with files := Function.update s.files f file }

/-- `filealloc()` -/
def filealloc (s : State) : Option (ℕ × State) :=
  ((List.range NFILE).find? fun f => (s.files f).ref = 0).map fun f =>
    (f, s.putFile f { s.files f with ref := 1, idle := fun h => absurd h Nat.one_ne_zero })

/-- `fdalloc(f)` -/
def fdalloc (s : State) (f : ℕ) : Option (ℕ × State) :=
  ((List.range NOFILE).find? fun fd => s.ofile fd = none).map fun fd =>
    (fd, { s with ofile := Function.update s.ofile fd (some f) })

/-- `fileclose(f)` of a file without a type, or one that others refer to. -/
def fileclose (s : State) (f : ℕ) : Except Stop State :=
  let file := s.files f
  if file.ref < 1 then .error (.panic "fileclose")
  else if hlive : file.ref - 1 > 0 then
    .ok (s.putFile f { file with ref := file.ref - 1, idle := fun h => absurd h hlive.ne' })
  else
    let s := s.putFile f { file with ref := 0, type := .none, idle := fun _ => rfl }
    match file.type with
    | .inode | .device => (fun s => s.endOp) <$> (s.beginOp.iput file.ip)
    -- what `pipeclose` and `sockclose` do is no matter of the file system
    | _ => .ok s

/-- What `open` stores in its `struct file`. -/
def setFile (s : State) (f ip : ℕ) (omode : BitVec 32) : State :=
  let file := s.files f
  let d := s.inode ip
  if h : file.ref = 0 then s
  else
    s.putFile f { file with
      type := if d.type = .device then .device else .inode
      major := if d.type = .device then d.major else file.major
      off := 0
      ip := ip
      readable := !wronly omode
      writable := wronly omode || rdwr omode
      idle := fun h' => absurd h' h }

variable (dv : DevDirs)

/-! ## Creating -/

/-- The files that `create` takes for one it was asked to make. -/
def takes (type found : InodeType) : Bool :=
  (type == .file && (found == .file || found == .device)) ||
    (type == .symlink && (found == .symlink || found == .device))

/-- `fail` of `create`: give the new inode back. -/
def createFail (s : State) (dp ip : ℕ) : Except Stop (Option ℕ × State) := do
  let s := s.store ip { s.inode ip with nlink := 0 }
  let s ← s.iunlockput ip
  let s ← s.iunlockput dp
  .ok (none, s)

/-- The entries `.` and `..` of a new directory: whether they could be made. -/
def linkDots (s : State) (dp ip : ℕ) : Except Stop (Bool × State) := do
  let (r, s) ← s.dirlink dv ip [46] ip
  if r < 0 then .ok (false, s)
  else
    let (r, s) ← s.dirlink dv ip [46, 46] dp
    .ok (decide (0 ≤ r), s)

/-- `create(path, type, major, minor)` from the new inode `ip` in the directory `dp` on. -/
def createNew (s : State) (dp ip : ℕ) (name : List UInt8) (type : InodeType)
    (major minor : BitVec 16) : Except Stop (Option ℕ × State) := do
  let s ← s.ilock ip
  let s := s.store ip { s.inode ip with major := major, minor := minor, nlink := 1 }
  let (ok, s) ← (if type = .dir then s.linkDots dv dp ip else .ok (true, s))
  if !ok then s.createFail dp ip
  else
    let (r, s) ← s.dirlink dv dp name ip
    if r < 0 then s.createFail dp ip
    else
      let s := if type = .dir then
          s.store dp { s.inode dp with nlink := (s.inode dp).nlink + 1 }
        else s
      let s ← s.iunlockput dp
      .ok (some ip, s)

/-- `create(path, type, major, minor)`: an inode, locked, or none. -/
def create (s : State) (path : List UInt8) (type : InodeType) (major minor : BitVec 16) :
    Except Stop (Option ℕ × State) := do
  match ← s.nameiparent dv path with
  | (none, s) => .ok (none, s)
  | (some (dp, name), s) =>
    let s ← s.ilock dp
    match ← s.dirlookup dv dp name with
    | (some (ip, _), s) =>
      let s ← s.iunlockput dp
      let s ← s.ilock ip
      if takes type (s.inode ip).type then .ok (some ip, s)
      else
        let s ← s.iunlockput ip
        .ok (none, s)
    | (none, s) =>
      match ← s.ialloc type with
      | (none, s) =>
        let s ← s.iunlockput dp
        .ok (none, s)
      | (some ip, s) => s.createNew dv dp ip name type major minor

/-! ## `open` -/

/-- The string that begins a buffer. -/
def cstring (buf : List UInt8) : List UInt8 := buf.takeWhile (· ≠ 0)

/-- One turn of the loop of `open` over symbolic links: read the target of the locked link
    `ip` over what the buffer holds, and resolve it. -/
def readLink (s : State) (ip : ℕ) (buf : List UInt8) :
    Except Stop (Option ℕ × List UInt8 × State) := do
  let bytes := (s.inode ip).readi 0 MAXPATH
  if bytes = [] then .error (.panic "open: readi")
  else
    let buf := overwrite buf 0 bytes
    let s ← s.iunlockput ip
    let (r, s) ← s.namei dv (cstring buf)
    .ok (r, buf, s)

/-- The loop of `open` over symbolic links at the locked inode `ip`, when this many links may
    still be followed: the locked inode at their end, unless the call fails. The reference
    to what one link too many names is not given back. -/
def follow : ℕ → State → ℕ → List UInt8 → Except Stop (Option ℕ × State)
  | 0, s, ip, buf => do
    if (s.inode ip).type ≠ .symlink then .ok (some ip, s)
    else
      let (_, _, s) ← s.readLink dv ip buf
      .ok (none, s)
  | k + 1, s, ip, buf => do
    if (s.inode ip).type ≠ .symlink then .ok (some ip, s)
    else
      match ← s.readLink dv ip buf with
      | (none, _, s) => .ok (none, s)
      | (some ip, buf, s) =>
        let s ← s.ilock ip
        follow k s ip buf

/-- `open` from the locked inode `ip` on. -/
def openInode (s : State) (ip : ℕ) (omode : BitVec 32) : Except Stop (ℤ × State) := do
  if (s.inode ip).type = .device ∧ ((s.inode ip).major.toInt < 0 ∨ (s.inode ip).major.toInt ≥ NDEV)
  then
    let s ← s.iunlockput ip
    .ok (-1, s.endOp)
  else
    match s.filealloc with
    | none =>
      let s ← s.iunlockput ip
      .ok (-1, s.endOp)
    | some (f, s) =>
      match s.fdalloc f with
      | none =>
        let s ← s.fileclose f
        let s ← s.iunlockput ip
        .ok (-1, s.endOp)
      | some (fd, s) =>
        let s := s.setFile f ip omode
        let s := if truncates omode ∧ (s.inode ip).type = .file then s.itrunc ip else s
        let s ← s.iunlock ip
        .ok (fd, s.endOp)

/-- `sys_open` -/
def sysOpen (s : State) (stack : List UInt8) (path : Option (List UInt8)) (omode : BitVec 32) :
    Except Stop (ℤ × State) := do
  match path with
  | none => .ok (-1, s)
  | some path =>
    let s := s.beginOp
    if creates omode then
      match ← s.create dv path .file 0 0 with
      | (none, s) => .ok (-1, s.endOp)
      | (some ip, s) => s.openInode ip omode
    else
      match ← s.namei dv path with
      | (none, s) => .ok (-1, s.endOp)
      | (some ip, s) =>
        let s ← s.ilock ip
        if (s.inode ip).type = .dir ∧ omode ≠ 0 then
          let s ← s.iunlockput ip
          .ok (-1, s.endOp)
        else if nofollow omode then s.openInode ip omode
        else
          match ← follow dv MAXSYMLINKDEPTH s ip (overwrite stack 0 (path ++ [0])) with
          | (none, s) => .ok (-1, s.endOp)
          | (some ip, s) => s.openInode ip omode

/-! ## Links -/

/-- `bad` of `link`: take the link back. -/
def linkFail (s : State) (ip : ℕ) : Except Stop (ℤ × State) := do
  let s ← s.ilock ip
  let s := s.store ip { s.inode ip with nlink := (s.inode ip).nlink - 1 }
  let s ← s.iunlockput ip
  .ok (-1, s.endOp)

/-- `sys_link` -/
def sysLink (s : State) (old new : Option (List UInt8)) : Except Stop (ℤ × State) := do
  match old, new with
  | some old, some new =>
    match ← s.beginOp.namei dv old with
    | (none, s) => .ok (-1, s.endOp)
    | (some ip, s) =>
      let s ← s.ilock ip
      if (s.inode ip).type = .dir then
        let s ← s.iunlockput ip
        .ok (-1, s.endOp)
      else
        let s := s.store ip { s.inode ip with nlink := (s.inode ip).nlink + 1 }
        let s ← s.iunlock ip
        match ← s.nameiparent dv new with
        | (none, s) => s.linkFail ip
        | (some (dp, name), s) =>
          let s ← s.ilock dp
          let (r, s) ← s.dirlink dv dp name ip
          let s ← s.iunlockput dp
          if r < 0 then s.linkFail ip
          else
            let s ← s.iput ip
            .ok (0, s.endOp)
  | _, _ => .ok (-1, s)

/-- `isdirempty(dp)`, from the entry at `off` on. -/
def isdirempty (d : Dinode) : ℕ → ℕ → Except Stop Bool
  | 0, _ => .ok true
  | fuel + 1, off =>
    if off < d.size then
      match direntAt d off with
      | none => .error (.panic "isdirempty: readi")
      | some de => if de.inum ≠ 0 then .ok false else isdirempty d fuel (off + direntSize)
    else .ok true

/-- `sys_unlink` from the locked inode `ip` on, whose entry in the locked directory `dp` is
    at `off`. -/
def unlinkInode (s : State) (dp ip off : ℕ) : Except Stop (ℤ × State) := do
  if (s.inode ip).nlink.toInt < 1 then .error (.panic "unlink: nlink < 1")
  else
    let empty ← (if (s.inode ip).type = .dir then
        isdirempty (s.inode ip) (turns (s.inode ip)) (2 * direntSize)
      else .ok true)
    if !empty then
      let s ← s.iunlockput ip
      let s ← s.iunlockput dp
      .ok (-1, s.endOp)
    else
      let (n, s) := s.writei dp (List.replicate direntSize 0) off
      if n ≠ direntSize then .error (.panic "unlink: writei")
      else
        let s := if (s.inode ip).type = .dir then
            s.store dp { s.inode dp with nlink := (s.inode dp).nlink - 1 }
          else s
        let s ← s.iunlockput dp
        let s := s.store ip { s.inode ip with nlink := (s.inode ip).nlink - 1 }
        let s ← s.iunlockput ip
        .ok (0, s.endOp)

/-- `sys_unlink` -/
def sysUnlink (s : State) (path : Option (List UInt8)) : Except Stop (ℤ × State) := do
  match path with
  | none => .ok (-1, s)
  | some path =>
    match ← s.beginOp.nameiparent dv path with
    | (none, s) => .ok (-1, s.endOp)
    | (some (dp, name), s) =>
      let s ← s.ilock dp
      if name = [46] ∨ name = [46, 46] then
        let s ← s.iunlockput dp
        .ok (-1, s.endOp)
      else
        match ← s.dirlookup dv dp name with
        | (none, s) =>
          let s ← s.iunlockput dp
          .ok (-1, s.endOp)
        | (some (ip, off), s) =>
          let s ← s.ilock ip
          s.unlinkInode dp ip off

/-- `sys_mkdir` and `sys_mknod`: `create` and let go of the new inode. -/
def sysCreate (s : State) (path : Option (List UInt8)) (type : InodeType)
    (major minor : BitVec 16) : Except Stop (ℤ × State) := do
  match path with
  | none => .ok (-1, s.beginOp.endOp)
  | some path =>
    match ← s.beginOp.create dv path type major minor with
    | (none, s) => .ok (-1, s.endOp)
    | (some ip, s) =>
      let s ← s.iunlockput ip
      .ok (0, s.endOp)

/-- `sys_mkdir` -/
def sysMkdir (s : State) (path : Option (List UInt8)) : Except Stop (ℤ × State) :=
  s.sysCreate dv path .dir 0 0

/-- `sys_mknod`; the numbers are cut to a `short`. -/
def sysMknod (s : State) (path : Option (List UInt8)) (major minor : BitVec 32) :
    Except Stop (ℤ × State) :=
  s.sysCreate dv path .device (major.setWidth 16) (minor.setWidth 16)

end State

end Xv6.Kernel.Fs
