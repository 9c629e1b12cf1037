import Mathlib
import Xv6.Kernel.PathView

/-!
# Opening Files

`open` from any settled state, for any path, mode and contents of its buffer.

The loop over symbolic links changes which inode is being opened, but the test for a
directory that is opened for writing comes before it; and it tests for one link too many
after it has resolved that link, and returns without the reference.

- `State.linkEnd`: where a chain of symbolic links leads to;
- `sysOpen_cases`: the three ways in which a call returns;
- `dirs_readonly_iff`: the descriptor is none for writing to a directory if and only if the
  path does not lead through a link to a directory that is to be written;
- `open_no_trace_iff`: a call that fails leaves no trace if and only if it does not come to
  one link too many.
-/

namespace Xv6.Kernel.Fs

/-! ## Chains of links -/

/-- Where a chain of symbolic links leads to. -/
inductive LinkEnd where
  | reached (cur : ℕ × Dinode)
  /-- a target names nothing -/
  | missing
  /-- a target has no bytes -/
  | empty
  /-- there is one more link than may be followed, and its target exists -/
  | tooMany
  deriving DecidableEq

namespace State

variable (dv : DevDirs)

/-- The end of the links from the inode `cur` on, when this many may be followed. Each target
    is read over what the buffer holds already. -/
def linkEnd (b : State) : ℕ → ℕ × Dinode → List UInt8 → LinkEnd
  | 0, cur, buf =>
    if cur.2.type ≠ .symlink then .reached cur
    else if cur.2.readi 0 MAXPATH = [] then .empty
    else
      match b.resolve dv (cstring (overwrite buf 0 (cur.2.readi 0 MAXPATH))) with
      | none => .missing
      | some _ => .tooMany
  | k + 1, cur, buf =>
    if cur.2.type ≠ .symlink then .reached cur
    else if cur.2.readi 0 MAXPATH = [] then .empty
    else
      match b.resolve dv (cstring (overwrite buf 0 (cur.2.readi 0 MAXPATH))) with
      | none => .missing
      | some next => linkEnd b k next (overwrite buf 0 (cur.2.readi 0 MAXPATH))

@[simp] theorem linkEnd_beginOp (b : State) (k : ℕ) (cur : ℕ × Dinode) (buf : List UInt8) :
    b.beginOp.linkEnd dv k cur buf = b.linkEnd dv k cur buf := by
  induction k generalizing cur buf with
  | zero => simp only [linkEnd, resolve_beginOp]
  | succ k ih =>
    simp only [linkEnd, resolve_beginOp]
    split
    · rfl
    split
    · rfl
    · split
      · rfl
      · exact ih _ _

end State

section Follow

variable {dv : DevDirs} {b s s' : State}

/-- The inode `cur.1` is locked and valid, and nothing else is held. -/
structure Opened (b s : State) (cur : ℕ × Dinode) : Prop where
  held : Holding b {cur.1} {cur.1} s
  calm : Calm b s
  mem : s.mem cur.1 = some cur.2
  linked : Linked b cur

theorem Opened.inode {cur : ℕ × Dinode} (h : Opened b s cur) : s.inode cur.1 = cur.2 := by
  rw [State.inode, h.mem, Option.getD_some]

/-- Letting go of an inode that has a link or is in use does not free it. -/
theorem Opened.stays {cur : ℕ × Dinode} (h : Opened b s cur) : Stays s cur.1 :=
  h.linked.stays (le_of_eq h.held.refs.symm) h.inode

theorem Carries.opened (hb : Settled dv b) {cur : ℕ × Dinode} {path : List UInt8}
    (hc : Carries b s cur) (hres : b.resolve dv path = some cur) (h : s.ilock cur.1 = .ok s') :
    Opened b s' cur where
  held := (hc.held.ilock h).2
  calm := hc.calm.ilock h
  mem := by rw [(ilock_mem h).2, Function.update_self, hc.seen]
  linked := hb.linked path _ cur hres

/-- One turn of the loop: the target is resolved as a path of its own. -/
theorem readLink_resolves (hb : Settled dv b) {cur : ℕ × Dinode} {buf buf' : List UInt8}
    {r : Option ℕ} (ho : Opened b s cur) (h : s.readLink dv cur.1 buf = .ok (r, buf', s')) :
    cur.2.readi 0 MAXPATH ≠ [] ∧ buf' = State.overwrite buf 0 (cur.2.readi 0 MAXPATH) ∧
    ((∃ next, b.resolve dv (State.cstring buf') = some next ∧ r = some next.1 ∧
        Carries b s' next) ∨
      (b.resolve dv (State.cstring buf') = none ∧ r = none ∧ Holding b 0 ∅ s' ∧ Calm b s')) := by
  simp only [State.readLink, ho.inode] at h
  split at h
  · cases h
  next hbytes =>
  obtain ⟨s₁, hput, h₁⟩ := bind_ok h
  obtain ⟨⟨r₂, s₂⟩, hnamei, h₂⟩ := bind_ok h₁
  cases h₂
  have hheld : Holding b 0 ∅ s₁ := ho.held.iunlockput (Finset.notMem_empty _) hput
  exact ⟨hbytes, rfl, namei_resolves hb hheld (ho.calm.iunlockput hput ho.stays) hnamei⟩

/-- **The loop over links.** It ends at the inode that the chain of links leads to, locked,
    or fails; if it fails at one link too many, one reference stays behind. -/
theorem follow_resolves (hb : Settled dv b) {k : ℕ} {cur : ℕ × Dinode} {buf : List UInt8}
    {r : Option ℕ} (ho : Opened b s cur) (h : State.follow dv k s cur.1 buf = .ok (r, s')) :
    (∃ cur', b.linkEnd dv k cur buf = .reached cur' ∧ r = some cur'.1 ∧ Opened b s' cur') ∨
    (b.linkEnd dv k cur buf = .missing ∧ r = none ∧ Holding b 0 ∅ s') ∨
    (b.linkEnd dv k cur buf = .tooMany ∧ r = none ∧ ∃ j, Holding b {j} ∅ s') := by
  -- induction on the links that may still be followed
  induction k generalizing s cur buf with
  | zero =>
    rw [State.follow, ho.inode] at h
    rw [State.linkEnd]
    split at h
    · next hno =>
      cases h
      exact .inl ⟨cur, if_pos hno, rfl, ho⟩
    next hlink =>
    obtain ⟨⟨r₁, buf₁, s₁⟩, hread, h₁⟩ := bind_ok h
    cases h₁
    obtain ⟨hbytes, rfl, ⟨next, hres, -, hc⟩ | ⟨hres, -, hheld, -⟩⟩ :=
      readLink_resolves hb ho hread
    · exact .inr (.inr ⟨by rw [if_neg hlink, if_neg hbytes, hres], rfl, next.1, hc.held⟩)
    · exact .inr (.inl ⟨by rw [if_neg hlink, if_neg hbytes, hres], rfl, hheld⟩)
  | succ k ih =>
    rw [State.follow, ho.inode] at h
    rw [State.linkEnd]
    split at h
    · next hno =>
      cases h
      exact .inl ⟨cur, if_pos hno, rfl, ho⟩
    next hlink =>
    obtain ⟨⟨r₁, buf₁, s₁⟩, hread, h₁⟩ := bind_ok h
    obtain ⟨hbytes, rfl, ⟨next, hres, rfl, hc⟩ | ⟨hres, rfl, hheld, -⟩⟩ :=
      readLink_resolves hb ho hread
    · obtain ⟨s₂, hlock, h₂⟩ := bind_ok h₁
      rw [if_neg hlink, if_neg hbytes, hres]
      exact ih (hc.opened hb hres hlock) h₂
    · cases h₁
      exact .inr (.inl ⟨by rw [if_neg hlink, if_neg hbytes, hres], rfl, hheld⟩)

end Follow

/-! ## The end of `open` -/

/-- What `open` makes of a `struct file` for the inode `ip`. -/
def File.opened (old : File) (ip : ℕ) (d : Dinode) (omode : BitVec 32) : File where
  ref := 1
  type := if d.type = .device then .device else .inode
  readable := !wronly omode
  writable := wronly omode || rdwr omode
  ip := ip
  off := 0
  major := if d.type = .device then d.major else old.major
  idle := fun h => absurd h Nat.one_ne_zero

/-- The descriptor and the file that `open` takes for an inode, if it does. -/
def State.admits (b : State) (d : Dinode) : Option (ℕ × ℕ) :=
  if d.type = .device ∧ (d.major.toInt < 0 ∨ d.major.toInt ≥ NDEV) then none
  else b.filealloc.bind fun e => (e.2.fdalloc e.1).map fun e' => (e'.1, e.1)

section OpenInode

variable {b s s' : State} {ip : ℕ} {omode : BitVec 32} {r : ℤ}

/-- The call has given back all that it took in the table and the log. -/
structure Ended (b s : State) : Prop where
  refs : s.refs = b.refs
  locked : s.locked = b.locked
  files : s.files = b.files
  ofile : s.ofile = b.ofile
  outstanding : s.outstanding = b.outstanding - 1

theorem Holding.ended (h : Holding b 0 ∅ s) : Ended b s.endOp :=
  ⟨by rw [State.endOp, h.refs, zero_add], by rw [State.endOp, h.locked, Finset.empty_union],
    h.files, h.ofile, by rw [State.endOp, h.outstanding]⟩

/-- The descriptor `fd` has been made for the inode `j`, opened in this mode. -/
structure Descriptor (b s : State) (j : ℕ) (d : Dinode) (omode : BitVec 32) (fd f : ℕ) : Prop where
  admitted : b.admits d = some (fd, f)
  ofile : s.ofile = Function.update b.ofile fd (some f)
  files : s.files = Function.update b.files f ((b.files f).opened j d omode)
  type : (s.inode j).type = d.type

theorem filealloc_spec {f : ℕ} (h : s.filealloc = some (f, s')) :
    s' = s.putFile f { s.files f with ref := 1, idle := fun h => absurd h Nat.one_ne_zero } := by
  obtain ⟨f', -, heq⟩ := Option.map_eq_some_iff.mp h
  cases heq
  rfl

theorem fdalloc_spec {f fd : ℕ} (h : s.fdalloc f = some (fd, s')) :
    s' = { s with ofile := Function.update s.ofile fd (some f) } := by
  obtain ⟨fd', -, heq⟩ := Option.map_eq_some_iff.mp h
  cases heq
  rfl

theorem setFile_spec {f : ℕ} {old : File}
    (hf : s.files f = { old with ref := 1, idle := fun h => absurd h Nat.one_ne_zero }) :
    s.setFile f ip omode = s.putFile f (old.opened ip (s.inode ip) omode) := by
  have href : (s.files f).ref ≠ 0 := by
    rw [hf]
    exact Nat.one_ne_zero
  rw [State.setFile, dif_neg href]
  congr 1
  rw [File.opened]
  congr 1
  all_goals rw [hf]

theorem itrunc_inode (j : ℕ) : ((s.itrunc ip).inode j).type = (s.inode j).type := by
  simp only [State.itrunc, State.store, State.iupdate, State.setMem, State.inode]
  by_cases hj : j = ip
  · subst hj
    rw [Function.update_self, Option.getD_some]
  · rw [Function.update_of_ne hj, Function.update_of_ne hj]

theorem iunlock_spec (h : s.iunlock ip = .ok s') :
    s'.ofile = s.ofile ∧ s'.files = s.files ∧ ∀ j, s'.inode j = s.inode j := by
  rw [State.iunlock] at h
  split at h
  · cases h
  · cases h
    exact ⟨rfl, rfl, fun _ => rfl⟩

/-- The state that holds one more inode has the files and descriptors of the base state. -/
theorem Holding.admits {R : Multiset ℕ} {L : Finset ℕ} (h : Holding b R L s) (d : Dinode) :
    s.admits d = b.admits d := by
  simp only [State.admits, State.filealloc, State.fdalloc, Option.bind_map, State.putFile,
    Function.comp_def, Option.map_map, h.files, h.ofile]

/-- From the locked inode on, `open` fails and gives it back, or makes a descriptor for it. -/
theorem openInode_cases (h : Holding b {ip} {ip} s)
    (hs : s.openInode ip omode = .ok (r, s')) :
    (r = -1 ∧ b.admits (s.inode ip) = none ∧ Ended b s') ∨
    (∃ fd f : ℕ, r = fd ∧ Descriptor b s' ip (s.inode ip) omode fd f) := by
  rw [← h.admits, State.admits]
  rw [State.openInode] at hs
  split at hs
  · next hbad =>
    obtain ⟨s₁, hput, h₁⟩ := bind_ok hs
    cases h₁
    have hheld : Holding b 0 ∅ s₁ := h.iunlockput (Finset.notMem_empty _) hput
    exact .inl ⟨rfl, if_pos hbad, hheld.ended⟩
  next hgood =>
  rw [if_neg hgood]
  split at hs
  · next hnone =>
    obtain ⟨s₁, hput, h₁⟩ := bind_ok hs
    cases h₁
    have hheld : Holding b 0 ∅ s₁ := h.iunlockput (Finset.notMem_empty _) hput
    exact .inl ⟨rfl, by rw [hnone, Option.bind_none], hheld.ended⟩
  next f s₁ hfile =>
  rw [hfile, Option.bind_some]
  split at hs
  -- there is a file, but no descriptor: the file is closed again
  · next hnone =>
    obtain ⟨s₂, hclose, h₂⟩ := bind_ok hs
    obtain ⟨s₃, hput, h₃⟩ := bind_ok h₂
    cases h₃
    obtain ⟨hfiles, hrefs, hlocked, hofile, hcwd, hout, hninodes⟩ :=
      Holding.fileclose_filealloc hfile rfl hclose
    rw [filealloc_spec hfile] at hrefs hlocked hofile hcwd hout hninodes
    have h₂ : Holding b {ip} {ip} s₂ :=
      h.of_eq hrefs hlocked hfiles hofile hcwd hout hninodes
    have hheld : Holding b 0 ∅ s₃ := h₂.iunlockput (Finset.notMem_empty _) hput
    exact .inl ⟨rfl, by rw [hnone, Option.map_none], hheld.ended⟩
  · next fd s₂ hfd =>
    obtain ⟨s₄, hunlock, h₄⟩ := bind_ok hs
    cases h₄
    have hs₁ := filealloc_spec hfile
    have hs₂ := fdalloc_spec hfd
    have hold : s₂.files f = { s.files f with
        ref := 1, idle := fun h => absurd h Nat.one_ne_zero } := by
      rw [hs₂, hs₁]
      exact Function.update_self ..
    have hset : s₂.setFile f ip omode =
        s₂.putFile f ((s.files f).opened ip (s₂.inode ip) omode) := setFile_spec hold
    have hinode : s₂.inode ip = s.inode ip := by rw [hs₂, hs₁]; rfl
    -- the inode is emptied before the lock is given back, which keeps its type
    rw [hinode] at hset
    generalize ht : (if truncates omode ∧ ((s₂.setFile f ip omode).inode ip).type = .file
      then (s₂.setFile f ip omode).itrunc ip else s₂.setFile f ip omode) = t at hunlock
    have htrunc : t.ofile = (s₂.setFile f ip omode).ofile ∧
        t.files = (s₂.setFile f ip omode).files ∧
        (t.inode ip).type = ((s₂.setFile f ip omode).inode ip).type := by
      rw [← ht]
      split
      · exact ⟨rfl, rfl, itrunc_inode ip⟩
      · exact ⟨rfl, rfl, rfl⟩
    obtain ⟨hofile, hfiles, hinode'⟩ := iunlock_spec hunlock
    refine .inr ⟨fd, f, rfl, ?_, ?_, ?_, ?_⟩
    · rw [← h.admits, State.admits, if_neg hgood, hfile, Option.bind_some, hfd, Option.map_some]
    · change s₄.ofile = _
      rw [hofile, htrunc.1, hset, ← h.ofile, hs₂, hs₁]
      rfl
    · change s₄.files = _
      rw [hfiles, htrunc.2.1, hset, ← h.files, hs₂, hs₁]
      exact Function.update_idem ..
    · change (s₄.inode ip).type = _
      rw [hinode', htrunc.2.2, hset, ← hinode]
      rfl

end OpenInode

/-! ## What `create` returns -/

section Create

variable {dv : DevDirs} {b s s' : State} {ip j : ℕ}

theorem iput_inode (h : s.iput ip = .ok s') (hj : j ≠ ip) : s'.inode j = s.inode j := by
  rw [State.iput] at h
  split at h
  · split at h
    · cases h
    · cases h
      simp only [State.itrunc, State.store, State.iupdate, State.setMem, State.inode,
        Function.update_of_ne hj]
  · cases h
    rfl

theorem iunlockput_inode (h : s.iunlockput ip = .ok s') (hj : j ≠ ip) :
    s'.inode j = s.inode j := by
  obtain ⟨s₁, h₁, h₂⟩ := bind_ok h
  rw [iput_inode h₂ hj, (iunlock_spec h₁).2.2]

theorem store_inode (d : Dinode) (hj : j ≠ ip) : (s.store ip d).inode j = s.inode j := by
  simp only [State.store, State.iupdate, State.setMem, State.inode, Function.update_of_ne hj]

theorem store_inode_self (d : Dinode) : (s.store ip d).inode ip = d := by
  simp only [State.store, State.iupdate, State.setMem, State.inode, Function.update_self,
    Option.getD_some]

theorem writei_inode {src : List UInt8} {off : ℕ} (hj : j ≠ ip) :
    (s.writei ip src off).2.inode j = s.inode j := by
  simp only [State.writei]
  split
  · rfl
  split
  · rfl
  · exact store_inode _ hj

/-- A lookup that finds nothing changes nothing. -/
theorem dirlookup_none {dp : ℕ} {name : List UInt8}
    (h : s.dirlookup dv dp name = .ok (none, s')) : s' = s := by
  obtain ⟨found, -, h₁⟩ := bind_ok h
  cases found with
  | none =>
    cases h₁
    rfl
  | some e =>
    obtain ⟨s₁, -, h₂⟩ := bind_ok h₁
    cases h₂

/-- A new entry changes only the directory. -/
theorem dirlink_inode {dp inum : ℕ} {name : List UInt8} {r : ℤ}
    (h : s.dirlink dv dp name inum = .ok (r, s')) (hr : ¬ r < 0) (hj : j ≠ dp) :
    s'.inode j = s.inode j := by
  rw [State.dirlink] at h
  split at h
  · cases h
    exact absurd (by decide) hr
  obtain ⟨⟨found, s₁⟩, hlookup, h₁⟩ := bind_ok h
  cases found with
  | some e =>
    obtain ⟨s₂, -, h₂⟩ := bind_ok h₁
    cases h₂
    exact absurd (by decide) hr
  | none =>
    obtain ⟨off, -, h₂⟩ := bind_ok h₁
    rw [← dirlookup_none hlookup]
    simp only at h₂
    split at h₂
    · cases h₂
      exact absurd (by decide) hr
    · cases h₂
      exact writei_inode hj

/-- A new inode that is no directory has the type that was asked for. -/
theorem createNew_type {type : InodeType} {major minor : BitVec 16} {dp : ℕ}
    {name : List UInt8} (htype : type ≠ .dir) (hmem : s.mem ip = none)
    (hdisk : (s.disk ip).type = type) (hne : ip ≠ dp)
    (h : s.createNew dv dp ip name type major minor = .ok (some j, s')) :
    (s'.inode j).type = type := by
  obtain ⟨s₁, hlock, h₁⟩ := bind_ok h
  have hinode : s.inode ip = s.disk ip := by rw [State.inode, hmem, Option.getD_none]
  obtain ⟨⟨ok, s₂⟩, hdots, h₂⟩ := bind_ok h₁
  rw [if_neg htype] at hdots
  cases hdots
  simp only [Bool.not_true] at h₂
  rw [if_neg (by decide)] at h₂
  obtain ⟨⟨r, s₃⟩, hlink, h₃⟩ := bind_ok h₂
  simp only at h₃
  split at h₃
  · -- `fail` returns no inode
    obtain ⟨s₄, -, h₄⟩ := bind_ok h₃
    obtain ⟨s₅, -, h₅⟩ := bind_ok h₄
    cases h₅
  next hr =>
  obtain ⟨s₄, hput, h₄⟩ := bind_ok h₃
  cases h₄
  rw [iunlockput_inode hput hne, dirlink_inode hlink hr hne, store_inode_self, inode_ilock hlock,
    hinode, hdisk]

/-- The inode that `ialloc` takes is free on the disk; its copy in memory is not valid, if
    nobody refers to it. -/
theorem ialloc_spec {type : InodeType} (h : s.ialloc type = .ok (some ip, s')) :
    (s.disk ip).type = .free ∧ (ip ≠ 0 ∧ ip < s.ninodes) ∧
      s'.disk = Function.update s.disk ip (.fresh type) ∧
      (ip ∉ s.refs → s'.mem = Function.update s.mem ip none) := by
  rw [State.ialloc] at h
  split at h
  · cases h
  next inum hfound =>
  obtain ⟨s₁, hget, h₁⟩ := bind_ok h
  cases h₁
  obtain ⟨hdisk, hmem⟩ := iget_mem hget
  have hfree := List.find?_some hfound
  have hrange := List.mem_range'_1.mp (List.mem_of_find?_eq_some hfound)
  exact ⟨by simpa using hfree, by omega, hdisk, fun hout => by rw [hmem, if_neg hout]⟩

/-- **`create` for `open`.** It returns a file or a device. -/
theorem create_file (hb : Settled dv b) {path : List UInt8}
    (h : b.create dv path .file 0 0 = .ok (some j, s')) :
    (s'.inode j).type = .file ∨ (s'.inode j).type = .device := by
  obtain ⟨⟨found, s₁⟩, hparent, h₁⟩ := bind_ok h
  rcases namex_resolves hb (Holding.refl b) (Calm.refl b) hparent with
    ⟨cur, last, rfl, hfound⟩ | ⟨rfl, -⟩
  swap
  · cases h₁
  obtain ⟨s₂, hlock, h₂⟩ := bind_ok h₁
  obtain ⟨⟨entry, s₃⟩, hlookup, h₃⟩ := bind_ok h₂
  cases entry with
  | some e =>
    obtain ⟨s₄, -, h₄⟩ := bind_ok h₃
    obtain ⟨s₅, hlock₅, h₅⟩ := bind_ok h₄
    split at h₅
    · next htakes =>
      cases h₅
      simpa [State.takes] using htakes
    · obtain ⟨s₆, -, h₆⟩ := bind_ok h₅
      cases h₆
  | none =>
    have hheld₂ := (hfound.carries.held.ilock hlock).2
    have hcalm₂ := hfound.carries.calm.ilock hlock
    rw [dirlookup_none hlookup] at h₃
    obtain ⟨⟨new, s₄⟩, halloc, h₄⟩ := bind_ok h₃
    cases new with
    | none =>
      obtain ⟨s₅, -, h₅⟩ := bind_ok h₄
      cases h₅
    | some ip =>
      obtain ⟨hfree, ⟨-, hlt⟩, hdisk, hmem⟩ := ialloc_spec halloc
      rcases hheld₂.ialloc halloc with ⟨hnone, -⟩ | ⟨ip', hsome, hheld₄⟩
      · cases hnone
      cases hsome
      -- the new inode cannot be its own directory, which is locked
      have hne : ip ≠ cur.1 := by
        obtain ⟨s₅, hlock₅, -⟩ := bind_ok h₄
        have := (hheld₄.ilock hlock₅).1
        simpa using this
      have hout : ip ∉ s₂.refs := by
        rw [hheld₂.refs, Multiset.mem_add, Multiset.mem_singleton]
        rintro (heq | huse)
        · exact hne heq
        · rw [hcalm₂.disk] at hfree
          rw [hheld₂.ninodes] at hlt
          exact hb.used ip huse hlt hfree
      have hnew : s₄.mem ip = none := by rw [hmem hout, Function.update_self]
      have htype : (s₄.disk ip).type = .file := by rw [hdisk, Function.update_self, Dinode.fresh]
      exact .inl (createNew_type (by decide) hnew htype hne h₄)

end Create

/-! ## `open` as a whole -/

section Open

variable {dv : DevDirs} {s s' : State} {stack : List UInt8} {path : Option (List UInt8)}
  {omode : BitVec 32} {r : ℤ}

/-- The buffer of `open` for paths, with its argument copied in. -/
def pathBuf (stack path : List UInt8) : List UInt8 := State.overwrite stack 0 (path ++ [0])

/-- The path of a call without `O_CREATE` and `O_NOFOLLOW` leads to `cur`, and the links from
    there on end so. -/
structure Follows (dv : DevDirs) (s : State) (stack : List UInt8) (path : Option (List UInt8))
    (omode : BitVec 32) (e : LinkEnd) : Prop where
  existing : creates omode = false
  following : nofollow omode = false
  path : ∃ p cur, path = some p ∧ s.resolve dv p = some cur ∧
    s.linkEnd dv MAXSYMLINKDEPTH cur (pathBuf stack p) = e

theorem Follows.unique {e e' : LinkEnd} (h : Follows dv s stack path omode e)
    (h' : Follows dv s stack path omode e') : e = e' := by
  obtain ⟨p, cur, rfl, hres, hend⟩ := h.path
  obtain ⟨p', cur', hp, hres', hend'⟩ := h'.path
  cases hp
  rw [hres] at hres'
  cases hres'
  rw [← hend, hend']

/-- What `open` opens: what `create` returns, what the path names, or what the links that it
    names lead to. -/
inductive Opens (dv : DevDirs) (s : State) (stack : List UInt8) (path : Option (List UInt8))
    (omode : BitVec 32) (d : Dinode) : Prop where
  | created (h : creates omode = true) (htype : d.type = .file ∨ d.type = .device)
  | named (hcreate : creates omode = false) (h : nofollow omode = true) (htype : d.type ≠ .dir)
  | linked (j : ℕ) (h : Follows dv s stack path omode (.reached (j, d)))

/-- The call took an argument that it could not copy, failed after it gave everything back,
    came to one link too many, or made a descriptor. -/
theorem sysOpen_cases (hs : Settled dv s) (h : s.sysOpen dv stack path omode = .ok (r, s')) :
    (r = -1 ∧ (s' = s ∨ Ended s.beginOp s') ∧ ¬ Follows dv s stack path omode .tooMany) ∨
    (r = -1 ∧ Follows dv s stack path omode .tooMany ∧ ∃ j, s'.refs = {j} + s.refs) ∨
    (∃ (fd f j : ℕ) (d : Dinode), r = fd ∧ Descriptor s.beginOp s' j d omode fd f ∧
      Opens dv s stack path omode d) := by
  have hb := hs.beginOp
  cases path with
  | none =>
    cases h
    refine .inl ⟨rfl, .inl rfl, fun hf => ?_⟩
    obtain ⟨p, cur, hnone, -⟩ := hf.path
    cases hnone
  | some p =>
  simp only [State.sysOpen] at h
  split at h
  · next hcreate =>
    have hno : ¬ Follows dv s stack (some p) omode .tooMany := fun hf => by
      rw [hf.existing] at hcreate
      cases hcreate
    obtain ⟨⟨found, s₁⟩, hfound, h₁⟩ := bind_ok h
    rcases (Holding.refl _).create hfound with ⟨rfl, hheld⟩ | ⟨j, rfl, -, hheld⟩
    · cases h₁
      exact .inl ⟨rfl, .inr hheld.ended, hno⟩
    · rcases openInode_cases hheld h₁ with ⟨rfl, -, hended⟩ | ⟨fd, f, rfl, hdesc⟩
      · exact .inl ⟨rfl, .inr hended, hno⟩
      · exact .inr (.inr ⟨fd, f, j, _, rfl, hdesc, .created hcreate (create_file hb hfound)⟩)
  next hcreate =>
  have hcreate : creates omode = false := by simpa using hcreate
  obtain ⟨⟨found, s₁⟩, hfound, h₁⟩ := bind_ok h
  rcases namei_resolves hb (Holding.refl _) (Calm.refl _) hfound with
    ⟨cur, hres, rfl, hc⟩ | ⟨hres, rfl, hheld, -⟩
  swap
  · cases h₁
    refine .inl ⟨rfl, .inr hheld.ended, fun hf => ?_⟩
    obtain ⟨p', cur, hp, hres', -⟩ := hf.path
    cases hp
    rw [State.resolve_beginOp, hres'] at hres
    cases hres
  obtain ⟨s₂, hlock, h₂⟩ := bind_ok h₁
  have ho := hc.opened hb hres hlock
  rw [State.resolve_beginOp] at hres
  rw [ho.inode] at h₂
  split at h₂
  · next hdir =>
    -- a directory that is not opened for reading only
    obtain ⟨s₃, hput, h₃⟩ := bind_ok h₂
    cases h₃
    have hheld : Holding s.beginOp 0 ∅ s₃ := ho.held.iunlockput (Finset.notMem_empty _) hput
    refine .inl ⟨rfl, .inr hheld.ended, fun hf => ?_⟩
    obtain ⟨p', cur', hp, hres', hend⟩ := hf.path
    cases hp
    rw [hres] at hres'
    cases hres'
    rw [MAXSYMLINKDEPTH, State.linkEnd, if_pos (by rw [hdir.1]; decide)] at hend
    cases hend
  next hdir =>
  split at h₂
  · next hnofollow =>
    have hno : ¬ Follows dv s stack (some p) omode .tooMany := fun hf => by
      rw [hf.following] at hnofollow
      cases hnofollow
    rcases openInode_cases ho.held h₂ with ⟨rfl, -, hended⟩ | ⟨fd, f, rfl, hdesc⟩
    · exact .inl ⟨rfl, .inr hended, hno⟩
    · refine .inr (.inr ⟨fd, f, cur.1, _, rfl, hdesc, .named hcreate hnofollow fun htype => ?_⟩)
      rw [ho.inode] at htype
      refine hdir ⟨htype, fun hzero => ?_⟩
      rw [hzero] at hnofollow
      cases hnofollow
  next hfollow =>
  have hfollow : nofollow omode = false := by simpa using hfollow
  have hfollows : ∀ e, s.linkEnd dv MAXSYMLINKDEPTH cur (pathBuf stack p) = e →
      Follows dv s stack (some p) omode e :=
    fun e he => ⟨hcreate, hfollow, p, cur, rfl, hres, he⟩
  obtain ⟨⟨last, s₃⟩, hlast, h₃⟩ := bind_ok h₂
  rcases follow_resolves hb ho hlast with
    ⟨cur', hend, rfl, ho'⟩ | ⟨hend, rfl, hheld⟩ | ⟨hend, rfl, j, hheld⟩
  · rw [State.linkEnd_beginOp] at hend
    have hf := hfollows _ hend
    rcases openInode_cases ho'.held h₃ with ⟨rfl, -, hended⟩ | ⟨fd, f, rfl, hdesc⟩
    · refine .inl ⟨rfl, .inr hended, fun htoo => ?_⟩
      cases hf.unique htoo
    · refine .inr (.inr ⟨fd, f, cur'.1, _, rfl, hdesc, .linked cur'.1 ?_⟩)
      rw [ho'.inode]
      exact hf
  · rw [State.linkEnd_beginOp] at hend
    cases h₃
    refine .inl ⟨rfl, .inr hheld.ended, fun htoo => ?_⟩
    cases (hfollows _ hend).unique htoo
  · rw [State.linkEnd_beginOp] at hend
    cases h₃
    exact .inr (.inl ⟨rfl, hfollows _ hend, j, hheld.refs⟩)

/-- The call has left no trace in the inode table, the file table, the locks and the log. -/
structure NoTrace (s s' : State) : Prop where
  refs : s'.refs = s.refs
  files : ∀ f, (s'.files f).ref = (s.files f).ref
  locked : s'.locked = s.locked
  outstanding : s'.outstanding = s.outstanding

/-- **A failing `open`.** It leaves no trace, unless it has come to one link too many: then
    a reference to the inode behind it stays. -/
theorem open_no_trace_iff (hs : Settled dv s)
    (h : s.sysOpen dv stack path omode = .ok (-1, s')) :
    NoTrace s s' ↔ ¬ Follows dv s stack path omode .tooMany := by
  rcases sysOpen_cases hs h with ⟨-, hended, hno⟩ | ⟨-, htoo, j, hrefs⟩ | ⟨fd, f, j, d, hfd, -⟩
  · refine ⟨fun _ => hno, fun _ => ?_⟩
    rcases hended with rfl | hended
    · exact ⟨rfl, fun _ => rfl, rfl, rfl⟩
    · exact ⟨hended.refs, fun f => by rw [hended.files]; rfl, hended.locked, hended.outstanding⟩
  · refine ⟨fun hnone => ?_, fun hno => absurd htoo hno⟩
    have hcard := congrArg Multiset.card (hrefs.symm.trans hnone.refs)
    rw [Multiset.card_add, Multiset.card_singleton] at hcard
    omega
  · omega

/-- A descriptor for a directory cannot be written to. -/
def DirReadonly (s : State) (fd : ℕ) : Prop :=
  ∀ f, s.ofile fd = some f → (s.files f).type = .inode →
    (s.inode (s.files f).ip).type = .dir → (s.files f).writable = false

/-- **Directories are opened for reading only.** Exactly then, when the call does not follow
    a link to a directory that is to be written to. -/
theorem dirs_readonly_iff (hs : Settled dv s) {fd : ℕ}
    (h : s.sysOpen dv stack path omode = .ok (fd, s')) :
    DirReadonly s' fd ↔ ¬ ((wronly omode || rdwr omode) = true ∧
      ∃ cur, cur.2.type = .dir ∧ Follows dv s stack path omode (.reached cur)) := by
  rcases sysOpen_cases hs h with ⟨hfd, -⟩ | ⟨hfd, -⟩ | ⟨fd', f, j, d, hfd, hdesc, hopens⟩
  · omega
  · omega
  have hfd : fd = fd' := by omega
  subst hfd
  have hofile : s'.ofile fd = some f := by rw [hdesc.ofile, Function.update_self]
  have hfile : s'.files f = (s.beginOp.files f).opened j d omode := by
    rw [hdesc.files, Function.update_self]
  have hiff : DirReadonly s' fd ↔
      (d.type = .dir → (wronly omode || rdwr omode) = false) := by
    have htype := hdesc.type
    refine ⟨fun hread hdir => ?_, fun hmode f' hf' _ hdir => ?_⟩
    · have := hread f hofile
      rw [hfile] at this
      refine this ?_ (htype.trans hdir)
      exact if_neg (by rw [hdir]; decide)
    · rw [hofile] at hf'
      cases hf'
      rw [hfile] at hdir ⊢
      exact hmode (htype.symm.trans hdir)
  rw [hiff]
  -- through `create`, without a link, or at the end of the links
  cases hopens with
  | created hcreate htype =>
    refine ⟨fun _ ⟨_, cur, _, hf⟩ => ?_, fun _ hdir => ?_⟩
    · rw [hf.existing] at hcreate
      cases hcreate
    · rw [hdir] at htype
      rcases htype with habs | habs <;> cases habs
  | named hcreate hnofollow htype =>
    refine ⟨fun _ ⟨_, cur, _, hf⟩ => ?_, fun _ hdir => absurd hdir htype⟩
    rw [hf.following] at hnofollow
    cases hnofollow
  | linked j' hf =>
    refine ⟨fun hmode ⟨hw, cur, hdir, hf'⟩ => ?_, fun hno hdir => ?_⟩
    · cases hf.unique hf'
      rw [hmode hdir] at hw
      cases hw
    · by_contra hw
      exact hno ⟨by simpa only [Bool.not_eq_false] using hw, (j', d), hdir, hf⟩

/-! ## An image with links -/

/-- What is seen of a call that returned. -/
theorem ok_of_seen {α β : Type} {x : Except Stop α} {f : α → β} {seen : β}
    (h : x.toOption.map f = some seen) : ∃ a, x = .ok a ∧ f a = seen := by
  cases x with
  | error e => cases h
  | ok a => exact ⟨a, rfl, Option.some.inj h⟩

/-- No device is a directory. -/
def noDevDirs : DevDirs := ⟨fun _ _ => false, fun _ => [], fun _ => false, 0⟩

/-- A directory `/d`, a link `/l` to it and a link `/a` to itself. -/
def imageDisk : ℕ → Dinode
  | 1 => ⟨.dir, 0, 0, 1, [⟨1, [46]⟩, ⟨1, [46, 46]⟩, ⟨2, [100]⟩, ⟨3, [108]⟩,
      ⟨4, [97]⟩].flatMap Dirent.encode⟩
  | 2 => ⟨.dir, 0, 0, 1, [⟨2, [46]⟩, ⟨1, [46, 46]⟩].flatMap Dirent.encode⟩
  | 3 => ⟨.symlink, 0, 0, 1, [47, 100]⟩
  | 4 => ⟨.symlink, 0, 0, 1, [47, 97]⟩
  | _ => .fresh .free

/-- A process in the root directory of this disk, without open files; one block is free. -/
def image : State where
  ninodes := 200
  disk := imageDisk
  refs := {1}
  mem := Function.update (fun _ => none) 1 (some (imageDisk 1))
  locked := ∅
  files := fun _ => ⟨0, .none, false, false, 0, 0, 0, fun _ => rfl⟩
  ofile := fun _ => none
  cwd := 1
  outstanding := 0
  balloc := [true]
  iblocks := []

theorem image_settled : Settled noDevDirs image :=
  ClosedImage.settled (I := {1, 2, 3, 4})
    ⟨fun _ _ => rfl, fun _ => rfl, by decide +kernel, by decide +kernel, by decide +kernel,
      by decide +kernel, by decide +kernel, by decide +kernel, by decide +kernel⟩

/-- The buffer of a call whose stack was never used. -/
def clearStack : List UInt8 := List.replicate MAXPATH 0

/-- The link to itself: the call fails, and the reference to it stays. -/
theorem open_loop_leaks : ∃ s', image.sysOpen noDevDirs clearStack (some [47, 97]) 0 =
    .ok (-1, s') ∧ ¬ NoTrace image s' := by
  have hrun : ((image.sysOpen noDevDirs clearStack (some [47, 97]) 0).toOption.map
      fun r => (r.1, r.2.refs)) = some (-1, {1, 4}) := by decide +kernel
  obtain ⟨⟨r, s'⟩, hopen, hr⟩ := ok_of_seen hrun
  simp only [Prod.mk.injEq] at hr
  obtain ⟨rfl, hrefs⟩ := hr
  refine ⟨s', hopen, fun hno => ?_⟩
  have hsame : ({1, 4} : Multiset ℕ) = {1} := hrefs.symm.trans hno.refs
  exact absurd hsame (by decide)

theorem open_no_trace_iff_loop : ∃ s', image.sysOpen noDevDirs clearStack (some [47, 97]) 0 =
    .ok (-1, s') ∧ (NoTrace image s' ↔
      ¬ Follows noDevDirs image clearStack (some [47, 97]) 0 .tooMany) := by
  have hrun : ((image.sysOpen noDevDirs clearStack (some [47, 97]) 0).toOption.map (·.1)) =
      some (-1) := by decide +kernel
  obtain ⟨⟨r, s'⟩, hopen, rfl⟩ := ok_of_seen hrun
  exact ⟨s', hopen, open_no_trace_iff image_settled hopen⟩

/-- The link to a directory: it is opened for reading and writing. -/
theorem open_dir_link_writable : ∃ s', image.sysOpen noDevDirs clearStack (some [47, 108]) 2 =
    .ok ((0 : ℕ), s') ∧ ¬ DirReadonly s' 0 := by
  have hrun : ((image.sysOpen noDevDirs clearStack (some [47, 108]) 2).toOption.map fun r =>
      (r.1, r.2.ofile 0, (r.2.files 0).type, (r.2.inode (r.2.files 0).ip).type,
        (r.2.files 0).writable)) = some (0, some 0, .inode, .dir, true) := by decide +kernel
  obtain ⟨⟨r, s'⟩, hopen, hr⟩ := ok_of_seen hrun
  simp only [Prod.mk.injEq] at hr
  obtain ⟨rfl, hofile, htype, hdir, hwritable⟩ := hr
  refine ⟨s', hopen, fun hread => ?_⟩
  have hfalse := hread 0 hofile htype hdir
  rw [hwritable] at hfalse
  cases hfalse

theorem dirs_readonly_iff_link : ∃ s', image.sysOpen noDevDirs clearStack (some [47, 108]) 2 =
    .ok ((0 : ℕ), s') ∧ (DirReadonly s' 0 ↔ ¬ ((wronly 2 || rdwr 2) = true ∧
      ∃ cur, cur.2.type = .dir ∧
        Follows noDevDirs image clearStack (some [47, 108]) 2 (.reached cur))) := by
  have hrun : ((image.sysOpen noDevDirs clearStack (some [47, 108]) 2).toOption.map (·.1)) =
      some ((0 : ℕ) : ℤ) := by decide +kernel
  obtain ⟨⟨r, s'⟩, hopen, rfl⟩ := ok_of_seen hrun
  exact ⟨s', hopen, dirs_readonly_iff image_settled hopen⟩

end Open

end Xv6.Kernel.Fs
