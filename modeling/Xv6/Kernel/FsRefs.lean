import Mathlib
import Xv6.Kernel.SysFile

/-!
# References and Locks

What each function of the file system holds when it returns, against a state in which its
caller held nothing: references to inodes as a bag, locks as a set. Every function that
returns has given back what it took, but for what it is said to return.

- `Holding`: the state holds this much more than the base state;
- one rule for each function, from `iget` to `create`.
-/

namespace Xv6.Kernel.Fs

/-- A computation that succeeds has succeeded in its first part. -/
theorem bind_ok {α β : Type} {x : Except Stop α} {f : α → Except Stop β} {b : β}
    (h : (x >>= f) = .ok b) : ∃ a, x = .ok a ∧ f a = .ok b := by
  cases x with
  | error e => cases h
  | ok a => exact ⟨a, rfl, h⟩

/-- Against the base state `b`, the references `R` and the locks `L` are held on top, and
    files, descriptors, the current directory and the log are the same. -/
structure Holding (b : State) (R : Multiset ℕ) (L : Finset ℕ) (s : State) : Prop where
  refs : s.refs = R + b.refs
  locked : s.locked = L ∪ b.locked
  apart : Disjoint L b.locked
  files : s.files = b.files
  ofile : s.ofile = b.ofile
  cwd : s.cwd = b.cwd
  outstanding : s.outstanding = b.outstanding
  ninodes : s.ninodes = b.ninodes

namespace Holding

variable {b s s' : State} {R : Multiset ℕ} {L : Finset ℕ} {ip : ℕ}

theorem refl (b : State) : Holding b 0 ∅ b :=
  ⟨(zero_add _).symm, (Finset.empty_union _).symm, Finset.disjoint_empty_left _, rfl, rfl, rfl, rfl,
    rfl⟩

/-- The disk, the copies in memory and the free blocks are no matter. -/
theorem of_eq (h : Holding b R L s) (hrefs : s'.refs = s.refs) (hlocked : s'.locked = s.locked)
    (hfiles : s'.files = s.files) (hofile : s'.ofile = s.ofile) (hcwd : s'.cwd = s.cwd)
    (hout : s'.outstanding = s.outstanding) (hninodes : s'.ninodes = s.ninodes) : Holding b R L s' :=
  ⟨hrefs ▸ h.refs, hlocked ▸ h.locked, h.apart, hfiles ▸ h.files, hofile ▸ h.ofile,
    hcwd ▸ h.cwd, hout ▸ h.outstanding, hninodes ▸ h.ninodes⟩

theorem setMem (h : Holding b R L s) (d : Option Dinode) : Holding b R L (s.setMem ip d) :=
  h.of_eq rfl rfl rfl rfl rfl rfl rfl

theorem store (h : Holding b R L s) (d : Dinode) : Holding b R L (s.store ip d) :=
  h.of_eq rfl rfl rfl rfl rfl rfl rfl

theorem inodeRead {dv : DevDirs} {dp : ℕ} (h : Holding b R L s) :
    Holding b R L (s.inodeRead dv dp ip) := by
  rw [State.inodeRead]
  split
  · exact h.setMem _
  · exact h

theorem iget (h : Holding b R L s) (hs : s.iget ip = .ok s') : Holding b (ip ::ₘ R) L s' := by
  have hrefs : ip ::ₘ s.refs = ip ::ₘ R + b.refs := by rw [h.refs, Multiset.cons_add]
  rw [State.iget] at hs
  split at hs
  · cases hs
    exact ⟨hrefs, h.locked, h.apart, h.files, h.ofile, h.cwd, h.outstanding, h.ninodes⟩
  split at hs
  · cases hs
  · cases hs
    exact ⟨hrefs, h.locked, h.apart, h.files, h.ofile, h.cwd, h.outstanding, h.ninodes⟩

theorem idup (h : Holding b R L s) : Holding b (ip ::ₘ R) L (s.idup ip) :=
  ⟨by rw [State.idup, h.refs, Multiset.cons_add], h.locked, h.apart, h.files, h.ofile, h.cwd,
    h.outstanding, h.ninodes⟩

/-- `ilock` takes a lock that nobody holds. -/
theorem ilock (h : Holding b R L s) (hs : s.ilock ip = .ok s') :
    ip ∉ L ∧ Holding b R (insert ip L) s' := by
  rw [State.ilock] at hs
  split at hs
  · cases hs
  split at hs
  · cases hs
  next hfree =>
  rw [h.locked, Finset.notMem_union] at hfree
  have hlocked : insert ip s.locked = insert ip L ∪ b.locked := by
    rw [h.locked, Finset.insert_union]
  have hapart : Disjoint (insert ip L) b.locked :=
    Finset.disjoint_insert_left.mpr ⟨hfree.2, h.apart⟩
  split at hs
  · cases hs
    exact ⟨hfree.1, h.refs, hlocked, hapart, h.files, h.ofile, h.cwd, h.outstanding, h.ninodes⟩
  split at hs
  · cases hs
  · cases hs
    exact ⟨hfree.1, h.refs, hlocked, hapart, h.files, h.ofile, h.cwd, h.outstanding, h.ninodes⟩

theorem iunlock (h : Holding b R (insert ip L) s) (hip : ip ∉ L) (hs : s.iunlock ip = .ok s') :
    Holding b R L s' := by
  rw [State.iunlock] at hs
  split at hs
  · cases hs
  cases hs
  have hbase : ip ∉ b.locked := (Finset.disjoint_insert_left.mp h.apart).1
  refine ⟨h.refs, ?_, (Finset.disjoint_insert_left.mp h.apart).2, h.files, h.ofile, h.cwd,
    h.outstanding, h.ninodes⟩
  simp only
  rw [h.locked, Finset.insert_union, Finset.erase_insert]
  exact Finset.notMem_union.mpr ⟨hip, hbase⟩

/-- `iput` gives a reference back, whether or not it frees the inode. -/
theorem iput (h : Holding b (ip ::ₘ R) L s) (hs : s.iput ip = .ok s') : Holding b R L s' := by
  have hrefs : s.refs.erase ip = R + b.refs := by
    rw [h.refs, Multiset.cons_add, Multiset.erase_cons_head]
  rw [State.iput] at hs
  split at hs
  · split at hs
    · cases hs
    · cases hs
      exact ⟨hrefs, h.locked, h.apart, h.files, h.ofile, h.cwd, h.outstanding, h.ninodes⟩
  · cases hs
    exact ⟨hrefs, h.locked, h.apart, h.files, h.ofile, h.cwd, h.outstanding, h.ninodes⟩

theorem iunlockput (h : Holding b (ip ::ₘ R) (insert ip L) s) (hip : ip ∉ L)
    (hs : s.iunlockput ip = .ok s') : Holding b R L s' := by
  obtain ⟨s₁, h₁, h₂⟩ := bind_ok hs
  exact (h.iunlock hip h₁).iput h₂

theorem ialloc {type : InodeType} {r : Option ℕ} (h : Holding b R L s)
    (hs : s.ialloc type = .ok (r, s')) :
    (r = none ∧ Holding b R L s') ∨ ∃ ip, r = some ip ∧ Holding b (ip ::ₘ R) L s' := by
  rw [State.ialloc] at hs
  split at hs
  · cases hs
    exact .inl ⟨rfl, h⟩
  · next inum _ =>
    obtain ⟨s₁, h₁, h₂⟩ := bind_ok hs
    cases h₂
    refine .inr ⟨inum, rfl, Holding.iget ?_ h₁⟩
    exact h.of_eq rfl rfl rfl rfl rfl rfl rfl

theorem writei {src : List UInt8} {off : ℕ} (h : Holding b R L s) :
    Holding b R L (s.writei ip src off).2 := by
  simp only [State.writei]
  split
  · exact h
  split
  · exact h
  · exact h.of_eq rfl rfl rfl rfl rfl rfl rfl

/-! ## Directories -/

section Directories

variable {dv : DevDirs} {name : List UInt8}

theorem dirlookup {dp : ℕ} {r : Option (ℕ × ℕ)} (h : Holding b R L s)
    (hs : s.dirlookup dv dp name = .ok (r, s')) :
    (r = none ∧ Holding b R L s') ∨ ∃ ip off, r = some (ip, off) ∧ Holding b (ip ::ₘ R) L s' := by
  obtain ⟨found, -, h₂⟩ := bind_ok hs
  cases found with
  | none =>
    cases h₂
    exact .inl ⟨rfl, h⟩
  | some e =>
    obtain ⟨s₁, hget, h₃⟩ := bind_ok h₂
    cases h₃
    exact .inr ⟨e.1, e.2, rfl, (h.iget hget).inodeRead⟩

theorem dirlink {dp inum : ℕ} {r : ℤ} (h : Holding b R L s)
    (hs : s.dirlink dv dp name inum = .ok (r, s')) : Holding b R L s' := by
  rw [State.dirlink] at hs
  split at hs
  · cases hs
    exact h
  obtain ⟨⟨found, s₁⟩, hlookup, h₂⟩ := bind_ok hs
  rcases h.dirlookup hlookup with ⟨rfl, h₁⟩ | ⟨ip, off, rfl, h₁⟩
  · obtain ⟨off, -, h₃⟩ := bind_ok h₂
    have hwrite : Holding b R L (s₁.writei dp (Dirent.encode ⟨inum, name⟩) off).2 := h₁.writei
    simp only at h₃
    split at h₃
    · cases h₃
      exact hwrite
    · cases h₃
      exact hwrite
  · obtain ⟨s₂, hput, h₃⟩ := bind_ok h₂
    cases h₃
    exact h₁.iput hput

/-- `namex` returns a reference to the inode that it returns, and nothing else. -/
theorem walk {parent : Bool} {names : List (List UInt8)} {r : Option (ℕ × List UInt8)}
    (h : Holding b (ip ::ₘ R) L s) (hs : s.walk dv parent ip names = .ok (r, s')) :
    (r = none ∧ Holding b R L s') ∨ ∃ j n, r = some (j, n) ∧ Holding b (j ::ₘ R) L s' := by
  -- induction on the elements; in each turn one reference is traded for the next
  induction names generalizing s ip with
  | nil =>
    rw [State.walk] at hs
    split at hs
    · obtain ⟨s₁, hput, h₁⟩ := bind_ok hs
      cases h₁
      exact .inl ⟨rfl, h.iput hput⟩
    · cases hs
      exact .inr ⟨ip, [], rfl, h⟩
  | cons name rest ih =>
    rw [State.walk] at hs
    obtain ⟨s₁, hlock, h₁⟩ := bind_ok hs
    obtain ⟨hip, hh₁⟩ := h.ilock hlock
    split at h₁
    · obtain ⟨s₂, hput, h₂⟩ := bind_ok h₁
      cases h₂
      exact .inl ⟨rfl, hh₁.iunlockput hip hput⟩
    split at h₁
    · obtain ⟨s₂, hunlock, h₂⟩ := bind_ok h₁
      cases h₂
      exact .inr ⟨ip, name, rfl, hh₁.iunlock hip hunlock⟩
    obtain ⟨⟨found, s₂⟩, hlookup, h₂⟩ := bind_ok h₁
    rcases hh₁.dirlookup hlookup with ⟨rfl, hh₂⟩ | ⟨next, off, rfl, hh₂⟩
    · obtain ⟨s₃, hput, h₃⟩ := bind_ok h₂
      cases h₃
      exact .inl ⟨rfl, hh₂.iunlockput hip hput⟩
    · obtain ⟨s₃, hput, h₃⟩ := bind_ok h₂
      rw [Multiset.cons_swap] at hh₂
      exact ih (hh₂.iunlockput hip hput) h₃

theorem namex {parent : Bool} {path : List UInt8} {r : Option (ℕ × List UInt8)}
    (h : Holding b R L s) (hs : s.namex dv path parent = .ok (r, s')) :
    (r = none ∧ Holding b R L s') ∨ ∃ j n, r = some (j, n) ∧ Holding b (j ::ₘ R) L s' := by
  rw [State.namex] at hs
  split at hs
  · obtain ⟨s₁, hget, h₁⟩ := bind_ok hs
    exact (h.iget hget).walk h₁
  · exact h.idup.walk hs

theorem namei {path : List UInt8} {r : Option ℕ} (h : Holding b R L s)
    (hs : s.namei dv path = .ok (r, s')) :
    (r = none ∧ Holding b R L s') ∨ ∃ j, r = some j ∧ Holding b (j ::ₘ R) L s' := by
  obtain ⟨⟨r₁, s₁⟩, hwalk, h₁⟩ := bind_ok hs
  cases h₁
  rcases h.namex hwalk with ⟨rfl, hh⟩ | ⟨j, n, rfl, hh⟩
  · exact .inl ⟨rfl, hh⟩
  · exact .inr ⟨j, rfl, hh⟩

end Directories

/-! ## Creating and opening -/

section Calls

variable {dv : DevDirs} {r : Option ℕ} {dp : ℕ} {name : List UInt8} {type : InodeType}
  {major minor : BitVec 16}

theorem createFail (h : Holding b (ip ::ₘ dp ::ₘ R) (insert ip (insert dp L)) s)
    (hip : ip ∉ insert dp L) (hdp : dp ∉ L) (hs : s.createFail dp ip = .ok (r, s')) :
    r = none ∧ Holding b R L s' := by
  obtain ⟨s₁, h₁, hs₁⟩ := bind_ok hs
  obtain ⟨s₂, h₂, hs₂⟩ := bind_ok hs₁
  cases hs₂
  exact ⟨rfl, ((h.store _).iunlockput hip h₁).iunlockput hdp h₂⟩

theorem linkDots {ok : Bool} (h : Holding b R L s)
    (hs : s.linkDots dv dp ip = .ok (ok, s')) : Holding b R L s' := by
  obtain ⟨⟨r₁, s₁⟩, h₁, hs₁⟩ := bind_ok hs
  simp only at hs₁
  split at hs₁
  · cases hs₁
    exact h.dirlink h₁
  · obtain ⟨⟨r₂, s₂⟩, h₂, hs₂⟩ := bind_ok hs₁
    cases hs₂
    exact (h.dirlink h₁).dirlink h₂

theorem createNew (h : Holding b (ip ::ₘ dp ::ₘ R) (insert dp L) s) (hdp : dp ∉ L)
    (hs : s.createNew dv dp ip name type major minor = .ok (r, s')) :
    (r = none ∧ Holding b R L s') ∨
      (r = some ip ∧ ip ∉ L ∧ Holding b (ip ::ₘ R) (insert ip L) s') := by
  obtain ⟨s₁, h₁, hs₁⟩ := bind_ok hs
  obtain ⟨hip, hh₁⟩ := h.ilock h₁
  have hip' : ip ≠ dp ∧ ip ∉ L := by simpa using hip
  -- the new inode is locked beside its directory, so the two are not the same
  obtain ⟨⟨ok, s₂⟩, h₂, hs₂⟩ := bind_ok hs₁
  have hh₂ : Holding b (ip ::ₘ dp ::ₘ R) (insert ip (insert dp L)) s₂ := by
    split at h₂
    · exact (hh₁.store _).linkDots h₂
    · cases h₂
      exact hh₁.store _
  simp only at hs₂
  split at hs₂
  · exact .inl (hh₂.createFail hip hdp hs₂)
  obtain ⟨⟨r₃, s₃⟩, h₃, hs₃⟩ := bind_ok hs₂
  have hh₃ := hh₂.dirlink h₃
  simp only at hs₃
  split at hs₃
  · exact .inl (hh₃.createFail hip hdp hs₃)
  obtain ⟨s₄, h₄, hs₄⟩ := bind_ok hs₃
  cases hs₄
  refine .inr ⟨rfl, hip'.2, ?_⟩
  rw [Multiset.cons_swap, Finset.insert_comm] at hh₃
  have hdp' : dp ∉ insert ip L := by simp [hip'.1.symm, hdp]
  refine Holding.iunlockput ?_ hdp' h₄
  split
  · exact hh₃.store _
  · exact hh₃

/-- `create` returns an inode locked, with a reference to it. -/
theorem create {path : List UInt8} (h : Holding b R L s)
    (hs : s.create dv path type major minor = .ok (r, s')) :
    (r = none ∧ Holding b R L s') ∨
      ∃ j, r = some j ∧ j ∉ L ∧ Holding b (j ::ₘ R) (insert j L) s' := by
  obtain ⟨⟨found, s₁⟩, h₁, hs₁⟩ := bind_ok hs
  -- the name is there already, there is no free inode, or a new one is linked
  rcases h.namex h₁ with ⟨rfl, hh₁⟩ | ⟨dp, name, rfl, hh₁⟩
  · cases hs₁
    exact .inl ⟨rfl, hh₁⟩
  obtain ⟨s₂, h₂, hs₂⟩ := bind_ok hs₁
  obtain ⟨hdp, hh₂⟩ := hh₁.ilock h₂
  obtain ⟨⟨entry, s₃⟩, h₃, hs₃⟩ := bind_ok hs₂
  rcases hh₂.dirlookup h₃ with ⟨rfl, hh₃⟩ | ⟨j, off, rfl, hh₃⟩
  · obtain ⟨⟨new, s₄⟩, h₄, hs₄⟩ := bind_ok hs₃
    rcases hh₃.ialloc h₄ with ⟨rfl, hh₄⟩ | ⟨j, rfl, hh₄⟩
    · obtain ⟨s₅, h₅, hs₅⟩ := bind_ok hs₄
      cases hs₅
      exact .inl ⟨rfl, hh₄.iunlockput hdp h₅⟩
    · rcases hh₄.createNew hdp hs₄ with hnone | ⟨hr, hj, hh₅⟩
      · exact .inl hnone
      · exact .inr ⟨j, hr, hj, hh₅⟩
  · obtain ⟨s₄, h₄, hs₄⟩ := bind_ok hs₃
    rw [Multiset.cons_swap] at hh₃
    have hh₄ := hh₃.iunlockput hdp h₄
    obtain ⟨s₅, h₅, hs₅⟩ := bind_ok hs₄
    obtain ⟨hj, hh₅⟩ := hh₄.ilock h₅
    split at hs₅
    · cases hs₅
      exact .inr ⟨j, rfl, hj, hh₅⟩
    · obtain ⟨s₆, h₆, hs₆⟩ := bind_ok hs₅
      cases hs₆
      exact .inl ⟨rfl, hh₅.iunlockput hj h₆⟩

/-- One turn of `open`'s loop exchanges the link for what its target names. -/
theorem readLink {buf buf' : List UInt8} (h : Holding b (ip ::ₘ R) (insert ip L) s)
    (hip : ip ∉ L) (hs : s.readLink dv ip buf = .ok (r, buf', s')) :
    (r = none ∧ Holding b R L s') ∨ ∃ j, r = some j ∧ Holding b (j ::ₘ R) L s' := by
  simp only [State.readLink] at hs
  split at hs
  · cases hs
  obtain ⟨s₁, h₁, hs₁⟩ := bind_ok hs
  obtain ⟨⟨r₂, s₂⟩, h₂, hs₂⟩ := bind_ok hs₁
  cases hs₂
  exact (h.iunlockput hip h₁).namei h₂

/-- A file that was allocated and closed again is as it was. -/
theorem fileclose_filealloc {f : ℕ} {s₁ s₂ : State} (h₁ : s.filealloc = some (f, s₁))
    (hof : s₂.files = s₁.files) (hs : s₂.fileclose f = .ok s') :
    s'.files = s.files ∧ s'.refs = s₂.refs ∧ s'.locked = s₂.locked ∧ s'.ofile = s₂.ofile ∧
      s'.cwd = s₂.cwd ∧ s'.outstanding = s₂.outstanding ∧ s'.ninodes = s₂.ninodes := by
  obtain ⟨f', hfree, heq⟩ := Option.map_eq_some_iff.mp h₁
  cases heq
  have hfree : (s.files f).ref = 0 := by simpa using List.find?_some hfree
  have hfile : s₂.files f = { s.files f with
      ref := 1, idle := fun h => absurd h Nat.one_ne_zero } := by
    rw [hof]
    exact Function.update_self ..
  have hidle := (s.files f).idle hfree
  simp only [State.fileclose, hfile, hidle] at hs
  rw [if_neg (by decide), dif_neg (by decide)] at hs
  cases hs
  refine ⟨?_, rfl, rfl, rfl, rfl, rfl, rfl⟩
  funext g
  simp only [State.putFile, hof]
  by_cases hg : g = f
  · subst hg
    rw [Function.update_self]
    -- it had no references and no type before
    cases hsf : s.files g with
    | mk ref type readable writable ip off major idle =>
      rw [hsf] at hfree hidle
      simp only at hfree hidle
      subst hfree hidle
      rfl
  · rw [Function.update_of_ne hg, Function.update_of_ne hg]

end Calls

end Holding

end Xv6.Kernel.Fs
