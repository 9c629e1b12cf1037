import Mathlib
import Xv6.Kernel.FsRefs

/-!
# What a Path Names

The abstract meaning of a path: from the current directory or the root, one lookup for each
element, on the inodes as they are before the call and without a reference or a lock. What
`namei` does to the inode table on its way has no part in it.

- `State.resolve`: the inode that a path names, with what its holder will see;
- `Settled`: the states between system calls, in which everything a path names has a link
  or a reference;
- `namei_resolves`: in such a state `namei` finds the inode that the path names, and leaves
  the disk and everybody else's inodes as they were.
-/

namespace Xv6.Kernel.Fs

/-! ## Resolution -/

namespace State

variable (dv : DevDirs)

/-- What the holder of the lock of `inum` sees, once a lookup in `cur` has led there: a copy
    in memory that is in use, an inode that the device makes up, or the inode on the disk. -/
def entered (b : State) (cur : ℕ × Dinode) (inum : ℕ) : Dinode :=
  if inum = cur.1 then cur.2
  else if inum ∈ b.refs then b.inode inum
  else if dv.isDevDir cur.1 cur.2 ∧ dv.inodeRead cur.2.major then
    { b.disk inum with type := .device, major := dv.major, nlink := 1 }
  else b.disk inum

/-- One element of a path. -/
def stepTo (b : State) (cur : ℕ × Dinode) (name : List UInt8) : Option (ℕ × Dinode) :=
  if cur.2.type ≠ .dir ∧ dv.isDevDir cur.1 cur.2 = false then none
  else
    match lookup dv cur.1 cur.2 name with
    | .ok (some (inum, _)) => some (inum, b.entered dv cur inum)
    | _ => none

/-- The elements of a path one after the other. -/
def resolveFrom (b : State) (cur : ℕ × Dinode) : List (List UInt8) → Option (ℕ × Dinode)
  | [] => some cur
  | name :: names => (b.stepTo dv cur name).bind fun next => resolveFrom b next names

theorem resolveFrom_append (b : State) (cur : ℕ × Dinode) (names names' : List (List UInt8)) :
    b.resolveFrom dv cur (names ++ names') =
      (b.resolveFrom dv cur names).bind fun next => b.resolveFrom dv next names' := by
  induction names generalizing cur with
  | nil => rfl
  | cons name names ih =>
    rw [List.cons_append, resolveFrom, resolveFrom, Option.bind_assoc]
    exact congrArg _ (funext fun next => ih next)

/-- Where a path starts. -/
def start (b : State) (path : List UInt8) : ℕ × Dinode :=
  let ip := if path.head? = some slash then ROOTINO else b.cwd
  (ip, if ip ∈ b.refs then b.inode ip else b.disk ip)

/-- What a path names. -/
def resolve (b : State) (path : List UInt8) : Option (ℕ × Dinode) :=
  b.resolveFrom dv (b.start path) (elems path)

theorem resolveFrom_beginOp (b : State) (cur : ℕ × Dinode) (names : List (List UInt8)) :
    b.beginOp.resolveFrom dv cur names = b.resolveFrom dv cur names := by
  induction names generalizing cur with
  | nil => rfl
  | cons name names ih =>
    simp only [resolveFrom]
    exact congrArg _ (funext ih)

@[simp] theorem resolve_beginOp (b : State) (path : List UInt8) :
    b.beginOp.resolve dv path = b.resolve dv path :=
  resolveFrom_beginOp dv b (b.start path) (elems path)

end State

/-- The inode is not freed when a reference to it is given back. -/
def Linked (b : State) (cur : ℕ × Dinode) : Prop := cur.1 ∈ b.refs ∨ cur.2.nlink ≠ 0

/-- Between system calls: the numbers of inodes fit into entries, the current directory is
    referred to, an inode in use is not free on the disk, the inodes in use that a device
    directory names are valid, and whatever a path leads to has a link unless it is in use. -/
structure Settled (dv : DevDirs) (b : State) : Prop where
  numbers : b.ninodes ≤ 2 ^ 16
  cwd : b.cwd ∈ b.refs
  used : ∀ ip ∈ b.refs, ip < b.ninodes → (b.disk ip).type ≠ .free
  valid : ∀ ip ∈ b.refs, b.mem ip = none → ∀ dp, ∀ e ∈ dv.entries dp, e.inum ≠ ip
  linked : ∀ path names cur, b.resolveFrom dv (b.start path) names = some cur → Linked b cur

theorem Settled.beginOp {dv : DevDirs} {b : State} (hb : Settled dv b) : Settled dv b.beginOp where
  numbers := hb.numbers
  cwd := hb.cwd
  used := hb.used
  valid := hb.valid
  linked path names cur hres := hb.linked path names cur (by rwa [← State.resolveFrom_beginOp])

/-! ## Undisturbed states -/

/-- The disk is the same, and so are the inodes that were in use, but that some may have
    been read from the disk. -/
structure Calm (b s : State) : Prop where
  disk : s.disk = b.disk
  kept : ∀ j ∈ b.refs, s.mem j = b.mem j ∨ (b.mem j = none ∧ s.mem j = some (b.disk j))

namespace Calm

variable {b s s' : State} {ip : ℕ}

theorem refl (b : State) : Calm b b := ⟨rfl, fun _ _ => .inl rfl⟩

theorem of_eq (h : Calm b s) (hdisk : s'.disk = s.disk) (hmem : s'.mem = s.mem) : Calm b s' :=
  ⟨hdisk.trans h.disk, fun j hj => by rw [hmem]; exact h.kept j hj⟩

/-- An inode that was in use is seen as before. -/
theorem inode (h : Calm b s) (hip : ip ∈ b.refs) : s.inode ip = b.inode ip := by
  rw [State.inode, State.inode, h.disk]
  rcases h.kept ip hip with heq | ⟨hnone, hsome⟩
  · rw [heq]
  · rw [hnone, hsome]
    rfl

/-- Changes of the copy of an inode that was not in use are no matter. -/
theorem of_update (h : Calm b s) (hip : ip ∉ b.refs) {d : Option Dinode}
    (hdisk : s'.disk = s.disk) (hmem : s'.mem = Function.update s.mem ip d) : Calm b s' := by
  refine ⟨hdisk.trans h.disk, fun j hj => ?_⟩
  have hne : j ≠ ip := fun heq => hip (heq ▸ hj)
  rw [hmem, Function.update_of_ne hne]
  exact h.kept j hj

end Calm

/-! ## The inode table -/

section Table

variable {b s s' : State} {ip : ℕ} {R : Multiset ℕ} {L : Finset ℕ}

/-- `ilock` makes the copy in memory valid. -/
theorem ilock_mem (h : s.ilock ip = .ok s') :
    s'.disk = s.disk ∧ s'.mem = Function.update s.mem ip (some (s.inode ip)) := by
  rw [State.ilock] at h
  split at h
  · cases h
  split at h
  · cases h
  split at h
  · next d hd =>
    cases h
    refine ⟨rfl, (Function.update_eq_self_iff.mpr ?_).symm⟩
    rw [State.inode, hd, Option.getD_some]
  · next hnone =>
    split at h
    · cases h
    · cases h
      refine ⟨rfl, ?_⟩
      simp only [State.inode, hnone, Option.getD_none]

theorem inode_ilock (h : s.ilock ip = .ok s') (j : ℕ) : s'.inode j = s.inode j := by
  obtain ⟨hdisk, hmem⟩ := ilock_mem h
  rw [State.inode, hdisk, hmem]
  by_cases hj : j = ip
  · subst hj
    rw [Function.update_self, Option.getD_some]
  · rw [Function.update_of_ne hj]
    rfl

theorem Calm.ilock (hc : Calm b s) (h : s.ilock ip = .ok s') : Calm b s' := by
  obtain ⟨hdisk, hmem⟩ := ilock_mem h
  refine ⟨hdisk.trans hc.disk, fun j hj => ?_⟩
  by_cases hji : j = ip
  · subst hji
    rw [hmem, Function.update_self, State.inode, hc.disk]
    rcases hc.kept j hj with heq | ⟨hnone, hsome⟩
    · rw [heq]
      cases hb : b.mem j with
      | none => exact .inr ⟨rfl, rfl⟩
      | some d => exact .inl rfl
    · rw [hsome]
      exact .inr ⟨hnone, rfl⟩
  · rw [hmem, Function.update_of_ne hji]
    exact hc.kept j hj

/-- `iget` forgets a copy in memory that nobody refers to. -/
theorem iget_mem (h : s.iget ip = .ok s') :
    s'.disk = s.disk ∧ s'.mem = if ip ∈ s.refs then s.mem else Function.update s.mem ip none := by
  rw [State.iget] at h
  split at h
  · next hin =>
    cases h
    exact ⟨rfl, (if_pos hin).symm⟩
  next hout =>
  split at h
  · cases h
  · cases h
    exact ⟨rfl, (if_neg hout).symm⟩

theorem Calm.iget (hc : Calm b s) (hsub : b.refs ≤ s.refs) (h : s.iget ip = .ok s') :
    Calm b s' := by
  obtain ⟨hdisk, hmem⟩ := iget_mem h
  split at hmem
  · exact hc.of_eq hdisk hmem
  · next hout => exact hc.of_update (fun hin => hout (Multiset.mem_of_le hsub hin)) hdisk hmem

/-- The inode is not freed when one reference to it is given back. -/
def Stays (s : State) (ip : ℕ) : Prop :=
  1 < s.refs.count ip ∨ ∀ d, s.mem ip = some d → d.nlink ≠ 0

/-- A walk does not free what is linked. -/
theorem Linked.stays {cur : ℕ × Dinode} (hl : Linked b cur) (hrefs : {cur.1} + b.refs ≤ s.refs)
    (hseen : s.inode cur.1 = cur.2) : Stays s cur.1 := by
  rcases hl with hin | hne
  · have hpos := Multiset.count_pos.mpr hin
    have hle := Multiset.count_le_of_le cur.1 hrefs
    rw [Multiset.count_add, Multiset.count_singleton_self] at hle
    exact .inl (by omega)
  · refine .inr fun d hd => ?_
    rw [State.inode, hd, Option.getD_some] at hseen
    rwa [hseen]

/-- `iput` of an inode that has a link or another reference only drops the reference. -/
theorem iput_mem (h : s.iput ip = .ok s') (hstays : Stays s ip) :
    s'.disk = s.disk ∧ s'.mem = s.mem := by
  rw [State.iput, if_neg] at h
  · cases h
    exact ⟨rfl, rfl⟩
  · rintro ⟨hcount, hany⟩
    rcases hstays with hmore | hne
    · omega
    · cases hmem : s.mem ip with
      | none => simp [hmem] at hany
      | some d =>
        rw [hmem] at hany
        exact hne d hmem (by simpa using hany)

theorem iunlock_mem (h : s.iunlock ip = .ok s') :
    s'.disk = s.disk ∧ s'.mem = s.mem ∧ s'.refs = s.refs := by
  rw [State.iunlock] at h
  split at h
  · cases h
  · cases h
    exact ⟨rfl, rfl, rfl⟩

theorem iunlockput_mem (h : s.iunlockput ip = .ok s') (hstays : Stays s ip) :
    s'.disk = s.disk ∧ s'.mem = s.mem := by
  obtain ⟨s₁, h₁, h₂⟩ := bind_ok h
  obtain ⟨hdisk, hmem, hrefs⟩ := iunlock_mem h₁
  obtain ⟨hdisk', hmem'⟩ := iput_mem h₂ (by rw [Stays, hrefs, hmem]; exact hstays)
  exact ⟨hdisk'.trans hdisk, hmem'.trans hmem⟩

theorem Calm.iput (hc : Calm b s) (h : s.iput ip = .ok s') (hstays : Stays s ip) : Calm b s' :=
  hc.of_eq (iput_mem h hstays).1 (iput_mem h hstays).2

theorem Calm.iunlock (hc : Calm b s) (h : s.iunlock ip = .ok s') : Calm b s' :=
  hc.of_eq (iunlock_mem h).1 (iunlock_mem h).2.1

theorem Calm.iunlockput (hc : Calm b s) (h : s.iunlockput ip = .ok s') (hstays : Stays s ip) :
    Calm b s' :=
  hc.of_eq (iunlockput_mem h hstays).1 (iunlockput_mem h hstays).2

end Table

/-! ## Walking along a path -/

section Walk

variable {dv : DevDirs} {b s s' : State}

/-- A device directory finds only what it names. -/
theorem find_mem {dp inum off : ℕ} {name : List UInt8} (h : dv.find dp name = some (inum, off)) :
    ∃ e ∈ dv.entries dp, e.inum = inum := by
  obtain ⟨⟨e, i⟩, hfound, heq⟩ := Option.map_eq_some_iff.mp h
  cases heq
  have hmem := List.mem_of_find?_eq_some hfound
  exact ⟨e, (List.mem_zipIdx' hmem).2 ▸ List.getElem_mem _, rfl⟩

/-- A walk that has come to the inode `cur.1`, with one reference to it and nothing else. -/
structure Carries (b s : State) (cur : ℕ × Dinode) : Prop where
  held : Holding b {cur.1} ∅ s
  calm : Calm b s
  seen : s.inode cur.1 = cur.2

/-- What a lookup in the locked inode `cur.1` leaves: a second reference, and the view of the
    inode that it leads to. -/
theorem dirlookup_enters (hb : Settled dv b) {cur : ℕ × Dinode} {name : List UInt8}
    {r : Option (ℕ × ℕ)} (hheld : Holding b {cur.1} {cur.1} s) (hcalm : Calm b s)
    (hmem : s.mem cur.1 = some cur.2)
    (hdir : ¬ (cur.2.type ≠ .dir ∧ dv.isDevDir cur.1 cur.2 = false))
    (h : s.dirlookup dv cur.1 name = .ok (r, s')) :
    (r = none ∧ b.stepTo dv cur name = none ∧ s'.mem = s.mem ∧ Calm b s') ∨
    ∃ inum off, r = some (inum, off) ∧
      b.stepTo dv cur name = some (inum, b.entered dv cur inum) ∧ Calm b s' ∧
      s'.mem cur.1 = some cur.2 ∧ s'.inode inum = b.entered dv cur inum := by
  have hinode : s.inode cur.1 = cur.2 := by rw [State.inode, hmem, Option.getD_some]
  obtain ⟨found, hlookup, h₁⟩ := bind_ok h
  rw [hinode] at hlookup
  cases found with
  | none =>
    cases h₁
    exact .inl ⟨rfl, by rw [State.stepTo, if_neg hdir, hlookup], rfl, hcalm⟩
  | some e =>
    obtain ⟨inum, off⟩ := e
    obtain ⟨s₁, hget, h₂⟩ := bind_ok h₁
    cases h₂
    have hstep : b.stepTo dv cur name = some (inum, b.entered dv cur inum) := by
      rw [State.stepTo, if_neg hdir, hlookup]
    have hsub : b.refs ≤ s.refs := by
      rw [hheld.refs]
      exact Multiset.le_add_left _ _
    have hcalm₁ : Calm b s₁ := hcalm.iget hsub hget
    obtain ⟨hdisk₁, hmem₁⟩ := iget_mem hget
    have hcurin : cur.1 ∈ s.refs := by
      rw [hheld.refs]
      exact Multiset.mem_add.mpr (.inl (Multiset.mem_singleton_self _))
    have hcur₁ : s₁.mem cur.1 = some cur.2 := by
      rw [hmem₁]
      split
      · exact hmem
      · next hout =>
        have hne : cur.1 ≠ inum := fun heq => hout (by rw [← heq]; exact hcurin)
        rw [Function.update_of_ne hne, hmem]
    have hinode₁ : s₁.inode cur.1 = cur.2 := by rw [State.inode, hcur₁, Option.getD_some]
    refine .inr ⟨inum, off, rfl, hstep, ?_⟩
    -- the inode that is entered: the directory itself, one in use, or neither
    by_cases hsame : inum = cur.1
    · have hkeep : s₁.inodeRead dv cur.1 inum = s₁ := by
        rw [State.inodeRead, if_neg]
        rw [hsame, hcur₁]
        rintro ⟨⟨⟩, -⟩
      rw [hkeep, State.entered, if_pos hsame]
      exact ⟨hcalm₁, hcur₁, hsame ▸ hinode₁⟩
    by_cases huse : inum ∈ b.refs
    · have hkeep : s₁.inodeRead dv cur.1 inum = s₁ := by
        rw [State.inodeRead, if_neg]
        rintro ⟨hnone, hdev, -⟩
        rw [hinode₁] at hdev
        rw [State.lookup, if_neg hdir, if_pos hdev] at hlookup
        obtain ⟨e, he, hinum⟩ := find_mem (Except.ok.inj hlookup)
        have hbnone : b.mem inum = none := by
          rcases hcalm₁.kept inum huse with heq | ⟨-, hsome⟩
          · rw [← heq, hnone]
          · rw [hnone] at hsome
            cases hsome
        exact hb.valid inum huse hbnone cur.1 e he hinum
      rw [hkeep, State.entered, if_neg hsame, if_pos huse]
      exact ⟨hcalm₁, hcur₁, hcalm₁.inode huse⟩
    · have hout : inum ∉ s.refs := by
        rw [hheld.refs, Multiset.mem_add, Multiset.mem_singleton]
        exact fun hor => hor.elim hsame huse
      have hnone : s₁.mem inum = none := by
        rw [hmem₁, if_neg hout, Function.update_self]
      have hread : s₁.inode inum = b.disk inum := by
        rw [State.inode, hnone, hcalm₁.disk, Option.getD_none]
      rw [State.inodeRead, State.entered, if_neg hsame, if_neg huse, hinode₁, hread]
      by_cases hdev : dv.isDevDir cur.1 cur.2 ∧ dv.inodeRead cur.2.major
      · rw [if_pos ⟨hnone, hdev⟩, if_pos hdev]
        refine ⟨hcalm₁.of_update huse rfl rfl, ?_, ?_⟩
        · rw [State.setMem_mem, Function.update_of_ne (Ne.symm hsame), hcur₁]
        · exact State.inode_setMem_self ..
      · rw [if_neg (fun hand => hdev hand.2), if_neg hdev]
        exact ⟨hcalm₁, hcur₁, hread⟩

/-- What a walk is to find: what all the elements lead to, or for the parent what all but the
    last one lead to. -/
def Target (parent : Bool) (names pre : List (List UInt8)) (last : List UInt8) : Prop :=
  if parent then names = pre ++ [last] else names = pre ∧ last = []

theorem Target.cons {parent : Bool} {names pre : List (List UInt8)} {name last : List UInt8}
    (h : Target parent names pre last) : Target parent (name :: names) (name :: pre) last := by
  unfold Target at *
  split at h
  · rw [if_pos ‹_›, h]
    rfl
  · rw [if_neg ‹_›]
    exact ⟨by rw [h.1], h.2⟩

/-- The walk has found `cur'`, by way of `pre`, and holds a reference to it; the parent is
    a directory. -/
structure Found (dv : DevDirs) (b s : State) (parent : Bool) (cur : ℕ × Dinode)
    (names : List (List UInt8)) (cur' : ℕ × Dinode) (last : List UInt8) : Prop where
  carries : Carries b s cur'
  path : ∃ pre, Target parent names pre last ∧ b.resolveFrom dv cur pre = some cur'
  isdir : parent = true → cur'.2.type = .dir ∨ dv.isDevDir cur'.1 cur'.2 = true

/-- `namex` follows the elements to what they name. -/
theorem walk_resolves (hb : Settled dv b) {parent : Bool} {cur : ℕ × Dinode}
    {names : List (List UInt8)} {r : Option (ℕ × List UInt8)} (hc : Carries b s cur)
    (hlinked : ∀ names cur', b.resolveFrom dv cur names = some cur' → Linked b cur')
    (h : s.walk dv parent cur.1 names = .ok (r, s')) :
    (∃ cur' last, r = some (cur'.1, last) ∧ Found dv b s' parent cur names cur' last) ∨
    (r = none ∧ Holding b 0 ∅ s' ∧ Calm b s' ∧
      (parent = false → b.resolveFrom dv cur names = none)) := by
  induction names generalizing s cur with
  | nil =>
    rw [State.walk] at h
    split at h
    · next hparent =>
      -- no element: there is no parent
      obtain ⟨s₁, hput, h₁⟩ := bind_ok h
      cases h₁
      have hstays := (hlinked [] cur rfl).stays (le_of_eq hc.held.refs.symm) hc.seen
      exact .inr ⟨rfl, hc.held.iput hput, hc.calm.iput hput hstays,
        fun hfalse => by rw [hparent] at hfalse; cases hfalse⟩
    · next hparent =>
      cases h
      exact .inl ⟨cur, [], rfl, hc, ⟨[], by rw [Target, if_neg hparent]; exact ⟨rfl, rfl⟩, rfl⟩,
        fun htrue => absurd htrue hparent⟩
  | cons name rest ih =>
    rw [State.walk] at h
    obtain ⟨s₁, hlock, h₁⟩ := bind_ok h
    have hheld₁ : Holding b {cur.1} {cur.1} s₁ := (hc.held.ilock hlock).2
    have hcalm₁ := hc.calm.ilock hlock
    have hmem₁ : s₁.mem cur.1 = some cur.2 := by
      rw [(ilock_mem hlock).2, Function.update_self, hc.seen]
    have hinode₁ : s₁.inode cur.1 = cur.2 := by rw [inode_ilock hlock, hc.seen]
    have hcur : Linked b cur := hlinked [] cur rfl
    rw [hinode₁] at h₁
    split at h₁
    · next hnodir =>
      obtain ⟨s₂, hput, h₂⟩ := bind_ok h₁
      cases h₂
      refine .inr ⟨rfl, Holding.iunlockput hheld₁ (Finset.notMem_empty _) hput,
        hcalm₁.iunlockput hput (hcur.stays (le_of_eq hheld₁.refs.symm) hinode₁), fun _ => ?_⟩
      rw [State.resolveFrom, State.stepTo, if_pos hnodir, Option.bind_none]
    next hdir =>
    split at h₁
    · next hlast =>
      obtain ⟨s₂, hunlock, h₂⟩ := bind_ok h₁
      cases h₂
      obtain ⟨hdisk₂, hmem₂, -⟩ := iunlock_mem hunlock
      refine .inl ⟨cur, name, rfl, ⟨Holding.iunlock hheld₁ (Finset.notMem_empty _) hunlock,
        hcalm₁.iunlock hunlock, ?_⟩, ⟨[], ?_, rfl⟩, fun _ => ?_⟩
      · rw [State.inode, hmem₂, hmem₁, Option.getD_some]
      · rw [Target, if_pos hlast.1, hlast.2]
        rfl
      · rcases not_and_or.mp hdir with htype | hdev
        · exact .inl (not_not.mp htype)
        · exact .inr (by simpa using hdev)
    obtain ⟨⟨found, s₂⟩, hlookup, h₂⟩ := bind_ok h₁
    have hheld₂ := hheld₁.dirlookup hlookup
    rcases dirlookup_enters hb hheld₁ hcalm₁ hmem₁ hdir hlookup with
      ⟨rfl, hstep, hmem₂, hcalm₂⟩ | ⟨next, off, rfl, hstep, hcalm₂, hmem₂, hseen₂⟩
    · obtain ⟨s₃, hput, h₃⟩ := bind_ok h₂
      cases h₃
      rcases hheld₂ with ⟨-, hheld₂⟩ | ⟨j, n, hsome, -⟩
      · have hinode₂ : s₂.inode cur.1 = cur.2 := by rw [State.inode, hmem₂, hmem₁, Option.getD_some]
        exact .inr ⟨rfl, Holding.iunlockput hheld₂ (Finset.notMem_empty _) hput,
          hcalm₂.iunlockput hput (hcur.stays (le_of_eq hheld₂.refs.symm) hinode₂),
          fun _ => by rw [State.resolveFrom, hstep, Option.bind_none]⟩
      · cases hsome
    · obtain ⟨s₃, hput, h₃⟩ := bind_ok h₂
      rcases hheld₂ with ⟨hnone, -⟩ | ⟨j, n, hsome, hheld₂⟩
      · cases hnone
      cases hsome
      have hswap : Holding b (cur.1 ::ₘ {next}) (insert cur.1 ∅) s₂ := by
        have := hheld₂
        rwa [← Multiset.singleton_add, Multiset.add_comm, Multiset.singleton_add] at this
      have hstays : Stays s₂ cur.1 := by
        refine hcur.stays ?_ (by rw [State.inode, hmem₂, Option.getD_some])
        rw [hheld₂.refs, Multiset.cons_add]
        exact Multiset.le_cons_self _ _
      have hc₃ : Carries b s₃ (next, b.entered dv cur next) := by
        refine ⟨hswap.iunlockput (Finset.notMem_empty _) hput, hcalm₂.iunlockput hput hstays, ?_⟩
        obtain ⟨hdisk₃, hmem₃⟩ := iunlockput_mem hput hstays
        simp only [State.inode] at hseen₂ ⊢
        rw [hdisk₃, hmem₃, hseen₂]
      have hrec : ∀ names, b.resolveFrom dv cur (name :: names) =
          b.resolveFrom dv (next, b.entered dv cur next) names := fun names => by
        rw [State.resolveFrom, hstep, Option.bind_some]
      have hlinked' : ∀ names cur', b.resolveFrom dv (next, b.entered dv cur next) names =
          some cur' → Linked b cur' :=
        fun names cur' hres => hlinked (name :: names) cur' (by rw [hrec, hres])
      rcases ih hc₃ hlinked' h₃ with ⟨cur', last, hr, hfound⟩ | ⟨hr, hheld, hcalm, hnone⟩
      · obtain ⟨pre, htarget, hres⟩ := hfound.path
        exact .inl ⟨cur', last, hr, hfound.carries, ⟨name :: pre, htarget.cons, by rw [hrec, hres]⟩,
          hfound.isdir⟩
      · exact .inr ⟨hr, hheld, hcalm, fun hparent => by rw [hrec, hnone hparent]⟩

/-- `namex`, called while the disk and the inodes in use are as they were. -/
theorem namex_resolves (hb : Settled dv b) {parent : Bool} {path : List UInt8}
    {r : Option (ℕ × List UInt8)} (hheld : Holding b 0 ∅ s) (hcalm : Calm b s)
    (h : s.namex dv path parent = .ok (r, s')) :
    (∃ cur last, r = some (cur.1, last) ∧
      Found dv b s' parent (b.start path) (elems path) cur last) ∨
    (r = none ∧ Holding b 0 ∅ s' ∧ Calm b s' ∧
      (parent = false → b.resolve dv path = none)) := by
  rw [State.namex] at h
  have hrefs : s.refs = b.refs := by rw [hheld.refs, zero_add]
  obtain ⟨s₀, hc, hwalk⟩ : ∃ s₀, Carries b s₀ (b.start path) ∧
      s₀.walk dv parent (b.start path).1 (elems path) = .ok (r, s') := by
    -- the walk begins at the root or at the current directory, and holds a reference to it
    split at h
    · next habs =>
      obtain ⟨s₀, hget, hwalk⟩ := bind_ok h
      have hroot : (b.start path).1 = ROOTINO := if_pos habs
      have hcalm₀ := hcalm.iget (le_of_eq hrefs.symm) hget
      refine ⟨s₀, ⟨?_, hcalm₀, ?_⟩, by rwa [hroot]⟩
      · rw [hroot]
        exact hheld.iget hget
      · obtain ⟨hdisk₀, hmem₀⟩ := iget_mem hget
        simp only [State.start, if_pos habs]
        by_cases hin : ROOTINO ∈ b.refs
        · rw [if_pos hin, hcalm₀.inode hin]
        · rw [hrefs, if_neg hin] at hmem₀
          rw [if_neg hin, State.inode, hmem₀, Function.update_self, hcalm₀.disk, Option.getD_none]
    · next hrel =>
      have hcwd : (b.start path).1 = b.cwd := if_neg hrel
      refine ⟨s.idup s.cwd, ⟨?_, hcalm.of_eq rfl rfl, ?_⟩, ?_⟩
      · rw [hcwd, ← hheld.cwd]
        exact hheld.idup
      · simp only [State.start, if_neg hrel]
        rw [if_pos hb.cwd]
        exact (hcalm.of_eq rfl rfl).inode hb.cwd
      · rw [hcwd, ← hheld.cwd]
        exact h
  exact walk_resolves hb hc (hb.linked path) hwalk

/-- **Path resolution.** `namei`, called while the disk and the inodes in use are as they
    were, finds what the path names and changes nothing but the table's spare entries. -/
theorem namei_resolves (hb : Settled dv b) {path : List UInt8} {r : Option ℕ}
    (hheld : Holding b 0 ∅ s) (hcalm : Calm b s) (h : s.namei dv path = .ok (r, s')) :
    (∃ cur, b.resolve dv path = some cur ∧ r = some cur.1 ∧ Carries b s' cur) ∨
    (b.resolve dv path = none ∧ r = none ∧ Holding b 0 ∅ s' ∧ Calm b s') := by
  obtain ⟨⟨r₁, s₁⟩, hnamex, h₁⟩ := bind_ok h
  cases h₁
  rcases namex_resolves hb hheld hcalm hnamex with ⟨cur, last, rfl, hfound⟩ | ⟨rfl, hh, hcalm', hnone⟩
  · obtain ⟨pre, htarget, hres⟩ := hfound.path
    rw [Target, if_neg (by decide)] at htarget
    exact .inl ⟨cur, by rw [State.resolve, htarget.1, hres], rfl, hfound.carries⟩
  · exact .inr ⟨hnone rfl, rfl, hh, hcalm'⟩

end Walk

/-! ## Settled images -/

/-- What `dirlookup` finds in a directory on the disk is one of its entries. -/
theorem findEntry_found {d : Dinode} {name : List UInt8} {fuel off inum o : ℕ}
    (h : findEntry d name fuel off = .ok (some (inum, o))) :
    ∃ k < fuel, o = off + direntSize * k ∧
      ∃ de, direntAt d o = some de ∧ de.inum = inum ∧ inum ≠ 0 ∧ de.name = name := by
  induction fuel generalizing off with
  | zero => cases h
  | succ fuel ih =>
    rw [findEntry] at h
    split at h
    · split at h
      · cases h
      next de hde =>
      split at h
      · next hfound =>
        cases h
        exact ⟨0, Nat.succ_pos _, rfl, de, hde, rfl, hfound.1, hfound.2⟩
      · obtain ⟨k, hk, ho, hrest⟩ := ih h
        exact ⟨k + 1, Nat.succ_lt_succ hk, by rw [ho, Nat.mul_succ]; omega, hrest⟩
    · cases h

/-- Without device directories, the directories name only inodes of the finite set `I`; these
    have links, and the copies in memory are those on the disk. -/
structure ClosedImage (dv : DevDirs) (b : State) (I : Finset ℕ) : Prop where
  isdir : ∀ major ip, dv.isdir major ip = false
  entries : ∀ dp, dv.entries dp = []
  numbers : b.ninodes ≤ 2 ^ 16
  cwd : b.cwd ∈ b.refs
  used : ∀ ip ∈ b.refs, (b.disk ip).type ≠ .free
  same : ∀ ip ∈ b.refs, b.inode ip = b.disk ip
  start : {ROOTINO, b.cwd} ⊆ I
  closed : ∀ i ∈ I, ∀ k < turns (b.disk i), ∀ de ∈ direntAt (b.disk i) (direntSize * k),
    de.inum ≠ 0 → de.inum ∈ I
  linked : ∀ i ∈ I, (b.disk i).nlink ≠ 0

namespace ClosedImage

variable {dv : DevDirs} {b : State} {I : Finset ℕ}

theorem isDevDir (h : ClosedImage dv b I) (ip : ℕ) (d : Dinode) : dv.isDevDir ip d = false := by
  rw [DevDirs.isDevDir, h.isdir, Bool.and_false]

/-- One element of a path leads to an inode of the set, as it is on the disk. -/
theorem stepTo (h : ClosedImage dv b I) {ip : ℕ} {name : List UInt8} {next : ℕ × Dinode}
    (hip : ip ∈ I) (hnext : b.stepTo dv (ip, b.disk ip) name = some next) :
    next.1 ∈ I ∧ next.2 = b.disk next.1 := by
  rw [State.stepTo] at hnext
  split at hnext
  · cases hnext
  split at hnext
  · next inum off hlookup =>
    cases hnext
    rw [State.lookup] at hlookup
    split at hlookup
    · cases hlookup
    rw [h.isDevDir, if_neg Bool.false_ne_true] at hlookup
    obtain ⟨k, hk, ho, de, hde, rfl, hinum, -⟩ := findEntry_found hlookup
    rw [ho, zero_add] at hde
    refine ⟨h.closed ip hip k hk de hde hinum, ?_⟩
    simp only [State.entered, h.isDevDir, Bool.false_eq_true, false_and, if_false]
    split
    · next heq => rw [heq]
    split
    · next hin => exact h.same _ hin
    · rfl
  · cases hnext

theorem resolveFrom (h : ClosedImage dv b I) {names : List (List UInt8)} {ip : ℕ}
    {cur : ℕ × Dinode} (hip : ip ∈ I)
    (hres : b.resolveFrom dv (ip, b.disk ip) names = some cur) :
    cur.1 ∈ I ∧ cur.2 = b.disk cur.1 := by
  induction names generalizing ip with
  | nil =>
    cases hres
    exact ⟨hip, rfl⟩
  | cons name names ih =>
    obtain ⟨⟨next, d⟩, hnext, hrest⟩ := Option.bind_eq_some_iff.mp hres
    obtain ⟨hI, hd⟩ := h.stepTo hip hnext
    simp only at hI hd
    subst hd
    exact ih hI hrest

theorem start_eq (h : ClosedImage dv b I) (path : List UInt8) :
    ∃ ip ∈ I, b.start path = (ip, b.disk ip) := by
  refine ⟨(b.start path).1, h.start ?_, Prod.ext rfl ?_⟩
  · simp only [State.start]
    split
    · exact Finset.mem_insert_self _ _
    · exact Finset.mem_insert_of_mem (Finset.mem_singleton_self _)
  · change (if (b.start path).1 ∈ b.refs then _ else _) = _
    split
    · next hin => exact h.same _ hin
    · rfl

theorem settled (h : ClosedImage dv b I) : Settled dv b where
  numbers := h.numbers
  cwd := h.cwd
  used ip hip _ := h.used ip hip
  valid ip _ _ dp e he := by
    rw [h.entries] at he
    cases he
  linked path names cur hres := by
    obtain ⟨ip, hip, hstart⟩ := h.start_eq path
    rw [hstart] at hres
    obtain ⟨hI, hd⟩ := h.resolveFrom hip hres
    exact .inr (by rw [hd]; exact h.linked _ hI)

end ClosedImage

end Xv6.Kernel.Fs
