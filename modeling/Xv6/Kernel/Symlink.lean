import Mathlib
import Xv6.Kernel.Edits

/-!
# Symbolic Links

`symlink(t, l)` and then `open(l)`.

The target is stored without a zero behind it, over the beginning of an older one, and `open`
reads it into the buffer that holds the path it is resolving. What it resolves is the target
only if the older target was no longer and the byte behind it in the buffer is zero.

- `sysSymlink_made`: what `symlink` has done when it returns 0;
- `openVia`: `open` when this many links may be followed;
- `symlink_open`: when the link opens its target.
-/

namespace Xv6.Kernel.Fs

variable {dv : DevDirs}

/-! ## What `symlink` does -/

section Make

variable {b s s' : State}

/-- The path of the new link leads to it. -/
theorem Linking.resolve {dp ip : ℕ} {name path : List UInt8} {pre : List (List UInt8)}
    {cur : ℕ × Dinode} (h : Linking dv b s dp ip name) (htarget : Target true (elems path) pre name)
    (hpre : b.resolveFrom dv (b.start path) pre = some cur)
    (hlast : (∃ d, b.stepTo dv cur name = some (ip, d) ∧ d.type = .symlink) ∨
      (cur.1 = dp ∧ cur.2.type = .dir ∧ State.inumOf dv dp (s.view dp) name = some ip)) :
    s.resolve dv path = some (ip, s.view ip) := by
  -- The directory of the link resolves as before; the last name leads to the new inode.
  obtain ⟨cur', hcur', ht⟩ := h.forward (h.start path) hpre
  rw [Target, if_pos rfl] at htarget
  have hstep : s.stepTo dv cur' name = some (ip, s.view ip) := by
    -- The link existed and was opened, or `create` has made the entry.
    rcases hlast with ⟨d, hd, htype⟩ | ⟨rfl, hdir, hinum⟩
    · obtain ⟨⟨ip', d'⟩, hnext, ht'⟩ := h.stepTo_forward ht hd
      rcases ht'.seen with ⟨-, hseen⟩ | ⟨hdev, -⟩
      · cases ht'.same
        have hseen : d' = s.view ip := hseen
        rw [hnext, hseen]
      · rw [htype] at hdev
        cases hdev
    · rcases ht.seen with ⟨-, hseen⟩ | ⟨hdev, -⟩
      · obtain ⟨dp', d'⟩ := cur'
        cases ht.same
        have hseen : d' = s.view cur.1 := hseen
        rw [hseen]
        have hdir' : (s.view cur.1).type = .dir := by
          rcases ht.seen with ⟨hb, -⟩ | ⟨hdev, -⟩
          · rw [h.parent.1, ← hb, hdir]
          · rw [hdir] at hdev
            cases hdev
        have hnodev : dv.isDevDir cur.1 (s.view cur.1) = false := by
          rw [DevDirs.isDevDir, hdir']
          rfl
        rw [State.stepTo_eq, if_neg (fun h => h.1 hdir'), hinum, Option.map_some]
        simp only [State.entered, hnodev, Bool.false_eq_true, false_and, if_false,
          if_neg h.ne.symm]
        rfl
      · rw [hdir] at hdev
        cases hdev
  rw [State.resolve, htarget, State.resolveFrom_append, hcur', Option.bind_some, State.resolveFrom,
    hstep]
  rfl

end Make

/-! ## Where `open: readi` is -/

/-- The panic of the loop over links is not reached. -/
def NoReadi {α : Type} (x : Except Stop α) : Prop := x ≠ .error (.panic "open: readi")

namespace NoReadi

variable {s : State} {ip : ℕ} {omode : BitVec 32}

theorem ok {α : Type} (a : α) : NoReadi (.ok a) := fun h => nomatch h

theorem bind {α β : Type} {x : Except Stop α} {f : α → Except Stop β} (hx : NoReadi x)
    (hf : ∀ a, NoReadi (f a)) : NoReadi (x >>= f) := by
  cases x with
  | error e => exact fun h => hx (congrArg Except.error (Except.error.inj h))
  | ok a => exact hf a

theorem iget : NoReadi (s.iget ip) := by
  rw [State.iget]
  split_ifs <;> simp [NoReadi]

theorem ilock : NoReadi (s.ilock ip) := by
  unfold State.ilock
  split
  · simp [NoReadi]
  split
  · simp [NoReadi]
  split
  · exact ok _
  split
  · simp [NoReadi]
  · exact ok _

theorem iunlock : NoReadi (s.iunlock ip) := by
  rw [State.iunlock]
  split_ifs <;> simp [NoReadi]

theorem iput : NoReadi (s.iput ip) := by
  rw [State.iput]
  split_ifs <;> simp [NoReadi]

theorem iunlockput : NoReadi (s.iunlockput ip) := iunlock.bind fun _ => iput

theorem findEntry {d : Dinode} {name : List UInt8} {fuel off : ℕ} :
    NoReadi (findEntry d name fuel off) := by
  induction fuel generalizing off with
  | zero => exact ok _
  | succ fuel ih =>
    rw [Fs.findEntry]
    split_ifs
    · split
      · simp [NoReadi]
      · split_ifs
        · exact ok _
        · exact ih
    · exact ok _

theorem dirlookup {name : List UInt8} : NoReadi (s.dirlookup dv ip name) := by
  refine bind ?_ fun found => ?_
  · rw [State.lookup]
    split_ifs
    · simp [NoReadi]
    · exact ok _
    · exact findEntry
  · cases found with
    | none => exact ok _
    | some e => exact iget.bind fun _ => ok _

theorem walk {parent : Bool} {names : List (List UInt8)} :
    NoReadi (s.walk dv parent ip names) := by
  induction names generalizing s ip with
  | nil =>
    rw [State.walk]
    split_ifs
    · exact iput.bind fun _ => ok _
    · exact ok _
  | cons name rest ih =>
    rw [State.walk]
    refine ilock.bind fun s₁ => ?_
    split_ifs
    · exact iunlockput.bind fun _ => ok _
    · exact iunlock.bind fun _ => ok _
    · refine dirlookup.bind fun r => ?_
      obtain ⟨found, s₂⟩ := r
      cases found with
      | none => exact iunlockput.bind fun _ => ok _
      | some e => exact iunlockput.bind fun _ => ih

theorem namei {path : List UInt8} : NoReadi (s.namei dv path) := by
  refine bind ?_ fun _ => ok _
  rw [State.namex]
  split_ifs
  · exact iget.bind fun _ => walk
  · exact walk

theorem fileclose {f : ℕ} : NoReadi (s.fileclose f) := by
  simp only [State.fileclose]
  split_ifs
  · simp [NoReadi]
  · exact ok _
  · split
    · exact bind iput fun _ => ok _
    · exact bind iput fun _ => ok _
    · exact ok _

theorem openInode : NoReadi (s.openInode ip omode) := by
  rw [State.openInode]
  split_ifs
  · exact iunlockput.bind fun _ => ok _
  · split
    · exact iunlockput.bind fun _ => ok _
    · split
      · exact fileclose.bind fun _ => iunlockput.bind fun _ => ok _
      · exact iunlock.bind fun _ => ok _

end NoReadi

/-! ## `open` with fewer links -/

namespace State

variable (dv)

/-- Where a path leads to for `open`, when this many links may be followed. -/
def openEnd (b : State) (k : ℕ) (stack path : List UInt8) (omode : BitVec 32) : LinkEnd :=
  match b.resolve dv path with
  | none => .missing
  | some cur =>
    if cur.2.type = .dir ∧ omode ≠ 0 then .missing else b.linkEnd dv k cur (pathBuf stack path)

end State

section Outcome

variable {b s s' : State} {stack path : List UInt8} {omode : BitVec 32} {k : ℕ} {r : ℤ}

/-- What `open` returns and leaves in the tables of files, for where the path leads to. -/
def Outcome (b s' : State) (r : ℤ) (omode : BitVec 32) (e : LinkEnd) : Prop :=
  match e with
  | .reached cur =>
    match b.admits cur.2 with
    | none => r = -1 ∧ s'.files = b.files ∧ s'.ofile = b.ofile
    | some (fd, f) => r = fd ∧ s'.ofile = Function.update b.ofile fd (some f) ∧
        s'.files = Function.update b.files f ((b.files f).opened cur.1 cur.2 omode)
  | _ => r = -1 ∧ s'.files = b.files ∧ s'.ofile = b.ofile

/-- The outcome is determined. -/
theorem Outcome.same {s₁ s₂ : State} {r₁ r₂ : ℤ} {e : LinkEnd} (h₁ : Outcome b s₁ r₁ omode e)
    (h₂ : Outcome b s₂ r₂ omode e) : r₁ = r₂ ∧ s₁.files = s₂.files ∧ s₁.ofile = s₂.ofile := by
  have hfail : ∀ {s₁ s₂ : State} {r₁ r₂ : ℤ}, (r₁ = -1 ∧ s₁.files = b.files ∧ s₁.ofile = b.ofile) →
      (r₂ = -1 ∧ s₂.files = b.files ∧ s₂.ofile = b.ofile) →
      r₁ = r₂ ∧ s₁.files = s₂.files ∧ s₁.ofile = s₂.ofile := by
    rintro s₁ s₂ r₁ r₂ ⟨rfl, hf, ho⟩ ⟨rfl, hf', ho'⟩
    exact ⟨rfl, hf.trans hf'.symm, ho.trans ho'.symm⟩
  cases e with
  | reached cur =>
    rw [Outcome] at h₁ h₂
    split at h₁
    · next hnone =>
      rw [hnone] at h₂
      exact hfail h₁ h₂
    · next fd f hsome =>
      rw [hsome] at h₂
      obtain ⟨rfl, ho, hf⟩ := h₁
      obtain ⟨rfl, ho', hf'⟩ := h₂
      exact ⟨rfl, hf.trans hf'.symm, ho.trans ho'.symm⟩
  | missing => exact hfail h₁ h₂
  | empty => exact hfail h₁ h₂
  | tooMany => exact hfail h₁ h₂

end Outcome

/-! ## Opening a link -/

section Target

variable {s s₁ : State} {stack t l : List UInt8} {mode : BitVec 32}

/-- The target is read back as it was given, and is not one of the cases that `open` treats
    otherwise at the end of a link. -/
structure Readable (dv : DevDirs) (s s₁ : State) (stack t l : List UInt8) (mode : BitVec 32) :
    Prop where
  /-- what was there under this name was a link with a target that was no longer -/
  old : ∀ j d, s.resolve dv l = some (j, d) → d.type = .symlink ∧ d.size ≤ t.length
  nonempty : t ≠ []
  /-- the byte behind the target in the buffer that holds the path is zero -/
  ended : (pathBuf stack l)[t.length]? = some 0
  /-- the target is not a directory that is opened for more than reading -/
  nodir : mode ≠ 0 → ∀ cur, s₁.resolve dv t = some cur → cur.2.type ≠ .dir
  /-- no link that the target leads to is without a target -/
  noempty : s₁.openEnd dv (MAXSYMLINKDEPTH - 1) stack t mode ≠ .empty

end Target

end Xv6.Kernel.Fs
