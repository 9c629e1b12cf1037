import Mathlib
import Xv6.Kernel.Dirents
import Xv6.Kernel.PathView

/-!
# Paths Before and After a New Link

What paths name in two states of which the second has one symbolic link more, or another
target in one that was there: a simulation in both directions.

- `State.view`: an inode as whoever locks it will see it;
- `Twin`: the same place of a walk in both states;
- `Linking`: the states before and after; `Linking.forward` and `Linking.backward`.
-/

namespace Xv6.Kernel.Fs

namespace State

/-- An inode as whoever locks it will see it: the copy in memory when it is in use. -/
def view (b : State) (ip : ℕ) : Dinode := if ip ∈ b.refs then b.inode ip else b.disk ip

/-- The number of the inode that a lookup leads to. -/
def inumOf (dv : DevDirs) (ip : ℕ) (d : Dinode) (name : List UInt8) : Option ℕ :=
  match lookup dv ip d name with
  | .ok (some (inum, _)) => some inum
  | _ => none

theorem stepTo_eq (dv : DevDirs) (b : State) (cur : ℕ × Dinode) (name : List UInt8) :
    b.stepTo dv cur name = if cur.2.type ≠ .dir ∧ dv.isDevDir cur.1 cur.2 = false then none
      else (inumOf dv cur.1 cur.2 name).map fun inum => (inum, b.entered dv cur inum) := by
  rw [stepTo, inumOf]
  split
  · rfl
  · cases lookup dv cur.1 cur.2 name with
    | error e => rfl
    | ok found => cases found <;> rfl

theorem start_eq_view (b : State) (path : List UInt8) :
    b.start path = ((b.start path).1, b.view (b.start path).1) := rfl

end State

/-- Nothing is looked up in an inode that is no directory. -/
theorem stepTo_none {dv : DevDirs} {b : State} {cur : ℕ × Dinode} (hdir : cur.2.type ≠ .dir)
    (hdev : cur.2.type ≠ .device) (name : List UInt8) : b.stepTo dv cur name = none := by
  rw [State.stepTo, if_pos]
  refine ⟨hdir, ?_⟩
  simp [DevDirs.isDevDir, hdev]

/-- Lookups in a device directory depend on its number only. -/
theorem inumOf_device {dv : DevDirs} {ip : ℕ} {d d' : Dinode} (h : d.type = .device)
    (htype : d'.type = d.type) (hmajor : d'.major = d.major) (name : List UInt8) :
    State.inumOf dv ip d' name = State.inumOf dv ip d name := by
  have hdev : dv.isDevDir ip d' = dv.isDevDir ip d := by
    rw [DevDirs.isDevDir, DevDirs.isDevDir, htype, hmajor]
  simp only [State.inumOf, State.lookup, htype, hdev]
  rw [h]
  cases dv.isDevDir ip d <;> rfl

/-- A walk before and after a change is at the same inode, and sees it as it is in each of
    the states, or as a device makes it up. -/
structure Twin (b s : State) (cur cur' : ℕ × Dinode) : Prop where
  same : cur'.1 = cur.1
  seen : (cur.2 = b.view cur.1 ∧ cur'.2 = s.view cur.1) ∨
    (cur.2.type = .device ∧ cur'.2.type = .device ∧ cur'.2.major = cur.2.major ∧
      cur.2.nlink = 1 ∧ cur'.2.nlink = 1)

/-- From `b` to `s` there is a symbolic link `ip` under `name` in the directory `dp`, that was
    free or a link before. -/
structure Linking (dv : DevDirs) (b s : State) (dp ip : ℕ) (name : List UInt8) : Prop where
  refs : s.refs = b.refs
  cwd : s.cwd = b.cwd
  before : (b.view ip).type = .symlink ∨ (b.view ip).type = .free
  after : (s.view ip).type = .symlink
  linked : ip ∈ s.refs ∨ (s.view ip).nlink ≠ 0
  ne : dp ≠ ip
  other : ∀ j, j ≠ ip → j ≠ dp → s.view j = b.view j
  parent : (s.view dp).type = (b.view dp).type ∧ (s.view dp).major = (b.view dp).major ∧
    (s.view dp).nlink = (b.view dp).nlink
  names : (b.view dp).type = .dir → ∀ name',
    State.inumOf dv dp (s.view dp) name' = State.inumOf dv dp (b.view dp) name' ∨
      (name' = name ∧ State.inumOf dv dp (b.view dp) name' = none ∧
        State.inumOf dv dp (s.view dp) name' = some ip)

namespace Linking

variable {dv : DevDirs} {b s : State} {dp ip : ℕ} {name : List UInt8}

/-- A free inode or a link is no directory. -/
theorem before_leaf (h : Linking dv b s dp ip name) :
    (b.view ip).type ≠ .dir ∧ (b.view ip).type ≠ .device := by
  rcases h.before with heq | heq <;> rw [heq] <;> decide

/-- Whether a lookup is made at all is the same at twins. -/
theorem isDevDir_twin (h : Linking dv b s dp ip name) {cur cur' : ℕ × Dinode}
    (ht : Twin b s cur cur') (hne : cur.2 = b.view ip → cur.1 ≠ ip) :
    cur'.2.type = cur.2.type ∧ cur'.2.major = cur.2.major := by
  rcases ht.seen with ⟨hb, hs⟩ | ⟨hb, hs, hmajor, -, -⟩
  · by_cases hip : cur.1 = ip
    · exact absurd hip (hne (hip ▸ hb))
    by_cases hdp : cur.1 = dp
    · rw [hb, hs, hdp]
      exact ⟨h.parent.1, h.parent.2.1⟩
    · rw [hb, hs, h.other _ hip hdp]
      exact ⟨rfl, rfl⟩
  · exact ⟨hs.trans hb.symm, hmajor⟩

/-- A lookup of the same number leads to twins again. -/
theorem entered (h : Linking dv b s dp ip name) {cur cur' : ℕ × Dinode} (ht : Twin b s cur cur')
    (hsame : cur'.2.type = cur.2.type ∧ cur'.2.major = cur.2.major) (inum : ℕ) :
    Twin b s (inum, b.entered dv cur inum) (inum, s.entered dv cur' inum) := by
  have hdev : dv.isDevDir cur.1 cur'.2 = dv.isDevDir cur.1 cur.2 := by
    rw [DevDirs.isDevDir, DevDirs.isDevDir, hsame.1, hsame.2]
  refine ⟨rfl, ?_⟩
  simp only [State.entered, ht.same, hdev, hsame.2, h.refs]
  split
  · next heq =>
    rw [heq]
    exact ht.seen
  split
  · next hin =>
    refine .inl ⟨(if_pos hin).symm, (if_pos ?_).symm⟩
    rw [h.refs]
    exact hin
  next hout =>
  split
  · exact .inr ⟨rfl, rfl, rfl, rfl, rfl⟩
  · refine .inl ⟨(if_neg hout).symm, (if_neg ?_).symm⟩
    rw [h.refs]
    exact hout

/-- What is found at twins: the same, but for the new name. -/
theorem inumOf_twin (h : Linking dv b s dp ip name) {cur cur' : ℕ × Dinode}
    (ht : Twin b s cur cur') (hne : cur.2 = b.view ip → cur.1 ≠ ip) (name' : List UInt8) :
    State.inumOf dv cur'.1 cur'.2 name' = State.inumOf dv cur.1 cur.2 name' ∨
      (cur = (dp, b.view dp) ∧ cur' = (dp, s.view dp) ∧ (b.view dp).type = .dir ∧
        State.inumOf dv dp (b.view dp) name' = none ∧
        State.inumOf dv dp (s.view dp) name' = some ip) := by
  obtain ⟨htype, hmajor⟩ := h.isDevDir_twin ht hne
  rw [ht.same]
  by_cases hdevice : cur.2.type = .device
  · exact .inl (inumOf_device hdevice htype hmajor name')
  rcases ht.seen with ⟨hb, hs⟩ | ⟨hb, -⟩
  swap
  · exact absurd hb hdevice
  have hip : cur.1 ≠ ip := fun hip => hne (hip ▸ hb) hip
  by_cases hdp : cur.1 = dp
  · by_cases hdir : (b.view dp).type = .dir
    · rcases h.names hdir name' with heq | ⟨-, hnone, hsome⟩
      · rw [hb, hs, hdp, heq]
        exact .inl rfl
      · exact .inr ⟨Prod.ext hdp (by rw [hb, hdp]), Prod.ext (ht.same.trans hdp) (by rw [hs, hdp]),
          hdir, hnone, hsome⟩
    · -- what is neither a directory nor a device has no lookups
      have hdevice' : (b.view dp).type ≠ .device := by
        rw [← hdp, ← hb]
        exact hdevice
      rw [hb, hs, hdp]
      have hnone : ∀ d : Dinode, d.type ≠ .dir → d.type ≠ .device →
          State.inumOf dv dp d name' = none := fun d hd hd' => by
        simp [State.inumOf, State.lookup, DevDirs.isDevDir, hd, hd']
      rw [hnone _ hdir hdevice', hnone _ (by rw [h.parent.1]; exact hdir)
        (by rw [h.parent.1]; exact hdevice')]
      exact .inl rfl
  · rw [hb, hs, h.other _ hip hdp]
    exact .inl rfl

/-- One element that leads somewhere before the change leads to the same inode after it. -/
theorem stepTo_forward (h : Linking dv b s dp ip name) {cur cur' next : ℕ × Dinode}
    {name' : List UInt8} (ht : Twin b s cur cur') (hnext : b.stepTo dv cur name' = some next) :
    ∃ next', s.stepTo dv cur' name' = some next' ∧ Twin b s next next' := by
  have hne : cur.2 = b.view ip → cur.1 ≠ ip := fun heq => by
    rw [stepTo_none (by rw [heq]; exact h.before_leaf.1) (by rw [heq]; exact h.before_leaf.2)]
      at hnext
    cases hnext
  obtain ⟨htype, hmajor⟩ := h.isDevDir_twin ht hne
  have hdev : dv.isDevDir cur'.1 cur'.2 = dv.isDevDir cur.1 cur.2 := by
    rw [DevDirs.isDevDir, DevDirs.isDevDir, ht.same, htype, hmajor]
  rw [State.stepTo_eq] at hnext ⊢
  rw [htype, hdev]
  split at hnext
  · cases hnext
  next hdir =>
  rw [if_neg hdir]
  obtain ⟨inum, hinum, rfl⟩ := Option.map_eq_some_iff.mp hnext
  refine ⟨(inum, s.entered dv cur' inum), ?_, h.entered ht ⟨htype, hmajor⟩ inum⟩
  rcases h.inumOf_twin ht hne name' with heq | ⟨rfl, -, -, hnone, -⟩
  · rw [heq, hinum]
    rfl
  · rw [hnone] at hinum
    cases hinum

theorem forward (h : Linking dv b s dp ip name) {cur cur' last : ℕ × Dinode}
    {names : List (List UInt8)} (ht : Twin b s cur cur')
    (hres : b.resolveFrom dv cur names = some last) :
    ∃ last', s.resolveFrom dv cur' names = some last' ∧ Twin b s last last' := by
  induction names generalizing cur cur' with
  | nil =>
    cases hres
    exact ⟨cur', rfl, ht⟩
  | cons n names ih =>
    obtain ⟨next, hnext, hrest⟩ := Option.bind_eq_some_iff.mp hres
    obtain ⟨next', hnext', ht'⟩ := h.stepTo_forward ht hnext
    obtain ⟨last', hlast, htl⟩ := ih ht' hrest
    exact ⟨last', by rw [State.resolveFrom, hnext', Option.bind_some, hlast], htl⟩

/-- One element after the change leads where it led before, or to the link. -/
theorem stepTo_backward (h : Linking dv b s dp ip name) {cur cur' next' : ℕ × Dinode}
    {name' : List UInt8} (ht : Twin b s cur cur') (hnext : s.stepTo dv cur' name' = some next') :
    (∃ next, b.stepTo dv cur name' = some next ∧ Twin b s next next') ∨
      next' = (ip, s.view ip) := by
  -- the link itself is no directory, so the walk has not come through it
  have hleaf : cur'.2 ≠ s.view ip := fun heq => by
    rw [stepTo_none (by rw [heq, h.after]; decide) (by rw [heq, h.after]; decide)] at hnext
    cases hnext
  have hne : cur.2 = b.view ip → cur.1 ≠ ip := fun heq hip => by
    rcases ht.seen with ⟨-, hs⟩ | ⟨hb, -⟩
    · exact hleaf (by rw [hs, hip])
    · exact h.before_leaf.2 (heq ▸ hb)
  obtain ⟨htype, hmajor⟩ := h.isDevDir_twin ht hne
  have hdev : dv.isDevDir cur'.1 cur'.2 = dv.isDevDir cur.1 cur.2 := by
    rw [DevDirs.isDevDir, DevDirs.isDevDir, ht.same, htype, hmajor]
  rw [State.stepTo_eq] at hnext ⊢
  rw [htype, hdev] at hnext
  split at hnext
  · cases hnext
  next hdir =>
  rw [if_neg hdir]
  obtain ⟨inum, hinum, rfl⟩ := Option.map_eq_some_iff.mp hnext
  -- only a lookup of the new name in its directory is answered differently
  rcases h.inumOf_twin ht hne name' with heq | ⟨rfl, rfl, hdirp, -, hsome⟩
  · rw [heq] at hinum
    exact .inl ⟨(inum, b.entered dv cur inum), by rw [hinum]; rfl,
      h.entered ht ⟨htype, hmajor⟩ inum⟩
  · rw [hsome] at hinum
    cases hinum
    refine .inr (Prod.ext rfl ?_)
    have hnodev : dv.isDevDir dp (s.view dp) = false := by
      rw [DevDirs.isDevDir, h.parent.1, hdirp]
      rfl
    simp only [State.entered, hnodev, Bool.false_eq_true, false_and, if_false, if_neg h.ne.symm]
    rfl

theorem backward (h : Linking dv b s dp ip name) {cur cur' last' : ℕ × Dinode}
    {names : List (List UInt8)} (ht : Twin b s cur cur')
    (hres : s.resolveFrom dv cur' names = some last') :
    (∃ names' last, b.resolveFrom dv cur names' = some last ∧ Twin b s last last') ∨
      last' = (ip, s.view ip) := by
  induction names generalizing cur cur' with
  | nil =>
    cases hres
    exact .inl ⟨[], cur, rfl, ht⟩
  | cons n names ih =>
    obtain ⟨next', hnext', hrest⟩ := Option.bind_eq_some_iff.mp hres
    rcases h.stepTo_backward ht hnext' with ⟨next, hnext, ht'⟩ | rfl
    · rcases ih ht' hrest with ⟨names', last, hres', htl⟩ | hip
      · exact .inl ⟨n :: names', last, by rw [State.resolveFrom, hnext, Option.bind_some, hres'],
          htl⟩
      · exact .inr hip
    · -- a link is the last inode of a walk
      cases names with
      | nil =>
        cases hrest
        exact .inr rfl
      | cons n' names =>
        have hnone : s.stepTo dv (ip, s.view ip) n' = none :=
          stepTo_none (by rw [h.after]; decide) (by rw [h.after]; decide) n'
        rw [State.resolveFrom, hnone] at hrest
        cases hrest

theorem start (h : Linking dv b s dp ip name) (path : List UInt8) :
    Twin b s (b.start path) (s.start path) := by
  have hsame : (s.start path).1 = (b.start path).1 := by
    simp only [State.start, h.cwd]
  refine ⟨hsame, .inl ⟨rfl, ?_⟩⟩
  rw [State.start_eq_view, hsame]

/-- The state with the new link is settled again. -/
theorem settled (h : Linking dv b s dp ip name) (hb : Settled dv b)
    (hnum : s.ninodes ≤ 2 ^ 16) (hused : ∀ j ∈ s.refs, j < s.ninodes → (s.disk j).type ≠ .free)
    (hvalid : ∀ j ∈ s.refs, s.mem j = none → b.mem j = none) : Settled dv s where
  numbers := hnum
  cwd := by rw [h.cwd, h.refs]; exact hb.cwd
  used := hused
  valid j hj hnone := hb.valid j (h.refs ▸ hj) (hvalid j hj hnone)
  linked path names cur' hres := by
    rcases h.backward (h.start path) hres with ⟨names', cur, hres', ht⟩ | rfl
    · have hlinked := hb.linked path names' cur hres'
      rcases ht.seen with ⟨hseen, hseen'⟩ | ⟨-, -, -, -, hone⟩
      · by_cases hip : cur.1 = ip
        · rw [Linked, ht.same, hseen', hip]
          exact h.linked
        rw [Linked, ht.same, hseen', h.refs]
        rw [Linked, hseen] at hlinked
        by_cases hdp : cur.1 = dp
        · rw [hdp] at hlinked ⊢
          rw [h.parent.2.2]
          exact hlinked
        · rw [h.other _ hip hdp]
          exact hlinked
      · exact .inr (by rw [hone]; decide)
    · exact h.linked

end Linking

end Xv6.Kernel.Fs
