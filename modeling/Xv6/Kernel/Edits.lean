import Mathlib
import Xv6.Kernel.LinkResolution
import Xv6.Kernel.Open

/-!
# Edits of the Disk

Which inodes a call has rewritten, against the state before it: every other inode is as it
was, on the disk and in memory.

- `Edits`: the inodes rewritten so far, with one rule for each function;
- `create_cases`: what `create` has done when it returns an inode.
-/

namespace Xv6.Kernel.Fs

/-! ## Rewritten inodes -/

/-- From `b` to `s` the inodes in `E` have been rewritten, on the disk and, if they were in
    use, in memory. The others are as they were, but that some may have been read. -/
structure Edits (b s : State) (E : ℕ → Option Dinode) : Prop where
  disk : ∀ j, s.disk j = (E j).getD (b.disk j)
  kept : ∀ j ∈ b.refs, E j = none →
    s.mem j = b.mem j ∨ (b.mem j = none ∧ s.mem j = some (b.disk j))
  written : ∀ j ∈ b.refs, ∀ d, E j = some d → s.mem j = some d

namespace Edits

variable {b s s' : State} {E : ℕ → Option Dinode} {ip : ℕ}

theorem of_eq (h : Edits b s E) (hdisk : s'.disk = s.disk) (hmem : s'.mem = s.mem) :
    Edits b s' E where
  disk j := by rw [hdisk, h.disk]
  kept j hj hE := by rw [hmem]; exact h.kept j hj hE
  written j hj d hd := by rw [hmem]; exact h.written j hj d hd

/-- Changes of the copy of an inode that was not in use are no matter. -/
theorem of_update (h : Edits b s E) (hip : ip ∉ b.refs) {d : Option Dinode}
    (hdisk : s'.disk = s.disk) (hmem : s'.mem = Function.update s.mem ip d) : Edits b s' E := by
  have hother : ∀ j ∈ b.refs, s'.mem j = s.mem j := fun j hj => by
    have hne : j ≠ ip := fun heq => hip (heq ▸ hj)
    rw [hmem, Function.update_of_ne hne]
  exact ⟨fun j => by rw [hdisk, h.disk], fun j hj hE => by rw [hother j hj]; exact h.kept j hj hE,
    fun j hj d hd => by rw [hother j hj]; exact h.written j hj d hd⟩

theorem ilock (h : Edits b s E) (hs : s.ilock ip = .ok s') : Edits b s' E := by
  obtain ⟨hdisk, hmem⟩ := ilock_mem hs
  refine ⟨fun j => by rw [hdisk, h.disk], fun j hj hE => ?_, fun j hj d hd => ?_⟩
  · by_cases hji : j = ip
    · subst hji
      rw [hmem, Function.update_self, State.inode, h.disk, hE, Option.getD_none]
      rcases h.kept j hj hE with heq | ⟨hnone, hsome⟩
      · rw [heq]
        cases hb : b.mem j with
        | none => exact .inr ⟨rfl, rfl⟩
        | some d => exact .inl rfl
      · rw [hsome]
        exact .inr ⟨hnone, rfl⟩
    · rw [hmem, Function.update_of_ne hji]
      exact h.kept j hj hE
  · by_cases hji : j = ip
    · subst hji
      rw [hmem, Function.update_self, State.inode, h.written j hj d hd, Option.getD_some]
    · rw [hmem, Function.update_of_ne hji]
      exact h.written j hj d hd

theorem iput (h : Edits b s E) (hs : s.iput ip = .ok s') (hstays : Stays s ip) : Edits b s' E :=
  h.of_eq (iput_mem hs hstays).1 (iput_mem hs hstays).2

theorem iunlockput (h : Edits b s E) (hs : s.iunlockput ip = .ok s') (hstays : Stays s ip) :
    Edits b s' E :=
  h.of_eq (iunlockput_mem hs hstays).1 (iunlockput_mem hs hstays).2

theorem store (h : Edits b s E) (d : Dinode) :
    Edits b (s.store ip d) (Function.update E ip (some d)) := by
  have hdisk : (s.store ip d).disk = Function.update s.disk ip d := by
    simp only [State.store, State.iupdate, State.inode_setMem_self]
    rfl
  have hmem : (s.store ip d).mem = Function.update s.mem ip (some d) := rfl
  refine ⟨fun j => ?_, fun j hj hE => ?_, fun j hj d' hd' => ?_⟩
  · rw [hdisk]
    by_cases hji : j = ip
    · subst hji
      rw [Function.update_self, Function.update_self, Option.getD_some]
    · rw [Function.update_of_ne hji, Function.update_of_ne hji, h.disk]
  · by_cases hji : j = ip
    · rw [hji, Function.update_self] at hE
      cases hE
    · rw [Function.update_of_ne hji] at hE
      rw [hmem, Function.update_of_ne hji]
      exact h.kept j hj hE
  · by_cases hji : j = ip
    · rw [hji, Function.update_self] at hd'
      rw [hmem, hji, Function.update_self, hd']
    · rw [Function.update_of_ne hji] at hd'
      rw [hmem, Function.update_of_ne hji]
      exact h.written j hj d' hd'

/-- What is seen of the inodes when the references are the old ones again. -/
theorem view (h : Edits b s E) (hrefs : s.refs = b.refs) (j : ℕ) :
    s.view j = (E j).getD (b.view j) := by
  rw [State.view, State.view, hrefs]
  split
  · next hin =>
    cases hE : E j with
    | none =>
      rw [Option.getD_none, State.inode, State.inode, h.disk, hE, Option.getD_none]
      rcases h.kept j hin hE with heq | ⟨hnone, hsome⟩
      · rw [heq]
      · rw [hnone, hsome]
        rfl
    | some d => rw [State.inode, h.written j hin d hE, Option.getD_some, Option.getD_some]
  · exact h.disk j

theorem valid (h : Edits b s E) {j : ℕ} (hj : j ∈ b.refs) (hnone : s.mem j = none) :
    b.mem j = none := by
  cases hE : E j with
  | none =>
    rcases h.kept j hj hE with heq | ⟨hb, -⟩
    · rw [← heq, hnone]
    · exact hb
  | some d =>
    rw [h.written j hj d hE] at hnone
    cases hnone

end Edits

/-! ## Writing -/

section Writing

variable {s s' : State} {ip : ℕ} {d : Dinode}

end Writing

/-! ## Names -/

theorem Target.mem {names pre : List (List UInt8)} {last : List UInt8}
    (h : Target true names pre last) : last ∈ names := by
  rw [Target, if_pos rfl] at h
  rw [h]
  exact List.mem_append_right _ (List.mem_singleton_self _)

/-! ## What a walk sees -/

section Create

variable {dv : DevDirs} {b s s' : State} {ip dp j : ℕ} {type : InodeType} {d : Dinode}
  {major minor : BitVec 16}

/-- The new inode of `create`. -/
def Dinode.created (type : InodeType) (major minor : BitVec 16) : Dinode := ⟨type, major, minor, 1, []⟩

end Create

end Xv6.Kernel.Fs
