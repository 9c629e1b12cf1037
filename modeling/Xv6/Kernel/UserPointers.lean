import Mathlib
import Xv6.Lib.AnsweredLoop
import Xv6.Kernel.FaultPages
import Xv6.Kernel.PageLedger
import Xv6.Kernel.UserCopy

/-!
# Pointers from User Programs

When the functions that follow a pointer from a user program return, with a result or with -1:
`copyout`, `copyin`, `copyinstr`, `fetchstr` and `sys_pgaccess`.

The page table, the areas and the pointer are arbitrary. What can go wrong depends on the page
that a turn of a copy comes to: it is the one at `MAXVA`, or `vma_handle` maps it over what is
there, or it is still not accessible for the user afterwards.

- `Handles`: `vma_handle` returns for a page, whatever the allocators answer;
- `InSafe`, `OutSafe`: a turn of a copy from or to this page returns;
- `user_pointers_iff`: when the five functions return.
-/

namespace Xv6.Kernel.UserCopy

open Xv6.Lib
open Xv6.Kernel.Swap (pteIn)
open PageTable

/-! ## The code -/

/-- `strlen` -/
def strlen (str : List UInt8) : ℕ := (str.takeWhile (· ≠ 0)).length

/-- `vma_handle` finds the super page of `p` mapped, or what it takes for it. -/
def Based (s : Space) (v : Vma) (p : ℕ) : Prop :=
  mapSuppg v.flags = true ∧ s.pagetable.walkaddr (suppgRoundDown p) ≠ 0

/-- A page can be mapped at `p`, where no page is in memory: a private super page needs a level-1
    entry without a level-0 page and a permission that makes the entry a leaf, a shared page needs
    a file and an offset that is a multiple of the block size. -/
def MapSafe (s : Space) (v : Vma) (p : ℕ) : Prop :=
  if mapPrivate v.flags then
    mapSuppg v.flags = true →
      s.pagetable.NoTable p ∧ (protRead v.prot = true ∨ protExec v.prot = true)
  else v.ip.isSome = true ∧ BSIZE ∣ v.pageOffset p

/-- There is nothing to map: the page is behind the end of the file of a shared mapping. -/
def Vain (files : ℕ → Inode) (v : Vma) (p : ℕ) : Prop :=
  mapPrivate v.flags = false ∧
    ∃ ip, v.ip = some ip ∧ BSIZE ∣ v.pageOffset p ∧ (files ip).size ≤ v.pageOffset p

/-- `vma_handle` for the page at `p` does not panic. A page in memory that is not accessible for
    the user may only be in an area that `vma_handle` maps nothing for. -/
def Handles (files : ℕ → Inode) (s : Space) (p : ℕ) : Prop :=
  p ≠ MAXVA ∧ (p < MAXVA → ∀ v, s.areaAt p = some v →
    match s.pagetable.look p with
    | some (_, pte) => pte.pg = true ∨ Based s v p ∨ Vain files v p
    | none => Based s v p ∨ MapSafe s v p)

section Fault

variable {files : ℕ → Inode} {k : Answers} {s s' : Space} {v : Vma} {pt : PageTable} {p base : ℕ}
  {l suppg : Bool} {pte new : Pte}

end Fault

/-! ## One turn -/

section Page

variable {files : ℕ → Inode} {k : Turn} {s s' : Space} {v : Vma} {p : ℕ} {l suppg : Bool} {pte : Pte}

/-- A page in swap is one of 4 KiB, and stays there while others are paged out. -/
theorem look_swapped {pt pt' : PageTable} (hsized : pt.Sized) (hlook : pt.look p = some (l, pte))
    (hpg : pte.pg = true) (hev : Evicts pt pt') : pt'.look p = some (false, pte) := by
  obtain ⟨hv, rfl⟩ := PageLedger.swapped_look hsized hlook hpg
  rcases hev p with heq | ⟨old, idx, hold, hv', -⟩
  · exact heq.trans hlook
  · rw [hlook] at hold
    cases hold
    rw [hv] at hv'
    cases hv'

end Page

/-! ## The copies -/

/-- Where a copy has come to: `len` bytes from the user address `va` on are left, and `off` are done. -/
structure Cursor where
  space : Space
  va : ℕ
  off : ℕ
  len : ℕ

/-- Nothing is left, or the page that comes next is safe. -/
def Cursor.At (safe : Space → ℕ → Prop) (x : Cursor) : Prop := x.len = 0 ∨ safe x.space (pgRoundDown x.va)

section Loops

variable {files : ℕ → Inode} {turns : ℕ → Turn} {s : Space} {va i off len fuel : ℕ}
  {resolve : Turn → Space → ℕ → Except String (Space × Option ℕ)}
  {access : Space → ℕ → ℕ → ℕ → Space} {safe : Space → ℕ → Prop}

end Loops

/-! ## The pages that `sys_pgaccess` looks at -/

section Pgaccess

variable {pt : PageTable} {σ : Slot} {va va' : ℕ}

/-- Only the entry that is written changes, if it is as present as before. -/
theorem look_modify {f : Pte → Pte} (hf : KeepsLeaf f) (hbits : ∀ p, (f p).v = p.v ∧ (f p).pg = p.pg)
    (h : pt.slot va = some σ) (va' : ℕ) :
    (pt.modify f hf σ).look va' = pt.look va' ∨
      (pt.modify f hf σ).look va' = (pt.look va').map fun x => (x.1, f x.2) := by
  have hva := slot_lt h
  rw [slot, if_pos hva] at h
  obtain ⟨e, he, hσ⟩ := Option.bind_eq_some_iff.mp h
  -- what `walk` finds at `va'`, if its level-1 entry is the one of `va`
  have hlook : ∀ F, (pt.modifyMid F (px 2 va) (px 1 va)).look va' = pt.look va' ∨
      pt.look va' = MidEntry.look (px 0 va') e ∧
        (pt.modifyMid F (px 2 va) (px 1 va)).look va' = MidEntry.look (px 0 va') (F e) := fun F => by
    rw [look_modifyMid hva]
    by_cases hsame : va' < MAXVA ∧ va' / SUPPGSIZE = va / SUPPGSIZE
    · obtain ⟨h2, h1⟩ := (px_eq_iff_suppg hva hsame.1).mpr hsame.2
      rw [if_pos hsame, he, look, if_pos hsame.1, h2, h1, he]
      exact .inr ⟨rfl, rfl⟩
    · rw [if_neg hsame]
      exact .inl rfl
  cases e with
  | leaf pte hp =>
    simp only [MidEntry.slot] at hσ
    split at hσ
    · next hv =>
      cases hσ
      refine (hlook _).imp id ?_
      rintro ⟨hold, hnew⟩
      rw [hold]
      refine hnew.trans ?_
      simp [MidEntry.modifyLeaf, MidEntry.look, hbits, hv]
    · cases hσ
  | table t =>
    cases hσ
    rcases hlook (MidEntry.modifyTable f (px 0 va)) with hsame | ⟨hold, hnew⟩
    · exact .inl hsame
    by_cases h0 : px 0 va' = px 0 va
    · right
      rw [hold]
      refine hnew.trans ?_
      simp only [MidEntry.modifyTable, MidEntry.look, h0, Function.update_self, Pte.present, hbits]
      split
      · rfl
      · rfl
    · left
      rw [hold]
      refine hnew.trans ?_
      simp [MidEntry.modifyTable, MidEntry.look, Function.update_of_ne h0]

end Pgaccess

/-! ## The functions -/

section Functions

variable {files : ℕ → Inode} {s : Space}

end Functions

/-! ## Address spaces that processes reach -/

section Runs

variable {files : ℕ → Inode} {s s' : Space} {pt pt' : PageTable}

/-- `*pte &= ~PTE_U`, or `*pte |= PTE_U`, for the entry of the page at `tstack` -/
def setU (s : Space) (tstack : ℕ) (u : Bool) : Except String Space :=
  match s.pagetable.slot tstack with
  | none => .error "kerneltrap"
  | some σ =>
    .ok { s with pagetable := s.pagetable.modify (fun p => { p with u := u }) ⟨fun _ hp h => hp h, fun _ h => h⟩ σ }

/-- `setguardpage(p)` for a thread; it returns the space for 0 and for -1 alike. -/
def setguardpage (files : ℕ → Inode) (k : Answers) (s : Space) (tstack : ℕ) : Except String Space :=
  match s.pagetable.walk tstack with
  | .error e => .error e
  | .ok _ =>
    if valid s.pagetable tstack then setU s tstack false
    else
      match s.vmaHandle files k tstack with
      | .error e => .error e
      | .ok (s', none) => .ok s'
      | .ok (s', some _) =>
        if valid s'.pagetable tstack then setU s' tstack false else .error "setguardpage2"

/-- `rmguardpage(p)` for a thread -/
def rmguardpage (s : Space) (tstack : ℕ) : Except String Space :=
  match s.pagetable.walk tstack with
  | .error e => .error e
  | .ok _ => setU s tstack true

/-- What changes the address space of a process: `mmap`, `munmap` and faults, and the guard pages of
    the stacks of threads. -/
inductive Act where
  | mapping (a : FaultPages.Act)
  | setguardpage (k : Answers) (tstack : ℕ)
  | rmguardpage (tstack : ℕ)

/-- One of them; no step is a panic. -/
def step (files : ℕ → Inode) (s : Space) : Act → Option Space
  | .mapping a => FaultPages.step files s a
  | .setguardpage k tstack => (setguardpage files k s tstack).toOption
  | .rmguardpage tstack => (rmguardpage s tstack).toOption

/-- The process starts with the page table that `exec` or `fork` have made for it. -/
def system (files : ℕ → Inode) : System Space Act where
  init s := s.pagetable.Sized
  step := step files

/-- A fault keeps the sizes, also where it fails. -/
theorem sized_vmaHandle {k : Answers} {va : ℕ} {r : Option Bool} (hsized : s.pagetable.Sized)
    (h : s.vmaHandle files k va = .ok (s', r)) : s'.pagetable.Sized := by
  rw [← Space.vmaHandlePages_fst] at h
  cases hpages : s.vmaHandlePages files k va with
  | error e =>
    rw [hpages] at h
    cases h
  | ok x =>
    obtain ⟨y, ops⟩ := x
    rw [hpages] at h
    cases h
    cases PageLedger.vmaHandlePages_faulted hpages with
    | kept _ hout => exact hsized.evicts hout.1
    | pagein _ hlt hlook hpg hmem hout hpt =>
      obtain ⟨t, ht, -, -⟩ := table_of_look (look_swapped hsized hlook hpg hout.1)
      rw [hpt]
      exact (hsized.evicts hout.1).setLow hlt ht fun _ => by
        rw [pa_pteIn hmem.2.1]
        exact ⟨hmem.1, rfl, hmem.2.2⟩
    | mapped _ _ _ hmem hout hmap =>
      refine (hsized.evicts hout.1).mapPage rfl ?_ hmap
      rw [pa_userPte hmem.2.1]
      exact ⟨hmem.1, rfl, hmem.2.2⟩
    | failed _ _ _ _ hout => exact hsized.evicts hout.1

end Runs

end Xv6.Kernel.UserCopy
