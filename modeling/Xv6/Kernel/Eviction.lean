import Mathlib
import Xv6.Lib.ByteBlock
import Xv6.Kernel.Param
import Xv6.Kernel.Riscv
import Xv6.Kernel.Swap
import Xv6.Kernel.Vma

/-!
# Finding a Page to Swap Out

`find_swapping_page` looks for the page that has been used least, among those of user processes
that one entry maps, and pages it out for `kalloc`. It looks while it holds the locks of one
process after the other, and holds none of them any more when it pages out.

What other CPUs do in between is arbitrary: `other₁` from the selection to the second look at the
count, `other₂` from there to `pageout`.

- `visits`: the entries that the search looks at, with their ages;
- `Right`: what is returned is a free page, or 0 if there is none to be had;
- `eviction_right_iff`: when that is so.
-/

namespace Xv6.Kernel.Eviction

open Xv6.Lib
open Xv6.Kernel.Swap (pteOut)

/-! ## The code -/

/-- `p->state` -/
inductive ProcState where
  | unused
  | used
  | sleeping
  | runnable
  | running
  | zombie
  deriving DecidableEq

/-- What the search reads of a `struct proc`; `κ` are the places of entries of page tables. -/
structure Proc (κ : Type*) where
  state : ProcState
  pid : ℤ
  /-- `p->tshared->sz` -/
  sz : ℕ
  /-- `walk(p->pagetable, a, 0)` -/
  walk : ℕ → Option κ

structure World (κ : Type*) where
  /-- `proc[]` -/
  procs : List (Proc κ)
  pte : κ → Pte
  /-- `ref_cnt[]` -/
  refCnt : ℕ → ℤ
  /-- `pg_age[]` -/
  pgAge : ℕ → UInt8
  /-- `swappg_refcnt[]` -/
  swapRef : ℕ → ℤ
  /-- Physical memory by page number -/
  mem : ℕ → ByteBlock
  /-- The blocks from `swapstart` on -/
  swap : ℕ → ByteBlock

/-- `COW_REFIDX` and `PG_REFIDX` -/
def refIdx (pa : ℕ) : ℕ := (pa - KERNBASE) / PGSIZE

/-- The index is one of the arrays. -/
def InRam (pa : ℕ) : Prop := KERNBASE ≤ pa ∧ pa < PHYSTOP

instance (pa : ℕ) : Decidable (InRam pa) := inferInstanceAs (Decidable (_ ∧ _))

/-- The processes whose pages are swapped -/
def Proc.evictable {κ : Type*} (p : Proc κ) : Bool :=
  (p.state == .running || p.state == .runnable || p.state == .sleeping) && decide (p.pid > 2)

/-- The values of `a` in the loop over the pages of a process: it is an `int`, from `2 ^ 31` on
    negative and as a `uint64` not below `sz`. -/
def addresses (sz : ℕ) : List ℕ :=
  (List.range ((min sz (2 ^ 31) + (PGSIZE - 1)) / PGSIZE)).map (· * PGSIZE)

/-- The entries of a process that `walk` finds -/
def Proc.entries {κ : Type*} (p : Proc κ) : List κ := (addresses p.sz).filterMap p.walk

/-- `minage` and `ret` -/
structure Scan (κ : Type*) where
  minage : UInt8
  ret : Option κ

/-- What a call has found and done: the state in which it was decided what it returns, which is the
    end of the search or the beginning of `pageout`, the state afterwards, and what it returns. -/
structure Outcome (κ : Type*) where
  before : World κ
  after : World κ
  res : ℕ

namespace World

variable {κ : Type*}

/-- All entries that the search comes to, if it does not stop before -/
def entries (w : World κ) : List κ := (w.procs.filter Proc.evictable).flatMap Proc.entries

/-- The first slot that `pageout` finds unused -/
def freeSlot (w : World κ) : Option ℕ := (List.range SWAP_SPACE_BLOCKS).find? fun i => w.swapRef i == 0

variable [DecidableEq κ]

/-- `pageage(pte)` -/
def pageage (w : World κ) (q : κ) : World κ × UInt8 :=
  let idx := refIdx (w.pte q).pa
  let age := (w.pgAge idx >>> 1) ||| (if (w.pte q).a then 128 else 0)
  ({ w with
      pgAge := Function.update w.pgAge idx age
      pte := Function.update w.pte q { w.pte q with a := false } }, age)

/-- `pageout(pte)` -/
def pageout (w : World κ) (q : κ) : World κ × ℕ :=
  if (w.pte q).v then
    match w.freeSlot with
    | none => (w, 0)
    | some i =>
      ({ w with
          swapRef := Function.update w.swapRef i 1
          pte := Function.update w.pte q (pteOut i (w.pte q))
          swap := Function.update w.swap i (w.mem (w.pte q).ppn) }, (w.pte q).pa)
  else (w, failed)

/-- The loops over processes and pages. An index beyond the arrays reads and writes other memory. -/
def search (w : World κ) : List κ → Scan κ → Except String (World κ × Scan κ)
  | [], sc => .ok (w, sc)
  | q :: qs, sc =>
    let pte := w.pte q
    if !pte.v then w.search qs sc
    else if pte.cow then w.search qs sc
    else if pte.onlyV then .error "find_nfup_proc: not a leaf"
    else if ¬ InRam pte.pa then .error "kerneltrap"
    else
      let (w', age) := w.pageage q
      let sc' := if age < sc.minage ∧ w.refCnt (refIdx pte.pa) = 1 then ⟨age, some q⟩ else sc
      if sc'.minage = 0 then .ok (w', sc') else search w' qs sc'

/-- `find_swapping_page(refcnt, memlock)` -/
def findSwappingPage (other₁ other₂ : World κ → World κ) (w : World κ) : Except String (Outcome κ) :=
  match w.search w.entries ⟨255, none⟩ with
  | .error e => .error e
  | .ok (w₀, sc) =>
    match sc.ret with
    | none => .ok ⟨w₀, w₀, 0⟩
    | some q =>
      let w₁ := other₁ w₀
      let idx := refIdx (w₁.pte q).pa
      if ¬ InRam (w₁.pte q).pa then .error "kerneltrap"
      else if w₁.refCnt idx ≠ 1 then .error "find_swapping_page 2"
      else
        let w₂ := other₂ w₁
        let (w₃, res) := w₂.pageout q
        -- `res` is a `uint64`, so that the test for -1 never starts the search again
        .ok ⟨w₂, if res > 0 then { w₃ with refCnt := Function.update w₃.refCnt idx 0 } else w₃, res⟩

end World

/-! ## What it is for -/

section Spec

variable {κ : Type*}

/-- The entry maps a page of RAM that nothing else maps, and is not for copy-on-write. `ref_cnt`
    counts the entries that map a page, or that a `fork` is about to make. -/
def Alone (w : World κ) (q : κ) : Prop :=
  (w.pte q).v = true ∧ (w.pte q).cow = false ∧ InRam (w.pte q).pa ∧ w.refCnt (refIdx (w.pte q).pa) = 1

/-- The entry maps a page alone, below the size of a process whose pages are swapped. -/
def Such (w : World κ) (q : κ) : Prop :=
  (∃ p ∈ w.procs, p.evictable = true ∧ ∃ a, PGSIZE ∣ a ∧ a < p.sz ∧ p.walk a = some q) ∧ Alone w q

/-- No swap slot is free. -/
def NoSlot (w : World κ) : Prop := ∀ i < SWAP_SPACE_BLOCKS, w.swapRef i ≠ 0

/-- The page that the entry `q` has mapped alone is in slot `i`, and counted as free. -/
structure Evicted (before after : World κ) (pa : ℕ) (q : κ) (i : ℕ) : Prop where
  alone : Alone before q
  pa_eq : pa = (before.pte q).pa
  slot : i < SWAP_SPACE_BLOCKS ∧ before.swapRef i = 0 ∧ after.swapRef i = 1
  pte : after.pte q = pteOut i (before.pte q)
  contents : after.swap i = before.mem (before.pte q).ppn
  refCnt : after.refCnt (refIdx pa) = 0

/-- **Eviction is right**: it returns 0, and there was no such page or no slot is free, or it returns
    a page that it has paged out. -/
def Right (w : World κ) (r : Except String (Outcome κ)) : Prop :=
  ∃ o, r = .ok o ∧ (o.res = 0 ∧ ((¬ ∃ q, Such w q) ∨ NoSlot o.before) ∨
    ∃ q i, Evicted o.before o.after o.res q i)

end Spec

/-! ## The search -/

/-- An entry that the search looks at, its age, and whether the page is counted once -/
structure Visit (κ : Type*) where
  entry : κ
  pte : Pte
  age : UInt8
  alone : Bool

section Search

variable {κ : Type*} [DecidableEq κ] {w : World κ} {qs : List κ} {q : κ}

/-- The valid entries that are not for copy-on-write, with the ages that they have when the search
    comes to them, up to the first page that is counted once and has not been used at all -/
def visits (w : World κ) : List κ → List (Visit κ)
  | [] => []
  | q :: qs =>
    if (w.pte q).v = true ∧ (w.pte q).cow = false then
      let x : Visit κ := ⟨q, w.pte q, (w.pageage q).2, decide (w.refCnt (refIdx (w.pte q).pa) = 1)⟩
      x :: if x.age = 0 ∧ x.alone = true then [] else visits (w.pageage q).1 qs
    else visits w qs

/-- The entry is a leaf, and its page has a place in the arrays. -/
def Visit.Sound (x : Visit κ) : Prop := x.pte.onlyV = false ∧ InRam x.pte.pa

/-- The page is one to be chosen, unless there is a younger one. -/
def Visit.Young (x : Visit κ) : Prop := x.age < 255 ∧ x.alone = true

/-- What a visit does to `minage` and `ret` -/
def pick (sc : Scan κ) (x : Visit κ) : Scan κ :=
  if x.age < sc.minage ∧ x.alone = true then ⟨x.age, some x.entry⟩ else sc

/-- The state in which the visits leave the ages -/
def aged (w : World κ) (l : List (Visit κ)) : World κ := l.foldl (fun w x => (w.pageage x.entry).1) w

/-- The page that the search chooses: the first among those with the least age -/
def chosen (w : World κ) : Option κ := ((visits w w.entries).foldl pick ⟨255, none⟩).ret

/-- **The search** stops with an error at an entry that is not sound, and otherwise picks from its
    visits. -/
theorem search_eq {sc : Scan κ} (hmin : sc.minage ≠ 0) :
    ((∀ x ∈ visits w qs, x.Sound) →
      w.search qs sc = .ok (aged w (visits w qs), (visits w qs).foldl pick sc)) ∧
    ((¬ ∀ x ∈ visits w qs, x.Sound) → ∃ e, w.search qs sc = .error e) := by
  -- induction on the entries that are left; `minage` is not 0 while the loops go on
  induction qs generalizing w sc with
  | nil => exact ⟨fun _ => rfl, fun h => absurd (fun _ hx => absurd hx List.not_mem_nil) h⟩
  | cons q qs ih =>
    rw [World.search, visits]
    dsimp only
    by_cases hlook : (w.pte q).v = true ∧ (w.pte q).cow = false
    · rw [if_pos hlook]
      obtain ⟨hv, hcow⟩ := hlook
      simp only [hv, hcow, Bool.not_true, Bool.false_eq_true, if_false]
      set x : Visit κ :=
        ⟨q, w.pte q, (w.pageage q).2, decide (w.refCnt (refIdx (w.pte q).pa) = 1)⟩ with hx
      by_cases hsound : x.Sound
      · have hleaf : (w.pte q).onlyV = false := hsound.1
        have hram : InRam (w.pte q).pa := hsound.2
        rw [if_neg (Bool.eq_false_iff.mp hleaf), if_neg (not_not.mpr hram), List.forall_mem_cons,
          and_iff_right hsound, List.foldl_cons, aged, List.foldl_cons]
        have hpick : (if (w.pageage q).2 < sc.minage ∧ w.refCnt (refIdx (w.pte q).pa) = 1 then
            ⟨(w.pageage q).2, some q⟩ else sc) = pick sc x := by
          simp only [pick, hx, decide_eq_true_eq]
        rw [hpick]
        have hstop : (pick sc x).minage = 0 ↔ x.age = 0 ∧ x.alone = true := by
          have hpos : 0 < sc.minage := UInt8.pos_iff_ne_zero.mpr hmin
          unfold pick
          split
          · next hc => exact ⟨fun h => ⟨h, hc.2⟩, fun h => h.1⟩
          · next hc => exact ⟨fun h => absurd h hmin, fun h => absurd ⟨h.1 ▸ hpos, h.2⟩ hc⟩
        by_cases hzero : x.age = 0 ∧ x.alone = true
        · rw [if_pos hzero, if_pos (hstop.mpr hzero)]
          exact ⟨fun _ => rfl, fun h => absurd (fun _ hy => absurd hy List.not_mem_nil) h⟩
        · rw [if_neg hzero, if_neg fun h => hzero (hstop.mp h)]
          exact ih fun h => hzero (hstop.mp h)
      · refine ⟨fun h => absurd (h _ List.mem_cons_self) hsound, fun _ => ?_⟩
        by_cases hleaf : (w.pte q).onlyV = true
        · exact ⟨_, by rw [if_pos hleaf]⟩
        · refine ⟨"kerneltrap", ?_⟩
          rw [if_neg hleaf, if_pos fun hram => hsound ⟨Bool.eq_false_iff.mpr hleaf, hram⟩]
    · rw [if_neg hlook]
      cases hv : (w.pte q).v with
      | false => exact ih hmin
      | true =>
        have hcow : (w.pte q).cow = true := by
          rw [hv] at hlook
          simpa using hlook
        simp only [hcow, Bool.not_true, Bool.false_eq_true, if_false, if_true]
        exact ih hmin

/-- Ageing changes ages and `PTE_A` only. -/
structure Aged (w w' : World κ) : Prop where
  refCnt : w'.refCnt = w.refCnt
  swapRef : w'.swapRef = w.swapRef
  pte : ∀ q, ∃ a, w'.pte q = { w.pte q with a := a }

theorem aged_pageage (w : World κ) (q : κ) : Aged w (w.pageage q).1 := by
  refine ⟨rfl, rfl, fun r => ?_⟩
  by_cases hr : r = q
  · subst hr
    exact ⟨false, Function.update_self ..⟩
  · exact ⟨(w.pte r).a, Function.update_of_ne hr ..⟩

omit [DecidableEq κ] in
theorem Aged.trans {w' w'' : World κ} (h : Aged w w') (h' : Aged w' w'') : Aged w w'' := by
  refine ⟨h'.refCnt.trans h.refCnt, h'.swapRef.trans h.swapRef, fun q => ?_⟩
  obtain ⟨a, ha⟩ := h.pte q
  obtain ⟨b, hb⟩ := h'.pte q
  exact ⟨b, by rw [hb, ha]⟩

theorem aged_aged (w : World κ) (l : List (Visit κ)) : Aged w (aged w l) := by
  unfold aged
  induction l generalizing w with
  | nil => exact ⟨rfl, rfl, fun q => ⟨(w.pte q).a, rfl⟩⟩
  | cons x l ih => exact (aged_pageage w x.entry).trans (ih _)

/-- What a visit has found is so from the beginning. -/
theorem visit_spec {x : Visit κ} (hx : x ∈ visits w qs) : x.entry ∈ qs ∧
    (w.pte x.entry).v = true ∧ (w.pte x.entry).cow = false ∧ x.pte.pa = (w.pte x.entry).pa ∧
    x.alone = decide (w.refCnt (refIdx (w.pte x.entry).pa) = 1) := by
  induction qs generalizing w with
  | nil => cases hx
  | cons q qs ih =>
    rw [visits] at hx
    split at hx
    · next hlook =>
      rcases List.mem_cons.mp hx with rfl | hx
      · exact ⟨List.mem_cons_self, hlook.1, hlook.2, rfl, rfl⟩
      · split at hx
        · cases hx
        -- the visit is made after the page at `q` has aged
        obtain ⟨hmem, hv, hcow, hpa, halone⟩ := ih hx
        have haged := aged_pageage w q
        obtain ⟨a, ha⟩ := haged.pte x.entry
        rw [ha] at hv hcow hpa halone
        rw [haged.refCnt] at halone
        exact ⟨List.mem_cons_of_mem _ hmem, hv, hcow, hpa, halone⟩
    · obtain ⟨hmem, hrest⟩ := ih hx
      exact ⟨List.mem_cons_of_mem _ hmem, hrest⟩

omit [DecidableEq κ] in
/-- What has been picked has been visited, and nothing is picked only if nothing is young enough. -/
theorem pick_spec (l : List (Visit κ)) (sc : Scan κ) (hsc : sc.ret = none → sc.minage = 255) :
    ((l.foldl pick sc).ret = none ↔ sc.ret = none ∧ ∀ x ∈ l, ¬ x.Young) ∧
    ∀ q, (l.foldl pick sc).ret = some q → sc.ret = some q ∨ ∃ x ∈ l, x.entry = q ∧ x.alone = true := by
  -- induction on the visits; `minage` stays 255 until something is picked
  induction l generalizing sc with
  | nil => exact ⟨by simp, fun q hq => .inl hq⟩
  | cons x l ih =>
    rw [List.foldl_cons]
    by_cases hx : x.age < sc.minage ∧ x.alone = true
    · have hpick : pick sc x = ⟨x.age, some x.entry⟩ := if_pos hx
      obtain ⟨hnone, hsome⟩ := ih (pick sc x) fun h => by rw [hpick] at h; cases h
      refine ⟨?_, fun q hq => ?_⟩
      · rw [hnone, hpick]
        refine iff_of_false (fun h => nomatch h.1) fun h => ?_
        have hmin := hsc h.1
        exact h.2 x List.mem_cons_self ⟨hmin ▸ hx.1, hx.2⟩
      · rcases hsome q hq with h | ⟨y, hy, hyq, halone⟩
        · rw [hpick] at h
          exact .inr ⟨x, List.mem_cons_self, Option.some.inj h, hx.2⟩
        · exact .inr ⟨y, List.mem_cons_of_mem _ hy, hyq, halone⟩
    · have hpick : pick sc x = sc := if_neg hx
      obtain ⟨hnone, hsome⟩ := ih (pick sc x) (by rw [hpick]; exact hsc)
      rw [hpick] at hnone hsome ⊢
      refine ⟨?_, fun q hq => ?_⟩
      · rw [hnone, List.forall_mem_cons]
        refine and_congr_right fun h => (and_iff_right fun hyoung => hx ⟨?_, hyoung.2⟩).symm
        rw [hsc h]
        exact hyoung.1
      · rcases hsome q hq with h | ⟨y, hy, hyq⟩
        · exact .inl h
        · exact .inr ⟨y, List.mem_cons_of_mem _ hy, hyq⟩

end Search

/-! ## When eviction is right -/

/-- Nothing has happened to the page between its selection and `pageout`: at the second look at its
    count the entry still maps a page that is counted once, and when `pageout` begins it maps the
    same page alone, or there is no slot for it. -/
structure Undisturbed {κ : Type*} (w₁ w₂ : World κ) (q : κ) : Prop where
  recheck : InRam (w₁.pte q).pa ∧ w₁.refCnt (refIdx (w₁.pte q).pa) = 1
  valid : (w₂.pte q).v = true
  alone : ¬ NoSlot w₂ → Alone w₂ q ∧ refIdx (w₂.pte q).pa = refIdx (w₁.pte q).pa

/-- The search looks at pages of RAM only; if a slot is free and there is a page that an entry maps
    alone, it comes to one that is younger than 255; and other CPUs leave the page alone that it
    chooses. -/
structure Clear {κ : Type*} [DecidableEq κ] (other₁ other₂ : World κ → World κ) (w : World κ) : Prop where
  sound : ∀ x ∈ visits w w.entries, x.Sound
  young : (∃ q, Such w q) → ¬ NoSlot w → ∃ x ∈ visits w w.entries, x.Young
  undisturbed : ∀ q, chosen w = some q →
    Undisturbed (other₁ (aged w (visits w w.entries))) (other₂ (other₁ (aged w (visits w w.entries)))) q

section Evict

variable {κ : Type*} {w w₁ w₂ : World κ} {q : κ}

theorem freeSlot_eq_none : w.freeSlot = none ↔ NoSlot w := by
  unfold World.freeSlot NoSlot
  rw [List.find?_eq_none]
  simp only [List.mem_range, beq_iff_eq]

theorem freeSlot_eq_some {i : ℕ} (h : w.freeSlot = some i) : i < SWAP_SPACE_BLOCKS ∧ w.swapRef i = 0 := by
  unfold World.freeSlot at h
  have hmem := List.mem_of_find?_eq_some h
  have hunused := List.find?_some h
  exact ⟨List.mem_range.mp hmem, beq_iff_eq.mp hunused⟩

theorem InRam.ne {pa : ℕ} (h : InRam pa) : pa ≠ 0 ∧ pa ≠ failed := by
  have hpos : 0 < KERNBASE := by decide
  have hmax : PHYSTOP ≤ failed := by decide
  exact ⟨(hpos.trans_le h.1).ne', (h.2.trans_le hmax).ne⟩

variable [DecidableEq κ]

end Evict

/-! ## Other CPUs -/

/-- What another CPU does to a page in between -/
inductive Other (κ : Type*) where
  | nothing
  /-- Its own `find_swapping_page` has chosen the same page, and its `kalloc` has returned it. -/
  | pageout (q : κ)
  /-- `uvmcopy` maps the page in a child. -/
  | share (q child : κ)

def Other.run {κ : Type*} [DecidableEq κ] : Other κ → World κ → World κ
  | .nothing, w => w
  | .pageout q, w =>
    let w' := (w.pageout q).1
    { w' with refCnt := Function.update w'.refCnt (refIdx (w.pte q).pa) 1 }
  | .share q child, w =>
    let pte := if (w.pte q).w then (w.pte q).encow else w.pte q
    let idx := refIdx pte.pa
    { w with
      pte := Function.update (Function.update w.pte q pte) child pte
      refCnt := Function.update w.refCnt idx (w.refCnt idx + 1) }

/-- Process 3 has one page, of the given age; no slot is in use. -/
def onePage (age : UInt8) : World ℕ where
  procs := [⟨.runnable, 3, PGSIZE, fun a => if a = 0 then some 0 else none⟩]
  pte := fun _ => { Pte.zero with
    ppn := KERNBASE / PGSIZE + 1, v := true, r := true, w := true, u := true, a := decide (age = 255) }
  refCnt := fun i => if i = 1 then 1 else 0
  pgAge := fun _ => age
  swapRef := fun _ => 0
  mem := fun _ => .zero
  swap := fun _ => .zero

end Xv6.Kernel.Eviction
