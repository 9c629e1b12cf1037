import Mathlib
import Xv6.Lib.Tally
import Xv6.Lib.TransitionSystem
import Xv6.Kernel.FaultPages
import Xv6.Kernel.Writeback

/-!
# The Ledger of Mapped Pages

Pages that `vma_handle` has obtained from `kalloc`, `kalloc_suppage` or, pinned, from
`readblock`, and how `munmap`, the end of the process and failed faults give them back.

The flag `MAP_PRIVATE` decides how a page is obtained and `MAP_SHARED` how it is given back,
and both are looked up in the area that is found at the time.

- `held`: the pages of a page table, each in the manner that the area of its address has;
- `held_uvmunmap`: `uvmunmap` gives back what it takes out of the page table;
- `ledger_right`: in runs where every area has exactly one of the two flags when it is
  touched, and where unmapping meets the pages of one manner and all that its area loses,
  every page is given back once, the way it was obtained.
-/

namespace Xv6.Kernel.PageLedger

open Xv6.Lib
open PageTable
open Xv6.Kernel.Swap (pteIn pteOut)

/-! ## Pages that are held -/

/-- How a page has been obtained, and its address -/
abbrev Item := PageKind × ℕ

/-- Pages below `MAXVA` -/
@[irreducible] def NPAGES : ℕ := MAXVA / PGSIZE

/-- The item of page `p` of a page table, where `κ` tells how pages of 4 KiB are obtained. A super
    page counts where it begins. -/
def itemAt (κ : ℕ → PageKind) (pt : PageTable) (p : ℕ) : Multiset Item :=
  match pt.look (p * PGSIZE) with
  | some (false, pte) => if pte.v then {(κ (p * PGSIZE), pte.pa)} else 0
  | some (true, pte) => if SUPPGSIZE ∣ p * PGSIZE then {(.suppage, pte.pa)} else 0
  | none => 0

/-- All items of a page table -/
def held (κ : ℕ → PageKind) (pt : PageTable) : Multiset Item :=
  ∑ p ∈ Finset.range NPAGES, itemAt κ pt p

/-- What a release gives back, and how -/
def releaseItem : Release → Multiset Item
  | .kfree pa => {(.page, pa)}
  | .kfreeSuppage pa => {(.suppage, pa)}
  | .bunpin2 pa => {(.buffer, pa)}
  | .swapdecget _ => 0

def releaseItems (rel : List Release) : Multiset Item := (rel.map releaseItem).sum

/-- The items that the operations of a fault obtain, and those they give back -/
def takenBy (ops : List PageOp) : Multiset Item :=
  (ops.map fun op => match op with
    | .kalloc pa => ({(.page, pa)} : Multiset Item)
    | .kallocSuppage pa => {(.suppage, pa)}
    | .readblock pa => {(.buffer, pa)}
    | .fill _ _ | .release _ => 0).sum

def givenBy (ops : List PageOp) : Multiset Item :=
  (ops.map fun op => match op with
    | .release r => releaseItem r
    | _ => 0).sum

/-- The page of 4 KiB at `a` that has been paged out between two page tables -/
def outAt (pt pt' : PageTable) (p : ℕ) : Multiset ℕ :=
  match pt.look (p * PGSIZE), pt'.look (p * PGSIZE) with
  | some (false, pte), some (false, pte') => if pte.v ∧ pte'.pg then {pte.pa} else 0
  | _, _ => 0

/-- The pages that have been paged out between two page tables -/
def pagedOut (pt pt' : PageTable) : Multiset ℕ := ∑ p ∈ Finset.range NPAGES, outAt pt pt' p

section Held

variable {κ κ' : ℕ → PageKind} {pt pt' : PageTable} {va n p : ℕ} {pte : Pte} {suppg : Bool}

theorem releaseItems_append (rel rel' : List Release) :
    releaseItems (rel ++ rel') = releaseItems rel + releaseItems rel' := by
  simp [releaseItems]

theorem held_congr (h : ∀ p < NPAGES, itemAt κ pt p = itemAt κ' pt' p) : held κ pt = held κ' pt' :=
  Finset.sum_congr rfl fun p hp => h p (Finset.mem_range.mp hp)

theorem itemAt_congr (h : pt'.look (p * PGSIZE) = pt.look (p * PGSIZE)) :
    itemAt κ pt' p = itemAt κ pt p := by
  rw [itemAt, itemAt, h]

theorem held_of_look (h : pt'.look = pt.look) : held κ pt' = held κ pt :=
  held_congr fun p _ => itemAt_congr (by rw [h])

/-- One page changes. -/
theorem held_exchange (hp : p < NPAGES)
    (h : ∀ q < NPAGES, q ≠ p → itemAt κ pt' q = itemAt κ pt q) :
    held κ pt' + itemAt κ pt p = held κ pt + itemAt κ pt' p :=
  sum_exchange (Finset.mem_range.mpr hp) fun q hq => h q (Finset.mem_range.mp hq)

theorem page_lt (hva : va < MAXVA) (hdvd : PGSIZE ∣ va) :
    va / PGSIZE < NPAGES ∧ va / PGSIZE * PGSIZE = va := by
  refine ⟨?_, Nat.div_mul_cancel hdvd⟩
  simp only [NPAGES, MAXVA, PGSIZE] at *
  omega

theorem itemAt_none (h : pt.look (p * PGSIZE) = none) : itemAt κ pt p = 0 := by
  rw [itemAt, h]

theorem itemAt_small (h : pt.look (p * PGSIZE) = some (false, pte)) :
    itemAt κ pt p = if pte.v then {(κ (p * PGSIZE), pte.pa)} else 0 := by
  rw [itemAt, h]

/-- Only the first page of a super page counts. -/
theorem itemAt_inside {base a : ℕ} (hdvd : SUPPGSIZE ∣ base) (ha : a / SUPPGSIZE = base / SUPPGSIZE)
    (hne : a ≠ base) (hpg : PGSIZE ∣ a)
    (hlook : pt.look a = none ∨ ∃ pte, pt.look a = some (true, pte)) :
    itemAt κ pt (a / PGSIZE) = 0 := by
  have hback := Nat.div_mul_cancel hpg
  rcases hlook with hlook | ⟨pte, hlook⟩
  · exact itemAt_none (by rw [hback, hlook])
  · rw [itemAt, hback, hlook]
    refine if_neg fun hd => hne ?_
    rw [← Nat.div_mul_cancel hd, ha, Nat.div_mul_cancel hdvd]

/-- A page of 4 KiB changes, or goes. -/
theorem held_small (hva : va < MAXVA) (hdvd : PGSIZE ∣ va)
    (hrest : ∀ a, a / PGSIZE ≠ va / PGSIZE → pt'.look a = pt.look a) :
    held κ pt' + itemAt κ pt (va / PGSIZE) = held κ pt + itemAt κ pt' (va / PGSIZE) := by
  refine held_exchange (page_lt hva hdvd).1 fun q _ hq => itemAt_congr (hrest _ ?_)
  rwa [Nat.mul_div_cancel _ (by decide)]

/-- A super page comes or goes. -/
theorem held_super {base : ℕ} (hva : base < MAXVA) (hdvd : SUPPGSIZE ∣ base)
    (hrest : ∀ a, a / SUPPGSIZE ≠ base / SUPPGSIZE → pt'.look a = pt.look a)
    (hin : ∀ a, a / SUPPGSIZE = base / SUPPGSIZE →
      (pt.look a = none ∨ ∃ pte, pt.look a = some (true, pte)) ∧
        (pt'.look a = none ∨ ∃ pte, pt'.look a = some (true, pte))) :
    held κ pt' + itemAt κ pt (base / PGSIZE) = held κ pt + itemAt κ pt' (base / PGSIZE) := by
  have hpg : PGSIZE ∣ base := Dvd.dvd.trans (by decide) hdvd
  refine held_exchange (page_lt hva hpg).1 fun q _ hq => ?_
  by_cases hsame : q * PGSIZE / SUPPGSIZE = base / SUPPGSIZE
  · have hne : q * PGSIZE ≠ base := by
      rintro rfl
      exact hq (Nat.mul_div_cancel _ (by decide)).symm
    have hzero : ∀ pt : PageTable, (pt.look (q * PGSIZE) = none ∨
        ∃ pte, pt.look (q * PGSIZE) = some (true, pte)) → itemAt κ pt q = 0 := fun pt hlook => by
      have h := itemAt_inside (κ := κ) hdvd hsame hne (Nat.dvd_mul_left _ _) hlook
      rwa [Nat.mul_div_cancel _ (by decide)] at h
    rw [hzero _ (hin _ hsame).1, hzero _ (hin _ hsame).2]
  · exact itemAt_congr (hrest _ hsame)

/-! ## Mapping and paging out -/

theorem mapPage_aligned (h : pt.mapPage va suppg pte n = .ok (pt', true)) :
    (if suppg then SUPPGSIZE else PGSIZE) ∣ va := by
  by_contra hne
  unfold PageTable.mapPage at h
  rw [if_pos (mt Nat.dvd_of_mod_eq_zero hne)] at h
  cases h

/-- Nothing was in the 2 MiB that a super page has been mapped to. -/
theorem look_none_of_mapPage (h : pt.mapPage va true pte n = .ok (pt', true)) {a : ℕ}
    (ha : a / SUPPGSIZE = va / SUPPGSIZE) : pt.look a = none := by
  obtain ⟨hva, pt₁, hlook, ⟨-, old, hp, -, hmid, hv, -⟩ | ⟨hsize, -⟩⟩ := mapPage_ok h
  · rw [← hlook, look]
    split
    · next hlt =>
      obtain ⟨h2, h1⟩ := (px_eq_iff_suppg hva hlt).mpr ha
      rw [h2, h1, hmid]
      simp [MidEntry.look, hv]
    · rfl
  · cases hsize

/-- **A page that has been mapped is one more that is held.** -/
theorem held_mapPage (h : pt.mapPage va suppg pte n = .ok (pt', true)) (hv : pte.v = true) :
    held κ pt' = held κ pt + {(if suppg then .suppage else κ va, pte.pa)} := by
  have hlook := look_mapPage h hv
  have hva := (mapPage_ok h).1
  have halign := mapPage_aligned h
  cases suppg with
  | false =>
    obtain ⟨-, hpage⟩ := page_lt hva halign
    have hex := held_small (κ := κ) hva halign fun a ha => show pt'.look a = pt.look a by
      rw [hlook, if_neg fun hc => ha hc.2]
    -- nothing was there before, or `mappages` would have panicked
    have hbefore : itemAt κ pt (va / PGSIZE) = 0 := by
      cases hold : pt.look va with
      | none => exact itemAt_none (by rw [hpage, hold])
      | some x =>
        obtain ⟨l, old⟩ := x
        have hinvalid := look_of_mapPage h hold
        cases l with
        | true =>
          rw [v_of_look_suppg hold] at hinvalid
          cases hinvalid
        | false => rw [itemAt_small (by rw [hpage, hold]), hinvalid, if_neg Bool.false_ne_true]
    have hafter : itemAt κ pt' (va / PGSIZE) = {(κ va, pte.pa)} := by
      have hnew : pt'.look va = some (false, pte) := by rw [hlook, if_pos ⟨hva, rfl⟩]
      rw [itemAt_small (by rw [hpage, hnew]), hv, if_pos rfl, hpage]
    rw [hbefore, hafter, add_zero] at hex
    exact hex
  | true =>
    have hpg : PGSIZE ∣ va := Dvd.dvd.trans (by decide) halign
    obtain ⟨-, hpage⟩ := page_lt hva hpg
    have hex := held_super (κ := κ) hva halign
      (fun a ha => show pt'.look a = pt.look a by rw [hlook, if_neg fun hc => ha hc.2]) fun a ha => by
        refine ⟨.inl (look_none_of_mapPage h ha), ?_⟩
        by_cases hlt : a < MAXVA
        · exact .inr ⟨pte, by rw [hlook, if_pos ⟨hlt, ha⟩]⟩
        · exact .inl (by rw [look, if_neg hlt])
    rw [itemAt_none (by rw [hpage]; exact look_none_of_mapPage h rfl), add_zero] at hex
    have hafter : itemAt κ pt' (va / PGSIZE) = {(.suppage, pte.pa)} := by
      have hnew : pt'.look va = some (true, pte) := by rw [hlook, if_pos ⟨hva, rfl⟩]
      rw [itemAt, hpage, hnew]
      exact if_pos halign
    rw [hex, hafter]
    rfl

/-- **Pages that are paged out are no more held.** Only pages from `kalloc` may be. -/
theorem held_evicts (hsized : pt.Sized) (h : Evicts pt pt')
    (hκ : ∀ a, PGSIZE ∣ a → pt'.look a ≠ pt.look a → κ a = .page) :
    held κ pt = held κ pt' + (pagedOut pt pt').map (Prod.mk .page) := by
  have hmap : (pagedOut pt pt').map (Prod.mk PageKind.page) =
      ∑ p ∈ Finset.range NPAGES, (outAt pt pt' p).map (Prod.mk PageKind.page) :=
    map_sum (Multiset.mapAddMonoidHom (Prod.mk PageKind.page)) _ _
  rw [hmap, held, held, ← Finset.sum_add_distrib]
  refine Finset.sum_congr rfl fun p _ => ?_
  rcases h (p * PGSIZE) with heq | ⟨old, idx, hold, hv, -, hout⟩
  · -- the page is as it was
    have hnone : outAt pt pt' p = 0 := by
      rw [outAt, heq]
      split
      · next pte pte' hlook hlook' =>
        cases hlook.symm.trans hlook'
        refine if_neg fun hc => ?_
        rw [(hsized _ false pte hlook hc.1).2.1] at hc
        exact absurd hc.2 Bool.false_ne_true
      · rfl
    rw [itemAt_congr heq, hnone, Multiset.map_zero, add_zero]
  · have hkind : κ (p * PGSIZE) = .page := by
      refine hκ _ (Nat.dvd_mul_left _ _) fun heq => ?_
      rw [hold, hout, Option.some.injEq, Prod.mk.injEq] at heq
      rw [← heq.2] at hv
      cases hv
    rw [itemAt_small hold, itemAt_small hout, outAt, hold, hout, if_pos hv]
    rw [hkind, if_neg (show ¬ (pteOut idx old).v = true from Bool.false_ne_true)]
    simp [hv, pteOut]

/-! ## Unmapping -/

theorem releaseItems_nil : releaseItems [] = 0 := rfl

/-- What stays of a page table: a page is as it was, or it is gone. -/
def Shrinks (pt pt' : PageTable) : Prop := ∀ a, pt'.look a = none ∨ pt'.look a = pt.look a

theorem Shrinks.refl (pt : PageTable) : Shrinks pt pt := fun _ => .inr rfl

theorem Shrinks.trans {pt'' : PageTable} (h : Shrinks pt pt') (h' : Shrinks pt' pt'') :
    Shrinks pt pt'' := by
  intro a
  rcases h' a with hnone | heq
  · exact .inl hnone
  · rw [heq]
    exact h a

theorem Shrinks.sized (h : Shrinks pt pt') (hs : pt.Sized) : pt'.Sized := by
  intro a l pte hlook
  rcases h a with hnone | heq
  · rw [hlook] at hnone
    cases hnone
  · exact hs a l pte (heq ▸ hlook)

/-- The pages of 4 KiB in memory that a range of addresses meets have been obtained as they will be
    given back: pinned buffers if the flag `MAP_SHARED` is there, and no super page. -/
def RightKind (κ : ℕ → PageKind) (pt : PageTable) (shared : Bool) (a last : ℕ) : Prop :=
  ∀ b, a ≤ b → b < last → PGSIZE ∣ b → ∀ l pte, pt.look b = some (l, pte) → pte.v = true →
    if l then shared = false else κ b = if shared then .buffer else .page

theorem RightKind.shrinks {shared : Bool} {a last a' : ℕ} (h : RightKind κ pt shared a last)
    (hs : Shrinks pt pt') (ha : a ≤ a') : RightKind κ pt' shared a' last := by
  intro b hb hlast hdvd l pte hlook
  rcases hs b with hnone | heq
  · rw [hlook] at hnone
    cases hnone
  · exact h b (ha.trans hb) hlast hdvd l pte (heq ▸ hlook)

/-- `do_free` of `munmap` and `mmap_clean` -/
def doFree (shared : Bool) : ℕ := if shared then FREE_BCACHE else 1

theorem releaseItems_releasesOf {pa : ℕ} {shared l : Bool} (hl : isSuppg pa = l)
    (hkind : if l then shared = false else κ va = if shared then .buffer else .page) :
    releaseItems (releasesOf pa (doFree shared)) = {(if l then .suppage else κ va, pa)} := by
  have h1 : Nat.testBit 1 1 = false := by decide
  have h2 : Nat.testBit 2 1 = true := by decide
  cases l <;> cases shared <;>
    simp_all [releasesOf, doFree, FREE_BCACHE, releaseItems, releaseItem]

/-- What `walk` finds for an address is a super page or an entry of a level-0 page. -/
theorem slot_cases {σ : Slot} (h : pt.slot va = some σ) : va < MAXVA ∧
    ((∃ pte hp, pt.midAt (px 2 va) (px 1 va) = some (.leaf pte hp) ∧
        σ = .mid (px 2 va) (px 1 va) ∧ pt.get σ = pte ∧ pt.look va = some (true, pte)) ∨
      ∃ t, pt.midAt (px 2 va) (px 1 va) = some (.table t) ∧
        σ = .low (px 2 va) (px 1 va) (px 0 va) ∧ pt.get σ = t (px 0 va) ∧
        pt.look va = if (t (px 0 va)).present then some (false, t (px 0 va)) else none) := by
  have hva := slot_lt h
  refine ⟨hva, ?_⟩
  rw [slot, if_pos hva] at h
  obtain ⟨e, he, hs⟩ := Option.bind_eq_some_iff.mp h
  cases e with
  | leaf pte hp =>
    simp only [MidEntry.slot] at hs
    split at hs
    · next hv =>
      cases hs
      refine .inl ⟨pte, hp, he, rfl, by simp [PageTable.get, he, MidEntry.leafPte], ?_⟩
      rw [look, if_pos hva, he]
      simp [MidEntry.look, hv]
    · cases hs
  | table t =>
    cases hs
    refine .inr ⟨t, he, rfl, by simp [PageTable.get, he, MidEntry.tablePte], ?_⟩
    rw [look, if_pos hva, he]
    rfl

theorem look_of_slot_none (h : pt.slot va = none) : pt.look va = none := by
  cases hlook : pt.look va with
  | none => rfl
  | some x =>
    have hentry := entry_of_look hlook
    rw [entry, h] at hentry
    cases hentry

/-- An entry of a level-0 page is rewritten to one that stands for nothing. -/
theorem look_modify_low {f : Pte → Pte} {hf : KeepsLeaf f} {t : ℕ → Pte} (hva : va < MAXVA)
    (ht : pt.midAt (px 2 va) (px 1 va) = some (.table t)) (hgone : (f (t (px 0 va))).present = false)
    (b : ℕ) : (pt.modify f hf (.low (px 2 va) (px 1 va) (px 0 va))).look b =
      if b < MAXVA ∧ b / PGSIZE = va / PGSIZE then none else pt.look b := by
  have hset : pt.modify f hf (.low (px 2 va) (px 1 va) (px 0 va)) = pt.setLow va (f (t (px 0 va))) := by
    obtain ⟨mid, hroot, hmid⟩ := Option.map_eq_some_iff.mp ht
    simp only [PageTable.modify, setLow, modifyMid, hroot, Option.map_some, hmid, MidEntry.modifyTable]
  rw [hset, look_setLow hva ht, hgone]
  simp only [Bool.false_eq_true, if_false]

/-- **One turn of `uvmunmap`**: nothing in memory is at `a`, or what is there is given back. -/
theorem uvmunmapStep_look {a step doFree step₁ : ℕ} {pt₁ : PageTable} {rel : List Release}
    (hsized : pt.Sized) (h : uvmunmapStep pt a step doFree = .ok (pt₁, step₁, rel)) :
    (releaseItems rel = 0 ∧ (∀ l pte, pt.look a = some (l, pte) → pte.v = false) ∧
        ∀ b, pt₁.look b = if b < MAXVA ∧ b / PGSIZE = a / PGSIZE then none else pt.look b) ∨
      ∃ l pte, pt.look a = some (l, pte) ∧ pte.v = true ∧ rel = releasesOf pte.pa doFree ∧
        ∀ b, pt₁.look b = if b < MAXVA ∧ b / (if l then SUPPGSIZE else PGSIZE) =
          a / (if l then SUPPGSIZE else PGSIZE) then none else pt.look b := by
  -- a page that is not there is not there afterwards
  have hsame : pt.look a = none → ∀ b,
      pt.look b = if b < MAXVA ∧ b / PGSIZE = a / PGSIZE then none else pt.look b := by
    intro hnone b
    split
    · next hb => rw [look_congr hb.2, hnone]
    · rfl
  unfold uvmunmapStep PageTable.walk at h
  by_cases hva : a ≥ MAXVA
  · rw [if_pos hva] at h
    cases h
  rw [if_neg hva] at h
  cases hslot : pt.slot a with
  | none =>
    rw [hslot] at h
    cases h
    have hnone := look_of_slot_none hslot
    exact .inl ⟨rfl, fun l pte hlook => (by rw [hnone] at hlook; cases hlook), hsame hnone⟩
  | some σ =>
    rw [hslot] at h
    dsimp only at h
    obtain ⟨hva, ⟨pte, hp, hmid, rfl, hget, hlook⟩ | ⟨t, ht, rfl, hget, hlook⟩⟩ := slot_cases hslot
    · have hv := v_of_look_suppg hlook
      have hpg := (hsized a true pte hlook hv).2.1
      simp only [hget, hpg, Bool.false_eq_true, if_false, hv, Bool.not_true] at h
      split at h
      · cases h
      cases h
      refine .inr ⟨true, pte, hlook, hv, rfl, fun b => ?_⟩
      show (pt.modifyMid _ _ _).look b = _
      rw [look_modifyMid hva, hmid]
      simp [MidEntry.modifyLeaf, MidEntry.look, Pte.zero]
    · have hnone : (t (px 0 a)).present = false → pt.look a = none := fun hp => by
        rw [hlook, hp]
        rfl
      cases hpg : (t (px 0 a)).pg with
      | true =>
        -- a page in swap: its slot is given up
        have hv : (t (px 0 a)).v = false := by
          cases hv : (t (px 0 a)).v with
          | false => rfl
          | true =>
            have hl : pt.look a = some (false, t (px 0 a)) := by
              rw [hlook]
              simp [Pte.present, hv]
            rw [(hsized a false _ hl hv).2.1] at hpg
            cases hpg
        have hget' : (pt.clearPg (.low (px 2 a) (px 1 a) (px 0 a))).get
            (.low (px 2 a) (px 1 a) (px 0 a)) = { t (px 0 a) with pg := false } := by
          rw [clearPg, get_modify_self hslot, hget]
        simp only [hget, hpg, if_true, hget', hv, Bool.not_false] at h
        cases h
        refine .inl ⟨rfl, fun l pte hl => ?_, look_modify_low hva ht (by simp [Pte.present, hv])⟩
        rw [hlook] at hl
        split at hl
        · cases hl
          exact hv
        · cases hl
      | false =>
        simp only [hget, hpg, Bool.false_eq_true, if_false] at h
        cases hv : (t (px 0 a)).v with
        | false =>
          simp only [hv, Bool.not_false, if_true] at h
          cases h
          have hl := hnone (by simp [Pte.present, hv, hpg])
          exact .inl ⟨rfl, fun l pte hlook' => (by rw [hl] at hlook'; cases hlook'), hsame hl⟩
        | true =>
          simp only [hv, Bool.not_true, Bool.false_eq_true, if_false] at h
          split at h
          · cases h
          cases h
          have hl : pt.look a = some (false, t (px 0 a)) := by
            rw [hlook]
            simp [Pte.present, hv]
          exact .inr ⟨false, t (px 0 a), hl, hv, rfl, look_modify_low hva ht rfl⟩

/-- A turn of `uvmunmap` only takes pages out. -/
theorem shrinks_uvmunmapStep {a step doFree step₁ : ℕ} {pt₁ : PageTable} {rel : List Release}
    (hsized : pt.Sized) (h : uvmunmapStep pt a step doFree = .ok (pt₁, step₁, rel)) : Shrinks pt pt₁ := by
  intro b
  rcases uvmunmapStep_look hsized h with ⟨-, -, hlook⟩ | ⟨l, pte, -, -, -, hlook⟩
  · rw [hlook b]
    exact ite_eq_or_eq _ _ _
  · rw [hlook b]
    exact ite_eq_or_eq _ _ _

theorem shrinks_uvmunmapFrom {doFree last fuel a step : ℕ} {rel : List Release} (hsized : pt.Sized)
    (h : uvmunmapFrom doFree last fuel pt a step = .ok (pt', rel)) : Shrinks pt pt' := by
  induction fuel generalizing pt a step rel with
  | zero =>
    cases h
    exact .refl _
  | succ fuel ih =>
    rw [uvmunmapFrom] at h
    split at h
    · split at h
      · cases h
      next hbody =>
      split at h
      · cases h
      next hrest =>
      cases h
      have hshrinks := shrinks_uvmunmapStep hsized hbody
      exact hshrinks.trans (ih (hshrinks.sized hsized) hrest)
    · cases h
      exact .refl _

/-- **`uvmunmap` only takes pages out.** -/
theorem shrinks_uvmunmap {start npages doFree : ℕ} {rel : List Release} (hsized : pt.Sized)
    (h : pt.uvmunmap start npages doFree = .ok (pt', rel)) : Shrinks pt pt' := by
  unfold PageTable.uvmunmap at h
  split at h
  · cases h
  · exact shrinks_uvmunmapFrom hsized h

/-- What the stride of `uvmunmap` meets is not there any more. -/
theorem look_of_metBy {start npages doFree va : ℕ} {rel : List Release}
    (h : pt.uvmunmap start npages doFree = .ok (pt', rel)) (hmet : pt.MetBy start npages va) :
    pt'.look va = none := by
  cases hlook : pt'.look va with
  | none => rfl
  | some x => exact absurd ⟨x.2, entry_of_look hlook, present_of_look hlook⟩ ((uvmunmap_entry h va).1 hmet)

/-- **One turn gives back what it takes out of the page table.** -/
theorem held_uvmunmapStep {a step step₁ last : ℕ} {shared : Bool} {pt₁ : PageTable}
    {rel : List Release} (hsized : pt.Sized) (ha : PGSIZE ∣ a) (hlast : a < last)
    (hright : RightKind κ pt shared a last)
    (h : uvmunmapStep pt a step (doFree shared) = .ok (pt₁, step₁, rel)) :
    held κ pt = held κ pt₁ + releaseItems rel := by
  have hva : a < MAXVA := by
    by_contra hge
    unfold uvmunmapStep PageTable.walk at h
    rw [if_pos (Nat.le_of_not_lt hge)] at h
    cases h
  obtain ⟨-, hpage⟩ := page_lt hva ha
  rcases uvmunmapStep_look hsized h with ⟨hrel, hnot, hlook⟩ | ⟨l, pte, hl, hv, rfl, hlook⟩
  · have hex := held_small (κ := κ) hva ha fun b hb => show pt₁.look b = pt.look b by
      rw [hlook, if_neg fun hc => hb hc.2]
    have hafter : itemAt κ pt₁ (a / PGSIZE) = 0 :=
      itemAt_none (by rw [hpage, hlook, if_pos ⟨hva, rfl⟩])
    have hbefore : itemAt κ pt (a / PGSIZE) = 0 := by
      cases hold : pt.look a with
      | none => exact itemAt_none (by rw [hpage, hold])
      | some x =>
        obtain ⟨l, old⟩ := x
        have hinvalid := hnot l old hold
        cases l with
        | true =>
          rw [v_of_look_suppg hold] at hinvalid
          cases hinvalid
        | false => rw [itemAt_small (by rw [hpage, hold]), hinvalid, if_neg Bool.false_ne_true]
    rw [hbefore, hafter, add_zero, add_zero] at hex
    rw [hrel, hex, add_zero]
  · have hkind := hright a le_rfl hlast ha l pte hl hv
    rw [releaseItems_releasesOf (hsized a l pte hl hv).1 hkind]
    cases l with
    | false =>
      have hex := held_small (κ := κ) hva ha fun b hb => show pt₁.look b = pt.look b by
        rw [hlook, if_neg fun hc => hb hc.2]
      have hafter : itemAt κ pt₁ (a / PGSIZE) = 0 :=
        itemAt_none (by rw [hpage, hlook, if_pos ⟨hva, rfl⟩])
      rw [hafter, add_zero, itemAt_small (by rw [hpage, hl]), hv, if_pos rfl, hpage] at hex
      exact hex.symm
    | true =>
      -- `a` may be any page of the super page, which counts where it begins
      have hbase : suppgRoundDown a / SUPPGSIZE = a / SUPPGSIZE := suppgRoundDown_div a
      have hlt : suppgRoundDown a < MAXVA := lt_of_le_of_lt (roundDown_le _ _) hva
      have hdvd : SUPPGSIZE ∣ suppgRoundDown a := dvd_roundDown _ _
      obtain ⟨-, hbpage⟩ := page_lt hlt (Dvd.dvd.trans (by decide) hdvd)
      have hgone : ∀ b, b / SUPPGSIZE = a / SUPPGSIZE → pt₁.look b = none := fun b hb => by
        by_cases hblt : b < MAXVA
        · rw [hlook, if_pos ⟨hblt, hb⟩]
        · rw [look, if_neg hblt]
      have hex := held_super (κ := κ) hlt hdvd
        (fun b hb => show pt₁.look b = pt.look b by
          rw [hlook, if_neg fun hc => hb (hc.2.trans hbase.symm)])
        fun b hb => ⟨.inr ⟨pte, look_suppg_congr hl (hb.trans hbase)⟩,
          .inl (hgone b (hb.trans hbase))⟩
      have hbefore : itemAt κ pt (suppgRoundDown a / PGSIZE) = {(.suppage, pte.pa)} := by
        rw [itemAt, hbpage, look_suppg_congr hl hbase]
        exact if_pos hdvd
      have hafter : itemAt κ pt₁ (suppgRoundDown a / PGSIZE) = 0 :=
        itemAt_none (by rw [hbpage]; exact hgone _ hbase)
      rw [hafter, add_zero, hbefore] at hex
      exact hex.symm

theorem PGSIZE_dvd_strideOf (pte : Pte) : PGSIZE ∣ strideOf pte := by
  unfold strideOf
  split <;> decide

/-- The stride stays a multiple of the page size. -/
theorem dvd_uvmunmapStep {a step step₁ n : ℕ} {pt₁ : PageTable} {rel : List Release}
    (hstep : PGSIZE ∣ step) (h : uvmunmapStep pt a step n = .ok (pt₁, step₁, rel)) :
    PGSIZE ∣ step₁ := by
  cases hslot : pt.slot a with
  | none =>
    obtain ⟨rfl, -⟩ := uvmunmapStep_none hslot h
    exact hstep
  | some σ =>
    obtain ⟨rfl, -⟩ := uvmunmapStep_found hslot h
    unfold strideAt
    rw [hslot]
    dsimp only
    split
    · exact PGSIZE_dvd_strideOf _
    · exact hstep

/-- The loop of `uvmunmap` gives back what it takes out, by induction on its turns. -/
theorem held_uvmunmapFrom {shared : Bool} {last fuel a step : ℕ} {rel : List Release}
    (hsized : pt.Sized) (ha : PGSIZE ∣ a) (hstep : PGSIZE ∣ step)
    (hright : RightKind κ pt shared a last)
    (h : uvmunmapFrom (doFree shared) last fuel pt a step = .ok (pt', rel)) :
    held κ pt = held κ pt' + releaseItems rel := by
  induction fuel generalizing pt a step rel with
  | zero =>
    cases h
    exact (add_zero _).symm
  | succ fuel ih =>
    rw [uvmunmapFrom] at h
    split at h
    · next hlast =>
      split at h
      · cases h
      next pt₁ step₁ rel₁ hbody =>
      split at h
      · cases h
      next pt₂ rel₂ hrest =>
      cases h
      have hheld := held_uvmunmapStep hsized ha hlast hright hbody
      have hshrinks := shrinks_uvmunmapStep hsized hbody
      have hstep₁ := dvd_uvmunmapStep hstep hbody
      have hheld' := ih (hshrinks.sized hsized) (Nat.dvd_add ha hstep₁) hstep₁
        (hright.shrinks hshrinks (Nat.le_add_right _ _)) hrest
      rw [hheld, hheld', releaseItems_append, add_assoc, add_comm (releaseItems rel₂)]
    · cases h
      exact (add_zero _).symm

/-- **`uvmunmap` gives back what it takes out of the page table**, in the manner in which it was
    obtained, and takes out what its stride meets. -/
theorem held_uvmunmap {shared : Bool} {start npages : ℕ} {rel : List Release} (hsized : pt.Sized)
    (hright : RightKind κ pt shared start (add64 start (npages * PGSIZE)))
    (h : pt.uvmunmap start npages (doFree shared) = .ok (pt', rel)) :
    held κ pt = held κ pt' + releaseItems rel ∧ Shrinks pt pt' ∧
      ∀ va, pt.MetBy start npages va → pt'.look va = none := by
  refine ⟨?_, shrinks_uvmunmap hsized h, fun va hmet => look_of_metBy h hmet⟩
  unfold PageTable.uvmunmap at h
  split at h
  · cases h
  next halign =>
  exact held_uvmunmapFrom hsized (Nat.dvd_of_mod_eq_zero (not_not.mp halign)) (Nat.dvd_refl _) hright h

end Held

/-! ## What a fault does to the ledger -/

/-- Between the page tables, pages have been paged out, and only some of the list below `sz`. -/
def PagesOut (sz : ℕ) (l : List (ℕ × ℕ)) (pt pt' : PageTable) : Prop :=
  Evicts pt pt' ∧
    ∀ a, (∀ x ∈ l, x.1 < sz → a / PGSIZE ≠ x.1 / PGSIZE) → pt'.look a = pt.look a

section Fault

variable {files : ℕ → Inode} {s s' : Space} {k : Answers} {v : Vma} {va mem : ℕ} {ops : List PageOp}
  {l l' : List (ℕ × ℕ)} {pt pt' pt'' : PageTable}

theorem PagesOut.refl (sz : ℕ) (l : List (ℕ × ℕ)) (pt : PageTable) : PagesOut sz l pt pt :=
  ⟨.refl pt, fun _ _ => rfl⟩

theorem PagesOut.trans {sz : ℕ} (h : PagesOut sz l pt pt') (h' : PagesOut sz l pt' pt'') :
    PagesOut sz l pt pt'' :=
  ⟨h.1.trans h'.1, fun a ha => (h'.2 a ha).trans (h.2 a ha)⟩

theorem look_evict_of_ne {idx a : ℕ} (h : a / PGSIZE ≠ va / PGSIZE) :
    (pt.evict va idx).look a = pt.look a := by
  unfold PageTable.evict
  split
  · next pte hlook =>
    split
    · obtain ⟨t, ht, -, -⟩ := table_of_look hlook
      rw [look_setLow (look_lt hlook) ht, if_neg fun hc => h hc.2]
    · rfl
  · rfl

theorem pagesOut_evictAll (s : Space) (hl : ∀ x ∈ l', x ∈ l) :
    PagesOut s.shared.sz l s.pagetable (s.evictAll l').pagetable := by
  refine ⟨s.evicts_evictAll l', fun a ha => ?_⟩
  show (l'.foldl _ s.pagetable).look a = s.pagetable.look a
  generalize s.pagetable = pt
  induction l' generalizing pt with
  | nil => rfl
  | cons x l' ih =>
    refine (ih (fun y hy => hl y (List.mem_cons_of_mem x hy)) _).trans ?_
    dsimp only
    split
    · next hsz => exact look_evict_of_ne (ha x (hl x (List.mem_cons_self ..)) hsz)
    · rfl

/-- How `vma_handle` obtains a page for an area -/
def kindOf (v : Vma) : PageKind :=
  if mapPrivate v.flags then if mapSuppg v.flags then .suppage else .page else .buffer

/-- Where a page of this kind for a fault at page `p` begins -/
def baseOf (κ : PageKind) (p : ℕ) : ℕ := if κ.suppg then suppgRoundDown p else p

/-- All pages of the process that `kalloc` may page out for a fault -/
def evictions (k : Answers) : List (ℕ × ℕ) := k.evicted ++ k.tablesEvicted

/-- **What `vma_handle` does** to the page table and to the ledger, for the page at `p` -/
inductive Faulted (s : Space) (k : Answers) (p : ℕ) : Space → List PageOp → Prop where
  | kept {s' : Space} : s'.shared = s.shared →
      PagesOut s.shared.sz (evictions k) s.pagetable s'.pagetable → Faulted s k p s' []
  /-- The page comes back from swap. -/
  | pagein {s' : Space} {l : Bool} {pte : Pte} {mem n : ℕ} {pt : PageTable} :
      s'.shared = s.shared → p < MAXVA → s.pagetable.look p = some (l, pte) → pte.pg = true →
      (isSuppg mem = false ∧ PGSIZE ∣ mem ∧ mem ≠ 0) →
      PagesOut s.shared.sz (evictions k) s.pagetable pt →
      s'.pagetable = pt.setLow p (pteIn (mem / PGSIZE) pte) →
      Faulted s k p s' [.kalloc mem, .fill mem n]
  | mapped {s' : Space} {v : Vma} {mem n m : ℕ} {pt : PageTable} : s'.shared = s.shared →
      s.areaAt p = some v → s.pagetable.walkaddr p = 0 →
      (isSuppg mem = (kindOf v).suppg ∧ PGSIZE ∣ mem ∧ mem ≠ 0) →
      PagesOut s.shared.sz (evictions k) s.pagetable pt →
      pt.mapPage (baseOf (kindOf v) p) (kindOf v).suppg (userPte mem v.prot) m =
        .ok (s'.pagetable, true) →
      Faulted s k p s' [(kindOf v).take mem, .fill mem n]
  /-- `mappages` has found no memory. -/
  | failed {s' : Space} {v : Vma} {mem n : ℕ} : s'.shared = s.shared → s.areaAt p = some v →
      isSuppg mem = (kindOf v).suppg → (mapPrivate v.flags = true ∨ v.ip.isSome = true) →
      PagesOut s.shared.sz (evictions k) s.pagetable s'.pagetable →
      Faulted s k p s' ([(kindOf v).take mem, .fill mem n] ++ v.giveBack mem)

theorem finishPages_faulted {p n : ℕ} {s₀ : Space} {r : Option Bool}
    (hshared : s.shared = s₀.shared) (harea : s₀.areaAt p = some v)
    (hwalk : s₀.pagetable.walkaddr p = 0)
    (hmem : isSuppg mem = (kindOf v).suppg ∧ PGSIZE ∣ mem ∧ mem ≠ 0)
    (hip : mapPrivate v.flags = true ∨ v.ip.isSome = true)
    (hout : PagesOut s₀.shared.sz (evictions k) s₀.pagetable s.pagetable)
    (h : afterOps [(kindOf v).take mem, .fill mem n]
      (s.finishPages k v (baseOf (kindOf v) p) (kindOf v).suppg mem) = .ok ((s', r), ops)) :
    Faulted s₀ k p s' ops := by
  have hevict := pagesOut_evictAll (l := evictions k) s
    (fun x hx => List.mem_append_right k.evicted hx)
  rw [hshared] at hevict
  have hout' := hout.trans hevict
  unfold Space.finishPages Space.finish at h
  dsimp only at h
  -- `mappages` maps the page, or fails after the evictions and leaves it out
  cases hmap : (s.evictAll k.tablesEvicted).pagetable.mapPage (baseOf (kindOf v) p) (kindOf v).suppg
      (userPte mem v.prot) k.tables with
  | error e =>
    rw [hmap] at h
    cases h
  | ok x =>
    obtain ⟨pt', ok⟩ := x
    rw [hmap] at h
    cases ok with
    | true =>
      cases h
      exact .mapped hshared harea hwalk hmem hout' hmap
    | false =>
      cases h
      refine .failed hshared harea hmem.1 hip (hout'.trans ⟨fun a => .inl ?_, fun a _ => ?_⟩)
      · rw [look_mapPage_false hmap]
      · rw [look_mapPage_false hmap]

theorem mapAreaPages_faulted {p : ℕ} {r : Option Bool} (harea : s.areaAt p = some v)
    (hwalk : s.pagetable.walkaddr p = 0)
    (h : s.mapAreaPages files k v p = .ok ((s', r), ops)) : Faulted s k p s' ops := by
  have hk : ∀ x ∈ k.evicted, x ∈ evictions k := fun x hx =>
    List.mem_append_left k.tablesEvicted hx
  unfold Space.mapAreaPages at h
  -- a superpage, a page, and a page of the buffer cache, each taken from its own allocator
  split at h
  · next hprivate =>
    split at h
    · next hsuppg =>
      have hkind : kindOf v = .suppage := by rw [kindOf, if_pos hprivate, if_pos hsuppg]
      split at h
      · cases h
        exact .kept rfl (.refl _ _ _)
      · next mem _ =>
        have hmem : isSuppg mem = (kindOf v).suppg ∧ PGSIZE ∣ mem.1 ∧ mem.1 ≠ 0 := by
          rw [hkind]
          exact mem.facts
        exact finishPages_faulted (s := s.fill _ _ _) rfl harea hwalk hmem (.inl hprivate)
          (.refl _ _ _) (by rw [hkind]; exact h)
    · next hsuppg =>
      have hkind : kindOf v = .page := by rw [kindOf, if_pos hprivate, if_neg hsuppg]
      dsimp only at h
      split at h
      · cases h
        exact .kept rfl (pagesOut_evictAll s hk)
      · next mem _ =>
        have hmem : isSuppg mem = (kindOf v).suppg ∧ PGSIZE ∣ mem.1 ∧ mem.1 ≠ 0 := by
          rw [hkind]
          exact mem.facts
        exact finishPages_faulted (s := (s.evictAll _).fill _ _ _) rfl harea hwalk hmem
          (.inl hprivate) (pagesOut_evictAll s hk) (by rw [hkind]; exact h)
  · next hprivate =>
    have hkind : kindOf v = .buffer := by rw [kindOf, if_neg hprivate]
    split at h
    · cases h
    next ip hip =>
    dsimp only at h
    split at h
    · cases h
    split at h
    · cases h
      exact .kept rfl (.refl _ _ _)
    · have hmem : isSuppg k.buffer = (kindOf v).suppg ∧ PGSIZE ∣ k.buffer.1 ∧ k.buffer.1 ≠ 0 := by
        rw [hkind]
        exact k.buffer.facts
      exact finishPages_faulted (s := s.fill _ _ _) rfl harea hwalk hmem
        (.inr (by rw [hip]; rfl)) (.refl _ _ _) (by rw [hkind]; exact h)

theorem vmaHandlePages_faulted {r : Option Bool}
    (h : s.vmaHandlePages files k va = .ok ((s', r), ops)) :
    Faulted s k (pgRoundDown va) s' ops := by
  have hk : ∀ x ∈ k.evicted, x ∈ evictions k := fun x hx =>
    List.mem_append_left k.tablesEvicted hx
  unfold Space.vmaHandlePages at h
  split at h
  · cases h
    exact .kept rfl (.refl _ _ _)
  dsimp only at h
  split at h
  · cases h
  next hge =>
  -- the entry is there and swapped out, there but unused, or not there
  split at h
  · next l pte hlook =>
    split at h
    · next hpg =>
      unfold Space.pageinPages Space.pagein at h
      dsimp only at h
      cases hpage : k.page with
      | none =>
        rw [hpage] at h
        cases h
        exact .kept rfl (pagesOut_evictAll s hk)
      | some mem =>
        rw [hpage] at h
        cases h
        exact .pagein rfl (Nat.lt_of_not_ge hge) hlook hpg mem.facts (pagesOut_evictAll s hk) rfl
    split at h
    · cases h
      exact .kept rfl (.refl _ _ _)
    next v harea =>
    split at h
    · cases h
      exact .kept rfl (.refl _ _ _)
    split at h
    · cases h
      exact .kept rfl (.refl _ _ _)
    · next hwalk => exact mapAreaPages_faulted harea (not_not.mp hwalk) h
  · next hlook =>
    split at h
    · cases h
      exact .kept rfl (.refl _ _ _)
    next v harea =>
    split at h
    · cases h
      exact .kept rfl (.refl _ _ _)
    · refine mapAreaPages_faulted harea ?_ h
      rw [walkaddr, hlook]

end Fault

/-! ## Runs of a process -/

open FixedMapping (sysMmap)

/-- A process, with a ledger of the pages that it has obtained and given back -/
structure State where
  space : Space
  /-- The slot that `mmap_clean` has come to, once the process ends -/
  next : Option ℕ
  taken : Multiset Item
  given : Multiset Item
  /-- Pages from `kalloc` that have been paged out and so went to another caller of `kalloc` -/
  out : Multiset ℕ

/-- What a process does with its mappings, up to its end -/
inductive Act where
  | mmap (addr : ℕ) (length : ℤ) (prot flags : ℕ) (f : Option File) (offset : ℕ)
  | munmap (writei : FileWrite → Bool) (addr : ℕ) (length : ℤ)
  | fault (k : Answers) (va : ℕ)
  | exit
  /-- The next turn of the loop of `mmap_clean` -/
  | clean (writei : FileWrite → Bool)

/-- One step; no step is a panic. -/
def step (files : ℕ → Inode) (s : State) : Act → Option State
  | .mmap addr length prot flags f offset =>
    if s.next.isSome then none
    else
      match sysMmap s.space.shared addr length prot flags f offset with
      | .error _ => none
      | .ok (ts', _, _) => some { s with space := { s.space with shared := ts' } }
  | .munmap writei addr length =>
    if s.next.isSome then none
    else
      match s.space.toAddrSpace.munmap writei addr (ofInt length) with
      | .error _ => none
      | .ok (t, _, eff) =>
        some { s with
          space := { s.space with toAddrSpace := t }
          given := s.given + releaseItems eff.releases }
  | .fault k va =>
    if s.next.isSome then none
    else
      match s.space.vmaHandlePages files k va with
      | .error _ => none
      | .ok ((t, _), ops) =>
        some { s with
          space := t
          taken := s.taken + takenBy ops
          given := s.given + givenBy ops
          out := s.out + pagedOut s.space.pagetable t.pagetable }
  | .exit => if s.next.isSome then none else some { s with next := some 0 }
  | .clean writei =>
    match s.next with
    | none => none
    | some i =>
      if i < MAX_VMA then
        match s.space.toAddrSpace.mmapCleanSlot writei i with
        | .error _ => none
        | .ok (t, eff, _) =>
          some { s with
            space := { s.space with toAddrSpace := t }
            next := some (i + 1)
            given := s.given + releaseItems eff.releases }
      else none

/-- The flag `MAP_SHARED` of the area that a fault at `a` belongs to -/
def sharedAt (s : Space) (a : ℕ) : Option Bool := (s.areaAt a).map fun v => mapShared v.flags

/-- How a page of 4 KiB is obtained, by the flag `MAP_SHARED` -/
def lowKind (s : Space) (a : ℕ) : PageKind := if sharedAt s a = some true then .buffer else .page

/-- A page that is there, in memory or in swap, begins at `a`. -/
def Begins (pt : PageTable) (a : ℕ) : Prop :=
  PGSIZE ∣ a ∧ ∃ l pte, pt.look a = some (l, pte) ∧ (l = true → SUPPGSIZE ∣ a)

/-- A process whose areas are private and without a file, as `exec` and `sbrk` make them, and
    the pages of its program -/
def Init (pt₀ : PageTable) (s : State) : Prop :=
  (∀ i, (s.space.shared.vmAreas i).file = none ∧ mapShared (s.space.shared.vmAreas i).flags = false ∧
    ((s.space.shared.vmAreas i).ip = none ∨ mapPrivate (s.space.shared.vmAreas i).flags = true)) ∧
  s.space.pagetable = pt₀ ∧ pt₀.Sized ∧ s.next = none ∧ s.given = 0 ∧ s.out = 0 ∧
  s.taken = held (fun _ => .page) pt₀

def system (files : ℕ → Inode) (pt₀ : PageTable) : System State Act where
  init := Init pt₀
  step := step files

/-- **Nothing is given back twice or in another way than it was obtained**, and when `mmap_clean` is
    through, everything has been given back but pages at addresses of the program. -/
structure Right (pt₀ : PageTable) (s : State) : Prop where
  once : s.given + s.out.map (Prod.mk .page) ≤ s.taken
  all : s.next = some MAX_VMA →
    ∃ rest, s.taken = s.given + s.out.map (Prod.mk .page) + rest ∧
      ∀ x ∈ rest, ∃ a l pte, (pt₀.look a).isSome ∧ s.space.pagetable.look a = some (l, pte) ∧
        x = (if l then .suppage else .page, pte.pa)

/-! ## The condition on the steps -/

/-- With these areas the page at `a` belongs to an area with the same flag `MAP_SHARED`, if it
    belonged to one. -/
def Kept (s : Space) (ts : ThreadShared) (a : ℕ) : Prop :=
  (sharedAt { s with shared := ts } a = some true ↔ sharedAt s a = some true) ∧
    ((sharedAt s a).isSome = true → (sharedAt { s with shared := ts } a).isSome = true)

/-- Unmapping these pages of the area `v` in slot `i` meets pages only that have been obtained by
    areas with the same flag `MAP_SHARED`, and every page that loses its area. -/
def UnmapClear (s : Space) (v v' : Vma) (i start npages : ℕ) : Prop :=
  RightKind (lowKind s) s.pagetable (mapShared v.flags) start (add64 start (npages * PGSIZE)) ∧
    ∀ a, Begins s.pagetable a → ¬ s.pagetable.MetBy start npages a →
      Kept s (s.shared.setSlot i v') a

/-- A fault at the page `p` is for an area that has exactly one of the two flags and begins at or
    before a super page that it gets; no page of a shared area is paged out for it, and a
    page in memory is the user's. -/
structure FaultClear (s : Space) (k : Answers) (p : ℕ) : Prop where
  user : ∀ l pte, s.pagetable.look p = some (l, pte) → pte.v = true → pte.u = true
  flags : ∀ v, s.areaAt p = some v → s.pagetable.walkaddr p = 0 →
    mapPrivate v.flags ≠ mapShared v.flags
  inside : ∀ v, s.areaAt p = some v → s.pagetable.walkaddr p = 0 → kindOf v = .suppage →
    v.addr ≤ suppgRoundDown p
  out : ∀ x ∈ evictions k, x.1 < s.shared.sz → sharedAt s (pgRoundDown x.1) ≠ some true

/-- Every step meets the condition of its kind. -/
def Careful (s : State) : Act → Prop
  | .mmap addr length prot flags f offset =>
    ∀ ts' ret refs, sysMmap s.space.shared addr length prot flags f offset = .ok (ts', ret, refs) →
      ∀ a, Begins s.space.pagetable a → Kept s.space ts' a
  | .munmap _ addr length =>
    let len := pgRoundDown (ofInt length)
    addr % PGSIZE = 0 → len ≠ 0 → ∀ i, s.space.toAddrSpace.mmapped addr = some i →
      let v := s.space.shared.vmAreas i
      UnmapClear s.space v (v.cut addr len) i addr (pgRoundUp len / PGSIZE)
  | .fault k va => FaultClear s.space k (pgRoundDown va)
  | .exit => True
  | .clean _ =>
    ∀ i, s.next = some i → (s.space.shared.vmAreas i).used = true →
      let v := s.space.shared.vmAreas i
      UnmapClear s.space v { v with used := false } i v.addr (pgRoundUp v.length / PGSIZE)

/-! ## The invariant -/

/-- **The ledger balances**: what has been obtained has been given back, paged out, or is there. -/
structure Inv (pt₀ : PageTable) (s : State) : Prop where
  sized : s.space.pagetable.Sized
  backed : ∀ i, (s.space.shared.vmAreas i).Backed
  covered : ∀ a, Begins s.space.pagetable a →
    (sharedAt s.space a).isSome = true ∨ (pt₀.look a).isSome = true
  /-- Pages in swap belong to private areas. -/
  swapped : ∀ a, PGSIZE ∣ a → ∀ l pte, s.space.pagetable.look a = some (l, pte) → pte.v = false →
    sharedAt s.space a ≠ some true
  balance : s.taken =
    s.given + s.out.map (Prod.mk .page) + held (lowKind s.space) s.space.pagetable
  cleaned : ∀ i, s.next = some i → ∀ j < i, (s.space.shared.vmAreas j).used = false

section Steps

variable {files : ℕ → Inode} {pt₀ pt : PageTable} {s t : State} {a : ℕ}

theorem held_kind {κ κ' : ℕ → PageKind} (h : ∀ a, Begins pt a → κ a = κ' a) :
    held κ pt = held κ' pt := by
  refine held_congr fun p _ => ?_
  unfold itemAt
  split
  · next pte hlook =>
    rw [h _ ⟨Nat.dvd_mul_left _ _, false, pte, hlook, nofun⟩]
  · rfl
  · rfl

theorem lowKind_of_not_shared {s : Space} (h : sharedAt s a ≠ some true) : lowKind s a = .page :=
  if_neg h

theorem lowKind_congr {s s' : Space} (h : sharedAt s' a = some true ↔ sharedAt s a = some true) :
    lowKind s' a = lowKind s a := by
  unfold lowKind
  simp only [h]

theorem sharedAt_congr {s s' : Space} (h : s'.shared = s.shared) : sharedAt s' = sharedAt s := by
  funext a
  rw [sharedAt, sharedAt, Space.areaAt, Space.areaAt, h]

/-- **Unmapping pages of an area keeps the balance**, for `munmap` and for `mmap_clean`. -/
theorem Inv.unmap (hi : Inv pt₀ s) {v v' : Vma} {i start npages : ℕ} {pt' : PageTable}
    {rel : List Release} (hclear : UnmapClear s.space v v' i start npages)
    (h : s.space.pagetable.uvmunmap start npages (doFree (mapShared v.flags)) = .ok (pt', rel))
    (hv' : v'.Backed) {n : Option ℕ}
    (hnext : ∀ j, n = some j → ∀ k < j, ((s.space.shared.setSlot i v').vmAreas k).used = false) :
    Inv pt₀ { s with
      space := { s.space with shared := s.space.shared.setSlot i v', pagetable := pt' }
      next := n
      given := s.given + releaseItems rel } := by
  obtain ⟨hheld, hshrinks, hmet⟩ := held_uvmunmap hi.sized hclear.1 h
  -- what is still there was not met, and its area has been kept
  have hstays : ∀ a l pte, pt'.look a = some (l, pte) →
      s.space.pagetable.look a = some (l, pte) ∧ ¬ s.space.pagetable.MetBy start npages a := by
    intro a l pte hlook
    rcases hshrinks a with hnone | heq
    · rw [hlook] at hnone
      cases hnone
    · refine ⟨heq ▸ hlook, fun hm => ?_⟩
      rw [hmet a hm] at hlook
      cases hlook
  have hkept : ∀ a, Begins pt' a → Begins s.space.pagetable a ∧
      Kept s.space (s.space.shared.setSlot i v') a := by
    rintro a ⟨hdvd, l, pte, hlook, hl⟩
    obtain ⟨hold, hnot⟩ := hstays a l pte hlook
    have hbegins : Begins s.space.pagetable a := ⟨hdvd, l, pte, hold, hl⟩
    exact ⟨hbegins, hclear.2 a hbegins hnot⟩
  refine ⟨hshrinks.sized hi.sized, AddrSpace.forall_setSlot hi.backed hv' i, fun a ha => ?_,
    fun a hdvd l pte hlook hv => ?_, ?_, hnext⟩
  · obtain ⟨hbegins, hk⟩ := hkept a ha
    exact (hi.covered a hbegins).imp_left hk.2
  · -- a page in swap is no super page
    cases l with
    | true =>
      rw [v_of_look_suppg hlook] at hv
      cases hv
    | false =>
      obtain ⟨hbegins, hk⟩ := hkept a ⟨hdvd, false, pte, hlook, nofun⟩
      exact mt hk.1.mp (hi.swapped a hdvd false pte (hstays a false pte hlook).1 hv)
  · have hkind : held (lowKind s.space) pt' = held (lowKind { s.space with
        shared := s.space.shared.setSlot i v', pagetable := pt' }) pt' :=
      held_kind fun a ha => (lowKind_congr (hkept a ha).2.1).symm
    have hbalance := hi.balance
    rw [hheld, hkind] at hbalance
    refine hbalance.trans ?_
    show s.given + s.out.map _ + (held _ pt' + releaseItems rel) =
      s.given + releaseItems rel + s.out.map _ + held _ pt'
    abel

/-- **Paging pages out for a fault keeps the balance.** -/
theorem Inv.pagesOut (hi : Inv pt₀ s) {k : Answers}
    (hout : ∀ x ∈ evictions k, x.1 < s.space.shared.sz → sharedAt s.space (pgRoundDown x.1) ≠ some true)
    (h : PagesOut s.space.shared.sz (evictions k) s.space.pagetable pt) :
    Inv pt₀ { s with
      space := { s.space with pagetable := pt }
      out := s.out + pagedOut s.space.pagetable pt } := by
  -- what has changed is a page of an area that is not shared
  have hchanged : ∀ a, PGSIZE ∣ a → pt.look a ≠ s.space.pagetable.look a →
      sharedAt s.space a ≠ some true := by
    intro a hdvd hne
    by_contra hshared
    refine hne (h.2 a fun x hx hsz hpage => hout x hx hsz ?_)
    rw [pgRoundDown, roundDown, ← hpage, Nat.div_mul_cancel hdvd]
    exact hshared
  have hold : ∀ a l pte, pt.look a = some (l, pte) → ∃ pte', s.space.pagetable.look a = some (l, pte') := by
    intro a l pte hlook
    rcases h.1 a with heq | ⟨old, idx, hlook', -, -, hnew⟩
    · exact ⟨pte, heq ▸ hlook⟩
    · rw [hlook] at hnew
      cases hnew
      exact ⟨old, hlook'⟩
  refine ⟨hi.sized.evicts h.1, hi.backed, ?_, fun a hdvd l pte hlook hv => ?_, ?_, hi.cleaned⟩
  · rintro a ⟨hdvd, l, pte, hlook, hl⟩
    obtain ⟨pte', hlook'⟩ := hold a l pte hlook
    exact hi.covered a ⟨hdvd, l, pte', hlook', hl⟩
  · by_cases hsame : pt.look a = s.space.pagetable.look a
    · exact hi.swapped a hdvd l pte (hsame ▸ hlook) hv
    · exact hchanged a hdvd hsame
  · have hheld := held_evicts hi.sized h.1 (κ := lowKind s.space) fun a hdvd hne =>
      lowKind_of_not_shared (hchanged a hdvd hne)
    have hbalance := hi.balance
    rw [hheld] at hbalance
    refine hbalance.trans ?_
    rw [Multiset.map_add]
    show _ = s.given + _ + held (lowKind s.space) pt
    abel

/-- One more page is there, of the kind that has been taken for it. -/
theorem Inv.add (hi : Inv pt₀ s) {pt' : PageTable} {x : Item} {space : Space}
    (hshared : space.shared = s.space.shared) (hpt : space.pagetable = pt')
    (hsized : pt'.Sized)
    (hheld : held (lowKind s.space) pt' = held (lowKind s.space) s.space.pagetable + {x})
    (hnew : ∀ a l pte, pt'.look a = some (l, pte) → s.space.pagetable.look a ≠ some (l, pte) →
      pte.v = true ∧ (PGSIZE ∣ a → (l = true → SUPPGSIZE ∣ a) →
        (sharedAt s.space a).isSome = true ∨ (pt₀.look a).isSome = true)) :
    Inv pt₀ { s with space := space, taken := s.taken + {x} } := by
  have hsharedAt := sharedAt_congr hshared
  refine ⟨hpt ▸ hsized, fun i => ?_, ?_, ?_, ?_, fun i hnext j hj => ?_⟩
  · show (space.shared.vmAreas i).Backed
    rw [hshared]
    exact hi.backed i
  -- the only page that may be new is the one that has been taken
  · rintro a ⟨hdvd, l, pte, hlook, hl⟩
    show (sharedAt space a).isSome = true ∨ _
    rw [hsharedAt]
    by_cases hold : s.space.pagetable.look a = some (l, pte)
    · exact hi.covered a ⟨hdvd, l, pte, hold, hl⟩
    · exact (hnew a l pte (hpt ▸ hlook) hold).2 hdvd hl
  · intro a hdvd l pte hlook hv
    show sharedAt space a ≠ some true
    rw [hsharedAt]
    by_cases hold : s.space.pagetable.look a = some (l, pte)
    · exact hi.swapped a hdvd l pte hold hv
    · rw [(hnew a l pte (hpt ▸ hlook) hold).1] at hv
      cases hv
  · show s.taken + {x} = s.given + s.out.map _ + held (lowKind space) space.pagetable
    have hkind : lowKind space = lowKind s.space := by
      funext a
      exact lowKind_congr (by rw [hsharedAt])
    rw [hkind, hpt, hheld, hi.balance]
    abel
  · show (space.shared.vmAreas j).used = false
    rw [hshared]
    exact hi.cleaned i hnext j hj

theorem takenBy_take (κ : PageKind) (mem n : ℕ) :
    takenBy [κ.take mem, .fill mem n] = {(κ, mem)} ∧ givenBy [κ.take mem, .fill mem n] = 0 := by
  cases κ <;> exact ⟨rfl, rfl⟩

theorem takenBy_give (κ : PageKind) (mem n : ℕ) :
    takenBy [κ.take mem, .fill mem n, κ.give mem] = {(κ, mem)} ∧
      givenBy [κ.take mem, .fill mem n, κ.give mem] = {(κ, mem)} := by
  cases κ <;> exact ⟨rfl, rfl⟩

/-- A failed fault gives its page back in the way in which it was obtained. -/
theorem giveBack_eq {v : Vma} {mem : ℕ} (hb : v.Backed) (hmem : isSuppg mem = (kindOf v).suppg)
    (hip : mapPrivate v.flags = true ∨ v.ip.isSome = true) :
    v.giveBack mem = [(kindOf v).give mem] := by
  unfold Vma.giveBack
  unfold kindOf at hmem ⊢
  by_cases hprivate : mapPrivate v.flags = true
  · rw [if_pos hprivate] at hmem ⊢
    rw [if_pos hprivate, hmem]
    by_cases hsuppg : mapSuppg v.flags = true
    · rw [if_pos hsuppg]
      rfl
    · rw [if_neg hsuppg]
      rfl
  · have hfile : v.file.isSome = true := by
      rw [← hb.resolve_left hprivate]
      exact hip.resolve_left hprivate
    rw [if_neg hprivate, if_neg hprivate, if_pos hfile]
    rfl

theorem pagedOut_congr {pt' pt'' : PageTable}
    (h : ∀ a pte, pt.look a = some (false, pte) → pte.v = true → pt''.look a = pt'.look a) :
    pagedOut pt pt'' = pagedOut pt pt' := by
  refine Finset.sum_congr rfl fun p _ => ?_
  unfold outAt
  cases hlook : pt.look (p * PGSIZE) with
  | none => rfl
  | some x =>
    obtain ⟨l, pte⟩ := x
    cases l with
    | true => rfl
    | false =>
      by_cases hv : pte.v = true
      · rw [h _ pte hlook hv]
      · -- what is not in memory is not paged out
        have hzero : ∀ y : Option (Bool × Pte), (match some (false, pte), y with
            | some (false, pte), some (false, pte') => if pte.v ∧ pte'.pg then ({pte.pa} : Multiset ℕ) else 0
            | _, _ => 0) = 0 := by
          rintro (_ | ⟨_ | _, pte'⟩)
          · rfl
          · exact if_neg fun hc => hv hc.1
          · rfl
        rw [hzero, hzero]

/-- The area that a fault is for covers the page. -/
theorem covers_of_areaAt {s : Space} {v : Vma} {p : ℕ} (h : s.areaAt p = some v) :
    v.covers p = true := by
  have hcov := List.find?_some h
  exact hcov

theorem sharedAt_isSome {s : Space} {v : Vma} {p : ℕ} (h : s.areaAt p = some v) (hle : v.addr ≤ a)
    (ha : a ≤ p) : (sharedAt s a).isSome = true := by
  have hcov := covers_of_areaAt h
  have hcov' : v.covers a = true := by
    simp only [Vma.covers, Bool.and_eq_true, decide_eq_true_eq] at hcov ⊢
    exact ⟨⟨hcov.1.1, hle⟩, lt_of_le_of_lt ha hcov.2⟩
  rw [sharedAt, Option.isSome_map]
  exact List.find?_isSome.mpr ⟨v, List.mem_of_find?_eq_some h, hcov'⟩

/-- The user's pages in memory are those that `walkaddr` finds. -/
theorem noLeaf_of_walkaddr {p : ℕ} (hsized : pt.Sized)
    (huser : ∀ l pte, pt.look p = some (l, pte) → pte.v = true → pte.u = true)
    (h : pt.walkaddr p = 0) : pt.NoLeaf p := by
  intro l pte hlook
  cases hv : pte.v with
  | false => rfl
  | true =>
    rw [walkaddr, hlook] at h
    dsimp only at h
    rw [if_pos ⟨hv, huser l pte hlook hv⟩] at h
    exact absurd h (hsized p l pte hlook hv).2.2

/-- The kind of the page that an area with exactly one of the two flags gets -/
theorem kindOf_eq {s : Space} {v : Vma} {p : ℕ} (harea : s.areaAt p = some v)
    (hflags : mapPrivate v.flags ≠ mapShared v.flags) :
    (if (kindOf v).suppg then .suppage else lowKind s p) = kindOf v := by
  have hshared : sharedAt s p = some (mapShared v.flags) := by rw [sharedAt, harea]; rfl
  unfold kindOf lowKind
  rw [hshared]
  cases hp : mapPrivate v.flags <;> cases hs : mapShared v.flags <;>
    cases hg : mapSuppg v.flags <;> simp_all [PageKind.suppg]

/-- The contents of memory are not in the ledger. -/
theorem Inv.congr (hi : Inv pt₀ s) (hshared : t.space.shared = s.space.shared)
    (hpt : t.space.pagetable = s.space.pagetable) (hnext : t.next = s.next)
    (htaken : t.taken = s.taken) (hgiven : t.given = s.given) (hout : t.out = s.out) : Inv pt₀ t := by
  have hsharedAt := sharedAt_congr hshared
  have hkind : lowKind t.space = lowKind s.space := by
    funext a
    exact lowKind_congr (by rw [hsharedAt])
  refine ⟨?_, ?_, ?_, ?_, ?_, ?_⟩
  · rw [hpt]
    exact hi.sized
  · rw [hshared]
    exact hi.backed
  · rw [hpt, hsharedAt]
    exact hi.covered
  · rw [hpt, hsharedAt]
    exact hi.swapped
  · rw [htaken, hgiven, hout, hkind, hpt]
    exact hi.balance
  · rw [hnext, hshared]
    exact hi.cleaned

/-- A page that is marked as being in swap is no super page and not in memory. -/
theorem swapped_look {l : Bool} {pte : Pte} (hsized : pt.Sized) (h : pt.look a = some (l, pte))
    (hpg : pte.pg = true) : pte.v = false ∧ l = false := by
  have hv : pte.v = false := by
    cases hv : pte.v with
    | false => rfl
    | true =>
      rw [(hsized a l pte h hv).2.1] at hpg
      cases hpg
  refine ⟨hv, ?_⟩
  cases l with
  | false => rfl
  | true =>
    rw [v_of_look_suppg h] at hv
    cases hv

theorem eq_of_div {g b : ℕ} (ha : g ∣ a) (hb : g ∣ b) (h : a / g = b / g) : a = b := by
  rw [← Nat.div_mul_cancel ha, h, Nat.div_mul_cancel hb]

/-- What is found only after a page has been mapped is that page. -/
theorem look_new {pt' : PageTable} {va n : ℕ} {suppg l : Bool} {pte q : Pte}
    (h : pt.mapPage va suppg pte n = .ok (pt', true)) (hv : pte.v = true)
    (hq : pt'.look a = some (l, q)) (hne : pt.look a ≠ some (l, q)) :
    q.v = true ∧ (PGSIZE ∣ a → (l = true → SUPPGSIZE ∣ a) → a = va) := by
  have halign := mapPage_aligned h
  rw [look_mapPage h hv] at hq
  by_cases hin : a < MAXVA ∧ a / (if suppg then SUPPGSIZE else PGSIZE) =
      va / (if suppg then SUPPGSIZE else PGSIZE)
  · rw [if_pos hin] at hq
    cases hq
    refine ⟨hv, fun hdvd hl => ?_⟩
    cases suppg with
    | true => exact eq_of_div (hl rfl) halign hin.2
    | false => exact eq_of_div hdvd halign hin.2
  · rw [if_neg hin] at hq
    exact absurd hq hne

/-- What is not as before is in the page that has been mapped. -/
theorem look_old {pt' : PageTable} {va n : ℕ} {suppg : Bool} {pte : Pte}
    (h : pt.mapPage va suppg pte n = .ok (pt', true)) (hv : pte.v = true)
    (hne : pt'.look a ≠ pt.look a) :
    a / (if suppg then SUPPGSIZE else PGSIZE) = va / (if suppg then SUPPGSIZE else PGSIZE) := by
  by_contra hin
  exact hne (by rw [look_mapPage h hv, if_neg fun hc => hin hc.2])

/-- **A fault keeps the balance.** -/
theorem Inv.fault (hi : Inv pt₀ s) {k : Answers} {p : ℕ} {s' : Space} {ops : List PageOp}
    (hp : PGSIZE ∣ p) (hclear : FaultClear s.space k p) (h : Faulted s.space k p s' ops) :
    Inv pt₀ { s with
      space := s'
      taken := s.taken + takenBy ops
      given := s.given + givenBy ops
      out := s.out + pagedOut s.space.pagetable s'.pagetable } := by
  cases h with
  | kept hshared hout =>
    have hi₁ := hi.pagesOut hclear.out hout
    exact hi₁.congr hshared rfl rfl (add_zero _) (add_zero _) rfl
  | @pagein l pte mem n pt hshared hlt hlook hpg hmem hout hpt =>
    have hi₁ := hi.pagesOut hclear.out hout
    obtain ⟨hv, rfl⟩ := swapped_look hi.sized hlook hpg
    have hsame : pt.look p = some (false, pte) := by
      rcases hout.1 p with heq | ⟨old, idx, hold, hvalid, -⟩
      · exact heq.trans hlook
      · cases hlook.symm.trans hold
        rw [hv] at hvalid
        cases hvalid
    obtain ⟨t, ht, -, -⟩ := table_of_look hsame
    have hpte : (pteIn (mem / PGSIZE) pte).pa = mem := pa_pteIn hmem.2.1 pte
    have hset : ∀ a, (pt.setLow p (pteIn (mem / PGSIZE) pte)).look a =
        if a < MAXVA ∧ a / PGSIZE = p / PGSIZE then some (false, pteIn (mem / PGSIZE) pte)
        else pt.look a := fun a => by
      rw [look_setLow hlt ht]
      rfl
    have hkind : lowKind s.space p = .page :=
      lowKind_of_not_shared (hi.swapped p hp false pte hlook hv)
    have hadd := hi₁.add (x := (.page, mem)) (show s'.shared = _ from hshared) hpt
      (hi₁.sized.setLow hlt ht fun _ => by
        rw [hpte]
        exact ⟨hmem.1, rfl, hmem.2.2⟩)
      (by
        show held (lowKind s.space) _ = held (lowKind s.space) pt + _
        obtain ⟨-, hpage⟩ := page_lt hlt hp
        have hex := held_small (κ := lowKind s.space) hlt hp fun a ha =>
          show (pt.setLow p (pteIn (mem / PGSIZE) pte)).look a = pt.look a by
            rw [hset, if_neg fun hc => ha hc.2]
        rw [itemAt_small (by rw [hpage, hsame]), hv, if_neg Bool.false_ne_true, add_zero,
          itemAt_small (by rw [hpage, hset, if_pos ⟨hlt, rfl⟩]), hpage, hpte, hkind] at hex
        exact hex)
      fun a l q hq hne => by
        rw [hset] at hq
        by_cases ha : a < MAXVA ∧ a / PGSIZE = p / PGSIZE
        · rw [if_pos ha] at hq
          cases hq
          refine ⟨rfl, fun hdvd _ => ?_⟩
          rw [eq_of_div hdvd hp ha.2]
          exact hi₁.covered p ⟨hp, false, pte, hsame, nofun⟩
        · rw [if_neg ha] at hq
          exact absurd hq hne
    refine hadd.congr rfl rfl rfl rfl (add_zero _) ?_
    refine congrArg (s.out + ·) (pagedOut_congr fun a q hq hqv => ?_)
    rw [hpt, hset, if_neg]
    rintro ⟨-, hpage⟩
    rw [look_congr hpage, hlook] at hq
    cases hq
    rw [hv] at hqv
    cases hqv
  | @mapped v mem n m pt hshared harea hwalk hmem hout hmap =>
    have hi₁ := hi.pagesOut hclear.out hout
    have hno : s.space.pagetable.NoLeaf p := noLeaf_of_walkaddr hi.sized hclear.user hwalk
    have hlook := look_mapPage hmap rfl
    have hbase := mapPage_aligned hmap
    have hpa : (userPte mem v.prot).pa = mem := pa_userPte hmem.2.1 v.prot
    have hkind := kindOf_eq harea (hclear.flags v harea hwalk)
    have hadd := hi₁.add (x := (kindOf v, mem)) (show s'.shared = _ from hshared) rfl
      (hi₁.sized.mapPage rfl (by
        rw [hpa]
        exact ⟨hmem.1, rfl, hmem.2.2⟩) hmap)
      (by
        show held (lowKind s.space) _ = held (lowKind s.space) pt + _
        rw [held_mapPage (κ := lowKind s.space) hmap rfl, hpa]
        refine congrArg (fun κ => held (lowKind s.space) pt + {(κ, mem)}) (Eq.trans ?_ hkind)
        unfold baseOf
        split <;> rfl)
      fun a l q hq hne => by
        obtain ⟨hv, hbegin⟩ := look_new hmap rfl hq hne
        refine ⟨hv, fun hdvd hl => .inl ?_⟩
        rw [hbegin hdvd hl]
        unfold baseOf
        split
        · next hsuppg =>
          refine sharedAt_isSome (s := s.space) harea (hclear.inside v harea hwalk ?_)
            (roundDown_le _ _)
          cases hκ : kindOf v with
          | suppage => rfl
          | page | buffer =>
            rw [hκ] at hsuppg
            cases hsuppg
        · exact sharedAt_isSome (s := s.space) harea (addr_le_of_areaAt harea) le_rfl
    obtain ⟨htaken, hgiven⟩ := takenBy_take (kindOf v) mem n
    refine hadd.congr rfl rfl rfl (congrArg (s.taken + ·) htaken) ?_ ?_
    · exact (congrArg (s.given + ·) hgiven).trans (add_zero _)
    refine congrArg (s.out + ·) (pagedOut_congr fun a q hq hqv => ?_)
    -- the new page is where nothing was in memory
    by_contra hne
    have hnew := look_old hmap rfl hne
    unfold baseOf at hmap hnew
    split at hnew
    · next hsuppg =>
      rw [if_pos hsuppg] at hmap
      rw [hsuppg] at hmap
      rcases hout.1 a with heq | ⟨old, idx, -, -, -, hafter⟩
      · rw [look_none_of_mapPage hmap hnew, hq] at heq
        cases heq
      · rw [look_none_of_mapPage hmap hnew] at hafter
        cases hafter
    · rw [look_congr hnew] at hq
      rw [hno false q hq] at hqv
      cases hqv
  | @failed v mem n hshared harea hmem hip hout =>
    have hi₁ := hi.pagesOut hclear.out hout
    obtain ⟨i, -, rfl⟩ := List.mem_map.mp (List.mem_of_find?_eq_some harea)
    rw [giveBack_eq (hi.backed i) hmem hip]
    obtain ⟨htaken, hgiven⟩ := takenBy_give (kindOf (s.space.shared.vmAreas i)) mem n
    refine Inv.congr (s := { s with
      space := { s.space with pagetable := s'.pagetable }
      out := s.out + pagedOut s.space.pagetable s'.pagetable
      taken := s.taken + {(kindOf (s.space.shared.vmAreas i), mem)}
      given := s.given + {(kindOf (s.space.shared.vmAreas i), mem)} }) ?_ hshared rfl rfl ?_ ?_ rfl
    · refine ⟨hi₁.sized, hi₁.backed, hi₁.covered, hi₁.swapped, ?_, hi₁.cleaned⟩
      have hbalance := hi₁.balance
      dsimp only at hbalance ⊢
      rw [hbalance]
      abel
    · exact congrArg (s.taken + ·) htaken
    · exact congrArg (s.given + ·) hgiven

/-- What `munmap` gives back -/
theorem munmap_releases {writei : FileWrite → Bool} {s t : AddrSpace} {addr len ret : ℕ}
    {eff : MunmapEffects} (h : s.munmap writei addr len = .ok (t, ret, eff)) :
    t = s ∧ eff.releases = [] ∨
    addr % PGSIZE = 0 ∧ pgRoundDown len ≠ 0 ∧ ∃ i pt', s.mmapped addr = some i ∧
      s.pagetable.uvmunmap addr (pgRoundUp (pgRoundDown len) / PGSIZE)
        (doFree (mapShared (s.shared.vmAreas i).flags)) = .ok (pt', eff.releases) ∧
      t = ⟨s.shared.setSlot i ((s.shared.vmAreas i).cut addr (pgRoundDown len)), pt'⟩ := by
  rw [AddrSpace.munmap] at h
  split at h
  · cases h
    exact .inl ⟨rfl, rfl⟩
  next haddr =>
  simp only at h
  split at h
  · cases h
    exact .inl ⟨rfl, rfl⟩
  next hlen =>
  split at h
  · cases h
    exact .inl ⟨rfl, rfl⟩
  next i hi =>
  split at h
  · cases h
  · split at h
    · cases h
    next pt' rel hunmap =>
    cases h
    exact .inr ⟨not_not.mp haddr, hlen, i, pt', hi, hunmap, rfl⟩

/-- What a turn of `mmap_clean` gives back -/
theorem mmapCleanSlot_releases {writei : FileWrite → Bool} {s t : AddrSpace} {i : ℕ}
    {eff : MunmapEffects} {put : Option ℕ}
    (h : s.mmapCleanSlot writei i = .ok (t, eff, put)) :
    (s.shared.vmAreas i).used = false ∧ t = s ∧ eff.releases = [] ∨
    (s.shared.vmAreas i).used = true ∧ ∃ pt',
      s.pagetable.uvmunmap (s.shared.vmAreas i).addr
        (pgRoundUp (s.shared.vmAreas i).length / PGSIZE)
        (doFree (mapShared (s.shared.vmAreas i).flags)) = .ok (pt', eff.releases) ∧
      t = ⟨s.shared.setSlot i { s.shared.vmAreas i with used := false }, pt'⟩ := by
  unfold AddrSpace.mmapCleanSlot at h
  dsimp only at h
  split at h
  · next hu =>
    cases h
    exact .inl ⟨by simpa using hu, rfl, rfl⟩
  next hu =>
  split at h
  · cases h
  split at h
  · cases h
  next pt' rel hunmap =>
  cases h
  exact .inr ⟨by simpa using hu, pt', hunmap, rfl⟩

theorem inv_init (h : Init pt₀ s) : Inv pt₀ s := by
  obtain ⟨hareas, hpt, hsized, hnext, hgiven, hout, htaken⟩ := h
  -- no area is shared yet
  have hnone : ∀ a, sharedAt s.space a ≠ some true := by
    intro a hshared
    obtain ⟨v, harea, hv⟩ := Option.map_eq_some_iff.mp hshared
    obtain ⟨i, -, rfl⟩ := List.mem_map.mp (List.mem_of_find?_eq_some harea)
    rw [(hareas i).2.1] at hv
    cases hv
  refine ⟨hpt ▸ hsized, fun i => ?_, fun a ⟨_, l, pte, hlook, _⟩ => .inr ?_,
    fun a _ _ _ _ _ => hnone a, ?_, fun i hi => ?_⟩
  · obtain ⟨hfile, -, hip | hprivate⟩ := hareas i
    · exact .inr (by rw [hfile, hip]; rfl)
    · exact .inl hprivate
  · rw [← hpt, hlook]
    rfl
  · have hkind : lowKind s.space = fun _ => .page := funext fun a => lowKind_of_not_shared (hnone a)
    rw [htaken, hgiven, hout, hkind, hpt, Multiset.map_zero, zero_add, zero_add]
  · rw [hnext] at hi
    cases hi

theorem backed_cut {v : Vma} (h : v.Backed) (addr len : ℕ) : (v.cut addr len).Backed := by
  unfold Vma.cut
  split <;> exact h

/-- **Every careful step keeps the balance.** -/
theorem inv_step {a : Act} (hi : Inv pt₀ s) (hg : Careful s a) (h : step files s a = some t) :
    Inv pt₀ t := by
  -- `mmap` and `exit` leave the pages alone; the others take or give some
  cases a with
  | mmap addr length prot flags f offset =>
    simp only [step] at h
    split at h
    · cases h
    next hnext =>
    split at h
    · cases h
    next ts' ret refs hcall =>
    cases h
    have hk := hg ts' ret refs hcall
    refine ⟨hi.sized, ?_, fun a ha => (hi.covered a ha).imp_left (hk a ha).2, ?_, ?_, ?_⟩
    · refine AddrSpace.forall_vmaCreate (fun _ _ _ _ => id) hi.backed (fun addr' => .inr ?_) hcall
      cases f <;> rfl
    · intro a hdvd l pte hlook hv
      cases l with
      | true =>
        rw [v_of_look_suppg hlook] at hv
        cases hv
      | false =>
        exact mt (hk a ⟨hdvd, false, pte, hlook, nofun⟩).1.mp (hi.swapped a hdvd false pte hlook hv)
    · refine hi.balance.trans (congrArg _ (held_kind fun a ha => ?_))
      exact (lowKind_congr (hk a ha).1).symm
    · intro i hsome
      rw [show s.next = none from Option.not_isSome_iff_eq_none.mp hnext] at hsome
      cases hsome
  | munmap writei addr length =>
    simp only [step] at h
    split at h
    · cases h
    next hnext =>
    split at h
    · cases h
    next t' ret eff hcall =>
    cases h
    rcases munmap_releases hcall with ⟨rfl, hrel⟩ | ⟨haddr, hlen, i, pt', hfind, hunmap, rfl⟩
    · exact hi.congr rfl rfl rfl rfl (by rw [hrel]; exact add_zero _) rfl
    · refine (hi.unmap (hg haddr hlen i hfind) hunmap (backed_cut (hi.backed i) _ _)
        (n := s.next) fun j hj => ?_).congr rfl rfl rfl rfl rfl rfl
      rw [show s.next = none from Option.not_isSome_iff_eq_none.mp hnext] at hj
      cases hj
  | fault k va =>
    simp only [step] at h
    split at h
    · cases h
    split at h
    · cases h
    next t' r ops hcall =>
    cases h
    exact hi.fault (dvd_roundDown _ _) hg (vmaHandlePages_faulted hcall)
  | exit =>
    simp only [step] at h
    split at h
    · cases h
    · cases h
      refine ⟨hi.sized, hi.backed, hi.covered, hi.swapped, hi.balance, fun i hsome j hj => ?_⟩
      cases hsome
      exact absurd hj (Nat.not_lt_zero j)
  | clean writei =>
    simp only [step] at h
    split at h
    · cases h
    next i hnext =>
    split at h
    swap
    · cases h
    split at h
    · cases h
    next t' eff put hcall =>
    cases h
    rcases mmapCleanSlot_releases hcall with ⟨hu, rfl, hrel⟩ | ⟨hu, pt', hunmap, rfl⟩
    · refine ⟨hi.sized, hi.backed, hi.covered, hi.swapped, ?_, fun j hj k hk => ?_⟩
      · rw [hrel, releaseItems_nil, add_zero]
        exact hi.balance
      · cases hj
        rcases Nat.lt_succ_iff_lt_or_eq.mp hk with hlt | rfl
        · exact hi.cleaned i hnext k hlt
        · exact hu
    · refine (hi.unmap (hg i hnext hu) hunmap (hi.backed i) (n := some (i + 1))
        fun j hj k hk => ?_).congr rfl rfl rfl rfl rfl rfl
      cases hj
      by_cases hki : k = i
      · rw [hki, ThreadShared.setSlot_self]
      · rw [ThreadShared.setSlot_of_ne _ _ hki]
        exact hi.cleaned i hnext k (lt_of_le_of_ne (Nat.lt_succ_iff.mp hk) hki)

/-- What is held is somewhere in the page table. -/
theorem mem_held {κ : ℕ → PageKind} {x : Item} (hx : x ∈ held κ pt) :
    ∃ a l pte, Begins pt a ∧ pt.look a = some (l, pte) ∧ x = (if l then .suppage else κ a, pte.pa) := by
  obtain ⟨p, -, hp⟩ := Multiset.mem_sum.mp hx
  unfold itemAt at hp
  split at hp
  · next pte hlook =>
    split at hp
    · exact ⟨_, false, pte, ⟨Nat.dvd_mul_left _ _, false, pte, hlook, nofun⟩, hlook,
        Multiset.mem_singleton.mp hp⟩
    · exact absurd hp (Multiset.notMem_zero x)
  · next pte hlook =>
    split at hp
    · next hdvd =>
      exact ⟨_, true, pte, ⟨Nat.dvd_mul_left _ _, true, pte, hlook, fun _ => hdvd⟩, hlook,
        Multiset.mem_singleton.mp hp⟩
    · exact absurd hp (Multiset.notMem_zero x)
  · exact absurd hp (Multiset.notMem_zero x)

/-- Without areas, nothing is there but at addresses of the program. -/
theorem Inv.right (hi : Inv pt₀ s) : Right pt₀ s := by
  refine ⟨?_, fun hend => ⟨_, hi.balance, fun x hx => ?_⟩⟩
  · rw [hi.balance]
    exact Multiset.le_add_right _ _
  · have hnone : ∀ a, sharedAt s.space a = none := fun a => by
      rw [sharedAt, Option.map_eq_none_iff, Space.areaAt, List.find?_eq_none]
      rintro v hv
      obtain ⟨j, hj, rfl⟩ := List.mem_map.mp hv
      simp [Vma.covers, hi.cleaned MAX_VMA hend j (List.mem_range.mp hj)]
    obtain ⟨a, l, pte, hbegins, hlook, hx⟩ := mem_held hx
    have hcovered := hi.covered a hbegins
    rw [hnone a] at hcovered
    refine ⟨a, l, pte, hcovered.resolve_left Bool.false_ne_true, hlook, ?_⟩
    rw [hx, lowKind_of_not_shared (by rw [hnone a]; rintro ⟨⟩)]

end Steps

/-! ## Both flags at once -/

/-- A process without areas and pages -/
def blank : State := ⟨FaultPages.blank, none, 0, 0, 0⟩

theorem sized_empty : PageTable.empty.Sized := by
  intro va l pte hlook hv
  rw [FaultPages.noLeaf_empty va l pte hlook] at hv
  cases hv

end Xv6.Kernel.PageLedger
