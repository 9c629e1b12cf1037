import Mathlib
import Xv6.Lib.TransitionSystem
import Xv6.Kernel.ExecFailure
import Xv6.Kernel.FixedMapping
import Xv6.Kernel.PageLedger
import Xv6.Kernel.UserPointers

/-!
# What `sbrk` Promises

The heap of a process is what lies between a base that `exec` fixes and the size of the process.
`vma_sbrk` moves its end in three places that have to agree: the size, the heap area and the page
table. It looks at the result of none of the calls by which it does so.

- `Contract`: a call is refused and changes nothing, or the three agree afterwards, every page of
  the heap faults in and nothing else has changed;
- `Careful`, `Open`: the conditions on the calls;
- `sbrk_contract`: runs in which every call meets its condition.
-/

namespace Xv6.Kernel.HeapContract

open Xv6.Lib
open Xv6.Kernel.Swap (pteIn pteOut)
open FixedMapping (range TableInv GrowClear ShrinkClear HoleClear FixClear CutClear SegmentsClear
  sysMmap)
open ThreadShared (fixSlots)
open PageTable UserCopy

/-! ## Unmapping small pages -/

section Unmap

variable {pt pt' : PageTable} {a start npages last : ℕ}

/-- The pages that a range of addresses meets have 4 KiB and can be read. -/
def SmallPages (pt : PageTable) (start last : ℕ) : Prop :=
  ∀ p, PGSIZE ∣ p → start ≤ p → p < last → ∀ l pte, pt.look p = some (l, pte) →
    l = false ∧ pte.r = true

theorem onlyV_of_r {pte : Pte} (h : pte.r = true) : pte.onlyV = false := by
  simp [Pte.onlyV, h]

/-- A turn of `uvmunmap` at a small page that can be read, or where no page is: it goes on by a
    page, and only that page is gone. -/
theorem uvmunmapStep_small (hsized : pt.Sized) (ha : a < MAXVA) (doFree : ℕ)
    (hsmall : ∀ l pte, pt.look a = some (l, pte) → l = false ∧ pte.r = true) :
    ∃ pt₁ rel, uvmunmapStep pt a PGSIZE doFree = .ok (pt₁, PGSIZE, rel) ∧
      ∀ b, pt₁.look b = if b / PGSIZE = a / PGSIZE then none else pt.look b := by
  obtain ⟨pt₁, rel, hstep⟩ : ∃ pt₁ rel, uvmunmapStep pt a PGSIZE doFree = .ok (pt₁, PGSIZE, rel) := by
    unfold uvmunmapStep PageTable.walk
    rw [if_neg (Nat.not_le.mpr ha)]
    -- no table, a superpage, or an entry of a table that is valid, swapped out or unused
    cases hslot : pt.slot a with
    | none => exact ⟨_, _, rfl⟩
    | some σ =>
      dsimp only
      obtain ⟨-, ⟨pte, hp, -, -, -, hlook⟩ | ⟨t, -, rfl, hget, hlook⟩⟩ :=
        PageLedger.slot_cases hslot
      · nomatch (hsmall _ _ hlook).1
      · rw [hget]
        cases hv : (t (px 0 a)).v with
        | true =>
          have hl : pt.look a = some (false, t (px 0 a)) := by
            rw [hlook]
            simp [Pte.present, hv]
          obtain ⟨hpa, hpg, -⟩ := hsized a _ _ hl hv
          simp only [hpg, Bool.false_eq_true, if_false, hget, hv, Bool.not_true,
            onlyV_of_r (hsmall _ _ hl).2, strideOf, hpa]
          exact ⟨_, _, rfl⟩
        | false =>
          cases hpg : (t (px 0 a)).pg with
          | true =>
            have hclear : (pt.clearPg (.low (px 2 a) (px 1 a) (px 0 a))).get
                (.low (px 2 a) (px 1 a) (px 0 a)) = { t (px 0 a) with pg := false } := by
              rw [clearPg, get_modify_self hslot, hget]
            simp only [if_true, hclear, hv, Bool.not_false]
            exact ⟨_, _, rfl⟩
          | false =>
            simp only [Bool.false_eq_true, if_false, hget, hv, Bool.not_false, if_true]
            exact ⟨_, _, rfl⟩
  refine ⟨pt₁, rel, hstep, fun b => ?_⟩
  have hpage : (if b < MAXVA ∧ b / PGSIZE = a / PGSIZE then none else pt.look b) =
      if b / PGSIZE = a / PGSIZE then none else pt.look b := by
    by_cases hb : b < MAXVA
    · simp only [hb, true_and]
    · rw [if_neg fun hc => hb hc.1, look, if_neg hb, ite_self]
  rcases PageLedger.uvmunmapStep_look hsized hstep with ⟨-, -, hlook⟩ | ⟨l, pte, hl, -, -, hlook⟩
  · rw [hlook b, hpage]
  · obtain ⟨rfl, -⟩ := hsmall l pte hl
    rw [hlook b]
    exact hpage

/-- The turns of `uvmunmap` from `a` on, by induction on the pages that are left -/
theorem uvmunmapFrom_small (hsized : pt.Sized) (ha : PGSIZE ∣ a) (hlast : last = a + npages * PGSIZE)
    (hmax : last ≤ MAXVA) (hsmall : SmallPages pt a last) (doFree : ℕ) :
    ∃ pt' rel, uvmunmapFrom doFree last npages pt a PGSIZE = .ok (pt', rel) ∧ pt'.Sized ∧
      ∀ b, pt'.look b = if a ≤ b ∧ b < last then none else pt.look b := by
  induction npages generalizing pt a with
  | zero =>
    refine ⟨pt, [], rfl, hsized, fun b => (if_neg ?_).symm⟩
    rw [hlast, Nat.zero_mul]
    omega
  | succ npages ih =>
    have halt : a < last := by
      simp only [PGSIZE] at *
      omega
    obtain ⟨pt₁, rel, hstep, hlook⟩ := uvmunmapStep_small hsized (halt.trans_le hmax) doFree
      (hsmall a ha le_rfl halt)
    have hshrinks := PageLedger.shrinks_uvmunmapStep hsized hstep
    have hsmall₁ : SmallPages pt₁ (a + PGSIZE) last := fun p hp hle hlt l pte hl => by
      rcases hshrinks p with hnone | heq
      · rw [hnone] at hl
        cases hl
      · exact hsmall p hp (by omega) hlt l pte (heq ▸ hl)
    obtain ⟨pt', rel', hrest, hsized', hlook'⟩ := ih (hshrinks.sized hsized)
      (Nat.dvd_add ha (Nat.dvd_refl _)) (by rw [hlast]; ring) hsmall₁
    refine ⟨pt', rel ++ rel', ?_, hsized', fun b => ?_⟩
    · rw [uvmunmapFrom, if_pos halt, hstep]
      simp only [hrest]
    · -- the first page, and the pages behind it
      rw [hlook', hlook]
      have hfirst : b / PGSIZE = a / PGSIZE ↔ a ≤ b ∧ b < a + PGSIZE := by
        simp only [PGSIZE] at *
        omega
      have hnext : a + PGSIZE ≤ last := by
        simp only [PGSIZE] at *
        omega
      by_cases hb : a ≤ b ∧ b < last
      · rw [if_pos hb]
        by_cases hge : a + PGSIZE ≤ b
        · rw [if_pos ⟨hge, hb.2⟩]
        · rw [if_neg fun hc => hge hc.1, if_pos (hfirst.mpr ⟨hb.1, Nat.lt_of_not_ge hge⟩)]
      · rw [if_neg hb, if_neg fun hc => hb ⟨(Nat.le_add_right _ _).trans hc.1, hc.2⟩,
          if_neg fun hc => hb ⟨(hfirst.mp hc).1, (hfirst.mp hc).2.trans_le hnext⟩]

/-- **Unmapping small pages**: exactly the pages of the range go. -/
theorem uvmunmap_small (hsized : pt.Sized) (ha : PGSIZE ∣ a) (hmax : a + npages * PGSIZE ≤ MAXVA)
    (hsmall : SmallPages pt a (a + npages * PGSIZE)) (doFree : ℕ) :
    ∃ pt' rel, pt.uvmunmap a npages doFree = .ok (pt', rel) ∧ pt'.Sized ∧
      ∀ b, pt'.look b = if a ≤ b ∧ b < a + npages * PGSIZE then none else pt.look b := by
  unfold PageTable.uvmunmap
  have hend : add64 a (npages * PGSIZE) = a + npages * PGSIZE := by
    refine Nat.mod_eq_of_lt (lt_of_le_of_lt hmax ?_)
    simp only [MAXVA]
    omega
  rw [if_neg (not_not.mpr (Nat.mod_eq_zero_of_dvd ha)), hend]
  exact uvmunmapFrom_small hsized ha rfl hmax hsmall doFree

/-- **Giving memory back**: exactly the pages that begin between the two sizes go. -/
theorem uvmdealloc_small (hsized : pt.Sized) {oldsz newsz : ℕ} (hold : oldsz ≤ MAXVA)
    (hpos : 0 < newsz) (hlt : newsz < oldsz) (hsmall : SmallPages pt newsz oldsz) :
    ∃ pt' sz rel, pt.uvmdealloc oldsz newsz = .ok (pt', sz, rel) ∧ pt'.Sized ∧
      ∀ p, pt'.look p =
        if pgRoundUp newsz ≤ p ∧ p < pgRoundUp oldsz then none else pt.look p := by
  -- rounding up does not wrap below `MAXVA`
  have hround : ∀ a, a ≤ MAXVA → a ≤ pgRoundUp a ∧ pgRoundUp a < a + PGSIZE ∧ PGSIZE ∣ pgRoundUp a := by
    intro a ha
    have hadd : add64 a (PGSIZE - 1) = a + (PGSIZE - 1) := by
      refine Nat.mod_eq_of_lt ?_
      simp only [PGSIZE, MAXVA] at *
      omega
    unfold pgRoundUp roundUp
    rw [hadd]
    refine ⟨?_, ?_, Nat.dvd_mul_left _ _⟩ <;> simp only [PGSIZE] <;> omega
  obtain ⟨hn1, hn2, hn3⟩ := hround newsz (by omega)
  obtain ⟨ho1, ho2, ho3⟩ := hround oldsz hold
  unfold PageTable.uvmdealloc
  rw [if_neg (by omega)]
  by_cases hpages : pgRoundUp newsz < pgRoundUp oldsz
  · rw [if_pos hpages]
    simp only [if_neg hpos.ne']
    have hcount : pgRoundUp newsz + (pgRoundUp oldsz - pgRoundUp newsz) / PGSIZE * PGSIZE =
        pgRoundUp oldsz := by
      rw [Nat.div_mul_cancel (Nat.dvd_sub ho3 hn3)]
      omega
    have hmax : pgRoundUp oldsz ≤ MAXVA := by
      have hdvd : PGSIZE ∣ MAXVA := by decide
      simp only [PGSIZE, MAXVA] at *
      omega
    have hrange : SmallPages pt (pgRoundUp newsz) (pgRoundUp oldsz) := by
      intro p hp hle hlt' l pte hl
      refine hsmall p hp (hn1.trans hle) ?_ l pte hl
      simp only [PGSIZE] at *
      omega
    obtain ⟨pt', rel, hunmap, hsized', hlook⟩ := uvmunmap_small hsized hn3
      (by rw [hcount]; exact hmax) (by rw [hcount]; exact hrange) 1
    rw [hunmap]
    refine ⟨pt', newsz, rel, rfl, hsized', fun p => ?_⟩
    rw [hlook p, hcount]
  · rw [if_neg hpages]
    exact ⟨pt, newsz, [], rfl, hsized, fun p => (if_neg (by omega)).symm⟩

end Unmap

/-! ## Pages that fault in -/

/-- Every address of the page faults in, as far as there is memory. -/
def FaultsIn (files : ℕ → Inode) (s : Space) (va : ℕ) : Prop :=
  ∀ k : Answers, k.page.isSome = true → 2 ≤ k.tables →
    ∃ s', s.vmaHandle files k va = .ok (s', some false) ∧ UserMapped s'.pagetable va

section Faults

variable {files : ℕ → Inode} {s : Space} {k : Answers} {va p : ℕ} {v : Vma}

end Faults

/-! ## Where the areas of a process lie -/

/-- The area was made by `mmap`. -/
def IsMapping (v : Vma) : Prop := v.type = .fix ∨ v.type = .dynamic

/-- The heap area covers exactly the addresses from the base to the size, and there is none if there
    are no such addresses. -/
def HeapCovers (ts : ThreadShared) (base : ℕ) : Prop :=
  (∀ k < MAX_VMA, (ts.vmAreas k).used = true → (ts.vmAreas k).type = .heap →
    (ts.vmAreas k).addr = base ∧ (ts.vmAreas k).addr + (ts.vmAreas k).length = ts.sz) ∧
  ((∃ k < MAX_VMA, (ts.vmAreas k).used = true ∧ (ts.vmAreas k).type = .heap) ↔ base < ts.sz)

/-- The program lies below the base, the heap from the base to the size, and what `mmap` has made
    above that. -/
structure Layout (ts : ThreadShared) (base : ℕ) : Prop where
  aligned : PGSIZE ∣ base
  pos : 0 < base
  base_le : base ≤ ts.sz
  sz_le : ts.sz ≤ USYSCALL
  heap : HeapCovers ts base
  own : ∀ k < MAX_VMA, (ts.vmAreas k).used = true →
    (ts.vmAreas k).type = .exec ∨ (ts.vmAreas k).type = .heap →
    (ts.vmAreas k).flags = 2 ∧ protRead (ts.vmAreas k).prot = true
  program : ∀ k < MAX_VMA, (ts.vmAreas k).used = true → (ts.vmAreas k).type = .exec →
    (ts.vmAreas k).addr + (ts.vmAreas k).length ≤ base
  mapped : ∀ k < MAX_VMA, (ts.vmAreas k).used = true → IsMapping (ts.vmAreas k) →
    k < MAX_DYN_VMA ∨ 0 < (ts.vmAreas k).length → ts.sz ≤ (ts.vmAreas k).addr

section Layout

variable {ts ts' : ThreadShared} {base k p : ℕ} {n : ℤ}

/-- The area that a fault belongs to, with its slot -/
theorem mem_of_areaAt {s : Space} {v : Vma} (hi : TableInv s.shared) (h : s.areaAt p = some v) :
    ∃ k < MAX_VMA, v = s.shared.vmAreas k ∧ v.used = true ∧ p ∈ range v := by
  obtain ⟨k, hk, rfl⟩ := List.mem_map.mp (List.mem_of_find?_eq_some h)
  have hk := List.mem_range.mp hk
  obtain ⟨hu, hp⟩ := (hi.covers_iff hk).mp (PageLedger.covers_of_areaAt h)
  exact ⟨k, hk, rfl, hu, hp⟩

/-- The heap area stands in a slot for areas with given addresses. -/
theorem fix_of_heap (hi : TableInv ts) (hu : (ts.vmAreas k).used = true)
    (ht : (ts.vmAreas k).type = .heap) : FIX_START_ADDR ≤ k := by
  by_contra hlt
  rw [hi.chosen k (Nat.lt_of_not_ge hlt) hu] at ht
  cases ht

/-- The new size, where it does not fall below 0 -/
theorem add64_ofInt {sz : ℕ} (hsz : sz ≤ MAXVA) (hn : IsInt n) (h : 0 ≤ sz + n) :
    ((add64 sz (ofInt n) : ℕ) : ℤ) = sz + n := by
  have := hn.1
  have := hn.2
  simp only [add64, ofInt, MAXVA] at *
  omega

/-- No mapping lies in the part by which the heap grows. -/
theorem mapped_above (hi : TableInv ts) (hl : Layout ts base) (hn : IsInt n)
    (henough : ts.spaceEnough n = true) (hclear : FixedMapping.NoneEnds ts n) (h : 0 ≤ ts.sz + n)
    (hk : k < MAX_VMA) (hu : (ts.vmAreas k).used = true) (hmap : IsMapping (ts.vmAreas k))
    (hpos : k < MAX_DYN_VMA ∨ 0 < (ts.vmAreas k).length) :
    add64 ts.sz (ofInt n) ≤ (ts.vmAreas k).addr := by
  have hnew := add64_ofInt hi.sz_le hn h
  rcases Nat.lt_or_ge k MAX_DYN_VMA with hdyn | hfix
  · exact (FixedMapping.spaceEnough_spec hi henough).2.1 k hdyn hu
  have hsz := hl.mapped k hk hu hmap hpos
  have hheap : (ts.vmAreas k).type ≠ .heap := by
    rcases hmap with h | h <;> rw [h] <;> exact nofun
  have hpart := FixedMapping.disjoint_grown hi hn henough hclear hk hu hheap
  rw [range, FixedMapping.disjoint_Ico_iff] at hpart
  omega

/-! ### Moving the end of the heap -/

/-- Where there is a heap area that ends at `addr`, `vma_create` moves its end. -/
theorem createHeap_found (hi : TableInv ts) (hk : k < MAX_VMA) (hu : (ts.vmAreas k).used = true)
    (ht : (ts.vmAreas k).type = .heap) {addr : ℕ} (len prot flags : ℕ)
    (haddr : addr = (ts.vmAreas k).addr + (ts.vmAreas k).length) :
    ts.createHeap addr len prot flags none none 0 0 =
      .ok (ts.setSlot k { ts.vmAreas k with
        length := add64 (ts.vmAreas k).length len
        used := decide (add64 (ts.vmAreas k).length len ≠ 0) }, addr, []) := by
  have hfix := fix_of_heap hi hu ht
  obtain ⟨j, hj⟩ := Option.isSome_iff_exists.mp (List.find?_isSome.mpr
    ⟨k, FixedMapping.mem_fixSlots.mpr ⟨hfix, hk⟩, by simp [hu, ht]⟩ :
      (fixSlots.find? fun j => (ts.vmAreas j).used && (ts.vmAreas j).type == .heap).isSome = true)
  have hmem := FixedMapping.mem_fixSlots.mp (List.mem_of_find?_eq_some hj)
  have hp := List.find?_some hj
  simp only [Bool.and_eq_true, beq_iff_eq] at hp
  have hsame : j = k := hi.oneHeap j hmem.2 k hk hp.1 hu hp.2 ht
  subst hsame
  have hhigh := hi.within j hk hu
  have hwrap : add64 (ts.vmAreas j).addr (ts.vmAreas j).length =
      (ts.vmAreas j).addr + (ts.vmAreas j).length := by
    refine Nat.mod_eq_of_lt (lt_of_le_of_lt hhigh ?_)
    simp only [USYSCALL, TRAPFRAME, TRAMPOLINE, MAXVA, PGSIZE]
    omega
  rw [ThreadShared.createHeap, hj]
  simp only [hwrap, haddr, ne_eq, not_true_eq_false, if_false]

/-- No slot for areas with given addresses has a heap area. -/
def NoHeap (ts : ThreadShared) : Prop :=
  ∀ j, FIX_START_ADDR ≤ j → j < MAX_VMA → (ts.vmAreas j).used = true → (ts.vmAreas j).type ≠ .heap

theorem NoHeap.find?_eq (h : NoHeap ts) :
    (fixSlots.find? fun j => (ts.vmAreas j).used && (ts.vmAreas j).type == .heap) = none := by
  refine List.find?_eq_none.mpr fun j hj => ?_
  obtain ⟨hj, hj'⟩ := FixedMapping.mem_fixSlots.mp hj
  have hnot := h j hj hj'
  simpa using hnot

/-- Where there is none, `vma_create` makes one in a free slot. -/
theorem createHeap_new (hnone : NoHeap ts)
    (hfree : ∃ j, FIX_START_ADDR ≤ j ∧ j < MAX_VMA ∧ (ts.vmAreas j).used = false) {len : ℕ}
    (hlen : 0 < len) (addr prot flags : ℕ) :
    ∃ j, FIX_START_ADDR ≤ j ∧ j < MAX_VMA ∧ (ts.vmAreas j).used = false ∧
      ts.createHeap addr len prot flags none none 0 0 =
        .ok (ts.setSlot j ⟨true, addr, len, prot, flags, none, none, 0, 0, .heap⟩, addr, []) := by
  obtain ⟨i, hi, hi', hiu⟩ := hfree
  obtain ⟨j, hj⟩ := Option.isSome_iff_exists.mp (List.find?_isSome.mpr
    ⟨i, FixedMapping.mem_fixSlots.mpr ⟨hi, hi'⟩, by simp [hiu]⟩ :
      (fixSlots.find? fun j => !(ts.vmAreas j).used).isSome = true)
  have hmem := FixedMapping.mem_fixSlots.mp (List.mem_of_find?_eq_some hj)
  refine ⟨j, hmem.1, hmem.2, by simpa using List.find?_some hj, ?_⟩
  rw [ThreadShared.createHeap, hnone.find?_eq]
  simp only [hj]
  exact if_pos hlen

/-- Where there is none and nothing is asked for, nothing changes. -/
theorem createHeap_zero (hnone : NoHeap ts) (addr prot flags : ℕ) :
    ts.createHeap addr 0 prot flags none none 0 0 = .ok (ts, failed, []) := by
  rw [ThreadShared.createHeap, hnone.find?_eq]
  dsimp only
  split
  · rfl
  · rfl

/-- Storing the heap area with the new size keeps the layout. -/
theorem Layout.setHeap (hl : Layout ts base) {j newsz : ℕ} {v : Vma} (hj : j < MAX_VMA)
    (hother : ∀ k < MAX_VMA, k ≠ j → (ts.vmAreas k).used = true → (ts.vmAreas k).type ≠ .heap)
    (hv : v.type = .heap ∧ v.addr = base ∧ v.flags = 2 ∧ protRead v.prot = true)
    (hused : v.used = true ↔ base < newsz) (hlen : v.used = true → base + v.length = newsz)
    (hle : base ≤ newsz) (hhigh : newsz ≤ USYSCALL)
    (hmapped : ∀ k < MAX_VMA, (ts.vmAreas k).used = true → IsMapping (ts.vmAreas k) →
      k < MAX_DYN_VMA ∨ 0 < (ts.vmAreas k).length → newsz ≤ (ts.vmAreas k).addr) :
    Layout { ts.setSlot j v with sz := newsz } base := by
  obtain ⟨htype, haddr, hflags, hprot⟩ := hv
  refine ⟨hl.aligned, hl.pos, hle, hhigh, ⟨fun k hk hu ht => ?_, ?_⟩, fun k hk hu ht => ?_, fun k hk hu ht => ?_,
    fun k hk hu ht hpos => ?_⟩
  -- every area but the one of the heap stays as it is
  · by_cases hkj : k = j
    · subst hkj
      simp only [ThreadShared.setSlot_self] at hu ⊢
      exact ⟨haddr, by rw [haddr, hlen hu]⟩
    · simp only [ThreadShared.setSlot_of_ne _ _ hkj] at hu ht
      exact absurd ht (hother k hk hkj hu)
  · refine Iff.trans ?_ hused
    constructor
    · rintro ⟨k, hk, hu, ht⟩
      by_cases hkj : k = j
      · subst hkj
        simpa only [ThreadShared.setSlot_self] using hu
      · simp only [ThreadShared.setSlot_of_ne _ _ hkj] at hu ht
        exact absurd ht (hother k hk hkj hu)
    · intro hu
      refine ⟨j, hj, ?_, ?_⟩ <;> simpa only [ThreadShared.setSlot_self]
  · by_cases hkj : k = j
    · subst hkj
      simp only [ThreadShared.setSlot_self]
      exact ⟨hflags, hprot⟩
    · simp only [ThreadShared.setSlot_of_ne _ _ hkj] at hu ht ⊢
      exact hl.own k hk hu ht
  · by_cases hkj : k = j
    · subst hkj
      simp only [ThreadShared.setSlot_self, htype] at ht
      cases ht
    · simp only [ThreadShared.setSlot_of_ne _ _ hkj] at hu ht ⊢
      exact hl.program k hk hu ht
  · by_cases hkj : k = j
    · subst hkj
      simp only [IsMapping, ThreadShared.setSlot_self, htype] at ht
      rcases ht with ht | ht <;> cases ht
    · simp only [ThreadShared.setSlot_of_ne _ _ hkj] at hu ht hpos ⊢
      exact hmapped k hk hu ht hpos

/-- What the kernel does not test: a slot is free where a heap area has to be made, the heap is not
    given back beyond its base, and no mapping ends inside the part by which it grows. -/
def SbrkClear (ts : ThreadShared) (base : ℕ) (n : ℤ) : Prop :=
  ts.spaceEnough n = true → (base : ℤ) ≤ ts.sz + n ∧ FixedMapping.NoneEnds ts n ∧
    (0 < n → base = ts.sz →
      ∃ j, FIX_START_ADDR ≤ j ∧ j < MAX_VMA ∧ (ts.vmAreas j).used = false)

/-- **The heap area follows the size.** -/
theorem createHeap_layout (hi : TableInv ts) (hl : Layout ts base) (hn : IsInt n)
    (henough : ts.spaceEnough n = true) (hclear : SbrkClear ts base n) :
    ∃ ts' r refs, ts.createHeap ts.sz (ofInt n) 3 2 none none 0 0 = .ok (ts', r, refs) ∧
      ts'.sz = ts.sz ∧ Layout { ts' with sz := add64 ts'.sz (ofInt n) } base ∧
      ∀ k, (ts.vmAreas k).used = true → IsMapping (ts.vmAreas k) → ts'.vmAreas k = ts.vmAreas k := by
  obtain ⟨hbase, hends, hslot⟩ := hclear henough
  have hle := hl.base_le
  have hnew := add64_ofInt hi.sz_le hn (by omega)
  have hhigh := (FixedMapping.spaceEnough_spec hi henough).2.2
  have hmapped : ∀ k < MAX_VMA, (ts.vmAreas k).used = true → IsMapping (ts.vmAreas k) →
      k < MAX_DYN_VMA ∨ 0 < (ts.vmAreas k).length → add64 ts.sz (ofInt n) ≤ (ts.vmAreas k).addr :=
    fun k hk hu ht hpos => mapped_above hi hl hn henough hends (by omega) hk hu ht hpos
  by_cases hheap : base < ts.sz
  · -- the end of the heap area moves
    obtain ⟨j, hj, hju, hjt⟩ := hl.heap.2.mpr hheap
    obtain ⟨haddr, hend⟩ := hl.heap.1 j hj hju hjt
    have hother : ∀ k < MAX_VMA, k ≠ j → (ts.vmAreas k).used = true → (ts.vmAreas k).type ≠ .heap :=
      fun k hk hkj hu ht => hkj (hi.oneHeap k hk j hj hu hju ht hjt)
    have hlength : (ts.vmAreas j).length ≤ MAXVA := by
      have := hi.sz_le
      omega
    have hlen := add64_ofInt hlength hn (by omega)
    refine ⟨_, _, _, createHeap_found hi hj hju hjt (ofInt n) 3 2 hend.symm, rfl, ?_, fun k hu ht => ?_⟩
    · rw [ThreadShared.setSlot_sz]
      refine hl.setHeap hj hother ⟨hjt, haddr, hl.own j hj hju (.inr hjt)⟩ ?_ ?_ (by omega) hhigh hmapped
      · rw [decide_eq_true_eq]
        omega
      · intro _
        dsimp only
        omega
    · refine ThreadShared.setSlot_of_ne _ _ fun hkj => ?_
      subst hkj
      rcases ht with ht | ht <;> rw [hjt] at ht <;> cases ht
  · have hsz : base = ts.sz := by omega
    have hother : ∀ k < MAX_VMA, (ts.vmAreas k).used = true → (ts.vmAreas k).type ≠ .heap :=
      fun k hk hu ht => hheap (hl.heap.2.mp ⟨k, hk, hu, ht⟩)
    have hnone : NoHeap ts := fun j _ hj => hother j hj
    by_cases hgrow : 0 < n
    · -- a heap area is made
      have hpos := ofInt_of_nonneg hn hgrow.le
      have hprot : protRead 3 = true := by decide
      obtain ⟨j, -, hj, hju, hcreate⟩ := createHeap_new hnone (hslot hgrow hsz)
        (show 0 < ofInt n by omega) ts.sz 3 2
      refine ⟨_, _, _, hcreate, rfl, ?_, fun k hu ht => ?_⟩
      · rw [ThreadShared.setSlot_sz]
        refine hl.setHeap hj (fun k hk _ => hother k hk) ⟨rfl, hsz.symm, rfl, hprot⟩ ?_ ?_ (by omega) hhigh hmapped
        · refine iff_of_true rfl ?_
          omega
        · intro _
          dsimp only
          omega
      · refine ThreadShared.setSlot_of_ne _ _ fun hkj => ?_
        subst hkj
        rw [hju] at hu
        cases hu
    · have hzero : n = 0 := by omega
      subst hzero
      have hsame : add64 ts.sz (ofInt 0) = ts.sz := by omega
      refine ⟨_, _, _, createHeap_zero hnone ts.sz 3 2, rfl, ?_, fun _ _ _ => rfl⟩
      rw [hsame]
      exact hl

end Layout

/-! ## What a call of `sbrk` does -/

/-- The address belongs to an area that `mmap` has made. -/
def InMapping (ts : ThreadShared) (va : ℕ) : Prop :=
  ∃ k < MAX_VMA, (ts.vmAreas k).used = true ∧ IsMapping (ts.vmAreas k) ∧ va ∈ range (ts.vmAreas k)

/-- Every page that is there is a page of the kernel, a small page below the size that can be read, or
    one of a mapping. -/
def PagesRight (ts : ThreadShared) (pt : PageTable) : Prop :=
  ∀ p, PGSIZE ∣ p → ∀ l pte, pt.look p = some (l, pte) →
    USYSCALL ≤ p ∨ (p < ts.sz ∧ l = false ∧ pte.r = true) ∨ InMapping ts p

/-- A process, with the base of its heap -/
structure State where
  space : Space
  base : ℕ

/-- What holds between the calls of a process. -/
structure Inv (s : State) : Prop where
  table : TableInv s.space.shared
  layout : Layout s.space.shared s.base
  sized : s.space.pagetable.Sized
  pages : PagesRight s.space.shared s.space.pagetable

/-- The size has grown by `n`, the heap area covers what is between base and size, its pages fault in,
    no page above the size is there but those of mappings, and below the base everything is as it
    was. -/
structure Grown (s : State) (n : ℤ) (t : AddrSpace) : Prop where
  size : (t.shared.sz : ℤ) = s.space.shared.sz + n
  heap : HeapCovers t.shared s.base
  faults : ∀ va, s.base ≤ va → va < t.shared.sz → ∀ files,
    FaultsIn files { s.space with toAddrSpace := t } va
  above : ∀ p, PGSIZE ∣ p → t.shared.sz ≤ p → p < USYSCALL → (t.pagetable.look p).isSome = true →
    InMapping t.shared p
  below : ∀ va < s.base, t.pagetable.look va = s.space.pagetable.look va

/-- No page of the heap that stays is closed to the user. -/
def Open (s : State) (n : ℤ) : Prop :=
  ∀ p, PGSIZE ∣ p → s.base ≤ p → (p : ℤ) < s.space.shared.sz + n → ∀ l pte,
    s.space.pagetable.look p = some (l, pte) → pte.u = true

section Sbrk

variable {s : State} {n : ℤ}

/-- The pages of the program and its heap are small. -/
theorem Inv.small (hi : Inv s) {last : ℕ} (hlast : last ≤ s.space.shared.sz) (start : ℕ) :
    SmallPages s.space.pagetable start last := by
  intro p hp _ hlt l pte hlook
  have hhigh := hi.layout.sz_le
  rcases hi.pages p hp l pte hlook with hsys | ⟨-, hsmall⟩ | ⟨k, hk, hu, ht, hmem⟩
  · omega
  · exact hsmall
  · -- mappings begin at the size or above
    have hpos : 0 < (s.space.shared.vmAreas k).length := by
      have := hmem.1
      have := hmem.2
      omega
    have hle := hi.layout.mapped k hk hu ht (.inr hpos)
    have := hmem.1
    omega

/-- **Giving back the end of the heap**: exactly the pages go that begin there. -/
theorem Inv.dealloc (hi : Inv s) (hneg : n < 0) (hle : (s.base : ℤ) ≤ s.space.shared.sz + n) {newsz : ℕ}
    (hnew : (newsz : ℤ) = s.space.shared.sz + n) :
    ∃ pt' sz rel, s.space.pagetable.uvmdealloc s.space.shared.sz newsz = .ok (pt', sz, rel) ∧
      pt'.Sized ∧ PageLedger.Shrinks s.space.pagetable pt' ∧
      (∀ va < s.base, pt'.look va = s.space.pagetable.look va) ∧
      ∀ p, PGSIZE ∣ p → newsz ≤ p → p < s.space.shared.sz → pt'.look p = none := by
  have hpos := hi.layout.pos
  obtain ⟨pt', sz, rel, hdealloc, hsized, hlook⟩ := uvmdealloc_small hi.sized hi.table.sz_le
    (show 0 < newsz by omega) (show newsz < s.space.shared.sz by omega) (hi.small le_rfl newsz)
  have hround : ∀ a, a ≤ MAXVA → ∀ p, PGSIZE ∣ p → (pgRoundUp a ≤ p ↔ a ≤ p) := by
    intro a ha p hp
    refine roundUp_le_iff (by decide) hp ?_
    simp only [PGSIZE, MAXVA] at *
    omega
  have hsz := hi.table.sz_le
  refine ⟨pt', sz, rel, hdealloc, hsized, fun a => ?_, fun va hva => ?_, fun p hp hle' hlt => ?_⟩
  · rw [hlook]
    exact ite_eq_or_eq _ _ _
  · have hup : newsz ≤ pgRoundUp newsz := by
      refine le_roundUp (by decide) ?_
      simp only [PGSIZE, MAXVA] at *
      omega
    rw [hlook, if_neg fun hc => absurd (hup.trans hc.1) (by omega)]
  · have hlt' : p < pgRoundUp s.space.shared.sz := by
      by_contra hge
      exact absurd ((hround _ hsz p hp).mp (Nat.le_of_not_lt hge)) (by omega)
    rw [hlook, if_pos ⟨(hround newsz (by omega) p hp).mpr hle', hlt'⟩]

/-- Pages that only go stay right where the size follows them and mappings stay. -/
theorem PagesRight.shrinks {ts ts' : ThreadShared} {pt pt' : PageTable} (h : PagesRight ts pt)
    (hshrinks : PageLedger.Shrinks pt pt')
    (hgone : ∀ p, PGSIZE ∣ p → ts'.sz ≤ p → p < ts.sz → pt'.look p = none)
    (hmap : ∀ p, InMapping ts p → (pt'.look p).isSome = true → PGSIZE ∣ p → InMapping ts' p) :
    PagesRight ts' pt' := by
  intro p hp l pte hlook
  have hold : pt.look p = some (l, pte) := by
    rcases hshrinks p with hnone | heq
    · rw [hnone] at hlook
      cases hlook
    · exact heq ▸ hlook
  rcases h p hp l pte hold with hsys | ⟨hlt, hsmall⟩ | hin
  · exact .inl hsys
  · refine .inr (.inl ⟨?_, hsmall⟩)
    by_contra hge
    rw [hgone p hp (Nat.le_of_not_lt hge) hlt] at hlook
    cases hlook
  · exact .inr (.inr (hmap p hin (by rw [hlook]; rfl) hp))

/-- **A call of `sbrk`** returns; if it is not refused, size, heap area and page table agree. -/
theorem Inv.vmaSbrk (hi : Inv s) (hn : IsInt n) (hclear : SbrkClear s.space.shared s.base n) :
    ∃ t ret rel, s.space.toAddrSpace.vmaSbrk n = .ok (t, ret, rel) ∧
      (ret = failed ∧ t = s.space.toAddrSpace ∨
        ret = s.space.shared.sz ∧ (t.shared.sz : ℤ) = s.space.shared.sz + n ∧
        Inv { s with space := { s.space with toAddrSpace := t } } ∧
        PageLedger.Shrinks s.space.pagetable t.pagetable ∧
        ∀ va < s.base, t.pagetable.look va = s.space.pagetable.look va) := by
  cases henough : s.space.shared.spaceEnough n with
  | false =>
    refine ⟨s.space.toAddrSpace, failed, [], ?_, .inl ⟨rfl, rfl⟩⟩
    unfold AddrSpace.vmaSbrk
    rw [henough]
    rfl
  | true =>
    obtain ⟨hbase, hends, hslot⟩ := hclear henough
    have hnew := add64_ofInt hi.table.sz_le hn (by omega)
    obtain ⟨ts', r, refs, hcreate, hsz, hlayout, hmap⟩ := createHeap_layout hi.table hi.layout hn henough
      hclear
    -- the page table first
    obtain ⟨pt', sz', rel, hpt, hsized, hshrinks, hbelow, hgone⟩ : ∃ pt' sz' rel,
        (if n < 0 then s.space.pagetable.uvmdealloc s.space.shared.sz (add64 s.space.shared.sz (ofInt n))
          else .ok (s.space.pagetable, s.space.shared.sz, [])) = .ok (pt', sz', rel) ∧
        pt'.Sized ∧ PageLedger.Shrinks s.space.pagetable pt' ∧
        (∀ va < s.base, pt'.look va = s.space.pagetable.look va) ∧
        ∀ p, PGSIZE ∣ p → add64 s.space.shared.sz (ofInt n) ≤ p → p < s.space.shared.sz →
          pt'.look p = none := by
      by_cases hneg : n < 0
      · rw [if_pos hneg]
        exact hi.dealloc hneg hbase hnew
      · rw [if_neg hneg]
        exact ⟨_, _, _, rfl, hi.sized, .refl _, fun _ _ => rfl, fun p _ _ _ => by omega⟩
    have hupdate : s.space.shared.updateHeapVma s.space.shared.sz n =
        .ok ({ ts' with sz := add64 ts'.sz (ofInt n) }, s.space.shared.sz) := by
      unfold ThreadShared.updateHeapVma ThreadShared.vmaCreate
      simp only [ThreadShared.fileAllows, Bool.not_true, Bool.false_eq_true, if_false, hcreate]
    have hcall : s.space.toAddrSpace.vmaSbrk n =
        .ok (⟨{ ts' with sz := add64 ts'.sz (ofInt n) }, pt'⟩, s.space.shared.sz, rel) := by
      unfold AddrSpace.vmaSbrk
      simp only [henough, Bool.not_true, Bool.false_eq_true, if_false, hpt, hupdate]
    have hgrow : GrowClear s.space.shared n := fun _ _ => hends
    have hshrink : ShrinkClear s.space.shared n := fun _ _ hneg => by
      obtain ⟨k, hk, hu, ht⟩ := hi.layout.heap.2.mpr (by omega)
      obtain ⟨haddr, hend⟩ := hi.layout.heap.1 k hk hu ht
      exact ⟨k, fix_of_heap hi.table hu ht, hk, hu, ht, by omega⟩
    refine ⟨_, _, _, hcall, .inr ⟨rfl, by rw [hsz]; exact hnew, ⟨?_, hlayout, hsized, ?_⟩, hshrinks, hbelow⟩⟩
    · exact FixedMapping.inv_vmaSbrk hi.table hn hgrow hshrink hcall
    · refine hi.pages.shrinks hshrinks (fun p hp hle hlt => ?_) fun p hin _ _ => ?_
      · exact hgone p hp (hsz ▸ hle) hlt
      · obtain ⟨k, hk, hu, ht, hmem⟩ := hin
        have heq := hmap k hu ht
        exact ⟨k, hk, by rw [← hu]; exact congrArg Vma.used heq, by rw [show _ = _ from heq]; exact ht,
          by rw [show _ = _ from heq]; exact hmem⟩

end Sbrk

/-! ## The other calls -/

section Mapping

variable {ts ts' : ThreadShared} {base j p : ℕ} {v : Vma}

/-- Storing a mapping above the size, or giving one up, keeps the layout. -/
theorem Layout.setMapping (hl : Layout ts base)
    (hold : (ts.vmAreas j).used = true → IsMapping (ts.vmAreas j))
    (hv : v.used = true → IsMapping v ∧ (j < MAX_DYN_VMA ∨ 0 < v.length → ts.sz ≤ v.addr)) :
    Layout (ts.setSlot j v) base := by
  have hnot : ∀ {w : Vma}, IsMapping w → w.type ≠ .heap ∧ w.type ≠ .exec := by
    rintro w (h | h) <;> rw [h] <;> exact ⟨nofun, nofun⟩
  -- the program and the heap stand in other slots, before and after
  have hother : ∀ {k}, ((ts.setSlot j v).vmAreas k).used = true →
      ((ts.setSlot j v).vmAreas k).type = .exec ∨ ((ts.setSlot j v).vmAreas k).type = .heap → k ≠ j := by
    rintro k hu ht rfl
    rw [ThreadShared.setSlot_self] at hu ht
    rcases ht with ht | ht
    · exact (hnot (hv hu).1).2 ht
    · exact (hnot (hv hu).1).1 ht
  refine ⟨hl.aligned, hl.pos, hl.base_le, hl.sz_le, ⟨fun k hk hu ht => ?_, ?_⟩, fun k hk hu ht => ?_,
    fun k hk hu ht => ?_, fun k hk hu ht hpos => ?_⟩
  · have hkj := hother hu (.inr ht)
    rw [ThreadShared.setSlot_of_ne _ _ hkj] at hu ht ⊢
    exact hl.heap.1 k hk hu ht
  · refine Iff.trans ⟨?_, ?_⟩ hl.heap.2
    · rintro ⟨k, hk, hu, ht⟩
      have hkj := hother hu (.inr ht)
      rw [ThreadShared.setSlot_of_ne _ _ hkj] at hu ht
      exact ⟨k, hk, hu, ht⟩
    · rintro ⟨k, hk, hu, ht⟩
      have hkj : k ≠ j := by
        rintro rfl
        exact (hnot (hold hu)).1 ht
      refine ⟨k, hk, ?_, ?_⟩ <;> rwa [ThreadShared.setSlot_of_ne _ _ hkj]
  · have hkj := hother hu ht
    rw [ThreadShared.setSlot_of_ne _ _ hkj] at hu ht ⊢
    exact hl.own k hk hu ht
  · have hkj := hother hu (.inl ht)
    rw [ThreadShared.setSlot_of_ne _ _ hkj] at hu ht ⊢
    exact hl.program k hk hu ht
  · by_cases hkj : k = j
    · subst hkj
      rw [ThreadShared.setSlot_self] at hu hpos ⊢
      exact (hv hu).2 hpos
    · rw [ThreadShared.setSlot_of_ne _ _ hkj] at hu ht hpos ⊢
      exact hl.mapped k hk hu ht hpos

/-- A mapping in another slot than the one that is stored to stays. -/
theorem InMapping.setSlot (h : InMapping ts p)
    (hj : (ts.vmAreas j).used = true → p ∈ range (ts.vmAreas j) →
      v.used = true ∧ IsMapping v ∧ p ∈ range v) : InMapping (ts.setSlot j v) p := by
  obtain ⟨k, hk, hu, ht, hmem⟩ := h
  by_cases hkj : k = j
  · subst hkj
    refine ⟨k, hk, ?_⟩
    rw [ThreadShared.setSlot_self]
    exact hj hu hmem
  · refine ⟨k, hk, ?_⟩
    rw [ThreadShared.setSlot_of_ne _ _ hkj]
    exact ⟨hu, ht, hmem⟩

/-- What one call does to the areas, as far as the heap is concerned. -/
structure Moves (ts : ThreadShared) (base : ℕ) (ts' : ThreadShared) : Prop where
  layout : Layout ts' base
  sz : ts'.sz = ts.sz
  mapped : ∀ p, InMapping ts p → InMapping ts' p

theorem Moves.refl (hl : Layout ts base) : Moves ts base ts := ⟨hl, rfl, fun _ h => h⟩

/-- A mapping above the size that takes a free slot -/
theorem Layout.take (hl : Layout ts base) (hfree : (ts.vmAreas j).used = false) (hv : IsMapping v)
    (hle : j < MAX_DYN_VMA ∨ 0 < v.length → ts.sz ≤ v.addr) : Moves ts base (ts.setSlot j v) := by
  have hnot : ¬ (ts.vmAreas j).used = true := by
    rw [hfree]
    exact Bool.false_ne_true
  exact ⟨hl.setMapping (fun hu => absurd hu hnot) fun _ => ⟨hv, hle⟩, rfl,
    fun p hp => hp.setSlot fun hu => absurd hu hnot⟩

/-- What the address that is chosen for a mapping lies above -/
theorem le_nextEnd (hi : TableInv ts) (hl : Layout ts base) (suppg : Bool) (i : ℕ) (hlt : i < MAX_DYN_VMA) :
    ts.sz ≤ ts.nextEnd suppg (MmapPlacement.holeNext ts i) := by
  have hpos := MmapPlacement.pageOf_pos suppg
  have hpage := MmapPlacement.pageOf_le suppg
  obtain ⟨h1, h2, -, h4⟩ := MmapPlacement.nextUsed_spec ts (MAX_DYN_VMA - (i + 1)) (i + 1)
  rw [← MmapPlacement.holeNext] at h1 h2 h4
  rw [ThreadShared.nextEnd]
  split
  · refine le_roundUp hpos ?_
    have := hi.sz_le
    simp only [MAXVA] at *
    omega
  · next hne =>
    -- the next area below is a mapping
    have hjlt : MmapPlacement.holeNext ts i < MAX_DYN_VMA := by omega
    have hjmax : MmapPlacement.holeNext ts i < MAX_VMA := by
      simp only [MAX_VMA]
      omega
    have hju := h4 (by omega)
    have hsz := hl.mapped _ hjmax hju (.inr (hi.chosen _ hjlt hju)) (.inl hjlt)
    have hhigh := hi.within _ hjmax hju
    simp only [USYSCALL, TRAPFRAME, TRAMPOLINE, MAXVA, PGSIZE] at hhigh
    have hadd : add64 (ts.vmAreas (MmapPlacement.holeNext ts i)).addr
        (ts.vmAreas (MmapPlacement.holeNext ts i)).length =
        (ts.vmAreas (MmapPlacement.holeNext ts i)).addr +
          (ts.vmAreas (MmapPlacement.holeNext ts i)).length := Nat.mod_eq_of_lt (by omega)
    rw [hadd]
    exact (hsz.trans (Nat.le_add_right _ _)).trans (le_roundUp hpos (by omega))

/-- **`mmap`** in a hole that is clear, or at an address that is -/
theorem moves_sysMmap (hi : TableInv ts) (hl : Layout ts base) {addr prot flags offset ret : ℕ}
    {length : ℤ} {f : Option File} {refs : List RefOp}
    (hclear : if addr = 0 then HoleClear ts (mapSuppg flags) (ofInt length)
      else FixClear ts addr length prot flags f ∧ addr + ofInt length ≤ USYSCALL)
    (h : sysMmap ts addr length prot flags f offset = .ok (ts', ret, refs)) : Moves ts base ts' := by
  by_cases haddr : addr = 0
  · subst haddr
    rw [if_pos rfl] at hclear
    rcases FixedMapping.createDynamic_placed hi hclear h with rfl | ⟨i, hilt, -, hpass, hlow, -, rfl⟩
    · exact .refl hl
    · exact hl.take hpass.1 (.inr rfl) fun _ => (le_nextEnd hi hl _ i hilt).trans hlow
  · rw [if_neg haddr] at hclear
    by_cases hne : ts' = ts
    · subst hne
      exact .refl hl
    · have hapart := ((FixedMapping.fix_apart_iff hi haddr length prot flags f offset).mpr hclear.1 ts'
        ret refs h hne).2
      rw [FixedMapping.disjoint_Ico_iff] at hapart
      simp only [sysMmap, if_neg haddr, ThreadShared.vmaCreate] at h
      split at h
      · cases h
        exact .refl hl
      rcases FixedMapping.createFix_cases (Except.ok.inj h) with rfl | ⟨-, -, j, hj, -, hfree, rfl⟩
      · exact .refl hl
      refine hl.take hfree (.inl rfl) fun hpos => ?_
      have hdyn : ¬ j < MAX_DYN_VMA := by simpa [FIX_START_ADDR] using hj
      dsimp only at hpos ⊢
      omega

/-- A page of the mapping that is cut stays in it, or the stride of `uvmunmap` meets it. -/
def MetClear (s : AddrSpace) (addr len : ℕ) : Prop :=
  ∀ i, s.mmapped addr = some i → ∀ p, PGSIZE ∣ p → (s.pagetable.look p).isSome = true →
    p ∈ range (s.shared.vmAreas i) →
      ((s.shared.vmAreas i).cut addr (pgRoundDown len)).used = true ∧
          p ∈ range ((s.shared.vmAreas i).cut addr (pgRoundDown len)) ∨
        s.pagetable.MetBy addr (pgRoundUp (pgRoundDown len) / PGSIZE) p

theorem isMapping_cut (addr len : ℕ) : IsMapping (v.cut addr len) ↔ IsMapping v := by
  unfold Vma.cut
  split
  · rfl
  · rfl

/-- What is left of a mapping begins where it did or above. -/
theorem le_addr_cut {addr len : ℕ} (hv : v.addr + v.length ≤ USYSCALL) (hcut : len ≤ v.length) :
    v.addr ≤ (v.cut addr len).addr := by
  unfold Vma.cut
  split
  · rfl
  · dsimp only
    split
    · have hadd : add64 v.addr len = v.addr + len := by
        refine Nat.mod_eq_of_lt ?_
        simp only [USYSCALL, TRAPFRAME, TRAMPOLINE, MAXVA, PGSIZE] at hv
        omega
      rw [hadd]
      exact Nat.le_add_right _ _
    · rfl

end Mapping

section Calls

variable {s : State} {t : AddrSpace}

/-- **`munmap`** of a part that does not go beyond the mapping -/
theorem Inv.munmap (hi : Inv s) {writei : FileWrite → Bool} {addr len ret : ℕ} {eff : MunmapEffects}
    (hcut : CutClear s.space.toAddrSpace addr len) (hmet : MetClear s.space.toAddrSpace addr len)
    (h : s.space.toAddrSpace.munmap writei addr len = .ok (t, ret, eff)) :
    Inv { s with space := { s.space with toAddrSpace := t } } := by
  have htable := FixedMapping.inv_munmap hi.table hcut h
  rcases PageLedger.munmap_releases h with ⟨rfl, -⟩ | ⟨-, -, i, pt', hfind, hunmap, rfl⟩
  · exact hi
  obtain ⟨hilt, hcov, hexec, hheap⟩ := AddrSpace.mmapped_spec hfind
  obtain ⟨hu, -⟩ := (hi.table.covers_iff hilt).mp hcov
  have hle := hcut i hfind
  have hmapping : IsMapping (s.space.shared.vmAreas i) := by
    cases ht : (s.space.shared.vmAreas i).type with
    | exec => exact absurd ht hexec
    | heap => exact absurd ht hheap
    | fix => exact .inl ht
    | dynamic => exact .inr ht
  have hshrinks := PageLedger.shrinks_uvmunmap hi.sized hunmap
  refine ⟨htable, hi.layout.setMapping (fun _ => hmapping) fun _ =>
    ⟨(isMapping_cut _ _).mpr hmapping, fun hpos => ?_⟩, hshrinks.sized hi.sized,
    hi.pages.shrinks hshrinks (fun p _ hge hlt => absurd hlt (Nat.not_lt.mpr hge))
      fun p hin (hsome : (pt'.look p).isSome = true) hp => ?_⟩
  -- what is cut off in front moves the area up, away from the heap
  · have hlow : i < MAX_DYN_VMA ∨ 0 < (s.space.shared.vmAreas i).length := by
      rcases hpos with hdyn | hlen
      · exact .inl hdyn
      · right
        unfold Vma.cut at hlen
        split at hlen
        · exact hlen
        · next hne => omega
    exact (hi.layout.mapped i hilt hu hmapping hlow).trans
      (le_addr_cut (hi.table.within i hilt hu) hle)
  · refine hin.setSlot fun _ hmem => ?_
    have hold : (s.space.pagetable.look p).isSome = true := by
      rcases hshrinks p with hnone | heq
      · rw [hnone] at hsome
        cases hsome
      · exact heq ▸ hsome
    rcases hmet i hfind p hp hold hmem with ⟨hused, hpart⟩ | hgone
    · exact ⟨hused, (isMapping_cut _ _).mpr hmapping, hpart⟩
    · rw [PageLedger.look_of_metBy hunmap hgone] at hsome
      cases hsome

/-- There is no new page, and of the old ones only other things have changed than the size and whether
    they can be read. -/
def Recast (pt pt' : PageTable) : Prop :=
  ∀ a l pte', pt'.look a = some (l, pte') → ∃ pte, pt.look a = some (l, pte) ∧ pte'.r = pte.r

theorem Recast.refl (pt : PageTable) : Recast pt pt := fun _ _ pte h => ⟨pte, h, rfl⟩

theorem Recast.trans {pt pt' pt'' : PageTable} (h : Recast pt pt') (h' : Recast pt' pt'') : Recast pt pt'' := by
  intro a l pte'' hlook
  obtain ⟨pte', hlook', hr'⟩ := h' a l pte'' hlook
  obtain ⟨pte, hlook, hr⟩ := h a l pte' hlook'
  exact ⟨pte, hlook, hr'.trans hr⟩

/-- Paging out is of this kind. -/
theorem Recast.of_evicts {pt pt' : PageTable} (h : Evicts pt pt') : Recast pt pt' := by
  intro a l pte' hlook
  rcases h a with heq | ⟨pte, idx, hold, -, -, hout⟩
  · exact ⟨pte', heq ▸ hlook, rfl⟩
  · rw [hout] at hlook
    cases hlook
    exact ⟨pte, hold, rfl⟩

/-- So is storing an entry in place of another. -/
theorem Recast.of_setLow {pt : PageTable} {a : ℕ} {pte pte' : Pte} (hlook : pt.look a = some (false, pte))
    (hr : pte'.r = pte.r) : Recast pt (pt.setLow a pte') := by
  obtain ⟨t, ht, -, -⟩ := table_of_look hlook
  intro b l q hq
  rw [look_setLow (look_lt hlook) ht] at hq
  split at hq
  · next hb =>
    split at hq
    · cases hq
      exact ⟨pte, (look_congr hb.2).trans hlook, hr⟩
    · cases hq
  · exact ⟨q, hq, rfl⟩

theorem PagesRight.recast {ts : ThreadShared} {pt pt' : PageTable} (h : PagesRight ts pt)
    (hrecast : Recast pt pt') : PagesRight ts pt' := by
  intro p hp l pte' hlook
  obtain ⟨pte, hold, hr⟩ := hrecast p l pte' hlook
  rw [hr]
  exact h p hp l pte hold

/-- A super page that is mapped for a fault at the page `p` lies within its area. -/
def SuperClear (s : Space) (p : ℕ) : Prop :=
  ∀ v, s.areaAt p = some v → s.pagetable.walkaddr p = 0 → PageLedger.kindOf v = .suppage →
    v.addr ≤ suppgRoundDown p ∧ suppgRoundDown p + SUPPGSIZE ≤ v.addr + v.length

/-- A page that `vma_handle` maps is one of its area. -/
theorem Inv.page_of_area (hi : Inv s) {v : Vma} {p a : ℕ} (harea : s.space.areaAt p = some v)
    (hp : PGSIZE ∣ p) (ha : PGSIZE ∣ a)
    (hin : a / (if (PageLedger.kindOf v).suppg then SUPPGSIZE else PGSIZE) =
      PageLedger.baseOf (PageLedger.kindOf v) p /
        (if (PageLedger.kindOf v).suppg then SUPPGSIZE else PGSIZE))
    (hsuper : PageLedger.kindOf v = .suppage →
      v.addr ≤ suppgRoundDown p ∧ suppgRoundDown p + SUPPGSIZE ≤ v.addr + v.length) :
    (a < s.space.shared.sz ∧ (PageLedger.kindOf v).suppg = false ∧ protRead v.prot = true) ∨
      InMapping s.space.shared a := by
  obtain ⟨j, hj, rfl, hu, hmem⟩ := mem_of_areaAt hi.table harea
  -- a small page is the one of the fault
  have hsmall : (PageLedger.kindOf (s.space.shared.vmAreas j)).suppg = false → a = p := by
    intro hsuppg
    rw [hsuppg] at hin
    simp only [PageLedger.baseOf, hsuppg, Bool.false_eq_true, if_false] at hin
    exact PageLedger.eq_of_div ha hp hin
  have hown : (s.space.shared.vmAreas j).type = .exec ∨ (s.space.shared.vmAreas j).type = .heap →
      (PageLedger.kindOf (s.space.shared.vmAreas j)).suppg = false ∧
        protRead (s.space.shared.vmAreas j).prot = true := by
    intro ht
    obtain ⟨hflags, hprot⟩ := hi.layout.own j hj hu ht
    refine ⟨?_, hprot⟩
    rw [PageLedger.kindOf, hflags]
    decide
  have hmapping : IsMapping (s.space.shared.vmAreas j) → InMapping s.space.shared a := by
    intro ht
    refine ⟨j, hj, hu, ht, ?_⟩
    cases hkind : PageLedger.kindOf (s.space.shared.vmAreas j) with
    | page =>
      obtain rfl := hsmall (by rw [hkind]; rfl)
      exact hmem
    | buffer =>
      obtain rfl := hsmall (by rw [hkind]; rfl)
      exact hmem
    | suppage =>
      -- the whole super page lies in the area
      obtain ⟨hlow, hhigh⟩ := hsuper hkind
      rw [hkind] at hin
      simp only [PageLedger.baseOf, PageKind.suppg, if_true, suppgRoundDown, roundDown, SUPPGSIZE] at *
      exact ⟨by omega, by omega⟩
  cases ht : (s.space.shared.vmAreas j).type with
  | exec =>
    obtain ⟨hsuppg, hprot⟩ := hown (.inl ht)
    obtain rfl := hsmall hsuppg
    exact .inl ⟨(hmem.2.trans_le (hi.layout.program j hj hu ht)).trans_le hi.layout.base_le, hsuppg, hprot⟩
  | heap =>
    obtain ⟨hsuppg, hprot⟩ := hown (.inr ht)
    obtain rfl := hsmall hsuppg
    exact .inl ⟨hmem.2.trans_eq (hi.layout.heap.1 j hj hu ht).2, hsuppg, hprot⟩
  | fix => exact .inr (hmapping (.inl ht))
  | dynamic => exact .inr (hmapping (.inr ht))

/-- **A fault** brings in a page of the program, of the heap or of a mapping. -/
theorem Inv.fault (hi : Inv s) {files : ℕ → Inode} {k : Answers} {va : ℕ} {s' : Space} {r : Option Bool}
    (hclear : SuperClear s.space (pgRoundDown va)) (h : s.space.vmaHandle files k va = .ok (s', r)) :
    Inv { s with space := s' } := by
  have hsized := sized_vmaHandle hi.sized h
  have hdvd : PGSIZE ∣ pgRoundDown va := dvd_roundDown _ _
  suffices hsuff : s'.shared = s.space.shared ∧ PagesRight s.space.shared s'.pagetable by
    obtain ⟨hshared, hpages⟩ := hsuff
    exact ⟨hshared ▸ hi.table, by show Layout s'.shared s.base; rw [hshared]; exact hi.layout, hsized,
      by show PagesRight s'.shared _; rw [hshared]; exact hpages⟩
  rw [← Space.vmaHandlePages_fst] at h
  cases hcall : s.space.vmaHandlePages files k va with
  | error e =>
    rw [hcall] at h
    cases h
  | ok x =>
    obtain ⟨y, ops⟩ := x
    rw [hcall] at h
    cases h
    -- the page table changes where the page goes, and pages that were evicted are swapped out
    cases PageLedger.vmaHandlePages_faulted hcall with
    | kept hshared hout => exact ⟨hshared, hi.pages.recast (.of_evicts hout.1)⟩
    | pagein hshared _ hlook hpg _ hout hpt =>
      refine ⟨hshared, hi.pages.recast ?_⟩
      rw [hpt]
      exact (Recast.of_evicts hout.1).trans (.of_setLow (look_swapped hi.sized hlook hpg hout.1) rfl)
    | mapped hshared harea hwalk _ hout hmap =>
      refine ⟨hshared, fun p hp l pte hlook => ?_⟩
      rw [look_mapPage hmap rfl p] at hlook
      rcases ite_eq_iff.mp hlook with ⟨hin, hnew⟩ | ⟨-, hold⟩
      · cases hnew
        rcases hi.page_of_area harea hdvd hp hin.2 (hclear _ harea hwalk) with hlow | hmapping
        · exact .inr (.inl hlow)
        · exact .inr (.inr hmapping)
      · exact hi.pages.recast (.of_evicts hout.1) p hp l pte hold
    | failed hshared _ _ _ hout => exact ⟨hshared, hi.pages.recast (.of_evicts hout.1)⟩

end Calls

/-! ## A new program -/

/-- The end of the last loadable segment -/
def programEnd (phs : List (Option ProgHdr)) (sz : ℕ) : ℕ :=
  phs.foldl (fun sz hd => match hd with
    | some ph => if ph.load then add64 ph.vaddr ph.memsz else sz
    | none => sz) sz

/-- The size of a process that runs the program -/
def programSize (phs : List (Option ProgHdr)) : ℕ := ThreadShared.withStack (programEnd phs 0)

section Exec

variable {ts ts' : ThreadShared} {ip sz sz' : ℕ} {phs : List (Option ProgHdr)} {refs : List RefOp}

/-- The loop over the headers makes areas for segments only, and leaves the end of the last one. -/
theorem loadHeaders_areas (h : ts.loadHeaders ip sz phs = .ok (ts', sz', refs, true)) :
    sz' = programEnd phs sz ∧ ∀ k, ts'.vmAreas k = ts.vmAreas k ∨
      ∃ ph, some ph ∈ phs ∧ ph.load = true ∧ ts'.vmAreas k = Exec.segment ip ph := by
  -- induction on the headers, with the end that the ones before have reached
  induction phs generalizing ts sz refs with
  | nil =>
    cases h
    exact ⟨rfl, fun k => .inl rfl⟩
  | cons hd phs ih =>
    cases hd with
    | none => cases h
    | some ph =>
      have hlater : ∀ {k : ℕ}, (∃ q, some q ∈ phs ∧ q.load = true ∧ ts'.vmAreas k = Exec.segment ip q) →
          ∃ q, some q ∈ some ph :: phs ∧ q.load = true ∧ ts'.vmAreas k = Exec.segment ip q :=
        fun ⟨q, hq, hload, heq⟩ => ⟨q, List.mem_cons_of_mem _ hq, hload, heq⟩
      rw [ThreadShared.loadHeaders] at h
      split at h
      · next hload =>
        obtain ⟨hsz, hareas⟩ := ih h
        have hload : ph.load = false := by simpa using hload
        refine ⟨?_, fun k => (hareas k).imp_right hlater⟩
        rw [hsz, programEnd, programEnd, List.foldl_cons]
        simp only [hload, Bool.false_eq_true, if_false]
      next hload =>
      have hload : ph.load = true := by simpa using hload
      split at h
      · cases h
      split at h
      · cases h
      next ts₁ r refs₁ hcreate =>
      split at h
      · cases h
      next hloop =>
      cases h
      obtain ⟨hsz, hareas⟩ := ih hloop
      refine ⟨?_, fun k => ?_⟩
      · rw [hsz, programEnd, programEnd, List.foldl_cons]
        simp only [hload, if_true]
      · rcases hareas k with heq | hseg
        · rcases FixedMapping.createFix_cases (Except.ok.inj hcreate) with rfl | ⟨-, -, j, -, -, -, rfl⟩
          · exact .inl heq
          · by_cases hkj : k = j
            · subst hkj
              rw [ThreadShared.setSlot_self] at heq
              exact .inr ⟨ph, List.mem_cons_self, hload, heq⟩
            · rw [ThreadShared.setSlot_of_ne _ _ hkj] at heq
              exact .inl heq
        · exact .inr (hlater hseg)

/-- The old program's segments and heap are gone; what is left are mappings. -/
theorem isMapping_vmaExecClear (hi : TableInv ts) {k : ℕ} (hk : k < MAX_VMA)
    (hu : (ts.vmaExecClear.1.vmAreas k).used = true) :
    ts.vmaExecClear.1.vmAreas k = ts.vmAreas k ∧ IsMapping (ts.vmAreas k) := by
  simp only [ThreadShared.vmaExecClear] at hu ⊢
  split at hu
  · cases hu
  next hkeep =>
  rw [if_neg hkeep]
  refine ⟨rfl, ?_⟩
  rcases Nat.lt_or_ge k MAX_DYN_VMA with hdyn | hfix
  · exact .inr (hi.chosen k hdyn hu)
  · have hnot : ¬ ((ts.vmAreas k).type = .exec ∨ (ts.vmAreas k).type = .heap) := fun ht =>
      hkeep ⟨hfix, hk, by simpa [hu] using ht⟩
    cases ht : (ts.vmAreas k).type with
    | exec => exact absurd (.inl ht) hnot
    | heap => exact absurd (.inr ht) hnot
    | fix => exact .inl ht
    | dynamic => exact .inr ht

/-- The size of a new program is a whole number of pages, two at least. -/
theorem withStack_spec (sz : ℕ) :
    PGSIZE ∣ ThreadShared.withStack sz ∧ 0 < ThreadShared.withStack sz := by
  have hdvd : PGSIZE ∣ pgRoundUp sz := dvd_roundUp _ _
  have hword : PGSIZE ∣ 2 ^ 64 := by decide
  have hdvd' : PGSIZE ∣ add64 (pgRoundUp sz) (2 * PGSIZE) :=
    (Nat.dvd_mod_iff hword).mpr (Nat.dvd_add hdvd (Nat.dvd_mul_left _ _))
  unfold ThreadShared.withStack PageTable.uvmallocSize
  split
  · next hlt => exact ⟨hdvd, by omega⟩
  · next hge =>
    refine ⟨hdvd', Nat.pos_of_ne_zero fun hzero => ?_⟩
    have hsmall : pgRoundUp sz = 0 := by omega
    rw [hsmall] at hzero
    exact absurd hzero (by decide)

theorem protRead_flags2prot (flags : ℕ) : protRead (flags2prot flags) = true := by
  unfold flags2prot protRead
  split <;> split <;> decide

/-- The headers can all be read, and the loadable ones are accepted. -/
def Readable (phs : List (Option ProgHdr)) : Prop :=
  ∀ hd ∈ phs, ∃ ph, hd = some ph ∧ (ph.load = true → ph.wellFormed = true)

theorem loadHeaders_done {done : Bool} (hread : Readable phs)
    (h : ts.loadHeaders ip sz phs = .ok (ts', sz', refs, done)) : done = true := by
  induction phs generalizing ts sz refs with
  | nil =>
    cases h
    rfl
  | cons hd phs ih =>
    obtain ⟨ph, rfl, hwell⟩ := hread hd List.mem_cons_self
    have hrest : Readable phs := fun hd hmem => hread hd (List.mem_cons_of_mem _ hmem)
    rw [ThreadShared.loadHeaders] at h
    split at h
    · exact ih hrest h
    next hload =>
    have hload : ph.load = true := by simpa using hload
    rw [hwell hload] at h
    split at h
    · next hbad => exact absurd hbad (by simp)
    split at h
    · cases h
    split at h
    · cases h
    next hloop =>
    cases h
    exact ih hrest hloop

/-- What the kernel does not test when it loads a program: the headers are good and there is memory,
    so that it does not give up half way; the segments end below the stack, and the mappings that
    stay lie above it. -/
structure ExecClear (ts : ThreadShared) (phs : List (Option ProgHdr)) (fits : Bool) : Prop where
  segments : SegmentsClear ts.vmaExecClear.1 phs
  readable : Readable phs
  fits : fits = true
  room : programSize phs ≤ USYSCALL
  below : ∀ ph, some ph ∈ phs → ph.load = true → ph.vaddr + ph.memsz ≤ programSize phs
  above : ∀ k < MAX_VMA, (ts.vmAreas k).used = true → IsMapping (ts.vmAreas k) →
    k < MAX_DYN_VMA ∨ 0 < (ts.vmAreas k).length → programSize phs ≤ (ts.vmAreas k).addr

/-- **`exec`** makes a program without a heap, whose size is the base of the heap to come. -/
theorem layout_exec (hi : TableInv ts) {fits done : Bool} (hclear : ExecClear ts phs fits)
    (h : ts.exec ip phs fits = .ok (ts', done)) :
    done = true ∧ Layout ts' ts'.sz := by
  rw [ThreadShared.exec] at h
  split at h
  · cases h
  · next hload => exact absurd (loadHeaders_done hclear.readable hload) Bool.false_ne_true
  · next ts₁ sz refs hload =>
    obtain ⟨hsz, hareas⟩ := loadHeaders_areas hload
    have hsize : ThreadShared.withStack sz = programSize phs := by rw [hsz]; rfl
    rw [hsize] at h
    split at h
    · cases h
    rw [hclear.fits] at h
    cases h
    -- an area is a segment, or a mapping that has stayed
    have hkind : ∀ k < MAX_VMA, (ts₁.vmAreas k).used = true →
        (ts₁.vmAreas k = ts.vmAreas k ∧ IsMapping (ts.vmAreas k)) ∨
          ∃ ph, some ph ∈ phs ∧ ph.load = true ∧ ts₁.vmAreas k = Exec.segment ip ph := by
      intro k hk hu
      rcases hareas k with heq | hseg
      · rw [heq] at hu
        obtain ⟨hsame, hmap⟩ := isMapping_vmaExecClear hi hk hu
        exact .inl ⟨heq.trans hsame, hmap⟩
      · exact .inr hseg
    have hnoheap : ∀ k < MAX_VMA, (ts₁.vmAreas k).used = true → (ts₁.vmAreas k).type ≠ .heap := by
      intro k hk hu
      rcases hkind k hk hu with ⟨heq, hmap⟩ | ⟨ph, -, -, heq⟩
      · rw [heq]
        rcases hmap with ht | ht <;> rw [ht] <;> rintro ⟨⟩
      · rw [heq]
        rintro ⟨⟩
    obtain ⟨hdvd, hpos⟩ := withStack_spec (programEnd phs 0)
    refine ⟨rfl, hdvd, hpos, le_rfl, hclear.room, ⟨fun k hk hu ht => absurd ht (hnoheap k hk hu), ?_⟩,
      fun k hk hu ht => ?_, fun k hk hu ht => ?_, fun k hk hu ht hlow => ?_⟩
    · refine iff_of_false ?_ (lt_irrefl _)
      rintro ⟨k, hk, hu, ht⟩
      exact hnoheap k hk hu ht
    · rcases hkind k hk hu with ⟨heq, hmap⟩ | ⟨ph, -, -, heq⟩
      · dsimp only at ht
        rw [heq] at ht
        rcases hmap with hm | hm <;> rw [hm] at ht <;> rcases ht with ht | ht <;> cases ht
      · dsimp only
        rw [heq]
        exact ⟨rfl, protRead_flags2prot ph.flags⟩
    · rcases hkind k hk hu with ⟨heq, hmap⟩ | ⟨ph, hph, hld, heq⟩
      · dsimp only at ht
        rw [heq] at ht
        rcases hmap with hm | hm <;> rw [hm] at ht <;> cases ht
      · dsimp only
        rw [heq]
        exact hclear.below ph hph hld
    · dsimp only at hlow ht ⊢
      rcases hkind k hk hu with ⟨heq, hmap⟩ | ⟨ph, -, -, heq⟩
      · have hold : (ts.vmAreas k).used = true := heq ▸ hu
        rw [heq] at hlow ⊢
        exact hclear.above k hk hold hmap hlow
      · rw [heq] at ht
        rcases ht with ht | ht <;> cases ht

end Exec

/-! ## Runs of a process -/

/-- The page table of a new program has pages of its stack only, and those of the kernel. -/
structure NewImage (pt : PageTable) (sz : ℕ) : Prop where
  sized : pt.Sized
  pages : ∀ p, PGSIZE ∣ p → ∀ l pte, pt.look p = some (l, pte) →
    USYSCALL ≤ p ∨ (p < sz ∧ l = false ∧ pte.r = true)

/-- The page table that `uvmcopy` makes has the pages of the parent below the size, and those of the
    kernel. -/
structure Copied (pt : PageTable) (sz : ℕ) (child : PageTable) : Prop where
  sized : child.Sized
  pages : ∀ p, PGSIZE ∣ p → ∀ l pte', child.look p = some (l, pte') →
    USYSCALL ≤ p ∨ (p < sz ∧ ∃ pte, pt.look p = some (l, pte) ∧ pte'.r = pte.r)

/-- What changes a process. -/
inductive Act where
  | mmap (addr : ℕ) (length : ℤ) (prot flags : ℕ) (f : Option File) (offset : ℕ)
  | munmap (writei : FileWrite → Bool) (addr : ℕ) (length : ℤ)
  | sbrk (n : ℤ)
  /-- `sbrknaive`, with the page table that `uvmalloc` leaves if it finds memory -/
  | sbrknaive (n : ℤ) (grown : Option PageTable)
  /-- `exec`, with the page table that it makes for a program of this size -/
  | exec (ip : ℕ) (phs : List (Option ProgHdr)) (fits : Bool) (image : (sz : ℕ) → {pt // NewImage pt sz})
  /-- The child of a `fork` goes on, with the page table that `uvmcopy` makes. -/
  | fork (uvmcopy : (pt : PageTable) → (sz : ℕ) → {child // Copied pt sz child})
  | fault (k : Answers) (va : ℕ)
  /-- Whatever else is done to entries: pages are marked or copied for copy-on-write, paged out, closed to
      the user. -/
  | recast (f : (pt : PageTable) → {pt' : PageTable // Recast pt pt' ∧ (pt.Sized → pt'.Sized)})

/-- One call; no step is a panic. -/
def step (files : ℕ → Inode) (s : State) : Act → Option State
  | .mmap addr length prot flags f offset =>
    match sysMmap s.space.shared addr length prot flags f offset with
    | .error _ => none
    | .ok (ts', _, _) => some { s with space := { s.space with shared := ts' } }
  | .munmap writei addr length =>
    match s.space.toAddrSpace.munmap writei addr (ofInt length) with
    | .error _ => none
    | .ok (t, _, _) => some { s with space := { s.space with toAddrSpace := t } }
  | .sbrk n =>
    if IsInt n then
      match s.space.toAddrSpace.vmaSbrk n with
      | .error _ => none
      | .ok (t, _, _) => some { s with space := { s.space with toAddrSpace := t } }
    else none
  | .sbrknaive n grown =>
    match s.space.toAddrSpace.growproc n grown with
    | .error _ => none
    | .ok (t, _) => some { s with space := { s.space with toAddrSpace := t } }
  | .exec ip phs fits image =>
    match s.space.shared.exec ip phs fits with
    | .error _ => none
    | .ok (ts', true) => some ⟨{ s.space with shared := ts', pagetable := image ts'.sz }, ts'.sz⟩
    | .ok (ts', false) => some { s with space := { s.space with shared := ts' } }
  | .fork uvmcopy =>
    some { s with space := { s.space with pagetable := uvmcopy s.space.pagetable s.space.shared.sz } }
  | .fault k va =>
    match s.space.vmaHandle files k va with
    | .error _ => none
    | .ok (t, _) => some { s with space := t }
  | .recast f => some { s with space := { s.space with pagetable := f s.space.pagetable } }

/-- A process without areas, whose pages are those of its program -/
structure Init (s : State) : Prop where
  sz : s.space.shared.sz = s.base
  base : PGSIZE ∣ s.base ∧ 0 < s.base ∧ s.base ≤ USYSCALL
  free : ∀ k < MAX_VMA, (s.space.shared.vmAreas k).used = false
  image : NewImage s.space.pagetable s.base

def system (files : ℕ → Inode) : System State Act where
  init := Init
  step := step files

/-- Every call meets the condition of its kind. -/
def Careful (s : State) : Act → Prop
  | .mmap addr length prot flags f _ =>
    if addr = 0 then HoleClear s.space.shared (mapSuppg flags) (ofInt length)
    else FixClear s.space.shared addr length prot flags f ∧ addr + ofInt length ≤ USYSCALL
  | .munmap _ addr length =>
    CutClear s.space.toAddrSpace addr (ofInt length) ∧ MetClear s.space.toAddrSpace addr (ofInt length)
  | .sbrk n => SbrkClear s.space.shared s.base n
  | .sbrknaive n _ => n = 0
  | .exec _ phs fits _ => ExecClear s.space.shared phs fits
  | .fork _ => True
  | .fault _ va => SuperClear s.space (pgRoundDown va)
  | .recast _ => True

section Runs

variable {files : ℕ → Inode} {s s' : State}

theorem inv_init (h : Init s) : Inv s := by
  obtain ⟨hdvd, hpos, hhigh⟩ := h.base
  have hfree : ∀ k < MAX_VMA, (s.space.shared.vmAreas k).used = true → False := fun k hk hu => by
    rw [h.free k hk] at hu
    cases hu
  have hmax : s.space.shared.sz ≤ MAXVA := by
    rw [h.sz]
    exact hhigh.trans (by decide)
  refine ⟨FixedMapping.tableInv_init (s := s.space.toAddrSpace) ⟨hmax, h.free⟩, ⟨hdvd, hpos, h.sz.ge,
    h.sz.trans_le hhigh, ⟨fun k hk hu => (hfree k hk hu).elim, ?_⟩, fun k hk hu => (hfree k hk hu).elim,
    fun k hk hu => (hfree k hk hu).elim, fun k hk hu => (hfree k hk hu).elim⟩, h.image.sized, ?_⟩
  · exact iff_of_false (fun ⟨k, hk, hu, _⟩ => hfree k hk hu) (by rw [h.sz]; exact lt_irrefl _)
  · intro p hp l pte hlook
    rw [h.sz]
    rcases h.image.pages p hp l pte hlook with hsys | hlow
    · exact .inl hsys
    · exact .inr (.inl hlow)

/-- A call that changes the areas only -/
theorem Inv.moves (hi : Inv s) {ts' : ThreadShared} (htable : TableInv ts')
    (h : Moves s.space.shared s.base ts') :
    Inv { s with space := { s.space with shared := ts' } } := by
  refine ⟨htable, h.layout, hi.sized, fun p hp l pte hlook => ?_⟩
  dsimp only
  rw [h.sz]
  rcases hi.pages p hp l pte hlook with hsys | hlow | hin
  · exact .inl hsys
  · exact .inr (.inl hlow)
  · exact .inr (.inr (h.mapped p hin))

theorem inv_step {a : Act} (hi : Inv s) (hg : Careful s a) (h : step files s a = some s') : Inv s' := by
  cases a with
  | mmap addr length prot flags f offset =>
    simp only [step] at h
    split at h
    · cases h
    next ts' ret refs hcall =>
    cases h
    exact hi.moves (FixedMapping.inv_sysMmap hi.table hg hcall) (moves_sysMmap hi.table hi.layout hg hcall)
  | munmap writei addr length =>
    simp only [step] at h
    split at h
    · cases h
    next t ret eff hcall =>
    cases h
    exact hi.munmap hg.1 hg.2 hcall
  | sbrk n =>
    simp only [step] at h
    split at h
    · next hn =>
      obtain ⟨t, ret, rel, hcall, hres⟩ := hi.vmaSbrk hn hg
      rw [hcall] at h
      cases h
      rcases hres with ⟨-, rfl⟩ | ⟨-, -, hi', -⟩
      · exact hi
      · exact hi'
    · cases h
  | sbrknaive n grown =>
    obtain rfl : n = 0 := hg
    simp only [step, AddrSpace.growproc, lt_irrefl, if_false] at h
    cases h
    exact hi
  | exec ip phs fits image =>
    simp only [step] at h
    split at h
    · cases h
    · next ts' hexec =>
      cases h
      obtain ⟨-, hlayout⟩ := layout_exec hi.table hg hexec
      refine ⟨FixedMapping.inv_exec hi.table hg.segments hexec, hlayout, (image ts'.sz).2.sized, ?_⟩
      intro p hp l pte hlook
      rcases (image ts'.sz).2.pages p hp l pte hlook with hsys | hlow
      · exact .inl hsys
      · exact .inr (.inl hlow)
    · next ts' hexec => exact absurd (layout_exec hi.table hg hexec).1 Bool.false_ne_true
  | fork uvmcopy =>
    cases h
    refine ⟨hi.table, hi.layout, (uvmcopy _ _).2.sized, fun p hp l pte' hlook => ?_⟩
    rcases (uvmcopy s.space.pagetable s.space.shared.sz).2.pages p hp l pte' hlook with
      hsys | ⟨hlt, pte, hold, hr⟩
    · exact .inl hsys
    · -- what the parent has below the size is small
      obtain ⟨hsmall, hread⟩ := hi.small le_rfl 0 p hp (Nat.zero_le p) hlt l pte hold
      exact .inr (.inl ⟨hlt, hsmall, hr.trans hread⟩)
  | fault k va =>
    simp only [step] at h
    split at h
    · cases h
    next t r hcall =>
    cases h
    exact hi.fault hg hcall
  | recast f =>
    cases h
    exact ⟨hi.table, hi.layout, (f s.space.pagetable).2.2 hi.sized, hi.pages.recast (f s.space.pagetable).2.1⟩

theorem inv_of_reachable (h : (system files).ReachableUnder Careful s) : Inv s :=
  System.invariant Inv (fun _ => inv_init) (fun _ _ _ => inv_step) h

/-- The first process, whose program is one page, before any of its pages is there -/
def initcode : State where
  space := { FixedMapping.initcode with mem := fun _ => 0 }
  base := PGSIZE

theorem look_initcode (p : ℕ) : initcode.space.pagetable.look p = none := by
  show PageTable.empty.look p = none
  unfold look PageTable.midAt PageTable.empty
  split <;> rfl

theorem init_initcode : (system noFile).init initcode where
  sz := rfl
  base := ⟨Nat.dvd_refl _, by decide, by decide⟩
  free _ _ := rfl
  image := ⟨PageLedger.sized_empty, fun p _ l pte h => nomatch (look_initcode p).symm.trans h⟩

end Runs

end Xv6.Kernel.HeapContract
