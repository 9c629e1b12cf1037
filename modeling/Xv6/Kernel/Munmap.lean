import Mathlib
import Xv6.Lib.TransitionSystem
import Xv6.Kernel.Vma

/-!
# Partial Unmapping

`munmap` on any table of areas that `vma_create` and earlier calls of `munmap` can
leave, over any page table. One slot has to stand for what is left of an area, and
the code always keeps the end of the range's area where the front is cut and the
front where anything else is cut, with the file offset untouched.

- `cut_exact_iff`: what happens to the area found is right exactly for the whole
  area, for a tail up to its last page, and for a head of an area without a file;
- `munmap_exact_iff`: a successful `munmap` removes exactly the requested pages if
  and only if the range is one of these, no other area has a page in it, and the
  stride of `uvmunmap` meets the mapped pages of the range and no others.
-/

namespace Xv6.Kernel.Munmap

open Xv6.Lib

/-! ## The area that is cut -/

/-- `va` is the address of a page of the range. -/
def InRange (addr len va : ℕ) : Prop := PGSIZE ∣ va ∧ addr ≤ va ∧ va < addr + len

/-- `va` is the address of a page outside the range. -/
def Outside (addr len va : ℕ) : Prop := PGSIZE ∣ va ∧ ¬ (addr ≤ va ∧ va < addr + len)

/-- The area after the cut has no page in the range, all its pages outside, at the same
    place in the file, and is no longer than before. -/
structure CutExact (v : Vma) (addr len : ℕ) : Prop where
  uncovered : ∀ va, InRange addr len va → (v.cut addr len).covers va = false
  kept : ∀ va, Outside addr len va → v.covers va = true →
    (v.cut addr len).covers va = true ∧ (v.cut addr len).fileOffset va = v.fileOffset va
  shrinks : (v.cut addr len).used = true → (v.cut addr len).length ≤ v.length

/-- The ranges that one slot can express: the whole area, a head of an area that reads
    no file, and a tail that runs to the last page. -/
def Expressible (v : Vma) (addr len : ℕ) : Prop :=
  (v.length = len ∧ addr < v.addr + PGSIZE) ∨
  (v.addr = addr ∧ len < v.length ∧ v.ip = none) ∨
  (v.addr < addr ∧ len < v.length ∧ v.addr + v.length ≤ addr + len ∧
    (addr < v.addr + PGSIZE ∨ addr + len < v.addr + v.length + PGSIZE))

section Cut

variable {v : Vma} {addr len : ℕ}

@[simp] theorem cut_prot : (v.cut addr len).prot = v.prot := by
  unfold Vma.cut
  split <;> rfl

@[simp] theorem cut_flags : (v.cut addr len).flags = v.flags := by
  unfold Vma.cut
  split <;> rfl

variable (hlen : v.length < 2 ^ 64) (hcov : v.covers addr = true) (haddr : PGSIZE ∣ addr)
  (hpos : 0 < len) (hlt : len < 2 ^ 64) (hdvd : PGSIZE ∣ len)
include hlen hcov haddr

variable (len) in
/-- The page below the range, where the area has one. -/
theorem page_below (h : ¬ addr < v.addr + PGSIZE) :
    Outside addr len (addr - PGSIZE) ∧ v.covers (addr - PGSIZE) = true := by
  obtain ⟨hu, hle, hend, hwrap⟩ := (Vma.covers_iff hlen).mp hcov
  simp only [PGSIZE] at *
  exact ⟨⟨Nat.dvd_sub haddr (Nat.dvd_refl _), by omega⟩,
    (Vma.covers_iff hlen).mpr ⟨hu, by omega, by omega, hwrap⟩⟩

/-- Cutting the whole area. -/
theorem cut_whole_iff (hwhole : v.length = len) :
    CutExact v addr len ↔ addr < v.addr + PGSIZE := by
  obtain ⟨hu, hle, hend, hwrap⟩ := (Vma.covers_iff hlen).mp hcov
  have hfree : (v.cut addr len).used = false := by rw [Vma.cut, if_pos hwhole]
  have hcut : ∀ va, (v.cut addr len).covers va = false := fun va => by simp [Vma.covers, hfree]
  constructor
  · intro h
    by_contra hbelow
    obtain ⟨hout, hc⟩ := page_below len hlen hcov haddr hbelow
    have hkept := (h.kept _ hout hc).1
    rw [hcut] at hkept
    cases hkept
  · intro hfirst
    refine ⟨fun va _ => hcut va, fun va hout hc => ?_, fun h => by rw [hfree] at h; cases h⟩
    -- every page of the area lies in the range
    exfalso
    obtain ⟨-, hle', hend', -⟩ := (Vma.covers_iff hlen).mp hc
    obtain ⟨hva, hnot⟩ := hout
    simp only [PGSIZE] at *
    omega

include hpos hlt

/-- Cutting an area behind its front. -/
theorem cut_tail_iff (hne : v.length ≠ len) (htail : v.addr ≠ addr) :
    CutExact v addr len ↔ len < v.length ∧ v.addr + v.length ≤ addr + len ∧
      (addr < v.addr + PGSIZE ∨ addr + len < v.addr + v.length + PGSIZE) := by
  obtain ⟨hu, hle, hend, hwrap⟩ := (Vma.covers_iff hlen).mp hcov
  have hcut : v.cut addr len = { v with length := sub64 v.length len } := by
    rw [Vma.cut, if_neg hne, if_neg htail]
  have hcovers : len < v.length → ∀ va, (v.cut addr len).covers va = true ↔
      v.addr ≤ va ∧ va < v.addr + v.length - len := by
    intro hlt' va
    have hlen' : sub64 v.length len = v.length - len := by simp only [sub64]; omega
    rw [hcut, hlen', Vma.covers_iff (by simp only; omega)]
    simp only [hu, true_and]
    omega
  constructor
  · intro h
    have hlt' : len < v.length := by
      have := h.shrinks (by rw [hcut]; exact hu)
      rw [hcut] at this
      simp only [sub64] at this
      omega
    refine ⟨hlt', ?_, ?_⟩
    · -- the first page of the range must be beyond the new end
      have hin : InRange addr len addr := ⟨haddr, Nat.le_refl _, by omega⟩
      have := h.uncovered addr hin
      rw [Bool.eq_false_iff, ne_eq, hcovers hlt'] at this
      omega
    · -- the page below the range must be before it
      by_cases hfirst : addr < v.addr + PGSIZE
      · exact .inl hfirst
      · right
        obtain ⟨hout, hc⟩ := page_below len hlen hcov haddr hfirst
        have := (hcovers hlt' _).mp (h.kept _ hout hc).1
        simp only [PGSIZE] at *
        omega
  · rintro ⟨hlt', hend', hpage⟩
    refine ⟨fun va hin => ?_, fun va hout hc => ?_, fun _ => ?_⟩
    · rw [Bool.eq_false_iff, ne_eq, hcovers hlt']
      have := hin.2
      omega
    · obtain ⟨-, hle', hend'', -⟩ := (Vma.covers_iff hlen).mp hc
      obtain ⟨hva, hnot⟩ := hout
      refine ⟨(hcovers hlt' va).mpr ?_, by simp [Vma.fileOffset, hcut]⟩
      simp only [PGSIZE] at *
      omega
    · rw [hcut]
      simp only [sub64]
      omega

include hdvd

/-- Cutting the front of an area, but not all of it. -/
theorem cut_head_iff (hne : v.length ≠ len) (hhead : v.addr = addr) :
    CutExact v addr len ↔ len < v.length ∧ v.ip = none := by
  obtain ⟨hu, hle, hend, hwrap⟩ := (Vma.covers_iff hlen).mp hcov
  have hcut : v.cut addr len = { v with addr := add64 v.addr len, length := sub64 v.length len } := by
    rw [Vma.cut, if_neg hne, if_pos hhead]
  have hcovers : len < v.length → ∀ va, (v.cut addr len).covers va = true ↔
      v.addr + len ≤ va ∧ va < v.addr + v.length := by
    intro hlt' va
    have haddr' : add64 v.addr len = v.addr + len := by simp only [add64]; omega
    have hlen' : sub64 v.length len = v.length - len := by simp only [sub64]; omega
    rw [hcut, haddr', hlen', Vma.covers_iff (by simp only; omega)]
    simp only [hu, true_and]
    omega
  constructor
  · intro h
    have hlt' : len < v.length := by
      have := h.shrinks (by rw [hcut]; exact hu)
      rw [hcut] at this
      simp only [sub64] at this
      omega
    refine ⟨hlt', ?_⟩
    -- the first page that stays has moved in the file
    have hout : Outside addr len (addr + len) := ⟨Nat.dvd_add haddr hdvd, by omega⟩
    have hkept := (h.kept _ hout ((Vma.covers_iff hlen).mpr ⟨hu, by omega, by omega, hwrap⟩)).2
    rw [hcut] at hkept
    cases hip : v.ip with
    | none => rfl
    | some ip =>
      simp only [Vma.fileOffset, hip, Option.map_some, Option.some.injEq, Prod.mk.injEq, true_and,
        add64, sub64] at hkept
      omega
  · rintro ⟨hlt', hip⟩
    refine ⟨fun va hin => ?_, fun va hout hc => ?_, fun _ => ?_⟩
    · rw [Bool.eq_false_iff, ne_eq, hcovers hlt']
      have := hin.2
      omega
    · obtain ⟨-, hle', hend', -⟩ := (Vma.covers_iff hlen).mp hc
      have := hout.2
      refine ⟨(hcovers hlt' va).mpr (by omega), ?_⟩
      simp [Vma.fileOffset, hcut, hip]
    · rw [hcut]
      simp only [sub64]
      omega

/-- **The area found.** Its cut is right exactly for the ranges one slot can express. -/
theorem cut_exact_iff : CutExact v addr len ↔ Expressible v addr len := by
  obtain ⟨hu, hle, hend, hwrap⟩ := (Vma.covers_iff hlen).mp hcov
  rw [Expressible]
  by_cases hwhole : v.length = len
  · rw [cut_whole_iff hlen hcov haddr hwhole]
    omega
  · by_cases hhead : v.addr = addr
    · rw [cut_head_iff hlen hcov haddr hpos hlt hdvd hwhole hhead]
      have : ¬ v.addr < addr := by omega
      tauto
    · rw [cut_tail_iff hlen hcov haddr hpos hlt hwhole hhead]
      have : v.addr < addr := by omega
      tauto

end Cut

/-! ## The address space -/

/-- `munmap` took the pages of the range out of the table of areas and out of the page
    table; every other page that was covered still is, by the same slot, with the same
    protection, flags and place in the file, and is mapped as before. No length grew. -/
structure RemovesExactly (s s' : AddrSpace) (addr len : ℕ) : Prop where
  uncovered : ∀ va, InRange addr len va → ∀ k < MAX_VMA,
    (s'.shared.vmAreas k).covers va = false
  unmapped : ∀ va, InRange addr len va → ¬ s'.pagetable.Mapped va
  kept : ∀ va, Outside addr len va → ∀ k < MAX_VMA, (s.shared.vmAreas k).covers va = true →
    (s'.shared.vmAreas k).covers va = true ∧
      (s'.shared.vmAreas k).prot = (s.shared.vmAreas k).prot ∧
      (s'.shared.vmAreas k).flags = (s.shared.vmAreas k).flags ∧
      (s'.shared.vmAreas k).fileOffset va = (s.shared.vmAreas k).fileOffset va
  mappedAsBefore : ∀ va, Outside addr len va →
    (∃ k < MAX_VMA, (s.shared.vmAreas k).covers va = true) → s.pagetable.Mapped va →
    s'.pagetable.entry va = s.pagetable.entry va
  noWrap : ∀ k < MAX_VMA, (s'.shared.vmAreas k).used = true →
    (s'.shared.vmAreas k).length ≤ (s.shared.vmAreas k).length

/-- The range can be cut out of the area in slot `i`, no other area has a page in it,
    and the stride of `uvmunmap` meets the entries of all mapped pages in the range and
    of no mapped page that an area covers outside. -/
structure Removable (s : AddrSpace) (addr len i : ℕ) : Prop where
  expressible : Expressible (s.shared.vmAreas i) addr len
  alone : ∀ va, InRange addr len va → ∀ k < MAX_VMA, k ≠ i →
    (s.shared.vmAreas k).covers va = false
  meets : ∀ va, InRange addr len va → s.pagetable.Mapped va →
    s.pagetable.MetBy addr (len / PGSIZE) va
  spares : ∀ va, Outside addr len va →
    (∃ k < MAX_VMA, (s.shared.vmAreas k).covers va = true) → s.pagetable.Mapped va →
    ¬ s.pagetable.MetBy addr (len / PGSIZE) va

/-- The empty range, or a range that can be removed from the area `munmap` finds. -/
def RangeOk (s : AddrSpace) (addr len : ℕ) : Prop :=
  len = 0 ∨ ∃ i, s.mmapped addr = some i ∧ Removable s addr len i

/-- The addresses and lengths of areas are 64-bit values. -/
def Bounded (ts : ThreadShared) : Prop :=
  ∀ k, (ts.vmAreas k).used = true → (ts.vmAreas k).addr < 2 ^ 64 ∧ (ts.vmAreas k).length < 2 ^ 64

theorem removesExactly_refl (s : AddrSpace) (addr : ℕ) : RemovesExactly s s addr 0 := by
  have hempty : ∀ va, ¬ InRange addr 0 va := fun va h => by have := h.2; omega
  exact ⟨fun va h => (hempty va h).elim, fun va h => (hempty va h).elim,
    fun va _ k _ hc => ⟨hc, rfl, rfl, rfl⟩, fun _ _ _ _ => rfl, fun _ _ _ => Nat.le_refl _⟩

/-- A multiple of the page size rounds to itself. -/
theorem npages_eq {len : ℕ} (h : PGSIZE ∣ len) (hlt : len < 2 ^ 64) :
    pgRoundUp len / PGSIZE = len / PGSIZE := by
  simp only [pgRoundUp, roundUp, add64, PGSIZE] at *
  omega

/-- **One call.** A cut and an unmapping together remove exactly the range if and only
    if the range is removable. -/
theorem removesExactly_iff {s : AddrSpace} {pt' : PageTable} {rel : List PageTable.Release}
    {addr len i doFree : ℕ} (hb : Bounded s.shared) (haddr : PGSIZE ∣ addr) (hpos : 0 < len)
    (hlt : len < 2 ^ 64) (hdvd : PGSIZE ∣ len) (hfind : s.mmapped addr = some i)
    (hpt : s.pagetable.uvmunmap addr (len / PGSIZE) doFree = .ok (pt', rel)) :
    RemovesExactly s ⟨s.shared.setSlot i ((s.shared.vmAreas i).cut addr len), pt'⟩ addr len ↔
      Removable s addr len i := by
  obtain ⟨hi, hcov, -, -⟩ := AddrSpace.mmapped_spec hfind
  set v := s.shared.vmAreas i with hv
  have hu : v.used = true := by
    simp only [Vma.covers, Bool.and_eq_true] at hcov
    exact hcov.1.1
  have hcut := cut_exact_iff (hb i hu).2 hcov haddr hpos hlt hdvd
  have hentry := fun va => PageTable.uvmunmap_entry hpt va
  have hself : (s.shared.setSlot i (v.cut addr len)).vmAreas i = v.cut addr len :=
    ThreadShared.setSlot_self ..
  have hother : ∀ k, k ≠ i → (s.shared.setSlot i (v.cut addr len)).vmAreas k
      = s.shared.vmAreas k := fun k hk => ThreadShared.setSlot_of_ne _ _ hk
  -- the areas say what the cut has done, the page table what `uvmunmap` has met
  constructor
  · intro h
    refine ⟨hcut.mp ⟨fun va hin => ?_, fun va hout hc => ?_, fun huc => ?_⟩, ?_, ?_, ?_⟩
    · rw [← hself]
      exact h.uncovered va hin i hi
    · have := h.kept va hout i hi hc
      simp only [hself] at this
      exact ⟨this.1, this.2.2.2⟩
    · have := h.noWrap i hi (by simp only [hself]; exact huc)
      simpa only [hself] using this
    · intro va hin k hk hki
      have := h.uncovered va hin k hk
      simpa only [hother k hki] using this
    · intro va hin hmap
      by_contra hmet
      apply h.unmapped va hin
      rw [PageTable.Mapped, (hentry va).2 hmet]
      exact hmap
    · intro va hout hc hmap hmet
      apply (hentry va).1 hmet
      rw [PageTable.Mapped, h.mappedAsBefore va hout hc hmap]
      exact hmap
  · intro h
    have hexact := hcut.mpr h.expressible
    refine ⟨fun va hin k hk => ?_, fun va hin hmap => ?_, fun va hout k hk hc => ?_,
      fun va hout hc hmap => (hentry va).2 (h.spares va hout hc hmap), fun k hk huk => ?_⟩
    · by_cases hki : k = i
      · subst hki
        simpa only [hself] using hexact.uncovered va hin
      · simpa only [hother k hki] using h.alone va hin k hk hki
    · by_cases hmet : s.pagetable.MetBy addr (len / PGSIZE) va
      · exact (hentry va).1 hmet hmap
      · refine hmet (h.meets va hin ?_)
        rwa [PageTable.Mapped, (hentry va).2 hmet] at hmap
    · by_cases hki : k = i
      · subst hki
        have := hexact.kept va hout hc
        simp only [hself, cut_prot, cut_flags]
        exact ⟨this.1, rfl, rfl, this.2⟩
      · simp only [hother k hki]
        exact ⟨hc, trivial, trivial, trivial⟩
    · by_cases hki : k = i
      · subst hki
        simp only [hself] at huk ⊢
        exact hexact.shrinks huk
      · simp only [hother k hki]
        exact Nat.le_refl _

/-- Only 4 KiB entries in the range. -/
def SmallRange (pt : PageTable) (addr len : ℕ) : Prop :=
  ∀ va, InRange addr len va → ∀ σ, pt.slot va = some σ →
    (∃ i2 i1 i0, σ = .low i2 i1 i0) ∧ isSuppg (pt.get σ).pa = false

/-- Without super pages in the range, the stride of `uvmunmap` meets the pages of the
    range and no others, whatever is mapped. -/
theorem removable_of_small {s : AddrSpace} {addr len i : ℕ} (haddr : PGSIZE ∣ addr)
    (hdvd : PGSIZE ∣ len) (hwrap : addr + len < 2 ^ 64)
    (hsmall : SmallRange s.pagetable addr len)
    (hexpr : Expressible (s.shared.vmAreas i) addr len)
    (halone : ∀ va, InRange addr len va → ∀ k < MAX_VMA, k ≠ i →
      (s.shared.vmAreas k).covers va = false) : Removable s addr len i := by
  have hlast : add64 addr (len / PGSIZE * PGSIZE) = addr + len := by
    rw [Nat.div_mul_cancel hdvd]
    exact Nat.mod_eq_of_lt hwrap
  refine ⟨hexpr, halone, fun va hin hmap => ?_, fun va hout _ _ hmet => ?_⟩
  · obtain ⟨pte, hpte, -⟩ := hmap
    obtain ⟨σ, hσ, -⟩ := Option.map_eq_some_iff.mp hpte
    refine ⟨σ, hσ, PageTable.meets_of_small haddr hin.1 hin.2.1 (by rw [hlast]; exact hin.2.2) hσ ?_⟩
    intro b hb hbl hbd
    rw [hlast] at hbl
    unfold PageTable.strideAt
    split
    · rfl
    · next τ hτ =>
      have := (hsmall b ⟨hbd, hb, hbl⟩ τ hτ).2
      simp [PageTable.strideOf, this]
  · -- an entry met is that of a page in the range
    obtain ⟨σ, hσ, b, hb, hbl, hbσ⟩ := hmet
    rw [hlast] at hbl
    obtain ⟨hbd, hle⟩ := hb.aligned haddr (Nat.dvd_refl _)
    obtain ⟨⟨i2, i1, i0, rfl⟩, -⟩ := hsmall b ⟨hbd, hle, hbl⟩ σ hbσ
    have hpage := PageTable.page_eq_of_slot_low hσ hbσ
    obtain ⟨hva, hnot⟩ := hout
    have : va = b := by
      rw [← Nat.div_mul_cancel hva, ← Nat.div_mul_cancel hbd, hpage]
    omega

/-! ## Reachable tables -/

/-- What changes the areas and the page table of a process. -/
inductive Act where
  /-- `vma_create` of any type -/
  | create (addr len prot flags : ℕ) (f : Option File) (ip : Option ℕ) (offset filesz : ℕ)
      (type : VmaType)
  | munmap (writei : FileWrite → Bool) (addr len : ℕ)
  /-- Whatever else happens to the page table -/
  | touch (pt : PageTable)

/-- One call with 64-bit arguments. -/
def step (s : AddrSpace) : Act → Option AddrSpace
  | .create addr len prot flags f ip offset filesz type =>
    if addr < 2 ^ 64 ∧ len < 2 ^ 64 then
      match s.shared.vmaCreate addr len prot flags f ip offset filesz type with
      | .error _ => none
      | .ok (ts', _, _) => some { s with shared := ts' }
    else none
  | .munmap writei addr len =>
    match s.munmap writei addr len with
    | .error _ => none
    | .ok (s', _, _) => some s'
  | .touch pt => some { s with pagetable := pt }

/-- A process without areas. -/
def system : System AddrSpace Act where
  init s := ∀ k, (s.shared.vmAreas k).used = false
  step := step

theorem bounded_setSlot {ts : ThreadShared} (hb : Bounded ts) (i : ℕ) {v : Vma}
    (hv : v.used = true → v.addr < 2 ^ 64 ∧ v.length < 2 ^ 64) : Bounded (ts.setSlot i v) := by
  intro k hk
  by_cases hki : k = i
  · subst hki
    rw [ThreadShared.setSlot_self] at hk ⊢
    exact hv hk
  · rw [ThreadShared.setSlot_of_ne _ _ hki] at hk ⊢
    exact hb k hk

theorem add64_lt (a b : ℕ) : add64 a b < 2 ^ 64 := Nat.mod_lt _ (by decide)

theorem sub64_lt (a b : ℕ) : sub64 a b < 2 ^ 64 := Nat.mod_lt _ (by decide)

theorem bounded_cut {v : Vma} {addr len : ℕ}
    (hv : v.used = true → v.addr < 2 ^ 64 ∧ v.length < 2 ^ 64) (h : (v.cut addr len).used = true) :
    (v.cut addr len).addr < 2 ^ 64 ∧ (v.cut addr len).length < 2 ^ 64 := by
  unfold Vma.cut at h ⊢
  split at h
  · cases h
  next hne =>
  rw [if_neg hne]
  refine ⟨?_, sub64_lt _ _⟩
  simp only
  split
  · exact add64_lt _ _
  · exact (hv h).1

theorem bounded_setupVma {ts ts' : ThreadShared} {i addr len prot flags offset filesz ret : ℕ}
    {f : Option File} {ip : Option ℕ} {type : VmaType} {refs : List RefOp} (hb : Bounded ts)
    (haddr : addr < 2 ^ 64) (hlen : len < 2 ^ 64)
    (h : ts.setupVma i addr len prot flags f ip offset filesz type = (ts', ret, refs)) :
    Bounded ts' := by
  simp only [ThreadShared.setupVma] at h
  split at h
  · cases h
    exact bounded_setSlot hb i fun _ => ⟨haddr, hlen⟩
  · split at h
    · cases h
      exact hb
    · cases h
      exact bounded_setSlot hb i fun _ => ⟨haddr, hlen⟩

theorem bounded_vmaCreate {ts ts' : ThreadShared} {addr len prot flags offset filesz ret : ℕ}
    {f : Option File} {ip : Option ℕ} {type : VmaType} {refs : List RefOp} (hb : Bounded ts)
    (haddr : addr < 2 ^ 64) (hlen : len < 2 ^ 64)
    (h : ts.vmaCreate addr len prot flags f ip offset filesz type = .ok (ts', ret, refs)) :
    Bounded ts' := by
  -- `vma_create` for EXEC and FIX areas
  have hfix : ∀ type, ts.createFix addr len prot flags f ip offset filesz type = (ts', ret, refs) →
      Bounded ts' := by
    intro type h
    rw [ThreadShared.createFix] at h
    split at h
    · cases h
      exact hb
    · split at h
      · cases h
        exact hb
      · next j _ =>
        rcases hsetup : ts.setupVma j addr len prot flags f ip offset filesz type with ⟨ts₁, r, rs⟩
        rw [hsetup] at h
        cases h
        exact bounded_setupVma hb haddr hlen hsetup
  cases type with
  | exec =>
    simp only [ThreadShared.vmaCreate] at h
    split at h
    · cases h
      exact hb
    · exact hfix _ (Except.ok.inj h)
  | fix =>
    simp only [ThreadShared.vmaCreate] at h
    split at h
    · cases h
      exact hb
    · exact hfix _ (Except.ok.inj h)
  | dynamic =>
    simp only [ThreadShared.vmaCreate] at h
    split at h
    · cases h
      exact hb
    · have h := Except.ok.inj h
      rw [ThreadShared.createDynamic] at h
      split at h
      · cases h
        exact hb
      · exact bounded_setupVma hb (Nat.lt_of_le_of_lt (roundDown_le _ _) (sub64_lt _ _)) hlen h
  | heap =>
    simp only [ThreadShared.vmaCreate, ThreadShared.createHeap] at h
    split at h
    · cases h
      exact hb
    · split at h
      · next j hj =>
        have hj := List.find?_some hj
        simp only [Bool.and_eq_true] at hj
        split at h
        · cases h
        · cases h
          exact bounded_setSlot hb _ fun _ => ⟨(hb j hj.1).1, add64_lt _ _⟩
      · split at h
        · split at h
          · exact bounded_setupVma hb haddr hlen (Except.ok.inj h)
          · cases h
            exact hb
        · cases h
          exact hb

theorem bounded_of_reachable {s : AddrSpace} (h : system.Reachable s) : Bounded s.shared := by
  refine System.invariant (fun s => Bounded s.shared) ?_ ?_ h
  · intro s h0 k hk
    rw [h0 k] at hk
    cases hk
  · intro s a s' hb _ h
    -- `munmap` cuts an area; nothing else makes one of the old ones larger
    cases a with
    | create addr len prot flags f ip offset filesz type =>
      simp only [system, step] at h
      split at h
      · next hargs =>
        split at h
        · cases h
        · next ts' ret refs hcreate =>
          cases h
          exact bounded_vmaCreate hb hargs.1 hargs.2 hcreate
      · cases h
    | munmap writei addr len =>
      simp only [system, step] at h
      split at h
      · cases h
      · next s₁ ret eff hmunmap =>
        cases h
        rcases AddrSpace.munmap_cases hmunmap with
          ⟨rfl, -⟩ | ⟨-, -, -, i, pt', rel, doFree, -, -, rfl⟩
        · exact hb
        · exact bounded_setSlot hb i (bounded_cut (hb i))
    | touch pt =>
      cases h
      exact hb

/-- **`munmap` removes exactly the requested pages if and only if they can be removed.**
    The table of areas is any that `vma_create` and `munmap` leave, the page table is
    arbitrary, and so are the arguments. -/
theorem munmap_exact_iff {s s' : AddrSpace} (writei : FileWrite → Bool) {addr len : ℕ}
    (eff : MunmapEffects) (hs : system.Reachable s) (haddr : PGSIZE ∣ addr) (hlen : len < 2 ^ 64)
    (h : s.munmap writei addr len = .ok (s', 0, eff)) :
    RemovesExactly s s' addr (pgRoundDown len) ↔ RangeOk s addr (pgRoundDown len) := by
  rcases AddrSpace.munmap_cases h with
    ⟨rfl, hret | ⟨-, hzero⟩⟩ | ⟨-, -, hne, i, pt', rel, doFree, hfind, hpt, rfl⟩
  · exact absurd hret (by decide)
  · rw [hzero]
    exact ⟨fun _ => .inl rfl, fun _ => removesExactly_refl s' addr⟩
  · have hdvd : PGSIZE ∣ pgRoundDown len := dvd_roundDown _ _
    have hlt : pgRoundDown len < 2 ^ 64 := Nat.lt_of_le_of_lt (roundDown_le _ _) hlen
    rw [npages_eq hdvd hlt] at hpt
    rw [removesExactly_iff (bounded_of_reachable hs) haddr (Nat.pos_of_ne_zero hne) hlt hdvd
      hfind hpt]
    constructor
    · exact fun hr => .inr ⟨i, hfind, hr⟩
    · rintro (hzero | ⟨k, hk, hr⟩)
      · exact absurd hzero hne
      · rw [hfind] at hk
        cases hk
        exact hr

/-- A process without areas, mapped pages and memory. -/
def blank : AddrSpace where
  shared := ⟨0, fun _ => ⟨false, 0, 0, 0, 0, none, none, 0, 0, .fix⟩⟩
  pagetable := .empty

/-- A mapping of `n` pages in an otherwise empty address space. -/
def mapped (n : ℕ) : AddrSpace where
  shared := blank.shared.setSlot 0
    ⟨true, USYSCALL - n * PGSIZE, n * PGSIZE, 3, 2, none, none, 0, 0, .dynamic⟩
  pagetable := .empty

theorem mapped_reachable : system.Reachable (mapped 1) ∧ system.Reachable (mapped 3) := by
  have hblank : system.Reachable blank := .init fun _ => rfl
  exact ⟨.step (a := .create 0 (1 * PGSIZE) 3 2 none none 0 0 .dynamic) hblank trivial rfl,
    .step (a := .create 0 (3 * PGSIZE) 3 2 none none 0 0 .dynamic) hblank trivial rfl⟩

theorem munmap_one_page :
    RemovesExactly (mapped 1)
        ⟨(mapped 1).shared.setSlot 0 (((mapped 1).shared.vmAreas 0).cut (USYSCALL - PGSIZE) PGSIZE),
          .empty⟩ (USYSCALL - PGSIZE) (pgRoundDown PGSIZE) ↔
      RangeOk (mapped 1) (USYSCALL - PGSIZE) (pgRoundDown PGSIZE) :=
  munmap_exact_iff (fun _ => true) ⟨[], [], []⟩ mapped_reachable.1 (by decide)
    (by decide) rfl

/-- The middle one of three pages is unmapped: the last one is cut off instead. -/
theorem munmap_middle_page :
    ¬ ∀ s, system.Reachable s → ∀ writei addr len s' eff, PGSIZE ∣ addr → len < 2 ^ 64 →
      s.munmap writei addr len = .ok (s', 0, eff) → RemovesExactly s s' addr (pgRoundDown len) := by
  intro h
  have hexact := h (mapped 3) mapped_reachable.2 (fun _ => true) (USYSCALL - 2 * PGSIZE) PGSIZE
    ⟨(mapped 3).shared.setSlot 0
      (((mapped 3).shared.vmAreas 0).cut (USYSCALL - 2 * PGSIZE) PGSIZE), .empty⟩
    ⟨[], [], []⟩ (by decide) (by decide) rfl
  have := hexact.uncovered (USYSCALL - 2 * PGSIZE) ⟨by decide, by decide, by decide⟩ 0 (by decide)
  exact absurd this (by decide)

end Xv6.Kernel.Munmap
