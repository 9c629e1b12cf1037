import Mathlib
import Xv6.Lib.Stores
import Xv6.Kernel.Riscv
import Xv6.Kernel.PageTable
import Xv6.Kernel.Vma
import Xv6.Kernel.Swap

/-!
# Page Faults

`mappages` for one page, `walkaddr`, `readi` and `vma_handle`, on the page table, the areas
and the physical memory of one process. What the allocators, the buffer cache and the swap
area answer while a fault is handled is an argument, also which pages of the process
`kalloc` has paged out to answer.

A super page that may neither be read nor executed would be a pointer for `walk`; the page
table tree cannot express it, and mapping one is an error.

- `look`: what the hardware and `walk` find for an address, with the size of the page;
- `look_mapPage`: a page that has been mapped is found, everything else as before;
- `VmaHandled`: what a successful `vma_handle` has done.
-/

namespace Xv6.Kernel

open Xv6.Lib
open Xv6.Kernel.Swap (pteOut pteIn)

/-! ## What a page table maps -/

/-- An entry of a level-1 page whose bits are all zero -/
def MidEntry.zero : MidEntry := .leaf .zero fun h => nomatch h

/-- What `walk` finds behind an entry of a level-1 page: a super page, or an entry of a level-0
    page that stands for a page in memory or in swap -/
def MidEntry.look (i0 : ℕ) : MidEntry → Option (Bool × Pte)
  | .leaf pte _ => if pte.v then some (true, pte) else none
  | .table t => if (t i0).present then some (false, t i0) else none

namespace PageTable

/-- The page at `va`, in memory or in swap: whether it is a super page, and its entry -/
def look (pt : PageTable) (va : ℕ) : Option (Bool × Pte) :=
  if va < MAXVA then (pt.midAt (px 2 va) (px 1 va)).bind (MidEntry.look (px 0 va)) else none

/-- `walkaddr` -/
def walkaddr (pt : PageTable) (va : ℕ) : ℕ :=
  match pt.look va with
  | some (_, pte) => if pte.v ∧ pte.u then pte.pa else 0
  | none => 0

/-! ## Mapping a page -/

/-- `*pte = …` for the entry of the page at `va` in a level-0 page -/
def setLow (pt : PageTable) (va : ℕ) (pte : Pte) : PageTable :=
  pt.modifyMid (MidEntry.modifyTable (fun _ => pte) (px 0 va)) (px 2 va) (px 1 va)

/-- The root entry that `walk` goes through, with a new page for it if it has none. The number
    is how many pages `kalloc` can still give. -/
def growRoot (pt : PageTable) (i2 n : ℕ) : Option (PageTable × ℕ) :=
  match pt.root i2, n with
  | some _, n => some (pt, n)
  | none, 0 => none
  | none, n + 1 => some (⟨Function.update pt.root i2 (some fun _ => MidEntry.zero)⟩, n)

/-- The level-1 entry that `walk` goes through for a page of 4 KiB. It stops at a super page. -/
def growMid (pt : PageTable) (i2 i1 n : ℕ) : Option PageTable :=
  match pt.midAt i2 i1 with
  | some (.leaf pte _) =>
    if pte.v then some pt
    else if n = 0 then none
    else some (pt.modifyMid (fun _ => .table fun _ => .zero) i2 i1)
  | _ => some pt

/-- `mappages(pagetable, va, pgsize, …)` for one page; `pte` is the entry to be stored. The
    result tells whether it returns 0. -/
def mapPage (pt : PageTable) (va : ℕ) (suppg : Bool) (pte : Pte) (n : ℕ) :
    Except String (PageTable × Bool) :=
  if va % (if suppg then SUPPGSIZE else PGSIZE) ≠ 0 then .error "mappages: va not aligned"
  else if va ≥ MAXVA then .error "walk"
  else
    let i2 := px 2 va
    let i1 := px 1 va
    match pt.growRoot i2 n with
    | none => .ok (pt, false)
    | some (pt, n) =>
      if suppg then
        match pt.midAt i2 i1 with
        | some (.leaf old _) =>
          if old.v then .error "mappages: remap"
          else if h : pte.r = true ∨ pte.x = true then
            .ok (pt.modifyMid (fun _ => .leaf pte fun _ => h) i2 i1, true)
          else .error "walk_level"
        | _ => .error "mappages: remap"
      else
        match pt.growMid i2 i1 n with
        | none => .ok (pt, false)
        | some pt =>
          match pt.midAt i2 i1 with
          | some (.table t) =>
            if (t (px 0 va)).v then .error "mappages: remap"
            else .ok (pt.setLow va pte, true)
          | _ => .error "mappages: remap"

/-- `pageout` of the page at `va`, as `find_swapping_page` does it for a page in memory that is
    not shared -/
def evict (pt : PageTable) (va idx : ℕ) : PageTable :=
  match pt.look va with
  | some (false, pte) =>
    if pte.v ∧ ¬ pte.cow then pt.setLow va (pteOut idx pte) else pt
  | _ => pt

end PageTable

/-! ## Files -/

/-- The part of an inode that reading needs -/
structure Inode where
  size : ℕ
  data : ByteBlock

def BSIZE : ℕ := 4096

/-- What `readi(ip, 0, dst, off, n)` returns, for `uint` arguments: the bytes that it copies -/
def Inode.readi (ip : Inode) (off n : ℕ) : ℕ :=
  if off > ip.size ∨ (off + n) % 2 ^ 32 < off then 0
  else if (off + n) % 2 ^ 32 > ip.size then ip.size - off
  else n

/-! ## Faults -/

/-- The address space of a process, with the physical memory -/
structure Space extends AddrSpace where
  mem : ℕ → UInt8

/-- The address of a page of RAM, as `kalloc` hands them out -/
abbrev Page := {pa : ℕ // KERNBASE ≤ pa ∧ pa < PHYSTOP ∧ PGSIZE ∣ pa}

theorem kernbase_page : KERNBASE ≤ KERNBASE ∧ KERNBASE < PHYSTOP ∧ PGSIZE ∣ KERNBASE := by decide

/-- The address of a super page, as `kalloc_suppage` hands them out -/
abbrev SuperPage := {pa : ℕ // PHYSTOP ≤ pa ∧ SUPPGSIZE ∣ pa}

theorem Page.facts (mem : Page) : isSuppg mem = false ∧ PGSIZE ∣ (mem : ℕ) ∧ (mem : ℕ) ≠ 0 := by
  obtain ⟨pa, hlo, hhi, hdvd⟩ := mem
  show isSuppg pa = false ∧ PGSIZE ∣ pa ∧ pa ≠ 0
  simp only [KERNBASE, PHYSTOP] at hlo hhi
  refine ⟨?_, hdvd, by omega⟩
  rw [isSuppg, Bool.or_eq_false_iff, decide_eq_false_iff_not, decide_eq_false_iff_not, PHYSTOP, PLIC]
  omega

theorem SuperPage.facts (mem : SuperPage) :
    isSuppg mem = true ∧ PGSIZE ∣ (mem : ℕ) ∧ (mem : ℕ) ≠ 0 := by
  obtain ⟨pa, hlo, hdvd⟩ := mem
  show isSuppg pa = true ∧ PGSIZE ∣ pa ∧ pa ≠ 0
  have hpg : PGSIZE ∣ SUPPGSIZE := by decide
  refine ⟨?_, hpg.trans hdvd, ?_⟩
  · rw [isSuppg, decide_eq_true hlo, Bool.true_or]
  · simp only [PHYSTOP] at hlo
    omega

/-- What the rest of the kernel answers while a fault is handled: pages come from `kalloc`, which
    may page out pages of the process for them, super pages from `kalloc_suppage`. -/
structure Answers where
  page : Option Page
  /-- Pages of the process that `kalloc` pages out, and their slots -/
  evicted : List (ℕ × ℕ)
  suppage : Option SuperPage
  /-- The pages that `walk` can get for the page table -/
  tables : ℕ
  /-- Pages of the process that are paged out for those -/
  tablesEvicted : List (ℕ × ℕ)
  /-- `bp->data` of the buffer that `readblock` gets from `bread` -/
  buffer : Page
  /-- The swap slot that `pagein` reads -/
  swapped : ByteBlock

/-- `prot & PROT_EXEC` -/
def protExec (prot : ℕ) : Bool := prot.testBit 2

/-- `PA2PTE(mem) | perm | PTE_V`, as `vma_handle` maps a page -/
def userPte (mem prot : ℕ) : Pte :=
  { Pte.zero with
    ppn := mem / PGSIZE, v := true, r := protRead prot, w := protWrite prot, x := protExec prot,
    u := true }

namespace Vma

/-- The `n` of `vma_handle`, as `readi` gets it: `(int)(vma->addr + vma->filesz - va)`, if that is
    below the page size -/
def fileCount (v : Vma) (va pgsize : ℕ) : ℕ :=
  let sz := sub64 (add64 v.addr v.filesz) va % 2 ^ 32
  if sz < 2 ^ 31 ∧ pgsize ≤ sz then pgsize else sz

/-- The offset of the page at `va`, as a `uint` -/
def pageOffset (v : Vma) (va : ℕ) : ℕ := sub64 (add64 v.offset va) v.addr % 2 ^ 32

/-- How many bytes `readi` copies to a private page -/
def fileBytes (v : Vma) (files : ℕ → Inode) (va pgsize : ℕ) : ℕ :=
  match v.ip with
  | none => 0
  | some ip => (files ip).readi (v.pageOffset va) (v.fileCount va pgsize)

/-- What a private page is filled with -/
def pageContents (v : Vma) (files : ℕ → Inode) (va pgsize : ℕ) : ByteBlock :=
  match v.ip with
  | none => fun _ => 0
  | some ip =>
    let n := (files ip).readi (v.pageOffset va) (v.fileCount va pgsize)
    fun i => if i < n then (files ip).data (v.pageOffset va + i) else 0

end Vma

namespace Space

/-- `kalloc` pages out some pages of the process. -/
def evictAll (s : Space) (l : List (ℕ × ℕ)) : Space :=
  { s with pagetable := l.foldl (fun pt x => if x.1 < s.shared.sz then pt.evict x.1 x.2 else pt) s.pagetable }

/-- `memset` and `memmove` to physical memory -/
def fill (s : Space) (pa n : ℕ) (b : ℕ → UInt8) : Space := { s with mem := Store.apply ⟨pa, n, b⟩ s.mem }

/-- The end of `vma_handle`: `mappages` -/
def finish (s : Space) (k : Answers) (va : ℕ) (suppg : Bool) (pte : Pte) :
    Except String (Space × Option Bool) :=
  let s := s.evictAll k.tablesEvicted
  match s.pagetable.mapPage va suppg pte k.tables with
  | .error e => .error e
  | .ok (pt, ok) => .ok ({ s with pagetable := pt }, if ok then some suppg else none)

/-- `pagein` -/
def pagein (s : Space) (k : Answers) (va : ℕ) (pte : Pte) : Space × Option Bool :=
  let s := s.evictAll k.evicted
  match k.page with
  | none => (s, none)
  | some mem =>
    let s := s.fill mem PGSIZE k.swapped
    ({ s with pagetable := s.pagetable.setLow va (pteIn (mem / PGSIZE) pte) }, some false)

/-- `vma_handle` for a page of the area `v` that is not mapped -/
def mapArea (files : ℕ → Inode) (s : Space) (k : Answers) (v : Vma) (va : ℕ) :
    Except String (Space × Option Bool) :=
  if mapPrivate v.flags then
    if mapSuppg v.flags then
      match k.suppage with
      | none => .ok (s, none)
      | some mem =>
        let va := suppgRoundDown va
        -- `readi` goes on behind the page where its count is negative as an `int`
        (s.fill mem (max SUPPGSIZE (v.fileBytes files va SUPPGSIZE))
          (v.pageContents files va SUPPGSIZE)).finish k va true (userPte mem v.prot)
    else
      let s := s.evictAll k.evicted
      match k.page with
      | none => .ok (s, none)
      | some mem =>
        (s.fill mem (max PGSIZE (v.fileBytes files va PGSIZE))
          (v.pageContents files va PGSIZE)).finish k va false (userPte mem v.prot)
  else
    match v.ip with
    | none => .error "vma_handle"
    | some ip =>
      let off := v.pageOffset va
      if off % BSIZE ≠ 0 then .error "readblock"
      else if off ≥ (files ip).size then .ok (s, none)
      else (s.fill k.buffer BSIZE fun i => (files ip).data (off + i)).finish k va false
        (userPte k.buffer v.prot)

/-- The area that a fault at `va` belongs to -/
def areaAt (s : Space) (va : ℕ) : Option Vma :=
  ((List.range MAX_VMA).map s.shared.vmAreas).find? fun v => v.covers va

/-- `vma_handle(p, va)`: `none` for -1, and otherwise whether the page is a super page -/
def vmaHandle (files : ℕ → Inode) (s : Space) (k : Answers) (va : ℕ) :
    Except String (Space × Option Bool) :=
  if va > MAXVA then .ok (s, none)
  else
    let va := pgRoundDown va
    if va ≥ MAXVA then .error "walk"
    else
      match s.pagetable.look va with
      | some (_, pte) =>
        if pte.pg then .ok (s.pagein k va pte)
        else
          match s.areaAt va with
          | none => .ok (s, none)
          | some v =>
            if mapSuppg v.flags ∧ s.pagetable.walkaddr (suppgRoundDown va) ≠ 0 then .ok (s, some true)
            else if s.pagetable.walkaddr va ≠ 0 then .ok (s, some false)
            else s.mapArea files k v va
      | none =>
        match s.areaAt va with
        | none => .ok (s, none)
        | some v =>
          if mapSuppg v.flags ∧ s.pagetable.walkaddr (suppgRoundDown va) ≠ 0 then .ok (s, some true)
          else s.mapArea files k v va

end Space

/-! ## Finding what has been stored -/

theorem suppgRoundDown_div (va : ℕ) : suppgRoundDown va / SUPPGSIZE = va / SUPPGSIZE := by
  simp only [suppgRoundDown, roundDown, SUPPGSIZE]
  omega

namespace PageTable

variable {pt pt' : PageTable} {va va' i2 i1 n n' : ℕ} {pte : Pte} {suppg : Bool}

theorem px_eq_iff_page (h : va < MAXVA) (h' : va' < MAXVA) :
    (px 2 va' = px 2 va ∧ px 1 va' = px 1 va) ∧ px 0 va' = px 0 va ↔ va' / PGSIZE = va / PGSIZE := by
  simp only [px, MAXVA, PGSIZE] at *
  omega

theorem px_eq_iff_suppg (h : va < MAXVA) (h' : va' < MAXVA) :
    px 2 va' = px 2 va ∧ px 1 va' = px 1 va ↔ va' / SUPPGSIZE = va / SUPPGSIZE := by
  simp only [px, MAXVA, SUPPGSIZE] at *
  omega

theorem suppg_of_page (h : va' / PGSIZE = va / PGSIZE) : va' / SUPPGSIZE = va / SUPPGSIZE := by
  simp only [PGSIZE, SUPPGSIZE] at *
  omega

theorem look_lt {x : Bool × Pte} (h : pt.look va = some x) : va < MAXVA := by
  by_contra hge
  rw [look, if_neg hge] at h
  cases h

/-- The entry that `walk` reaches for a page that is there -/
theorem entry_of_look {l : Bool} (h : pt.look va = some (l, pte)) : pt.entry va = some pte := by
  have hva := look_lt h
  rw [look, if_pos hva] at h
  rw [entry, slot, if_pos hva]
  obtain ⟨e, he, hlook⟩ := Option.bind_eq_some_iff.mp h
  cases e with
  | leaf old hp =>
    simp only [MidEntry.look] at hlook
    split at hlook
    · next hv =>
      cases hlook
      simp [he, MidEntry.slot, hv, get, MidEntry.leafPte]
    · cases hlook
  | table t =>
    simp only [MidEntry.look] at hlook
    split at hlook
    · cases hlook
      simp [he, MidEntry.slot, get, MidEntry.tablePte]
    · cases hlook

theorem look_of_entry (h : pt.entry va = some pte) (hp : pte.present = true) :
    ∃ l, pt.look va = some (l, pte) := by
  obtain ⟨σ, hσ, rfl⟩ := Option.map_eq_some_iff.mp h
  have hva := slot_lt hσ
  rw [slot, if_pos hva] at hσ
  obtain ⟨e, he, hslot⟩ := Option.bind_eq_some_iff.mp hσ
  rw [look, if_pos hva, he]
  cases e with
  | leaf old hold =>
    simp only [MidEntry.slot] at hslot
    split at hslot
    · next hv =>
      cases hslot
      exact ⟨true, by simp [MidEntry.look, hv, get, he, MidEntry.leafPte]⟩
    · cases hslot
  | table t =>
    cases hslot
    simp only [get, he, Option.map_some, Option.getD_some, MidEntry.tablePte] at hp
    exact ⟨false, by simp [MidEntry.look, hp, get, he, MidEntry.tablePte]⟩

/-- A super page that `walk` finds is in memory. -/
theorem v_of_look_suppg (h : pt.look va = some (true, pte)) : pte.v = true := by
  rw [look, if_pos (look_lt h)] at h
  obtain ⟨e, -, hlook⟩ := Option.bind_eq_some_iff.mp h
  cases e with
  | leaf old hp =>
    simp only [MidEntry.look] at hlook
    split at hlook
    · next hv =>
      cases hlook
      exact hv
    · cases hlook
  | table t =>
    simp only [MidEntry.look] at hlook
    split at hlook <;> cases hlook

theorem present_of_look {l : Bool} (h : pt.look va = some (l, pte)) : pte.present = true := by
  cases l with
  | true => simp [Pte.present, v_of_look_suppg h]
  | false =>
    rw [look, if_pos (look_lt h)] at h
    obtain ⟨e, -, hlook⟩ := Option.bind_eq_some_iff.mp h
    cases e with
    | leaf old hp =>
      simp only [MidEntry.look] at hlook
      split at hlook <;> cases hlook
    | table t =>
      simp only [MidEntry.look] at hlook
      split at hlook
      · next hpresent =>
        cases hlook
        exact hpresent
      · cases hlook

/-- All addresses of a page are looked up alike. -/
theorem look_congr (h : va' / PGSIZE = va / PGSIZE) : pt.look va' = pt.look va := by
  have hlt : va' < MAXVA ↔ va < MAXVA := by
    simp only [PGSIZE, MAXVA] at *
    omega
  by_cases hva : va < MAXVA
  · obtain ⟨⟨h2, h1⟩, h0⟩ := (px_eq_iff_page hva (hlt.mpr hva)).mpr h
    rw [look, look, if_pos hva, if_pos (hlt.mpr hva), h2, h1, h0]
  · rw [look, look, if_neg hva, if_neg (mt hlt.mp hva)]

/-- All addresses of a super page are looked up alike. -/
theorem look_suppg_congr (h : pt.look va = some (true, pte)) (hsame : va' / SUPPGSIZE = va / SUPPGSIZE) :
    pt.look va' = some (true, pte) := by
  have hva := look_lt h
  have hva' : va' < MAXVA := by
    simp only [SUPPGSIZE, MAXVA] at *
    omega
  obtain ⟨h2, h1⟩ := (px_eq_iff_suppg hva hva').mpr hsame
  rw [look, if_pos hva] at h
  rw [look, if_pos hva', h2, h1]
  obtain ⟨e, he, hlook⟩ := Option.bind_eq_some_iff.mp h
  rw [he]
  cases e with
  | leaf old hp => exact hlook
  | table t =>
    simp only [MidEntry.look] at hlook
    split at hlook <;> cases hlook

theorem look_modifyMid {F : MidEntry → MidEntry} (h : va < MAXVA) :
    (pt.modifyMid F (px 2 va) (px 1 va)).look va' =
      if va' < MAXVA ∧ va' / SUPPGSIZE = va / SUPPGSIZE then
        ((pt.midAt (px 2 va) (px 1 va)).map F).bind (MidEntry.look (px 0 va'))
      else pt.look va' := by
  by_cases h' : va' < MAXVA
  · by_cases hsame : va' / SUPPGSIZE = va / SUPPGSIZE
    · obtain ⟨h2, h1⟩ := (px_eq_iff_suppg h h').mpr hsame
      rw [if_pos ⟨h', hsame⟩, look, if_pos h', h2, h1, midAt_modifyMid_self]
    · have hne : (px 2 va', px 1 va') ≠ (px 2 va, px 1 va) := by
        intro he
        exact hsame ((px_eq_iff_suppg h h').mp ⟨congrArg Prod.fst he, congrArg Prod.snd he⟩)
      rw [if_neg (fun hc => hsame hc.2), look, look, if_pos h', if_pos h', midAt_modifyMid_of_ne hne]
  · rw [if_neg (fun hc => h' hc.1), look, look, if_neg h', if_neg h']

/-- Storing an entry of a level-0 page -/
theorem look_setLow {t : ℕ → Pte} (h : va < MAXVA)
    (ht : pt.midAt (px 2 va) (px 1 va) = some (.table t)) :
    (pt.setLow va pte).look va' =
      if va' < MAXVA ∧ va' / PGSIZE = va / PGSIZE then
        if pte.present then some (false, pte) else none
      else pt.look va' := by
  rw [setLow, look_modifyMid h, ht]
  by_cases h' : va' < MAXVA
  · by_cases hsupp : va' / SUPPGSIZE = va / SUPPGSIZE
    · have hidx := (px_eq_iff_suppg h h').mpr hsupp
      rw [if_pos ⟨h', hsupp⟩]
      by_cases hpage : va' / PGSIZE = va / PGSIZE
      · have h0 : px 0 va' = px 0 va := ((px_eq_iff_page h h').mpr hpage).2
        rw [if_pos ⟨h', hpage⟩]
        simp [h0, MidEntry.modifyTable, MidEntry.look]
      · have h0 : px 0 va' ≠ px 0 va := fun h0 => hpage ((px_eq_iff_page h h').mp ⟨hidx, h0⟩)
        rw [if_neg (fun hc => hpage hc.2), look, if_pos h', hidx.1, hidx.2, ht]
        simp [MidEntry.modifyTable, MidEntry.look, Function.update_of_ne h0]
    · rw [if_neg (fun hc => hsupp hc.2), if_neg fun hc => hsupp (suppg_of_page hc.2)]
  · rw [if_neg (fun hc => h' hc.1), if_neg fun hc => h' hc.1]

/-- What `look` finds in a level-0 page is an entry of that page. -/
theorem table_of_look (h : pt.look va = some (false, pte)) :
    ∃ t, pt.midAt (px 2 va) (px 1 va) = some (.table t) ∧ t (px 0 va) = pte ∧ pte.present = true := by
  rw [look, if_pos (look_lt h)] at h
  obtain ⟨e, he, hlook⟩ := Option.bind_eq_some_iff.mp h
  cases e with
  | leaf old hp =>
    simp only [MidEntry.look] at hlook
    split at hlook <;> cases hlook
  | table t =>
    simp only [MidEntry.look] at hlook
    split at hlook
    · next hpresent =>
      cases hlook
      exact ⟨t, he, rfl, hpresent⟩
    · cases hlook

theorem look_growRoot (h : pt.growRoot i2 n = some (pt', n')) : pt'.look = pt.look := by
  unfold growRoot at h
  split at h
  · cases h
    rfl
  · cases h
  · next hroot =>
    cases h
    funext va
    by_cases h2 : px 2 va = i2
    · simp [look, midAt, h2, hroot, MidEntry.zero, MidEntry.look, Pte.zero]
    · have hsame : (PageTable.mk (Function.update pt.root i2 (some fun _ => MidEntry.zero))).root
          (px 2 va) = pt.root (px 2 va) := Function.update_of_ne h2 ..
      rw [look, look, midAt, midAt, hsame]

theorem look_growMid (hva : va < MAXVA) (h : pt.growMid (px 2 va) (px 1 va) n = some pt') :
    pt'.look = pt.look := by
  rw [growMid] at h
  split at h
  · next old hp hmid =>
    split at h
    · cases h
      rfl
    · split at h
      · cases h
      · next hv _ =>
        cases h
        funext va'
        rw [look_modifyMid hva, hmid]
        by_cases hsame : va' < MAXVA ∧ va' / SUPPGSIZE = va / SUPPGSIZE
        · obtain ⟨h2, h1⟩ := (px_eq_iff_suppg hva hsame.1).mpr hsame.2
          rw [if_pos hsame, look, if_pos hsame.1, h2, h1, hmid]
          simp [MidEntry.look, hv, Pte.present, Pte.zero]
        · rw [if_neg hsame]
  · cases h
    rfl

/-- What a successful `mappages` has stored -/
theorem mapPage_ok (h : pt.mapPage va suppg pte n = .ok (pt', true)) :
    va < MAXVA ∧ ∃ pt₁ : PageTable, pt₁.look = pt.look ∧
      ((suppg = true ∧ ∃ (old : Pte) (hp : _) (hleaf : _),
          pt₁.midAt (px 2 va) (px 1 va) = some (.leaf old hp) ∧
          old.v = false ∧ pt' = pt₁.modifyMid (fun _ => .leaf pte hleaf) (px 2 va) (px 1 va)) ∨
        suppg = false ∧ ∃ t, pt₁.midAt (px 2 va) (px 1 va) = some (.table t) ∧
          (t (px 0 va)).v = false ∧ pt' = pt₁.setLow va pte) := by
  -- the tables on the way are made first; the last test is that the entry is not in use
  unfold mapPage at h
  cases suppg with
  | true =>
    simp only [if_true] at h
    split at h
    · cases h
    split at h
    · cases h
    next hge =>
    split at h
    · cases h
    next pt₁ n₁ hroot =>
    split at h
    · next old hp hmid =>
      split at h
      · cases h
      next hv =>
      split at h
      · cases h
        exact ⟨Nat.lt_of_not_ge hge, pt₁, look_growRoot hroot,
          .inl ⟨rfl, old, hp, _, hmid, by simpa using hv, rfl⟩⟩
      · cases h
    · cases h
  | false =>
    simp only [Bool.false_eq_true, if_false] at h
    split at h
    · cases h
    split at h
    · cases h
    next hge =>
    split at h
    · cases h
    next pt₁ n₁ hroot =>
    split at h
    · cases h
    next pt₂ hmid =>
    have hva : va < MAXVA := Nat.lt_of_not_ge hge
    split at h
    · next t ht =>
      split at h
      · cases h
      next hv =>
      cases h
      exact ⟨hva, pt₂, (look_growMid hva hmid).trans (look_growRoot hroot),
        .inr ⟨rfl, t, ht, by simpa using hv, rfl⟩⟩
    · cases h

/-- **Mapping.** A page that has been mapped is found with its size and its entry, and every
    other address as before. -/
theorem look_mapPage (h : pt.mapPage va suppg pte n = .ok (pt', true)) (hv : pte.v = true) (va' : ℕ) :
    pt'.look va' =
      if va' < MAXVA ∧
          va' / (if suppg then SUPPGSIZE else PGSIZE) = va / (if suppg then SUPPGSIZE else PGSIZE) then
        some (suppg, pte)
      else pt.look va' := by
  obtain ⟨hva, pt₁, hlook, ⟨rfl, old, hp, hleaf, hmid, -, rfl⟩ | ⟨rfl, t, ht, -, rfl⟩⟩ := mapPage_ok h
  · rw [look_modifyMid hva, hmid, hlook]
    by_cases hsame : va' < MAXVA ∧ va' / SUPPGSIZE = va / SUPPGSIZE
    · rw [if_pos hsame, if_pos (by simpa using hsame)]
      simp [MidEntry.look, hv]
    · rw [if_neg hsame, if_neg (by simpa using hsame)]
  · rw [look_setLow hva ht, hlook]
    simp [Pte.present, hv]

/-- No page in memory was mapped there before. -/
theorem look_of_mapPage (h : pt.mapPage va suppg pte n = .ok (pt', true)) {l : Bool} {old : Pte}
    (hold : pt.look va = some (l, old)) : old.v = false := by
  obtain ⟨hva, pt₁, hlook, ⟨-, old', hp, -, hmid, hv, -⟩ | ⟨-, t, ht, hv, -⟩⟩ := mapPage_ok h
  · rw [← hlook, look, if_pos hva, hmid] at hold
    simp [MidEntry.look, hv] at hold
  · rw [← hlook, look, if_pos hva, ht] at hold
    simp only [Option.bind_some, MidEntry.look] at hold
    split at hold
    · cases hold
      exact hv
    · cases hold

/-- Where the page table cannot grow, everything stays mapped as before. -/
theorem look_mapPage_false (h : pt.mapPage va suppg pte n = .ok (pt', false)) :
    pt'.look = pt.look := by
  -- the tables that have been made before the failure map nothing
  unfold mapPage at h
  cases suppg with
  | true =>
    simp only [if_true] at h
    split at h
    · cases h
    split at h
    · cases h
    split at h
    · cases h
      rfl
    split at h
    · split at h
      · cases h
      · split at h <;> cases h
    · cases h
  | false =>
    simp only [Bool.false_eq_true, if_false] at h
    split at h
    · cases h
    split at h
    · cases h
    split at h
    · cases h
      rfl
    next pt₁ n₁ hroot =>
    split at h
    · cases h
      exact look_growRoot hroot
    · split at h
      · split at h <;> cases h
      · cases h

/-! ## Paging out -/

/-- Some pages have been paged out between `pt` and `pt'`. -/
def Evicts (pt pt' : PageTable) : Prop :=
  ∀ va, pt'.look va = pt.look va ∨
    ∃ pte idx, pt.look va = some (false, pte) ∧ pte.v = true ∧ pte.cow = false ∧
      pt'.look va = some (false, pteOut idx pte)

theorem Evicts.refl (pt : PageTable) : Evicts pt pt := fun _ => .inl rfl

theorem Evicts.trans {pt'' : PageTable} (h : Evicts pt pt') (h' : Evicts pt' pt'') :
    Evicts pt pt'' := by
  intro va
  rcases h va with he | ⟨pte, idx, hlook, hv, hcow, hout⟩ <;>
    rcases h' va with he' | ⟨pte', idx', hlook', hv', hcow', hout'⟩
  · exact .inl (he'.trans he)
  · exact .inr ⟨pte', idx', he ▸ hlook', hv', hcow', hout'⟩
  · exact .inr ⟨pte, idx, hlook, hv, hcow, he'.trans hout⟩
  · -- a page that has been paged out is not in memory
    rw [hout] at hlook'
    cases hlook'
    cases hv'

theorem evicts_evict (pt : PageTable) (va idx : ℕ) : Evicts pt (pt.evict va idx) := by
  intro va'
  rw [evict]
  split
  · next pte hlook =>
    split
    · next hcond =>
      obtain ⟨t, ht, -, -⟩ := table_of_look hlook
      have hva := look_lt hlook
      rw [look_setLow hva ht]
      by_cases hsame : va' < MAXVA ∧ va' / PGSIZE = va / PGSIZE
      · obtain ⟨⟨h2, h1⟩, h0⟩ := (px_eq_iff_page hva hsame.1).mpr hsame.2
        have hlook' : pt.look va' = some (false, pte) := by
          rw [← hlook, look, look, if_pos hsame.1, if_pos hva, h2, h1, h0]
        rw [if_pos hsame]
        exact .inr ⟨pte, idx, hlook', hcond.1, by simpa using hcond.2, rfl⟩
      · exact .inl (if_neg hsame)
    · exact .inl rfl
  · exact .inl rfl

end PageTable

namespace Space

open PageTable

variable {s s' : Space} {files : ℕ → Inode} {k : Answers} {va : ℕ}

theorem evicts_evictAll (s : Space) (l : List (ℕ × ℕ)) :
    Evicts s.pagetable (s.evictAll l).pagetable := by
  show Evicts s.pagetable (l.foldl _ s.pagetable)
  generalize s.pagetable = pt
  induction l generalizing pt with
  | nil => exact .refl pt
  | cons x l ih =>
    refine .trans ?_ (ih _)
    by_cases hx : x.1 < s.shared.sz
    · simpa [hx] using evicts_evict pt x.1 x.2
    · simpa [hx] using Evicts.refl pt

/-- What `vma_handle` has done when it maps a page: it has perhaps paged out others, has filled a
    page that it got, and has mapped it with the permissions of the area. -/
structure Mapped (files : ℕ → Inode) (k : Answers) (s : Space) (v : Vma) (va : ℕ) (s' : Space)
    (suppg : Bool) : Prop where
  size : suppg = (mapPrivate v.flags && mapSuppg v.flags)
  shared : s'.shared = s.shared
  page : ∃ pt mem, Evicts s.pagetable pt ∧ (isSuppg mem = suppg ∧ PGSIZE ∣ mem ∧ mem ≠ 0) ∧
    pt.mapPage (if suppg then suppgRoundDown va else va) suppg (userPte mem v.prot) k.tables =
      .ok (s'.pagetable, true) ∧
    ∃ n b, s'.mem = Store.apply ⟨mem, n, b⟩ s.mem ∧
      (mapPrivate v.flags = true →
        let pgsize := if suppg then SUPPGSIZE else PGSIZE
        let va := if suppg then suppgRoundDown va else va
        n = max pgsize (v.fileBytes files va pgsize) ∧ b = v.pageContents files va pgsize)

end Space

/-! ## Sizes of pages -/

namespace PageTable

variable {pt pt' : PageTable}

/-- Super pages are mapped by entries of level-1 pages, and other pages by entries of level-0 pages.
    A page in memory is not marked as being in swap. -/
def Sized (pt : PageTable) : Prop :=
  ∀ va l pte, pt.look va = some (l, pte) → pte.v = true →
    isSuppg pte.pa = l ∧ pte.pg = false ∧ pte.pa ≠ 0

theorem Sized.evicts (h : pt.Sized) (he : Evicts pt pt') : pt'.Sized := by
  intro va l pte hlook hv
  rcases he va with heq | ⟨old, idx, -, -, -, hout⟩
  · exact h va l pte (heq ▸ hlook) hv
  · rw [hout] at hlook
    cases hlook
    cases hv

theorem pa_userPte {mem : ℕ} (h : PGSIZE ∣ mem) (prot : ℕ) : (userPte mem prot).pa = mem :=
  Nat.div_mul_cancel h

theorem pa_pteIn {mem : ℕ} (h : PGSIZE ∣ mem) (pte : Pte) : (pteIn (mem / PGSIZE) pte).pa = mem :=
  Nat.div_mul_cancel h

theorem Sized.mapPage {va n : ℕ} {suppg : Bool} {pte : Pte} (h : pt.Sized) (hv : pte.v = true)
    (hpte : isSuppg pte.pa = suppg ∧ pte.pg = false ∧ pte.pa ≠ 0)
    (hmap : pt.mapPage va suppg pte n = .ok (pt', true)) : pt'.Sized := by
  intro va' l pte' hlook hv'
  rw [look_mapPage hmap hv] at hlook
  by_cases hsame : va' < MAXVA ∧
      va' / (if suppg then SUPPGSIZE else PGSIZE) = va / (if suppg then SUPPGSIZE else PGSIZE)
  · rw [if_pos hsame] at hlook
    cases hlook
    exact hpte
  · rw [if_neg hsame] at hlook
    exact h va' l pte' hlook hv'

theorem Sized.setLow {va : ℕ} {t : ℕ → Pte} {pte : Pte} (h : pt.Sized) (hva : va < MAXVA)
    (ht : pt.midAt (px 2 va) (px 1 va) = some (.table t))
    (hpte : pte.v = true → isSuppg pte.pa = false ∧ pte.pg = false ∧ pte.pa ≠ 0) : (pt.setLow va pte).Sized := by
  intro va' l pte' hlook hv'
  rw [look_setLow hva ht] at hlook
  split at hlook
  · split at hlook
    · cases hlook
      exact hpte hv'
    · cases hlook
  · exact h va' l pte' hlook hv'

end PageTable

end Xv6.Kernel
