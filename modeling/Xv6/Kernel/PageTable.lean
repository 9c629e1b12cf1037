import Mathlib
import Xv6.Kernel.Riscv

/-!
# User Page Tables

The three-level Sv39 page table of a process, `walk` without allocation, and
`uvmunmap`.

The page table is a typed tree: a root page of pointers, level-1 pages whose
entries are 2 MiB leaves or pointers, and level-0 pages of 4 KiB entries. An
entry of a level-1 page that is valid but neither readable nor executable *is* a
pointer for `walk`, so a `leaf` carries the proof that it is not one.

- `uvmunmap_entry`: `uvmunmap` takes away exactly the entries that its stride
  meets, where the stride is read off the page table it starts from.
-/

namespace Xv6.Kernel

/-! ## The tree -/

/-- An entry of a level-1 page: a leaf (or an invalid entry), or a pointer to a
    level-0 page. -/
inductive MidEntry where
  | leaf (pte : Pte) (notPointer : pte.v = true → pte.r = true ∨ pte.x = true)
  | table (t : ℕ → Pte)

/-- A rewriting of entries that turns no leaf into a pointer and no invalid entry
    into a valid one. -/
structure KeepsLeaf (f : Pte → Pte) : Prop where
  notPointer : ∀ p, (p.v = true → p.r = true ∨ p.x = true) →
    (f p).v = true → (f p).r = true ∨ (f p).x = true
  valid : ∀ p, (f p).v = true → p.v = true

/-- The place of an entry in the tree. -/
inductive Slot where
  | mid (i2 i1 : ℕ)
  | low (i2 i1 i0 : ℕ)
  deriving DecidableEq

namespace MidEntry

/-- The entry itself, where it is a leaf. -/
def leafPte : MidEntry → Pte
  | .leaf pte _ => pte
  | .table _ => .zero

/-- Entry `i0` of the level-0 page it points to. -/
def tablePte (i0 : ℕ) : MidEntry → Pte
  | .leaf _ _ => .zero
  | .table t => t i0

/-- `*pte = f(*pte)` on the leaf. -/
def modifyLeaf (f : Pte → Pte) (hf : KeepsLeaf f) : MidEntry → MidEntry
  | .leaf pte h => .leaf (f pte) (hf.notPointer pte h)
  | .table t => .table t

/-- `*pte = f(*pte)` on entry `i0` of the level-0 page. -/
def modifyTable (f : Pte → Pte) (i0 : ℕ) : MidEntry → MidEntry
  | .leaf pte h => .leaf pte h
  | .table t => .table (Function.update t i0 (f (t i0)))

/-- Where `walk` ends when it comes through entry `i1` of level-1 page `i2`. -/
def slot (i2 i1 i0 : ℕ) : MidEntry → Option Slot
  | .leaf pte _ => if pte.v then some (.mid i2 i1) else none
  | .table _ => some (.low i2 i1 i0)

variable {f : Pte → Pte} {hf : KeepsLeaf f} {i0 j0 : ℕ}

theorem leafPte_modifyTable (e : MidEntry) : (e.modifyTable f i0).leafPte = e.leafPte := by
  cases e <;> rfl

theorem tablePte_modifyLeaf (e : MidEntry) : (e.modifyLeaf f hf).tablePte i0 = e.tablePte i0 := by
  cases e <;> rfl

theorem tablePte_modifyTable_of_ne (h : j0 ≠ i0) (e : MidEntry) :
    (e.modifyTable f i0).tablePte j0 = e.tablePte j0 := by
  cases e with
  | leaf pte hp => rfl
  | table t => exact Function.update_of_ne h _ _

theorem slot_modifyTable (i2 i1 : ℕ) (e : MidEntry) :
    (e.modifyTable f i0).slot i2 i1 j0 = e.slot i2 i1 j0 := by
  cases e <;> rfl

/-- Rewriting a leaf changes where `walk` ends only if the leaf was valid. -/
theorem slot_modifyLeaf {i2 i1 : ℕ} {e : MidEntry} (h : e.slot i2 i1 i0 ≠ some (.mid i2 i1)) :
    (e.modifyLeaf f hf).slot i2 i1 i0 = e.slot i2 i1 i0 := by
  cases e with
  | leaf pte hp =>
    have hv : ¬ pte.v = true := fun hv => h (by simp [slot, hv])
    have hfv : ¬ (f pte).v = true := fun hfv => hv (hf.valid pte hfv)
    simp [slot, modifyLeaf, hv, hfv]
  | table t => rfl

end MidEntry

/-- A root page: each entry is invalid or points to a level-1 page. -/
structure PageTable where
  root : ℕ → Option (ℕ → MidEntry)

/-- `PX(level, va)` -/
def px (level va : ℕ) : ℕ := va / 2 ^ (12 + 9 * level) % 512

namespace PageTable

/-- The page table of `uvmcreate`. -/
def empty : PageTable := ⟨fun _ => none⟩

/-- Entry `i1` of the level-1 page that entry `i2` of the root points to. -/
def midAt (pt : PageTable) (i2 i1 : ℕ) : Option MidEntry := (pt.root i2).map (· i1)

/-- The entry that `walk(pagetable, va, 0)` finds for an address below `MAXVA`. -/
def slot (pt : PageTable) (va : ℕ) : Option Slot :=
  if va < MAXVA then
    (pt.midAt (px 2 va) (px 1 va)).bind (MidEntry.slot (px 2 va) (px 1 va) (px 0 va))
  else none

/-- `walk(pagetable, va, 0)` -/
def walk (pt : PageTable) (va : ℕ) : Except String (Option Slot) :=
  if va ≥ MAXVA then .error "walk" else .ok (pt.slot va)

/-- `*pte` -/
def get (pt : PageTable) : Slot → Pte
  | .mid i2 i1 => ((pt.midAt i2 i1).map MidEntry.leafPte).getD .zero
  | .low i2 i1 i0 => ((pt.midAt i2 i1).map (MidEntry.tablePte i0)).getD .zero

/-- Rewrite one entry of a level-1 page. -/
def modifyMid (pt : PageTable) (F : MidEntry → MidEntry) (i2 i1 : ℕ) : PageTable :=
  { root := Function.update pt.root i2
      ((pt.root i2).map fun mid => Function.update mid i1 (F (mid i1))) }

/-- `*pte = f(*pte)` -/
def modify (pt : PageTable) (f : Pte → Pte) (hf : KeepsLeaf f) : Slot → PageTable
  | .mid i2 i1 => pt.modifyMid (MidEntry.modifyLeaf f hf) i2 i1
  | .low i2 i1 i0 => pt.modifyMid (MidEntry.modifyTable f i0) i2 i1

theorem keepsLeaf_zero : KeepsLeaf fun _ => Pte.zero :=
  ⟨fun _ _ h => absurd h (by decide), fun _ h => absurd h (by decide)⟩

theorem keepsLeaf_clearPg : KeepsLeaf fun p => { p with pg := false } :=
  ⟨fun _ hp h => hp h, fun _ h => h⟩

/-- `*pte = 0` -/
def clear (pt : PageTable) (σ : Slot) : PageTable := pt.modify (fun _ => .zero) keepsLeaf_zero σ

/-- `*pte &= ~PTE_PG` -/
def clearPg (pt : PageTable) (σ : Slot) : PageTable :=
  pt.modify (fun p => { p with pg := false }) keepsLeaf_clearPg σ

/-- The entry of the page at `va`, if `walk` reaches one. -/
def entry (pt : PageTable) (va : ℕ) : Option Pte := (pt.slot va).map pt.get

/-- The page at `va` is mapped, in memory or in swap. -/
def Mapped (pt : PageTable) (va : ℕ) : Prop := ∃ pte, pt.entry va = some pte ∧ pte.present = true

/-! ## Reading after writing -/

variable {pt : PageTable} {F : MidEntry → MidEntry} {f : Pte → Pte} {hf : KeepsLeaf f}
  {σ τ : Slot} {va : ℕ}

theorem midAt_modifyMid_self (i2 i1 : ℕ) :
    (pt.modifyMid F i2 i1).midAt i2 i1 = (pt.midAt i2 i1).map F := by
  cases h : pt.root i2 <;> simp [modifyMid, midAt, h]

theorem midAt_modifyMid_of_ne {i2 i1 j2 j1 : ℕ} (h : (j2, j1) ≠ (i2, i1)) :
    (pt.modifyMid F i2 i1).midAt j2 j1 = pt.midAt j2 j1 := by
  by_cases h2 : j2 = i2
  · subst h2
    have h1 : j1 ≠ i1 := fun h1 => h (by rw [h1])
    cases hr : pt.root j2 <;> simp [modifyMid, midAt, hr, Function.update_of_ne h1]
  · simp [modifyMid, midAt, Function.update_of_ne h2]

theorem slot_lt (h : pt.slot va = some σ) : va < MAXVA := by
  by_contra hge
  rw [slot, if_neg hge] at h
  cases h

/-- What no rewriting of an entry changes reads the same everywhere. -/
theorem map_midAt_modifyMid {α : Type*} {g : MidEntry → α} (hg : ∀ e, g (F e) = g e)
    (i2 i1 j2 j1 : ℕ) :
    ((pt.modifyMid F i2 i1).midAt j2 j1).map g = (pt.midAt j2 j1).map g := by
  by_cases h : (j2, j1) = (i2, i1)
  · cases h
    rw [midAt_modifyMid_self, Option.map_map]
    exact congrArg (Option.map · _) (funext hg)
  · rw [midAt_modifyMid_of_ne h]

theorem get_modify_self (h : pt.slot va = some σ) :
    (pt.modify f hf σ).get σ = f (pt.get σ) := by
  rw [slot, if_pos (slot_lt h)] at h
  obtain ⟨e, he, hs⟩ := Option.bind_eq_some_iff.mp h
  cases e with
  | leaf pte hp =>
    simp only [MidEntry.slot] at hs
    split at hs
    · cases hs
      simp [modify, get, midAt_modifyMid_self, he, MidEntry.modifyLeaf, MidEntry.leafPte]
    · cases hs
  | table t =>
    cases hs
    simp [modify, get, midAt_modifyMid_self, he, MidEntry.modifyTable, MidEntry.tablePte]

theorem get_modify_of_ne (hne : τ ≠ σ) : (pt.modify f hf σ).get τ = pt.get τ := by
  cases σ with
  | mid i2 i1 => cases τ with
    | mid j2 j1 =>
      have h : (j2, j1) ≠ (i2, i1) := fun h => hne (by cases h; rfl)
      simp [modify, get, midAt_modifyMid_of_ne h]
    | low j2 j1 j0 =>
      exact congrArg (Option.getD · _) (map_midAt_modifyMid MidEntry.tablePte_modifyLeaf _ _ _ _)
  | low i2 i1 i0 => cases τ with
    | mid j2 j1 =>
      exact congrArg (Option.getD · _) (map_midAt_modifyMid MidEntry.leafPte_modifyTable _ _ _ _)
    | low j2 j1 j0 =>
      by_cases h : (j2, j1) = (i2, i1)
      · cases h
        have h0 : j0 ≠ i0 := fun h => hne (by rw [h])
        exact congrArg (Option.getD · _)
          (map_midAt_modifyMid (MidEntry.tablePte_modifyTable_of_ne h0) _ _ _ _)
      · simp [modify, get, midAt_modifyMid_of_ne h]

/-- Rewriting an entry moves no other page to another entry. -/
theorem slot_modify_of_ne (hne : pt.slot va ≠ some σ) :
    (pt.modify f hf σ).slot va = pt.slot va := by
  by_cases hva : va < MAXVA
  · rw [slot, if_pos hva] at hne
    rw [slot, slot, if_pos hva, if_pos hva]
    cases σ with
    | mid i2 i1 =>
      by_cases h : (px 2 va, px 1 va) = (i2, i1)
      · cases h
        rw [modify, midAt_modifyMid_self]
        cases he : pt.midAt (px 2 va) (px 1 va) with
        | none => rfl
        | some e => exact MidEntry.slot_modifyLeaf (by simpa [he] using hne)
      · rw [modify, midAt_modifyMid_of_ne h]
    | low i2 i1 i0 =>
      by_cases h : (px 2 va, px 1 va) = (i2, i1)
      · cases h
        rw [modify, midAt_modifyMid_self]
        cases he : pt.midAt (px 2 va) (px 1 va) with
        | none => rfl
        | some e => exact MidEntry.slot_modifyTable _ _ e
      · rw [modify, midAt_modifyMid_of_ne h]
  · rw [slot, slot, if_neg hva, if_neg hva]

/-- A rewritten entry is still the page's own, unless a leaf became invalid. -/
theorem slot_modify_self (h : pt.slot va = some σ) :
    (pt.modify f hf σ).slot va = some σ ∨
      (pt.modify f hf σ).slot va = none ∧ (f (pt.get σ)).v = false := by
  have hva := slot_lt h
  rw [slot, if_pos hva] at h
  obtain ⟨e, he, hs⟩ := Option.bind_eq_some_iff.mp h
  rw [slot, if_pos hva]
  cases e with
  | leaf pte hp =>
    simp only [MidEntry.slot] at hs
    split at hs
    · cases hs
      cases hv : (f pte).v <;>
        simp [modify, get, midAt_modifyMid_self, he, MidEntry.modifyLeaf, MidEntry.slot,
          MidEntry.leafPte, hv]
    · cases hs
  | table t =>
    cases hs
    left
    simp [modify, midAt_modifyMid_self, he, MidEntry.modifyTable, MidEntry.slot]

/-- Dropping the swap slot of a valid entry does not unlink it. -/
theorem slot_clearPg (h : pt.slot va = some σ) (hv : (pt.get σ).v = true) :
    (pt.clearPg σ).slot va = some σ := by
  rcases slot_modify_self h with h' | ⟨-, h'⟩
  · exact h'
  · rw [hv] at h'
    cases h'

/-- The pages that share an entry are next to each other. -/
theorem slot_of_between {a b c : ℕ} (ha : pt.slot a = some σ) (hc : pt.slot c = some σ)
    (hab : a ≤ b) (hbc : b ≤ c) : pt.slot b = some σ := by
  have hlt := slot_lt hc
  have hb : b < MAXVA := by simp only [MAXVA] at *; omega
  rw [slot, if_pos (slot_lt ha)] at ha
  rw [slot, if_pos hlt] at hc
  obtain ⟨e, he, hs⟩ := Option.bind_eq_some_iff.mp ha
  obtain ⟨e', he', hs'⟩ := Option.bind_eq_some_iff.mp hc
  -- both ends have the indices that the entry names, and so has what lies between
  have hpx : px 2 b = px 2 a ∧ px 1 b = px 1 a ∧ (px 0 a = px 0 c → px 0 b = px 0 a) := by
    have h2 : px 2 a = px 2 c ∧ px 1 a = px 1 c := by
      cases e <;> cases e' <;> simp only [MidEntry.slot] at hs hs' <;>
        grind
    simp only [px, MAXVA] at *
    omega
  rw [slot, if_pos hb, hpx.1, hpx.2.1, he]
  cases e with
  | leaf pte hp => exact hs
  | table t =>
    have h0 : px 0 a = px 0 c := by
      cases hs
      cases e' <;> simp only [MidEntry.slot] at hs' <;> grind
    simpa [MidEntry.slot, hpx.2.2 h0] using hs

/-- An entry of a level-0 page is the entry of one page only. -/
theorem page_eq_of_slot_low {a b i2 i1 i0 : ℕ} (ha : pt.slot a = some (.low i2 i1 i0))
    (hb : pt.slot b = some (.low i2 i1 i0)) : a / PGSIZE = b / PGSIZE := by
  have hidx : ∀ {c}, pt.slot c = some (.low i2 i1 i0) →
      c < MAXVA ∧ px 2 c = i2 ∧ px 1 c = i1 ∧ px 0 c = i0 := by
    intro c hc
    have hlt := slot_lt hc
    rw [slot, if_pos hlt] at hc
    obtain ⟨e, -, hs⟩ := Option.bind_eq_some_iff.mp hc
    cases e with
    | leaf pte hp =>
      simp only [MidEntry.slot] at hs
      split at hs <;> cases hs
    | table t =>
      cases hs
      exact ⟨hlt, rfl, rfl, rfl⟩
  have ha := hidx ha
  have hb := hidx hb
  simp only [px, MAXVA, PGSIZE] at *
  omega

/-! ## Unmapping -/

/-- What `uvmunmap` gives back for an entry. -/
inductive Release where
  | swapdecget (idx : ℕ)
  | bunpin2 (pa : ℕ)
  | kfree (pa : ℕ)
  | kfreeSuppage (pa : ℕ)
  deriving DecidableEq

/-- `FREE_BCACHE` -/
def FREE_BCACHE : ℕ := 2

/-- The releases of a valid entry that maps `pa`. -/
def releasesOf (pa doFree : ℕ) : List Release :=
  (if doFree.testBit 1 then [.bunpin2 pa] else []) ++
    if doFree.testBit 0 then [if isSuppg pa then .kfreeSuppage pa else .kfree pa] else []

/-- The stride after a valid entry. -/
def strideOf (pte : Pte) : ℕ := if isSuppg pte.pa then SUPPGSIZE else PGSIZE

/-- The body of the loop of `uvmunmap` at address `a`: the page table, the stride
    to the next address, and what is given back. -/
def uvmunmapStep (pt : PageTable) (a step doFree : ℕ) :
    Except String (PageTable × ℕ × List Release) :=
  match pt.walk a with
  | .error e => .error e
  | .ok none => .ok (pt, step, [])
  | .ok (some σ) =>
    let swapped := (pt.get σ).pg
    let pt₁ := if swapped then pt.clearPg σ else pt
    let rel := if swapped then [.swapdecget (pt.get σ).ppn] else []
    let pte := pt₁.get σ
    if !pte.v then .ok (pt₁, step, rel)
    else if pte.onlyV then .error "uvmunmap: not a leaf"
    else .ok (pt₁.clear σ, strideOf pte, rel ++ releasesOf pte.pa doFree)

/-- The loop of `uvmunmap`, from address `a` up to `last`; each turn advances by a
    page at least, so `fuel` pages are enough turns. -/
def uvmunmapFrom (doFree last : ℕ) : ℕ → PageTable → ℕ → ℕ →
    Except String (PageTable × List Release)
  | 0, pt, _, _ => .ok (pt, [])
  | fuel + 1, pt, a, step =>
    if a < last then
      match uvmunmapStep pt a step doFree with
      | .error e => .error e
      | .ok (pt₁, step₁, rel) =>
        match uvmunmapFrom doFree last fuel pt₁ (a + step₁) step₁ with
        | .error e => .error e
        | .ok (pt₂, rel') => .ok (pt₂, rel ++ rel')
    else .ok (pt, [])

/-- `uvmunmap(pagetable, va, npages, do_free)` -/
def uvmunmap (pt : PageTable) (va npages doFree : ℕ) :
    Except String (PageTable × List Release) :=
  if va % PGSIZE ≠ 0 then .error "uvmunmap: not aligned"
  else uvmunmapFrom doFree (add64 va (npages * PGSIZE)) npages pt va PGSIZE

/-! ## The stride of `uvmunmap` -/

/-- The stride from address `a` on, read off the page table before unmapping: after a
    valid entry it is the size of its page, after anything else it stays. -/
def strideAt (pt : PageTable) (a step : ℕ) : ℕ :=
  match pt.slot a with
  | none => step
  | some σ => if (pt.get σ).v then strideOf (pt.get σ) else step

/-- The addresses that the stride comes to from address `a`, looking no further than
    `last`. -/
inductive StrideFrom (pt : PageTable) (last : ℕ) : ℕ → ℕ → ℕ → Prop where
  | here (a step : ℕ) : StrideFrom pt last a step a
  | next {a step b : ℕ} : a < last →
      StrideFrom pt last (a + strideAt pt a step) (strideAt pt a step) b →
      StrideFrom pt last a step b

/-- The stride from `a` to `last` comes to an address of the entry `σ`. -/
def Meets (pt : PageTable) (last a step : ℕ) (σ : Slot) : Prop :=
  ∃ b, StrideFrom pt last a step b ∧ b < last ∧ pt.slot b = some σ

theorem meets_iff {last a step : ℕ} (ha : a < last) :
    pt.Meets last a step σ ↔ pt.slot a = some σ ∨
      pt.Meets last (a + strideAt pt a step) (strideAt pt a step) σ := by
  constructor
  · rintro ⟨b, hb, hlt, hσ⟩
    cases hb with
    | here => exact .inl hσ
    | next _ h => exact .inr ⟨b, h, hlt, hσ⟩
  · rintro (h | ⟨b, hb, hlt, hσ⟩)
    · exact ⟨a, .here a step, ha, h⟩
    · exact ⟨b, .next ha hb, hlt, hσ⟩

theorem not_meets_of_le {last a step : ℕ} (ha : last ≤ a) : ¬ pt.Meets last a step σ := by
  rintro ⟨b, hb, hlt, -⟩
  cases hb with
  | here => omega
  | next h _ => omega

/-- Every address that the stride comes to is at or above the start and page-aligned. -/
theorem StrideFrom.aligned {last a step b : ℕ} (h : pt.StrideFrom last a step b)
    (ha : PGSIZE ∣ a) (hstep : PGSIZE ∣ step) : PGSIZE ∣ b ∧ a ≤ b := by
  induction h with
  | here => exact ⟨ha, Nat.le_refl _⟩
  | @next a step b _ _ ih =>
    have hdvd : PGSIZE ∣ pt.strideAt a step := by
      unfold strideAt
      split
      · exact hstep
      · split
        · unfold strideOf
          split <;> decide
        · exact hstep
    have := ih (Nat.dvd_add ha hdvd) hdvd
    exact ⟨this.1, by omega⟩

/-- Where no super page is met, the stride comes to every page. -/
theorem meets_of_small {last a va : ℕ} (ha : PGSIZE ∣ a) (hva : PGSIZE ∣ va) (hle : a ≤ va)
    (hlt : va < last) (hσ : pt.slot va = some σ)
    (hsmall : ∀ b, a ≤ b → b < last → PGSIZE ∣ b → pt.strideAt b PGSIZE = PGSIZE) :
    pt.Meets last a PGSIZE σ := by
  obtain ⟨n, hn⟩ : ∃ n, va = a + n * PGSIZE := by
    obtain ⟨k, hk⟩ := Nat.dvd_sub hva ha
    exact ⟨k, by rw [Nat.mul_comm k, ← hk]; omega⟩
  induction n generalizing a with
  | zero => exact ⟨a, .here a _, by omega, by rw [← hσ, hn]; simp⟩
  | succ n ih =>
    have halt : a < last := by omega
    rw [meets_iff halt, hsmall a (Nat.le_refl _) halt ha]
    right
    simp only [PGSIZE] at *
    exact ih (Nat.dvd_add ha (Nat.dvd_refl _)) (by omega)
      (fun b hb => hsmall b (by omega)) (by omega)

theorem PGSIZE_le_strideOf (pte : Pte) : PGSIZE ≤ strideOf pte := by
  unfold strideOf
  split <;> simp

theorem le_strideAt {a step : ℕ} (h : PGSIZE ≤ step) : PGSIZE ≤ pt.strideAt a step := by
  unfold strideAt
  split
  · exact h
  · split
    · exact PGSIZE_le_strideOf _
    · exact h

/-! ## What unmapping leaves -/

/-- `pt'` is `pt` without the entries in `W`. -/
structure Without (W : Set Slot) (pt pt' : PageTable) : Prop where
  gone : ∀ {b σ}, pt.slot b = some σ → σ ∈ W →
    (pt'.slot b = none ∨ pt'.slot b = some σ) ∧ (pt'.get σ).present = false
  same : ∀ {b σ}, pt.slot b = some σ → σ ∉ W → pt'.slot b = some σ ∧ pt'.get σ = pt.get σ
  none : ∀ {b}, pt.slot b = none → pt'.slot b = none

variable {W : Set Slot} {pt' : PageTable}

theorem Without.refl (pt : PageTable) : Without ∅ pt pt :=
  ⟨fun _ h => absurd h (Set.notMem_empty _), fun h _ => ⟨h, rfl⟩, fun h => h⟩

/-- `pt'` differs from `pt` in the entry `σ` at most. -/
structure Rewrites (σ : Slot) (pt pt' : PageTable) : Prop where
  slot_of_ne : ∀ {b}, pt.slot b ≠ some σ → pt'.slot b = pt.slot b
  slot_self : ∀ {b}, pt.slot b = some σ → pt'.slot b = none ∨ pt'.slot b = some σ
  get_of_ne : ∀ {τ}, τ ≠ σ → pt'.get τ = pt.get τ

theorem Rewrites.refl (σ : Slot) (pt : PageTable) : Rewrites σ pt pt :=
  ⟨fun _ => rfl, fun h => .inr h, fun _ => rfl⟩

theorem Rewrites.trans {pt'' : PageTable} (h : Rewrites σ pt pt') (h' : Rewrites σ pt' pt'') :
    Rewrites σ pt pt'' := by
  refine ⟨fun hb => ?_, fun hb => ?_, fun hτ => (h'.get_of_ne hτ).trans (h.get_of_ne hτ)⟩
  · have hb' := h.slot_of_ne hb
    rw [h'.slot_of_ne (by rw [hb']; exact hb), hb']
  · rcases h.slot_self hb with hb' | hb'
    · left
      rw [h'.slot_of_ne (by rw [hb']; simp), hb']
    · exact h'.slot_self hb'

theorem rewrites_modify : Rewrites σ pt (pt.modify f hf σ) :=
  ⟨slot_modify_of_ne, fun h => (slot_modify_self h).symm.imp And.left id, get_modify_of_ne⟩

/-- Taking away one more entry. -/
theorem Without.insert {pt'' : PageTable} (h : Without W pt pt') (hr : Rewrites σ pt' pt'')
    (hgone : (pt''.get σ).present = false) : Without (insert σ W) pt pt'' := by
  refine ⟨?_, ?_, ?_⟩
  · intro b τ hb hτ
    by_cases hne : τ = σ
    · subst hne
      refine ⟨?_, hgone⟩
      by_cases hb' : pt'.slot b = some τ
      · exact hr.slot_self hb'
      · rw [hr.slot_of_ne hb']
        by_cases hW : τ ∈ W
        · exact (h.gone hb hW).1
        · exact .inr (h.same hb hW).1
    · obtain ⟨hb', hg⟩ := h.gone hb (hτ.resolve_left hne)
      have hnot : pt'.slot b ≠ some σ := by
        rcases hb' with hb' | hb' <;> rw [hb'] <;> simp [hne]
      rw [hr.slot_of_ne hnot, hr.get_of_ne hne]
      exact ⟨hb', hg⟩
  · intro b τ hb hτ
    have hne : τ ≠ σ := fun he => hτ (.inl he)
    obtain ⟨hb', hg⟩ := h.same hb fun hW => hτ (.inr hW)
    rw [hr.slot_of_ne (by rw [hb']; simp [hne]), hr.get_of_ne hne]
    exact ⟨hb', hg⟩
  · intro b hb
    have hb' := h.none hb
    rw [hr.slot_of_ne (by rw [hb']; simp), hb']

/-- What the body of the loop does to the entry it finds. -/
theorem uvmunmapStep_found {a step doFree step₁ : ℕ} {pt₁ : PageTable} {rel : List Release}
    (ha : pt.slot a = some σ) (h : uvmunmapStep pt a step doFree = .ok (pt₁, step₁, rel)) :
    step₁ = pt.strideAt a step ∧ Rewrites σ pt pt₁ ∧ (pt₁.get σ).present = false := by
  have hlt := slot_lt ha
  set pte := pt.get σ with hpte
  -- the page table after the swap slot has been dropped
  set ptS := if pte.pg then pt.clearPg σ else pt with hptS
  have hS : Rewrites σ pt ptS := by
    rw [hptS]
    split
    · exact rewrites_modify
    · exact .refl σ pt
  have hgetS : ptS.get σ = { pte with pg := false } := by
    rw [hptS]
    split
    · exact get_modify_self ha
    · next hpg => simp [← hpte, Pte.ext_iff, Bool.eq_false_iff.mpr hpg]
  have hwalk : pt.walk a = .ok (some σ) := by
    rw [walk, if_neg (Nat.not_le.mpr hlt), ha]
  have hstride : pt.strideAt a step = if pte.v then strideOf pte else step := by
    rw [strideAt, ha]
  simp only [uvmunmapStep, hwalk, ← hpte, ← hptS, hgetS] at h
  cases hv : pte.v with
  | false =>
    simp only [hv, Bool.not_false, if_true, Except.ok.injEq, Prod.mk.injEq] at h
    obtain ⟨rfl, rfl, -⟩ := h
    refine ⟨by rw [hstride, hv]; rfl, hS, ?_⟩
    rw [hgetS]
    simp [Pte.present, hv]
  | true =>
    simp only [hv, Bool.not_true, Bool.false_eq_true, if_false] at h
    split at h
    · cases h
    · simp only [Except.ok.injEq, Prod.mk.injEq] at h
      obtain ⟨rfl, rfl, -⟩ := h
      have haS : ptS.slot a = some σ := by
        rw [hptS]
        split
        · exact slot_clearPg ha hv
        · exact ha
      refine ⟨by rw [hstride, hv]; rfl, hS.trans rewrites_modify, ?_⟩
      rw [clear, get_modify_self haS]
      rfl

theorem uvmunmapStep_none {a step doFree step₁ : ℕ} {pt₁ : PageTable} {rel : List Release}
    (ha : pt.slot a = none) (h : uvmunmapStep pt a step doFree = .ok (pt₁, step₁, rel)) :
    step₁ = step ∧ pt₁ = pt := by
  by_cases hlt : a ≥ MAXVA
  · simp only [uvmunmapStep, walk, if_pos hlt] at h
    cases h
  · simp only [uvmunmapStep, walk, if_neg hlt, ha, Except.ok.injEq, Prod.mk.injEq] at h
    exact ⟨h.2.1.symm, h.1.symm⟩

/-- The body of the loop of `uvmunmap`, started with the entries `W` already taken
    away and with the stride that the last of them left. -/
theorem uvmunmapStep_without {a step doFree step₁ : ℕ} {pt₁ : PageTable} {rel : List Release}
    (hW : Without W pt pt')
    (hstep : ∀ σ ∈ W, pt.slot a = some σ → (pt.get σ).v = true → step = strideOf (pt.get σ))
    (h : uvmunmapStep pt' a step doFree = .ok (pt₁, step₁, rel)) :
    step₁ = pt.strideAt a step ∧ Without (W ∪ {σ | pt.slot a = some σ}) pt pt₁ := by
  cases ha : pt.slot a with
  | none =>
    obtain ⟨rfl, rfl⟩ := uvmunmapStep_none (hW.none ha) h
    exact ⟨by rw [strideAt, ha], by simpa using hW⟩
  | some σ =>
    have hset : W ∪ {τ | some σ = some τ} = insert σ W := by
      ext τ
      simp [eq_comm]
    rw [hset]
    -- an entry already taken away has left its stride
    have hkept : σ ∈ W → step = pt.strideAt a step := by
      intro hσ
      simp only [strideAt, ha]
      split
      · next hv => exact hstep σ hσ ha hv
      · rfl
    by_cases hσ : σ ∈ W
    · obtain ⟨ha' | ha', hgone⟩ := hW.gone ha hσ
      · obtain ⟨rfl, rfl⟩ := uvmunmapStep_none ha' h
        rw [Set.insert_eq_of_mem hσ]
        exact ⟨hkept hσ, hW⟩
      · obtain ⟨hs, hr, hgone'⟩ := uvmunmapStep_found ha' h
        have hv : (pt'.get σ).v = false := by
          simp only [Pte.present, Bool.or_eq_false_iff] at hgone
          exact hgone.1
        refine ⟨?_, hW.insert hr hgone'⟩
        rw [hs, ← hkept hσ]
        simp [strideAt, ha', hv]
    · obtain ⟨ha', hg⟩ := hW.same ha hσ
      obtain ⟨hs, hr, hgone⟩ := uvmunmapStep_found ha' h
      refine ⟨?_, hW.insert hr hgone⟩
      simp only [hs, strideAt, ha', ha, hg]

/-- The loop of `uvmunmap` takes away the entries that its stride meets. `W` are the
    entries already taken away, all met before `a`. -/
theorem uvmunmapFrom_without {doFree last fuel a step : ℕ} {pt₂ : PageTable}
    {rel : List Release} (hW : Without W pt pt')
    (hpast : ∀ σ ∈ W, ∃ b < a, pt.slot b = some σ)
    (hstep : ∀ σ ∈ W, pt.slot a = some σ → (pt.get σ).v = true → step = strideOf (pt.get σ))
    (hpg : PGSIZE ≤ step) (hfuel : last ≤ a + PGSIZE * fuel)
    (h : uvmunmapFrom doFree last fuel pt' a step = .ok (pt₂, rel)) :
    Without (W ∪ {σ | pt.Meets last a step σ}) pt pt₂ := by
  induction fuel generalizing W pt' a step rel with
  | zero =>
    have hnone : {σ | pt.Meets last a step σ} = ∅ :=
      Set.eq_empty_of_forall_notMem fun σ => not_meets_of_le (by simpa using hfuel)
    cases h
    rwa [hnone, Set.union_empty]
  | succ fuel ih =>
    rw [uvmunmapFrom] at h
    by_cases hlt : a < last
    · rw [if_pos hlt] at h
      split at h
      · cases h
      next pt₁ step₁ rel₁ hbody =>
      split at h
      · cases h
      next pt₃ rel₃ hrest =>
      cases h
      obtain ⟨rfl, hW₁⟩ := uvmunmapStep_without hW hstep hbody
      set step₁ := pt.strideAt a step with hstep₁
      have hpg₁ : PGSIZE ≤ step₁ := le_strideAt hpg
      have hpast₁ : ∀ σ ∈ W ∪ {σ | pt.slot a = some σ}, ∃ b < a + step₁, pt.slot b = some σ := by
        rintro σ (hσ | hσ)
        · obtain ⟨b, hb, hbσ⟩ := hpast σ hσ
          exact ⟨b, by omega, hbσ⟩
        · exact ⟨a, by simp only [PGSIZE] at hpg₁; omega, hσ⟩
      have hnext := ih hW₁ hpast₁ ?_ hpg₁ (by simp only [PGSIZE] at *; omega) hrest
      · have hset : W ∪ {σ | pt.slot a = some σ} ∪ {σ | pt.Meets last (a + step₁) step₁ σ}
            = W ∪ {σ | pt.Meets last a step σ} := by
          ext σ
          simp only [Set.mem_union, Set.mem_ofPred_eq, meets_iff hlt, or_assoc, hstep₁]
        rwa [hset] at hnext
      · -- an entry met before and again is the one just met: pages of one entry are neighbours
        intro σ hσ hslot hv
        have hσa : pt.slot a = some σ := by
          rcases hσ with hσ | hσ
          · obtain ⟨b, hb, hbσ⟩ := hpast σ hσ
            exact slot_of_between hbσ hslot (by omega) (by omega)
          · exact hσ
        simp [hstep₁, strideAt, hσa, hv]
    · rw [if_neg hlt] at h
      cases h
      have hnone : {σ | pt.Meets last a step σ} = ∅ :=
        Set.eq_empty_of_forall_notMem fun σ => not_meets_of_le (by omega)
      rwa [hnone, Set.union_empty]

/-- The entry of the page at `va` is met when `npages` pages from `start` on are
    unmapped. -/
def MetBy (pt : PageTable) (start npages va : ℕ) : Prop :=
  ∃ σ, pt.slot va = some σ ∧ pt.Meets (add64 start (npages * PGSIZE)) start PGSIZE σ

/-- What `uvmunmap` takes away is what its stride meets. -/
theorem uvmunmap_without {start npages doFree : ℕ} {rel : List Release}
    (h : uvmunmap pt start npages doFree = .ok (pt', rel)) :
    Without {σ | pt.Meets (add64 start (npages * PGSIZE)) start PGSIZE σ} pt pt' := by
  rw [uvmunmap] at h
  split at h
  · cases h
  have hfuel : add64 start (npages * PGSIZE) ≤ start + PGSIZE * npages := by
    rw [Nat.mul_comm PGSIZE]
    exact Nat.mod_le _ _
  have hW := uvmunmapFrom_without (Without.refl pt) (by simp) (by simp) (Nat.le_refl _) hfuel h
  rwa [Set.empty_union] at hW

/-- **What `uvmunmap` does.** The pages whose entries its stride meets are not mapped
    any more, and the entries of all others are untouched. -/
theorem uvmunmap_entry {start npages doFree : ℕ} {rel : List Release}
    (h : uvmunmap pt start npages doFree = .ok (pt', rel)) (va : ℕ) :
    (pt.MetBy start npages va → ¬ pt'.Mapped va) ∧
      (¬ pt.MetBy start npages va → pt'.entry va = pt.entry va) := by
  have hW := uvmunmap_without h
  constructor
  · rintro ⟨σ, hσ, hmet⟩ ⟨pte, hpte, hpresent⟩
    obtain ⟨hs, hg⟩ := hW.gone hσ hmet
    rcases hs with hs | hs
    · simp [entry, hs] at hpte
    · simp only [entry, hs, Option.map_some, Option.some.injEq] at hpte
      rw [hpte, hpresent] at hg
      cases hg
  · intro hmet
    cases hs : pt.slot va with
    | none => rw [entry, entry, hs, hW.none hs]; rfl
    | some σ =>
      obtain ⟨hs', hg⟩ := hW.same hs fun hσ => hmet ⟨σ, hs, hσ⟩
      rw [entry, entry, hs, hs', Option.map_some, Option.map_some, hg]

end PageTable

end Xv6.Kernel
