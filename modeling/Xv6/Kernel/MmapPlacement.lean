import Mathlib
import Xv6.Lib.TransitionSystem
import Xv6.Kernel.Vma

/-!
# Placement of Kernel-Chosen Mappings

A process maps memory at addresses that `vma_create` chooses and unmaps whole
mappings again. The search keeps the slots in descending address order and takes
the first hole below a used slot that passes its test of size.

That test subtracts `next_end`, an `int`, from a 64-bit `end`: above 2 GiB the
bottom of the hole is truncated, and for super pages the rounded bottom can lie
above the rounded top. The hole that passes the test need not have room.

- `findHole_eq_some`: the search stops at the first free slot that passes the test;
- `create_spec`: a successful call places the mapping properly if and only if that
  slot's hole really has room;
- `mmap_placement_iff`: runs in which every call finds a hole with room keep the
  table of mappings apart.
-/

namespace Xv6.Kernel.MmapPlacement

open Xv6.Lib ThreadShared

/-! ## Holes -/

section Holes

variable (ts : ThreadShared) (suppg : Bool)

/-- The value of `end` when the search comes to slot `i`. -/
def holeTop : ℕ → ℕ
  | 0 => roundDown (pageOf suppg) USYSCALL
  | i + 1 => if (ts.vmAreas i).used then ts.endBelow suppg i else holeTop i

/-- The value of `j` when the search comes to the free slot `i`. -/
def holeNext (i : ℕ) : ℕ := ts.nextUsed (MAX_DYN_VMA - (i + 1)) (i + 1)

/-- Slot `i` is free and passes the search's test of size. -/
def Passes (len i : ℕ) : Prop :=
  (ts.vmAreas i).used = false ∧ ts.holeFits suppg len (holeNext ts i) (holeTop ts suppg i) = true

/-- The hole of slot `i` has room for `len` bytes. -/
def Roomy (len i : ℕ) : Prop :=
  ts.nextEnd suppg (holeNext ts i) + len ≤ holeTop ts suppg i

/-- The first slot that passes the search's test has room. -/
def RoomAtFirstFit (len : ℕ) : Prop :=
  ∀ i < MAX_DYN_VMA, (∀ k < i, ¬ Passes ts suppg len k) → Passes ts suppg len i →
    Roomy ts suppg len i

end Holes

variable {ts : ThreadShared} {suppg : Bool} {len : ℕ}

/-- The inner loop stops at a used slot or at the end, and passes free slots only. -/
theorem nextUsed_spec (ts : ThreadShared) (fuel j : ℕ) :
    j ≤ ts.nextUsed fuel j ∧ ts.nextUsed fuel j ≤ j + fuel ∧
      (∀ k, j ≤ k → k < ts.nextUsed fuel j → (ts.vmAreas k).used = false) ∧
      (ts.nextUsed fuel j < j + fuel → (ts.vmAreas (ts.nextUsed fuel j)).used = true) := by
  induction fuel generalizing j with
  | zero => exact ⟨Nat.le_refl _, Nat.le_refl _, fun k h h' => absurd h (by simpa [nextUsed] using h'),
      fun h => absurd h (by simp [nextUsed])⟩
  | succ fuel ih =>
    rw [nextUsed]
    split
    · next hu => exact ⟨Nat.le_refl _, by omega, fun k h h' => by omega, fun _ => hu⟩
    · next hu =>
      obtain ⟨h1, h2, h3, h4⟩ := ih (j + 1)
      refine ⟨by omega, by omega, fun k hk hk' => ?_, fun h => h4 (by omega)⟩
      rcases Nat.eq_or_lt_of_le hk with rfl | hk
      · simpa using hu
      · exact h3 k hk hk'

/-- The free slots from `i` to `holeNext i` bound one hole. -/
theorem same_hole (suppg : Bool) {i k : ℕ} (hi : (ts.vmAreas i).used = false) (hk : i ≤ k)
    (hk' : k < holeNext ts i) :
    holeTop ts suppg k = holeTop ts suppg i ∧ holeNext ts k = holeNext ts i := by
  obtain ⟨h1, h2, h3, h4⟩ := nextUsed_spec ts (MAX_DYN_VMA - (i + 1)) (i + 1)
  rw [← holeNext] at h1 h2 h3 h4
  constructor
  · induction k, hk using Nat.le_induction with
    | base => rfl
    | succ k hk ih =>
      have hfree : (ts.vmAreas k).used = false := by
        rcases Nat.eq_or_lt_of_le hk with rfl | hlt
        · exact hi
        · exact h3 k hlt (by omega)
      rw [holeTop, hfree]
      exact ih (by omega)
  · obtain ⟨g1, g2, g3, g4⟩ := nextUsed_spec ts (MAX_DYN_VMA - (k + 1)) (k + 1)
    rw [← holeNext] at g1 g2 g3 g4
    -- neither search can stop short of the other
    rcases Nat.lt_trichotomy (holeNext ts k) (holeNext ts i) with hlt | heq | hgt
    · have := g4 (by omega)
      rw [h3 _ (by omega) hlt] at this
      cases this
    · exact heq
    · have := h4 (by omega)
      rw [g3 _ (by omega) hgt] at this
      cases this

/-- A hole that is too small: no slot of it passes the test, and its top is what the search goes on
    with. -/
theorem too_small {i : ℕ} (hu : (ts.vmAreas i).used = false)
    (hfits : ¬ ts.holeFits suppg len (holeNext ts i) (holeTop ts suppg i) = true)
    (hbefore : ∀ k < i, ¬ Passes ts suppg len k) :
    (∀ k < holeNext ts i, ¬ Passes ts suppg len k) ∧
      holeTop ts suppg (holeNext ts i) = holeTop ts suppg i := by
  obtain ⟨h1, h2, h3, -⟩ := nextUsed_spec ts (MAX_DYN_VMA - (i + 1)) (i + 1)
  rw [← holeNext] at h1 h2 h3
  constructor
  · intro k hk hp
    rcases Nat.lt_or_ge k i with hki | hki
    · exact hbefore k hki hp
    · obtain ⟨ht, hn⟩ := same_hole suppg hu hki hk
      exact hfits (by rw [← ht, ← hn]; exact hp.2)
  · obtain ⟨m, hm⟩ : ∃ m, holeNext ts i = m + 1 := ⟨holeNext ts i - 1, by omega⟩
    have hfree : (ts.vmAreas m).used = false := by
      rcases Nat.eq_or_lt_of_le (show i ≤ m by omega) with rfl | hlt
      · exact hu
      · exact h3 m hlt (by omega)
    rw [hm, holeTop, hfree]
    exact (same_hole suppg hu (by omega) (by omega)).1

/-- A used slot passes no test. -/
theorem not_passes_succ {i : ℕ} (hu : (ts.vmAreas i).used = true)
    (hbefore : ∀ k < i, ¬ Passes ts suppg len k) : ∀ k < i + 1, ¬ Passes ts suppg len k := by
  intro k hk
  rcases Nat.eq_or_lt_of_le (Nat.le_of_lt_succ hk) with rfl | hk
  · rintro ⟨hfree, -⟩
    rw [hu] at hfree
    cases hfree
  · exact hbefore k hk

/-- The search stops at the first slot that passes its test. -/
theorem findHole_eq_some {fuel i i' e : ℕ} (hfuel : MAX_DYN_VMA ≤ i + fuel)
    (hbefore : ∀ k < i, ¬ Passes ts suppg len k)
    (h : ts.findHole suppg len fuel i (holeTop ts suppg i) = some (i', e)) :
    i' < MAX_DYN_VMA ∧ (∀ k < i', ¬ Passes ts suppg len k) ∧ Passes ts suppg len i' ∧
      e = holeTop ts suppg i' := by
  induction fuel generalizing i with
  | zero => cases h
  | succ fuel ih =>
    rw [findHole] at h
    split at h
    · next hi =>
      split at h
      · next hu =>
        -- a used slot: the hole, if any, starts below it
        have htop : holeTop ts suppg (i + 1) = ts.endBelow suppg i := by rw [holeTop, if_pos hu]
        rw [← htop] at h
        exact ih (by omega) (not_passes_succ hu hbefore) h
      · next hu =>
        have hu : (ts.vmAreas i).used = false := by simpa using hu
        change (if ts.holeFits suppg len (holeNext ts i) (holeTop ts suppg i) = true then _
          else ts.findHole suppg len fuel (holeNext ts i) _) = _ at h
        split at h
        · next hfits =>
          cases h
          exact ⟨hi, hbefore, ⟨hu, hfits⟩, rfl⟩
        · next hfits =>
          obtain ⟨hfail, htop⟩ := too_small hu hfits hbefore
          obtain ⟨h1, -⟩ := nextUsed_spec ts (MAX_DYN_VMA - (i + 1)) (i + 1)
          rw [← holeNext] at h1
          exact ih (by omega) hfail (by rw [htop]; exact h)
    · cases h

/-- A search that finds nothing has found that no slot passes. -/
theorem findHole_eq_none {fuel i : ℕ} (hfuel : MAX_DYN_VMA ≤ i + fuel)
    (hbefore : ∀ k < i, ¬ Passes ts suppg len k)
    (h : ts.findHole suppg len fuel i (holeTop ts suppg i) = none) :
    ∀ k < MAX_DYN_VMA, ¬ Passes ts suppg len k := by
  induction fuel generalizing i with
  | zero => exact fun k hk => hbefore k (by omega)
  | succ fuel ih =>
    rw [findHole] at h
    split at h
    · next hi =>
      split at h
      · next hu =>
        have htop : holeTop ts suppg (i + 1) = ts.endBelow suppg i := by rw [holeTop, if_pos hu]
        rw [← htop] at h
        exact ih (by omega) (not_passes_succ hu hbefore) h
      · next hu =>
        have hu : (ts.vmAreas i).used = false := by simpa using hu
        change (if ts.holeFits suppg len (holeNext ts i) (holeTop ts suppg i) = true then _
          else ts.findHole suppg len fuel (holeNext ts i) _) = _ at h
        split at h
        · cases h
        · next hfits =>
          obtain ⟨hfail, htop⟩ := too_small hu hfits hbefore
          obtain ⟨h1, -⟩ := nextUsed_spec ts (MAX_DYN_VMA - (i + 1)) (i + 1)
          rw [← holeNext] at h1
          exact ih (by omega) hfail (by rw [htop]; exact h)
    · exact fun k hk => hbefore k (by omega)

/-! ## Tables of placed mappings -/

/-- A chosen area: between the program and `USYSCALL`, aligned for its page size. -/
structure AreaInv (sz : ℕ) (v : Vma) : Prop where
  low : pgRoundUp sz ≤ v.addr
  high : v.addr + v.length ≤ USYSCALL
  pos : 0 < v.length
  aligned : pageOf (mapSuppg v.flags) ∣ v.addr

/-- What the mappings of a process look like: chosen areas of which lower slots lie
    above, and the program below all of them. -/
structure TableInv (ts : ThreadShared) : Prop where
  sz_le : ts.sz ≤ USYSCALL
  area : ∀ i < MAX_DYN_VMA, (ts.vmAreas i).used = true → AreaInv ts.sz (ts.vmAreas i)
  apart : ∀ i k, i < k → k < MAX_DYN_VMA → (ts.vmAreas i).used = true →
    (ts.vmAreas k).used = true → (ts.vmAreas k).addr + (ts.vmAreas k).length ≤ (ts.vmAreas i).addr
  program : ∀ k, FIX_START_ADDR ≤ k → k < MAX_VMA → (ts.vmAreas k).used = true →
    (ts.vmAreas k).addr + (ts.vmAreas k).length ≤ ts.sz ∧
      ((ts.vmAreas k).type = .exec ∨ (ts.vmAreas k).type = .heap)

theorem pageOf_pos (suppg : Bool) : 0 < pageOf suppg := by cases suppg <;> decide

theorem pageOf_le (suppg : Bool) : pageOf suppg ≤ 2 ^ 21 := by cases suppg <;> decide

theorem PGSIZE_dvd_pageOf (suppg : Bool) : PGSIZE ∣ pageOf suppg := by cases suppg <;> decide

section Geometry

variable (hi : TableInv ts)
include hi

theorem TableInv.PGSIZE_dvd {i : ℕ} (h : i < MAX_DYN_VMA) (hu : (ts.vmAreas i).used = true) :
    PGSIZE ∣ (ts.vmAreas i).addr :=
  Dvd.dvd.trans (PGSIZE_dvd_pageOf _) ((hi.area i h hu).aligned)

variable (suppg) in
/-- The top of a hole is aligned, and no higher than any area above it. -/
theorem holeTop_spec {i : ℕ} (h : i ≤ MAX_DYN_VMA) :
    pageOf suppg ∣ holeTop ts suppg i ∧ holeTop ts suppg i ≤ USYSCALL ∧
      ∀ k < i, (ts.vmAreas k).used = true → holeTop ts suppg i ≤ (ts.vmAreas k).addr := by
  induction i with
  | zero => exact ⟨dvd_roundDown _ _, roundDown_le _ _, fun k hk => absurd hk (Nat.not_lt_zero k)⟩
  | succ i ih =>
    obtain ⟨hdvd, hle, habove⟩ := ih (by omega)
    rw [holeTop]
    by_cases hu : (ts.vmAreas i).used = true
    · rw [if_pos hu]
      have hend : pageOf suppg ∣ ts.endBelow suppg i ∧
          ts.endBelow suppg i ≤ (ts.vmAreas i).addr := by
        cases suppg with
        | true => exact ⟨dvd_roundDown _ _, roundDown_le _ _⟩
        | false => exact ⟨hi.PGSIZE_dvd h hu, Nat.le_refl _⟩
      have hhigh := (hi.area i h hu).high
      refine ⟨hend.1, by omega, fun k hk hku => ?_⟩
      rcases Nat.eq_or_lt_of_le (Nat.le_of_lt_succ hk) with rfl | hk
      · exact hend.2
      · have := hi.apart k i hk h hku hu
        omega
    · rw [if_neg hu]
      refine ⟨hdvd, hle, fun k hk hku => habove k ?_ hku⟩
      rcases Nat.eq_or_lt_of_le (Nat.le_of_lt_succ hk) with rfl | hk
      · exact absurd hku hu
      · exact hk

/-- What lies below a hole: the end that `next_end` rounds up, and the areas and the
    program that do not reach above it. -/
theorem nextEnd_spec (suppg : Bool) {i : ℕ} (h : i < MAX_DYN_VMA) :
    ∃ bottom, bottom ≤ USYSCALL ∧ ts.nextEnd suppg (holeNext ts i) = roundUp (pageOf suppg) bottom ∧
      ts.sz ≤ bottom ∧
      (∀ k, i < k → k < MAX_DYN_VMA → (ts.vmAreas k).used = true →
        (ts.vmAreas k).addr + (ts.vmAreas k).length ≤ bottom) ∧
      (bottom = ts.sz ∨ ∃ k, i < k ∧ k < MAX_DYN_VMA ∧ (ts.vmAreas k).used = true ∧
        bottom = (ts.vmAreas k).addr + (ts.vmAreas k).length) := by
  obtain ⟨h1, h2, h3, h4⟩ := nextUsed_spec ts (MAX_DYN_VMA - (i + 1)) (i + 1)
  rw [← holeNext] at h1 h2 h3 h4
  have hge : ∀ k, i < k → k < MAX_DYN_VMA → (ts.vmAreas k).used = true → holeNext ts i ≤ k := by
    intro k hik hk hku
    by_contra hlt
    rw [h3 k hik (by omega)] at hku
    cases hku
  -- the next area that is in use below the hole, or none
  by_cases hj : holeNext ts i = MAX_DYN_VMA
  · refine ⟨ts.sz, hi.sz_le, by rw [nextEnd, if_pos hj], Nat.le_refl _, ?_, .inl rfl⟩
    intro k hik hk hku
    have := hge k hik hk hku
    omega
  · have hju := h4 (by omega)
    have hjlt : holeNext ts i < MAX_DYN_VMA := by omega
    set j := holeNext ts i with hjdef
    have hhigh := (hi.area j hjlt hju).high
    have hlow := (hi.area j hjlt hju).low
    have hsz : ts.sz ≤ pgRoundUp ts.sz := by
      have := hi.sz_le
      exact le_roundUp (by decide) (by simp at this ⊢; omega)
    have hwrap : add64 (ts.vmAreas j).addr (ts.vmAreas j).length =
        (ts.vmAreas j).addr + (ts.vmAreas j).length :=
      Nat.mod_eq_of_lt (by simp at hhigh; omega)
    refine ⟨_, hhigh, by rw [nextEnd, if_neg hj, hwrap], by omega, ?_, .inr ⟨j, by omega, hjlt, hju, rfl⟩⟩
    intro k hik hk hku
    rcases Nat.eq_or_lt_of_le (hge k hik hk hku) with rfl | hlt
    · exact Nat.le_refl _
    · have := hi.apart j k hlt hk hju hku
      omega

end Geometry

/-! ## One call -/

/-- A new mapping `[ret, ret+len)` in its place: aligned, between the program and
    `USYSCALL`, apart from every area in use, with the slots still in order. -/
structure Placed (ts ts' : ThreadShared) (len flags ret : ℕ) : Prop where
  aligned : pageOf (mapSuppg flags) ∣ ret
  low : pgRoundUp ts.sz ≤ ret
  high : ret + len ≤ USYSCALL
  disjoint : ∀ k < MAX_VMA, (ts.vmAreas k).used = true →
    ret + len ≤ (ts.vmAreas k).addr ∨ (ts.vmAreas k).addr + (ts.vmAreas k).length ≤ ret
  descending : ∀ i k, i < k → k < MAX_DYN_VMA → (ts'.vmAreas i).used = true →
    (ts'.vmAreas k).used = true → (ts'.vmAreas k).addr < (ts'.vmAreas i).addr

/-- Everything a call does to the table. -/
theorem vmaCreate_cases {prot flags offset filesz ret : ℕ} {f : Option File} {ip : Option ℕ}
    {ts' : ThreadShared} {refs : List RefOp}
    (h : ts.vmaCreate 0 len prot flags f ip offset filesz .dynamic = .ok (ts', ret, refs)) :
    ts' = ts ∧ ret = failed ∨
    ∃ i < MAX_DYN_VMA, (∀ k < i, ¬ Passes ts (mapSuppg flags) len k) ∧
      Passes ts (mapSuppg flags) len i ∧
      ret = roundDown (pageOf (mapSuppg flags)) (sub64 (holeTop ts (mapSuppg flags) i) len) ∧
      ts' = ts.setSlot i ⟨true, ret, len, prot, flags, f, ip, offset, filesz, .dynamic⟩ := by
  rw [vmaCreate] at h
  split at h
  · cases h
    exact .inl ⟨rfl, rfl⟩
  have h : ts.createDynamic len prot flags f ip offset filesz = (ts', ret, refs) := by
    simpa using h
  rw [createDynamic] at h
  split at h
  · cases h
    exact .inl ⟨rfl, rfl⟩
  -- the first slot with a hole that is large enough
  next i e hfound =>
  obtain ⟨hi, hfirst, hpass, rfl⟩ :=
    findHole_eq_some (i := 0) (by simp) (fun k hk => absurd hk (Nat.not_lt_zero k)) hfound
  simp only [setupVma] at h
  split at h
  · cases h
    exact .inr ⟨i, hi, hfirst, hpass, rfl, rfl⟩
  · split at h
    · cases h
      exact .inl ⟨rfl, rfl⟩
    · cases h
      exact .inr ⟨i, hi, hfirst, hpass, rfl, rfl⟩

/-- The failure value is no address of a page. -/
theorem roundDown_ne_failed (suppg : Bool) (a : ℕ) : roundDown (pageOf suppg) a ≠ failed := by
  intro h
  have hdvd : PGSIZE ∣ failed := h ▸ Dvd.dvd.trans (PGSIZE_dvd_pageOf suppg) (dvd_roundDown _ a)
  exact absurd hdvd (by decide)

/-- The address computed from a top: either nothing wraps, or the length exceeds the
    whole range below the top and the mapping ends beyond `USYSCALL`. -/
theorem ret_cases {top ret : ℕ} (htop : top ≤ USYSCALL) (hlen : len < 2 ^ 64)
    (hret : ret = roundDown (pageOf suppg) (sub64 top len)) :
    len ≤ top ∧ ret = roundDown (pageOf suppg) (top - len) ∨
      top < len ∧ USYSCALL < ret + len := by
  have hpos := pageOf_pos suppg
  have hpg := pageOf_le suppg
  simp only [USYSCALL, TRAPFRAME, TRAMPOLINE, MAXVA, PGSIZE] at *
  by_cases hle : len ≤ top
  · left
    have hsub : sub64 top len = top - len := by
      simp only [sub64]
      omega
    exact ⟨hle, by rw [hret, hsub]⟩
  · right
    have hsub : sub64 top len = 2 ^ 64 + top - len := by
      simp only [sub64]
      omega
    have hlt := Nat.lt_div_mul_add (a := 2 ^ 64 + top - len) hpos
    rw [← roundDown, ← hsub, ← hret] at hlt
    omega

/-- A hole has room if and only if the address computed from its top is above what
    lies below it and the mapping ends below `USYSCALL`. -/
theorem roomy_iff {i ret bottom : ℕ} (hi : TableInv ts) (h : i < MAX_DYN_VMA)
    (hlen : len < 2 ^ 64) (hbottom : bottom ≤ USYSCALL)
    (hnext : ts.nextEnd suppg (holeNext ts i) = roundUp (pageOf suppg) bottom)
    (hret : ret = roundDown (pageOf suppg) (sub64 (holeTop ts suppg i) len)) :
    (Roomy ts suppg len i ↔ bottom ≤ ret ∧ ret + len ≤ USYSCALL) ∧
      (ret + len ≤ USYSCALL → ret + len ≤ holeTop ts suppg i) := by
  obtain ⟨-, htop, -⟩ := holeTop_spec suppg hi (Nat.le_of_lt h)
  have hpos := pageOf_pos suppg
  have hnowrap : bottom + pageOf suppg ≤ 2 ^ 64 := by
    have := pageOf_le suppg
    simp at hbottom
    omega
  have hup : bottom ≤ ret ↔ roundUp (pageOf suppg) bottom ≤ ret :=
    (roundUp_le_iff hpos (hret ▸ dvd_roundDown _ _) hnowrap).symm
  rw [Roomy, hnext, hup]
  rcases ret_cases htop hlen hret with ⟨hle, hret'⟩ | ⟨hlt, hbeyond⟩
  · have hretle := roundDown_le (pageOf suppg) (holeTop ts suppg i - len)
    rw [hret', le_roundDown_iff hpos (dvd_roundUp _ _)]
    constructor
    · constructor <;> intro <;> omega
    · intro
      omega
  · exact ⟨⟨fun hroom => by omega, fun ⟨_, h⟩ => by omega⟩, fun h => by omega⟩

theorem TableInv.descending (hi : TableInv ts) {i k : ℕ} (hik : i < k) (hk : k < MAX_DYN_VMA)
    (hiu : (ts.vmAreas i).used = true) (hku : (ts.vmAreas k).used = true) :
    (ts.vmAreas k).addr < (ts.vmAreas i).addr := by
  have := hi.apart i k hik hk hiu hku
  have := (hi.area k hk hku).pos
  omega

/-- Filling a free slot with an area between its neighbours keeps the table in shape. -/
theorem TableInv.fill (hi : TableInv ts) {i : ℕ} {v : Vma} (h : i < MAX_DYN_VMA)
    (harea : AreaInv ts.sz v)
    (habove : ∀ k < i, (ts.vmAreas k).used = true → v.addr + v.length ≤ (ts.vmAreas k).addr)
    (hbelow : ∀ k, i < k → k < MAX_DYN_VMA → (ts.vmAreas k).used = true →
      (ts.vmAreas k).addr + (ts.vmAreas k).length ≤ v.addr) :
    TableInv (ts.setSlot i v) := by
  refine ⟨hi.sz_le, ?_, ?_, ?_⟩
  · intro k hk hku
    by_cases hki : k = i
    · subst hki
      rwa [setSlot_self]
    · rw [setSlot_of_ne _ _ hki] at hku ⊢
      exact hi.area k hk hku
  -- the new area lies between those above and those below it
  · intro a b hab hb hau hbu
    by_cases hai : a = i
    · subst hai
      rw [setSlot_of_ne _ _ (by omega)] at hbu ⊢
      rw [setSlot_self]
      exact hbelow b hab hb hbu
    · rw [setSlot_of_ne _ _ hai] at hau ⊢
      by_cases hbi : b = i
      · subst hbi
        rw [setSlot_self]
        exact habove a hab hau
      · rw [setSlot_of_ne _ _ hbi] at hbu ⊢
        exact hi.apart a b hab hb hau hbu
  · intro k hk hk' hku
    have hki : k ≠ i := by simp only [FIX_START_ADDR] at hk; omega
    rw [setSlot_of_ne _ _ hki] at hku ⊢
    exact hi.program k hk hk' hku

/-- Giving a slot back keeps the table in shape. -/
theorem TableInv.release (hi : TableInv ts) {i : ℕ} :
    TableInv (ts.setSlot i { ts.vmAreas i with used := false }) := by
  have hsame : ∀ k, ((ts.setSlot i { ts.vmAreas i with used := false }).vmAreas k).used = true →
      k ≠ i ∧ (ts.vmAreas k).used = true := by
    intro k hku
    by_cases hki : k = i
    · subst hki
      simp at hku
    · exact ⟨hki, by rwa [setSlot_of_ne _ _ hki] at hku⟩
  refine ⟨hi.sz_le, fun k hk hku => ?_, fun a b hab hb hau hbu => ?_, fun k hk hk' hku => ?_⟩
  · obtain ⟨hki, hku⟩ := hsame k hku
    rw [setSlot_of_ne _ _ hki]
    exact hi.area k hk hku
  · obtain ⟨hai, hau⟩ := hsame a hau
    obtain ⟨hbi, hbu⟩ := hsame b hbu
    rw [setSlot_of_ne _ _ hai, setSlot_of_ne _ _ hbi]
    exact hi.apart a b hab hb hau hbu
  · obtain ⟨hki, hku⟩ := hsame k hku
    rw [setSlot_of_ne _ _ hki]
    exact hi.program k hk hk' hku

/-- **One call.** Where `vma_create` succeeds, the mapping is in its place if and only
    if the first hole that passes the test of size has room, and then the table stays
    in shape. -/
theorem create_spec {prot flags offset filesz ret : ℕ} {f : Option File} {ip : Option ℕ}
    {ts' : ThreadShared} {refs : List RefOp} (hi : TableInv ts) (hpos : 0 < len) (hlen : len < 2 ^ 64)
    (h : ts.vmaCreate 0 len prot flags f ip offset filesz .dynamic = .ok (ts', ret, refs))
    (hret : ret ≠ failed) :
    (Placed ts ts' len flags ret ↔ RoomAtFirstFit ts (mapSuppg flags) len) ∧
      (RoomAtFirstFit ts (mapSuppg flags) len → TableInv ts') := by
  obtain ⟨i, hilt, hfirst, hpass, hreteq, hts'⟩ :=
    (vmaCreate_cases h).resolve_left fun h => hret h.2
  obtain ⟨bottom, hbottom, hnext, hsz, hareas, hlast⟩ := nextEnd_spec hi (mapSuppg flags) hilt
  obtain ⟨hdvd, htop, habove⟩ := holeTop_spec (mapSuppg flags) hi (Nat.le_of_lt hilt)
  obtain ⟨hroomy, hbelow⟩ := roomy_iff hi hilt hlen hbottom hnext hreteq
  have hfit : RoomAtFirstFit ts (mapSuppg flags) len ↔ Roomy ts (mapSuppg flags) len i := by
    constructor
    · exact fun hr => hr i hilt hfirst hpass
    · intro hr i' hi' hfirst' hpass'
      rcases Nat.lt_trichotomy i' i with hlt | rfl | hgt
      · exact absurd hpass' (hfirst i' hlt)
      · exact hr
      · exact absurd hpass (hfirst' i hgt)
  have hsz' : ts.sz ≤ pgRoundUp ts.sz ∧ (pgRoundUp ts.sz ≤ ret ↔ ts.sz ≤ ret) := by
    have hnowrap : ts.sz + PGSIZE ≤ 2 ^ 64 := by have := hi.sz_le; simp at this ⊢; omega
    have hpg : PGSIZE ∣ ret :=
      Dvd.dvd.trans (PGSIZE_dvd_pageOf _) (hreteq ▸ dvd_roundDown (pageOf (mapSuppg flags)) _)
    exact ⟨le_roundUp (by decide) hnowrap, roundUp_le_iff (by decide) hpg hnowrap⟩
  have hself : ts'.vmAreas i =
      ⟨true, ret, len, prot, flags, f, ip, offset, filesz, .dynamic⟩ := by rw [hts', setSlot_self]
  have hother : ∀ k, k ≠ i → ts'.vmAreas k = ts.vmAreas k := fun k hk => by
    rw [hts', setSlot_of_ne _ _ hk]
  have hfill : bottom ≤ ret → ret + len ≤ USYSCALL → TableInv ts' := by
    intro hlow hhigh
    have hend := hbelow hhigh
    rw [hts']
    refine hi.fill hilt ⟨hsz'.2.mpr (by omega), hhigh, hpos, hreteq ▸ dvd_roundDown _ _⟩ ?_ ?_
    · intro k hk hku
      exact Nat.le_trans hend (habove k hk hku)
    · intro k hik hk hku
      exact Nat.le_trans (hareas k hik hk hku) hlow
  rw [hfit, hroomy]
  refine ⟨⟨?_, ?_⟩, fun h => hfill h.1 h.2⟩
  · intro hp
    refine ⟨?_, hp.high⟩
    rcases hlast with rfl | ⟨k, hik, hk, hku, rfl⟩
    · exact hsz'.2.mp hp.low
    · -- the next area below: it is in order with the new one, so it ends below it
      have horder := hp.descending i k hik hk (by rw [hself]) (by rwa [hother k (by omega)])
      rw [hself, hother k (by omega)] at horder
      have := hp.disjoint k (by simp only [MAX_VMA]; omega) hku
      simp only at horder
      omega
  · rintro ⟨hlow, hhigh⟩
    have hend := hbelow hhigh
    refine ⟨hreteq ▸ dvd_roundDown _ _, hsz'.2.mpr (by omega), hhigh, ?_, ?_⟩
    · intro k hk hku
      rcases Nat.lt_or_ge k MAX_DYN_VMA with hdyn | hfix
      · rcases Nat.lt_trichotomy k i with hlt | rfl | hgt
        · left
          have := habove k hlt hku
          omega
        · rw [hpass.1] at hku
          cases hku
        · right
          have := hareas k hgt hdyn hku
          omega
      · right
        have := (hi.program k hfix hk hku).1
        omega
    · intro a b hab hb hau hbu
      exact (hfill hlow hhigh).descending hab hb hau hbu

/-! ## The system -/

/-- What a process does to its mappings. -/
inductive Act where
  /-- `mmap` with address 0 -/
  | mmap (len prot flags : ℕ) (f : Option File) (ip : Option ℕ) (offset filesz : ℕ)
  /-- `munmap`, where `writei` says which writes to files succeed -/
  | munmap (writei : FileWrite → Bool) (addr len : ℕ)
  /-- Whatever else happens to the page table: faults, eviction, `fork` -/
  | touch (pt : PageTable)

/-- `munmap(addr, len)` names a whole mapping. -/
def whole (ts : ThreadShared) (addr len : ℕ) : Bool :=
  (List.range MAX_DYN_VMA).any fun i =>
    (ts.vmAreas i).used && (ts.vmAreas i).addr == addr &&
      (ts.vmAreas i).length == pgRoundDown len

/-- One system call: mappings have a positive length, and only whole mappings are
    removed. -/
def step (s : AddrSpace) : Act → Option AddrSpace
  | .mmap len prot flags f ip offset filesz =>
    if 0 < len ∧ len < 2 ^ 64 then
      match s.shared.vmaCreate 0 len prot flags f ip offset filesz .dynamic with
      | .error _ => none
      | .ok (ts', _, _) => some { s with shared := ts' }
    else none
  | .munmap writei addr len =>
    if whole s.shared addr len then
      match s.munmap writei addr len with
      | .error _ => none
      | .ok (s', _, _) => some s'
    else none
  | .touch pt => some { s with pagetable := pt }

/-- A program in place: its segments and its heap end below `sz`, and nothing is
    mapped yet. -/
structure Init (s : AddrSpace) : Prop where
  sz_le : s.shared.sz ≤ USYSCALL
  free : ∀ i < MAX_DYN_VMA, (s.shared.vmAreas i).used = false
  program : ∀ k, FIX_START_ADDR ≤ k → k < MAX_VMA → (s.shared.vmAreas k).used = true →
    (s.shared.vmAreas k).addr + (s.shared.vmAreas k).length ≤ s.shared.sz ∧
      ((s.shared.vmAreas k).type = .exec ∨ (s.shared.vmAreas k).type = .heap)

def system : System AddrSpace Act where
  init := Init
  step := step

/-- Every call finds a hole with room, if it finds one. -/
def FindsRoom (s : AddrSpace) : Act → Prop
  | .mmap len _ flags _ _ _ _ => RoomAtFirstFit s.shared (mapSuppg flags) len
  | _ => True

theorem tableInv_init {s : AddrSpace} (h : Init s) : TableInv s.shared := by
  have hused : ∀ i < MAX_DYN_VMA, (s.shared.vmAreas i).used = true → False := by
    intro i hi hu
    rw [h.free i hi] at hu
    cases hu
  exact ⟨h.sz_le, fun i hi hu => (hused i hi hu).elim,
    fun i k hik hk hiu _ => (hused i (by omega) hiu).elim, h.program⟩

theorem inv_munmap {writei : FileWrite → Bool} {s s' : AddrSpace} {addr n ret : ℕ}
    {eff : MunmapEffects} (hi : TableInv s.shared) (hwhole : whole s.shared addr n = true)
    (h : s.munmap writei addr n = .ok (s', ret, eff)) : TableInv s'.shared := by
  obtain ⟨k, hk, hmatch⟩ := List.any_eq_true.mp hwhole
  simp only [Bool.and_eq_true, beq_iff_eq] at hmatch
  obtain ⟨⟨hku, haddr⟩, hlen⟩ := hmatch
  have hk : k < MAX_DYN_VMA := List.mem_range.mp hk
  rcases AddrSpace.munmap_cases h with ⟨rfl, -⟩ | ⟨-, -, -, i, pt', rel, doFree, hfind, -, rfl⟩
  · exact hi
  obtain ⟨hilt, hcov, hexec, hheap⟩ := AddrSpace.mmapped_spec hfind
  have hiu : (s.shared.vmAreas i).used = true := by
    simp only [Vma.covers, Bool.and_eq_true] at hcov
    exact hcov.1.1
  -- the area found is the whole mapping named
  have hik : i = k := by
    rcases Nat.lt_or_ge i MAX_DYN_VMA with hdyn | hfix
    · have hlt : (s.shared.vmAreas i).length < 2 ^ 64 := by
        have := (hi.area i hdyn hiu).high
        simp at this
        omega
      obtain ⟨-, hle, hltv, -⟩ := (Vma.covers_iff hlt).mp hcov
      have hpos := (hi.area k hk hku).pos
      rcases Nat.lt_trichotomy i k with h | h | h
      · have := hi.apart i k h hk hiu hku
        omega
      · exact h
      · have := hi.apart k i h hdyn hku hiu
        omega
    · rcases (hi.program i hfix hilt hiu).2 with h | h
      · exact absurd h hexec
      · exact absurd h hheap
  subst hik
  rw [Vma.cut, if_pos hlen]
  exact hi.release

/-- A call that finds a hole with room, or none, keeps the table in shape. -/
theorem inv_mmap {prot flags offset filesz ret : ℕ} {f : Option File} {ip : Option ℕ}
    {ts' : ThreadShared} {refs : List RefOp} (hi : TableInv ts) (hpos : 0 < len)
    (hlen : len < 2 ^ 64) (hroom : RoomAtFirstFit ts (mapSuppg flags) len)
    (h : ts.vmaCreate 0 len prot flags f ip offset filesz .dynamic = .ok (ts', ret, refs)) :
    TableInv ts' := by
  rcases vmaCreate_cases h with ⟨rfl, -⟩ | ⟨i, -, -, -, hret, -⟩
  · exact hi
  · exact (create_spec hi hpos hlen h (hret ▸ roundDown_ne_failed _ _)).2 hroom

theorem inv_step {s s' : AddrSpace} {a : Act} (hi : TableInv s.shared) (hroom : FindsRoom s a)
    (h : step s a = some s') : TableInv s'.shared := by
  cases a with
  | mmap len prot flags f ip offset filesz =>
    simp only [step] at h
    split at h
    · next hlen =>
      split at h
      · cases h
      · next ts' ret refs hcreate =>
        cases h
        exact inv_mmap hi hlen.1 hlen.2 hroom hcreate
    · cases h
  | munmap writei addr n =>
    simp only [step] at h
    split at h
    · next hwhole =>
      split at h
      · cases h
      · next s₁ ret eff hmunmap =>
        cases h
        exact inv_munmap hi hwhole hmunmap
    · cases h
  | touch pt =>
    cases h
    exact hi

theorem inv_of_reachable {s : AddrSpace} (h : system.ReachableUnder FindsRoom s) :
    TableInv s.shared :=
  System.invariant (fun s => TableInv s.shared) (fun _ => tableInv_init)
    (fun _ _ _ => inv_step) h

end Xv6.Kernel.MmapPlacement
