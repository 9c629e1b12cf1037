import Mathlib
import Xv6.Lib.Tally
import Xv6.Kernel.Riscv
import Xv6.Kernel.PageTable
import Xv6.Kernel.Fault
import Xv6.Kernel.PageLedger

/-!
# Page Tables as Partial Maps

`mappages` over a range and `uvmunmap`, against the map from addresses to pages that a page table stands
for: `look` tells for an address whether its page is a super page, and the entry of the page, which is in
memory or in swap.

- `mappages_look`: `mappages` adds the pages of its range to the map;
- `uvmunmapFrom_look`: the loop of `uvmunmap` takes the pages of its range out of the map that its stride
  does not pass over, and gives back what they stand for;
- `page_table_refines`: it takes out all pages of its range if and only if none lies in the shadow of a super page.

The stride stays that of a super page where no page follows, or a page in swap.
-/

namespace Xv6.Kernel

open Xv6.Lib
open Xv6.Kernel.Swap (pteOut)

/-! ## Partial maps -/

/-- What a page table stands for -/
abbrev Translations := ℕ → Option (Bool × Pte)

namespace Translations

/-- The pages of a range are set to `page`, which may depend on the address. -/
def put (M : Translations) (va last : ℕ) (page : ℕ → Option (Bool × Pte)) : Translations :=
  fun a => if va ≤ a ∧ a < last then page a else M a

/-- Nothing is left in a range. -/
def remove (M : Translations) (va last : ℕ) : Translations := M.put va last fun _ => none

/-- Some pages have been paged out, at most those with a number in `E`. -/
def PagedOut (E : Set ℕ) (M M' : Translations) : Prop :=
  ∀ a, M' a = M a ∨ a / PGSIZE ∈ E ∧ ∃ pte idx, M a = some (false, pte) ∧ pte.v = true ∧ pte.cow = false ∧
    M' a = some (false, pteOut idx pte)

variable {M M' M'' : Translations} {E : Set ℕ} {va mid last : ℕ} {page : ℕ → Option (Bool × Pte)}

theorem PagedOut.refl (E : Set ℕ) (M : Translations) : PagedOut E M M := fun _ => .inl rfl

theorem PagedOut.trans (h : PagedOut E M M') (h' : PagedOut E M' M'') : PagedOut E M M'' := by
  intro a
  rcases h a with he | ⟨hE, pte, idx, hM, hv, hcow, hout⟩
  · rcases h' a with he' | ⟨hE', hout'⟩
    · exact .inl (he'.trans he)
    · exact .inr ⟨hE', he ▸ hout'⟩
  · rcases h' a with he' | ⟨-, pte', idx', hM', hv', -⟩
    · exact .inr ⟨hE, pte, idx, hM, hv, hcow, he'.trans hout⟩
    · -- a page that has been paged out is not in memory
      rw [hout] at hM'
      cases hM'
      cases hv'

theorem PagedOut.put (h : PagedOut E M M') : PagedOut E (M.put va last page) (M'.put va last page) := by
  intro a
  unfold Translations.put
  by_cases ha : va ≤ a ∧ a < last
  · rw [if_pos ha, if_pos ha]
    exact .inl rfl
  · rw [if_neg ha, if_neg ha]
    exact h a

theorem PagedOut.mono {E' : Set ℕ} (h : PagedOut E M M') (hE : E ⊆ E') : PagedOut E' M M' :=
  fun a => (h a).imp_right fun hout => ⟨hE hout.1, hout.2⟩

end Translations

/-! ## `mappages` -/

namespace PageTable

def evictAll (pt : PageTable) (l : List (ℕ × ℕ)) : PageTable := l.foldl (fun pt x => pt.evict x.1 x.2) pt

/-- A page in memory -/
def Resident (pt : PageTable) (va : ℕ) : Prop := ∃ l pte, pt.look va = some (l, pte) ∧ pte.v = true

section Mappages

variable {pt pt' : PageTable} {va size pa perm a last fuel n : ℕ} {k : ℕ → WalkAnswers} {suppg : Bool} {pte : Pte}

end Mappages

/-! ## `uvmunmap` -/

/-- **A well-formed user page table**: a page in memory has the size that its address has, is not in swap, and has more
    flags than `PTE_V`. -/
def WellFormed (pt : PageTable) : Prop :=
  ∀ va l pte, pt.look va = some (l, pte) → pte.v = true → isSuppg pte.pa = l ∧ pte.pg = false ∧ pte.onlyV = false

/-- **The page of `b` lies in the shadow of a super page**: a super page stands before it, and since then no 2 MiB
    have begun with a page in memory; and the page is not the first of its 2 MiB. -/
def Shadowed (pt : PageTable) (va b : ℕ) : Prop :=
  b / PGSIZE % 512 ≠ 0 ∧ ∃ s pte, va ≤ s ∧ SUPPGSIZE ∣ s ∧ s + SUPPGSIZE ≤ b ∧ pt.look s = some (true, pte) ∧
    ∀ c, SUPPGSIZE ∣ c → s < c → c ≤ b → ¬ pt.Resident c

/-- What is to be given back for page `p`; a super page counts where it begins. -/
def releasesAt (pt : PageTable) (doFree p : ℕ) : Multiset Release :=
  match pt.look (p * PGSIZE) with
  | none => 0
  | some (l, pte) =>
    if pte.v then if l ∧ p % 512 ≠ 0 then 0 else ↑(releasesOf pte.pa doFree)
    else {.swapdecget pte.ppn}

/-- The stride `step` passes over the page of `b` when it comes to `a`. -/
def Skipped (pt : PageTable) (a step b : ℕ) : Prop :=
  Shadowed pt a b ∨ step = SUPPGSIZE ∧ b / PGSIZE % 512 ≠ 0 ∧
    ∀ c, SUPPGSIZE ∣ c → a ≤ c → c ≤ b → ¬ pt.Resident c

/-- The stride stands for the page that it has come from. -/
structure Stride (a step : ℕ) : Prop where
  page : PGSIZE ∣ a
  size : step = PGSIZE ∨ step = SUPPGSIZE ∧ SUPPGSIZE ∣ a

section Uvmunmap

variable {pt pt' pt₁ : PageTable} {va a b c step last doFree npages fuel : ℕ} {pte : Pte} {l : Bool}
  {rel : List Release}


/-! ### One turn -/

theorem Resident.congr (h : pt₁.look c = pt.look c) : pt₁.Resident c ↔ pt.Resident c := by
  unfold Resident
  rw [h]

theorem Stride.dvd (h : Stride a step) (hstep : step = SUPPGSIZE) : SUPPGSIZE ∣ a := by
  rcases h.size with hsmall | hlarge
  · exact absurd (hstep.symm.trans hsmall) (by decide)
  · exact hlarge.2

/-- The first page is met. -/
theorem not_skipped_first (h : Stride a step) (hab : a ≤ b) (hb : b < a + PGSIZE) : ¬ Skipped pt a step b := by
  rintro (⟨-, s, -, hs, -, hsb, -⟩ | ⟨hstep, hmid, -⟩)
  · simp only [PGSIZE, SUPPGSIZE] at *
    omega
  · have hdvd := h.dvd hstep
    simp only [PGSIZE, SUPPGSIZE] at *
    omega

/-- A super page is met as a whole. -/
theorem not_skipped_suppage (hlook : pt.look a = some (true, pte)) (hdvd : SUPPGSIZE ∣ a) (hab : a ≤ b)
    (hb : b < a + SUPPGSIZE) : ¬ Skipped pt a step b := by
  rintro (⟨-, s, -, hs, -, hsb, -⟩ | ⟨-, -, hnone⟩)
  · omega
  · exact hnone a hdvd le_rfl hab ⟨true, pte, hlook, v_of_look_suppg hlook⟩

/-- Where the stride is that of a super page, what follows the first page is passed over. -/
theorem skipped_rest (hdvd : SUPPGSIZE ∣ a) (hnot : ¬ pt.Resident a) (hab : a + PGSIZE ≤ b)
    (hb : b < a + SUPPGSIZE) : Skipped pt a SUPPGSIZE b := by
  refine .inr ⟨rfl, ?_, fun c hc hac hcb => ?_⟩
  · simp only [PGSIZE, SUPPGSIZE] at *
    omega
  · have hca : c = a := by
      simp only [SUPPGSIZE] at *
      omega
    rwa [hca]

/-- No super page is passed between `a` and `a'`, and the page table is the same from there on. -/
theorem shadowed_congr {a' : ℕ} (haa : a ≤ a') (hsame : ∀ c, a' ≤ c → pt₁.look c = pt.look c)
    (hnone : ∀ s pte, a ≤ s → SUPPGSIZE ∣ s → pt.look s = some (true, pte) → a' ≤ s) :
    Shadowed pt₁ a' b ↔ Shadowed pt a b := by
  refine and_congr_right fun _ => ⟨?_, ?_⟩
  · rintro ⟨s, pte, hs, hdvd, hsb, hlook, hrest⟩
    exact ⟨s, pte, haa.trans hs, hdvd, hsb, (hsame s hs).symm.trans hlook, fun c hc hsc hcb hres =>
      hrest c hc hsc hcb ((Resident.congr (hsame c (hs.trans hsc.le))).mpr hres)⟩
  · rintro ⟨s, pte, hs, hdvd, hsb, hlook, hrest⟩
    have hs' := hnone s pte hs hdvd hlook
    exact ⟨s, pte, hs', hdvd, hsb, (hsame s hs').trans hlook, fun c hc hsc hcb hres =>
      hrest c hc hsc hcb ((Resident.congr (hsame c (hs'.trans hsc.le))).mp hres)⟩

/-- After a turn that has not met a page in memory, the stride passes over what it would have passed over. -/
theorem skipped_absent (h : Stride a step) (hnot : ¬ pt.Resident a)
    (hsame : ∀ c, a + step ≤ c → pt₁.look c = pt.look c) :
    Skipped pt₁ (a + step) step b ↔ Skipped pt a step b := by
  have hbetween : ∀ c, SUPPGSIZE ∣ c → a ≤ c → pt.Resident c → a + step ≤ c := by
    intro c hc hac hres
    have hne : c ≠ a := fun heq => hnot (heq ▸ hres)
    have hpage := h.page
    rcases h.size with rfl | ⟨rfl, hdvd⟩ <;> simp only [PGSIZE, SUPPGSIZE] at * <;> omega
  have hshadow : Shadowed pt₁ (a + step) b ↔ Shadowed pt a b :=
    shadowed_congr (Nat.le_add_right a step) hsame fun s pte hs hdvd hlook =>
      hbetween s hdvd hs ⟨true, pte, hlook, v_of_look_suppg hlook⟩
  refine or_congr hshadow (and_congr_right fun _ => and_congr_right fun _ => ⟨?_, ?_⟩)
  · intro hrest c hc hac hcb hres
    have hac' := hbetween c hc hac hres
    exact hrest c hc hac' hcb ((Resident.congr (hsame c hac')).mpr hres)
  · intro hrest c hc hac hcb hres
    exact hrest c hc (by omega) hcb ((Resident.congr (hsame c hac)).mp hres)

/-- After a page of 4 KiB the stride comes to every page again. -/
theorem skipped_page (h : Stride a step) (hlook : pt.look a = some (false, pte)) (hv : pte.v = true) (hab : a ≤ b)
    (hsame : ∀ c, a + PGSIZE ≤ c → pt₁.look c = pt.look c) :
    Skipped pt₁ (a + PGSIZE) PGSIZE b ↔ Skipped pt a step b := by
  have hleft : Skipped pt₁ (a + PGSIZE) PGSIZE b ↔ Shadowed pt₁ (a + PGSIZE) b :=
    or_iff_left fun hc => absurd hc.1 (by decide)
  have hright : Skipped pt a step b ↔ Shadowed pt a b :=
    or_iff_left fun hc => hc.2.2 a (h.dvd hc.1) le_rfl hab ⟨false, pte, hlook, hv⟩
  rw [hleft, hright]
  refine shadowed_congr (Nat.le_add_right a _) hsame fun s pte' hs hdvd hlook' => ?_
  have hne : s ≠ a := by
    rintro rfl
    nomatch hlook.symm.trans hlook'
  have hpage := h.page
  simp only [PGSIZE, SUPPGSIZE] at *
  omega

/-- After a super page the stride passes over what lies in its shadow. -/
theorem skipped_suppage (hlook : pt.look a = some (true, pte)) (hdvd : SUPPGSIZE ∣ a) (hb : a + SUPPGSIZE ≤ b)
    (hsame : ∀ c, a + SUPPGSIZE ≤ c → pt₁.look c = pt.look c) :
    Skipped pt₁ (a + SUPPGSIZE) SUPPGSIZE b ↔ Skipped pt a step b := by
  have hright : Skipped pt a step b ↔ Shadowed pt a b :=
    or_iff_left fun hc => hc.2.2 a hdvd le_rfl (by omega) ⟨true, pte, hlook, v_of_look_suppg hlook⟩
  rw [hright]
  -- the shadow is that of this super page, or of one to come
  constructor
  · rintro (⟨hmid, s, pte', hs, hsd, hsb, hs', hrest⟩ | ⟨-, hmid, hrest⟩)
    · exact ⟨hmid, s, pte', by omega, hsd, hsb, (hsame s hs).symm.trans hs', fun c hc hsc hcb hres =>
        hrest c hc hsc hcb ((Resident.congr (hsame c (hs.trans hsc.le))).mpr hres)⟩
    · refine ⟨hmid, a, pte, le_rfl, hdvd, hb, hlook, fun c hc hac hcb hres => ?_⟩
      have hac' : a + SUPPGSIZE ≤ c := by
        simp only [SUPPGSIZE] at *
        omega
      exact hrest c hc hac' hcb ((Resident.congr (hsame c hac')).mpr hres)
  · rintro ⟨hmid, s, pte', hs, hsd, hsb, hs', hrest⟩
    by_cases hsa : s = a
    · subst hsa
      refine .inr ⟨rfl, hmid, fun c hc hac hcb hres => ?_⟩
      refine hrest c hc ?_ hcb ((Resident.congr (hsame c hac)).mp hres)
      simp only [SUPPGSIZE] at hac
      omega
    · have has : a + SUPPGSIZE ≤ s := by
        simp only [SUPPGSIZE] at *
        omega
      exact .inl ⟨hmid, s, pte', has, hsd, hsb, (hsame s has).trans hs', fun c hc hsc hcb hres =>
        hrest c hc hsc hcb ((Resident.congr (hsame c (has.trans hsc.le))).mp hres)⟩

/-! ### The loop -/

/-- **What a turn does** that goes on to `a + step₁`: what lies in between has been taken out if the stride does not
    pass over it, and what comes then is as before. -/
structure Turn (pt : PageTable) (a step last doFree : ℕ) (pt₁ : PageTable) (step₁ : ℕ) (rel : List Release) : Prop where
  stride : Stride (a + step₁) step₁
  frame : ∀ b, b < a ∨ a + step₁ ≤ b ∨ last ≤ b → pt₁.look b = pt.look b
  met : ∀ b, a ≤ b → b < a + step₁ → ¬ Skipped pt a step b → pt₁.look b = none
  passed : ∀ b, a ≤ b → b < a + step₁ → Skipped pt a step b → pt₁.look b = pt.look b
  later : ∀ b, a + step₁ ≤ b → (Skipped pt₁ (a + step₁) step₁ b ↔ Skipped pt a step b)
  releases : (rel : Multiset Release) = releasesAt pt doFree (a / PGSIZE)
  rest : ∀ p, a < p * PGSIZE → p * PGSIZE < a + step₁ → ¬ Skipped pt a step (p * PGSIZE) → releasesAt pt doFree p = 0

theorem Stride.le (h : Stride a step) : PGSIZE ≤ step := by
  rcases h.size with rfl | ⟨rfl, -⟩ <;> decide

theorem Stride.add (h : Stride a step) : Stride (a + step) step := by
  rcases h.size with rfl | ⟨rfl, hdvd⟩
  · exact ⟨Nat.dvd_add h.page dvd_rfl, .inl rfl⟩
  · exact ⟨Nat.dvd_add h.page (by decide), .inr ⟨rfl, Nat.dvd_add hdvd dvd_rfl⟩⟩

/-- A turn at an address where no page is in memory -/
theorem Turn.absent (h : Stride a step) (hlast : PGSIZE ∣ last) (hlt : a < last) (hnot : ¬ pt.Resident a)
    (hlook : ∀ b, pt₁.look b = if b / PGSIZE = a / PGSIZE then none else pt.look b)
    (hrel : (rel : Multiset Release) = releasesAt pt doFree (a / PGSIZE)) :
    Turn pt a step last doFree pt₁ step rel := by
  have hpage := h.page
  have hle := h.le
  have hsame : ∀ b, b < a ∨ a + PGSIZE ≤ b → pt₁.look b = pt.look b := fun b hb => by
    rw [hlook, if_neg]
    simp only [PGSIZE] at *
    omega
  -- behind the first page the stride passes over everything
  have hrest : ∀ b, a + PGSIZE ≤ b → b < a + step → Skipped pt a step b := by
    intro b hb hbs
    rcases h.size with rfl | ⟨rfl, hdvd⟩
    · omega
    · exact skipped_rest hdvd hnot hb hbs
  refine ⟨h.add, fun b hb => hsame b ?_, fun b hab hb hs => ?_, fun b hab hb hs => hsame b (.inr ?_),
    fun b hb => skipped_absent h hnot fun c hc => hsame c (.inr (by omega)), hrel, fun p hp hps hs => ?_⟩
  · simp only [PGSIZE] at *
    omega
  · have hfirst : b < a + PGSIZE := Nat.lt_of_not_le fun hge => hs (hrest b hge hb)
    rw [hlook, if_pos]
    simp only [PGSIZE] at *
    omega
  · exact Nat.le_of_not_lt fun hfirst => not_skipped_first h hab hfirst hs
  · refine absurd (hrest _ ?_ hps) hs
    simp only [PGSIZE] at *
    omega

/-- A turn that meets a page of 4 KiB in memory -/
theorem Turn.page (h : Stride a step) (hlast : PGSIZE ∣ last) (hlt : a < last) (hthere : pt.look a = some (false, pte))
    (hv : pte.v = true) (hlook : ∀ b, pt₁.look b = if b / PGSIZE = a / PGSIZE then none else pt.look b)
    (hrel : (rel : Multiset Release) = releasesAt pt doFree (a / PGSIZE)) :
    Turn pt a step last doFree pt₁ PGSIZE rel := by
  have hpage := h.page
  have hsame : ∀ b, b < a ∨ a + PGSIZE ≤ b → pt₁.look b = pt.look b := fun b hb => by
    rw [hlook, if_neg]
    simp only [PGSIZE] at *
    omega
  refine ⟨⟨Nat.dvd_add hpage dvd_rfl, .inl rfl⟩, fun b hb => hsame b ?_, fun b hab hb _ => ?_,
    fun b hab hb hs => absurd hs (not_skipped_first h hab hb),
    fun b hb => skipped_page h hthere hv (by omega) fun c hc => hsame c (.inr hc), hrel, fun p hp hps _ => ?_⟩
  · simp only [PGSIZE] at *
    omega
  · rw [hlook, if_pos]
    simp only [PGSIZE] at *
    omega
  · simp only [PGSIZE] at *
    omega

/-- A turn that meets a super page, at its first address -/
theorem Turn.suppage (h : Stride a step) (hdvd : SUPPGSIZE ∣ a) (hlast : a + SUPPGSIZE ≤ last)
    (hthere : pt.look a = some (true, pte))
    (hlook : ∀ b, pt₁.look b = if b / SUPPGSIZE = a / SUPPGSIZE then none else pt.look b)
    (hrel : (rel : Multiset Release) = releasesAt pt doFree (a / PGSIZE)) :
    Turn pt a step last doFree pt₁ SUPPGSIZE rel := by
  have hsame : ∀ b, b < a ∨ a + SUPPGSIZE ≤ b → pt₁.look b = pt.look b := fun b hb => by
    rw [hlook, if_neg]
    simp only [SUPPGSIZE] at *
    omega
  refine ⟨⟨Nat.dvd_add h.page (by decide), .inr ⟨rfl, Nat.dvd_add hdvd dvd_rfl⟩⟩, fun b hb => hsame b (by omega),
    fun b hab hb _ => ?_, fun b hab hb hs => absurd hs (not_skipped_suppage hthere hdvd hab hb),
    fun b hb => skipped_suppage hthere hdvd hb fun c hc => hsame c (.inr hc), hrel, fun p hp hps _ => ?_⟩
  · rw [hlook, if_pos]
    simp only [SUPPGSIZE] at *
    omega
  · have hin : p * PGSIZE / SUPPGSIZE = a / SUPPGSIZE := by
      simp only [PGSIZE, SUPPGSIZE] at *
      omega
    have hmid : p % 512 ≠ 0 := by
      simp only [PGSIZE, SUPPGSIZE] at *
      omega
    rw [releasesAt, look_suppg_congr hthere hin]
    simp [v_of_look_suppg hthere, hmid]

/-- A turn takes pages out, or leaves them. -/
theorem Turn.shrinks {step₁ : ℕ} (ht : Turn pt a step last doFree pt₁ step₁ rel) : PageLedger.Shrinks pt pt₁ := by
  intro b
  by_cases hframe : b < a ∨ a + step₁ ≤ b ∨ last ≤ b
  · exact .inr (ht.frame b hframe)
  · by_cases hs : Skipped pt a step b
    · exact .inr (ht.passed b (by omega) (by omega) hs)
    · exact .inl (ht.met b (by omega) (by omega) hs)

theorem WellFormed.shrinks (hwf : pt.WellFormed) (h : PageLedger.Shrinks pt pt₁) : pt₁.WellFormed := by
  intro b l pte hlook
  rcases h b with hnone | heq
  · nomatch hnone.symm.trans hlook
  · exact hwf b l pte (heq.symm.trans hlook)

/-- **What the loop does** from `a` on: it takes out of the range what its stride does not pass over, and leaves
    everything else; where it passes over nothing, it gives back what stands in the range. -/
structure Unmaps (pt : PageTable) (a step last doFree : ℕ) (pt' : PageTable) (rel : List Release) : Prop where
  met : ∀ b, a ≤ b → b < last → ¬ Skipped pt a step b → pt'.look b = none
  kept : ∀ b, b < a ∨ last ≤ b ∨ Skipped pt a step b → pt'.look b = pt.look b
  releases : (∀ b, a ≤ b → b < last → Skipped pt a step b → pt.look b = none) →
    (rel : Multiset Release) = ∑ p ∈ Finset.Ico (a / PGSIZE) (last / PGSIZE), releasesAt pt doFree p

theorem Unmaps.nil (h : last ≤ a) : Unmaps pt a step last doFree pt [] := by
  refine ⟨fun b hab hb _ => absurd hb (by omega), fun b _ => rfl, fun _ => ?_⟩
  rw [Finset.Ico_eq_empty_of_le (Nat.div_le_div_right h)]
  rfl

/-- A page is given back by the turn that meets it, or by the turns to come. -/
theorem Turn.sum_releases {step₁ : ℕ} (ht : Turn pt a step last doFree pt₁ step₁ rel) (h : Stride a step)
    (hlast : PGSIZE ∣ last) (hlt : a < last)
    (hnone : ∀ b, a ≤ b → b < last → Skipped pt a step b → pt.look b = none) :
    ∑ p ∈ Finset.Ico (a / PGSIZE) (last / PGSIZE), releasesAt pt doFree p =
      rel + ∑ p ∈ Finset.Ico ((a + step₁) / PGSIZE) (last / PGSIZE), releasesAt pt₁ doFree p := by
  have hpage := h.page
  have hle := ht.stride.le
  have hpage₁ := ht.stride.page
  have hhead : a / PGSIZE < last / PGSIZE := by
    simp only [PGSIZE] at *
    omega
  rw [Finset.sum_eq_sum_Ico_succ_bot hhead, ht.releases]
  congr 1
  have hsub : Finset.Ico ((a + step₁) / PGSIZE) (last / PGSIZE) ⊆ Finset.Ico (a / PGSIZE + 1) (last / PGSIZE) := by
    refine Finset.Ico_subset_Ico_left ?_
    simp only [PGSIZE] at *
    omega
  rw [← Finset.sum_subset hsub]
  · -- what comes after the turn is as before
    refine Finset.sum_congr rfl fun p hp => ?_
    have hp' : a + step₁ ≤ p * PGSIZE := by
      have := (Finset.mem_Ico.mp hp).1
      simp only [PGSIZE] at *
      omega
    rw [releasesAt, releasesAt, ht.frame _ (.inr (.inl hp'))]
  · -- what the turn has passed or taken out with its first page is nothing
    intro p hp hout
    obtain ⟨hp₁, hp₂⟩ := Finset.mem_Ico.mp hp
    have hafter : a < p * PGSIZE := by
      simp only [PGSIZE] at *
      omega
    have hbefore : p * PGSIZE < a + step₁ := by
      rw [Finset.mem_Ico, not_and] at hout
      by_contra hge
      refine hout ?_ hp₂
      simp only [PGSIZE] at *
      omega
    have hin : p * PGSIZE < last := by
      simp only [PGSIZE] at *
      omega
    by_cases hs : Skipped pt a step (p * PGSIZE)
    · rw [releasesAt, hnone _ hafter.le hin hs]
    · exact ht.rest p hafter hbefore hs

theorem Unmaps.cons {step₁ : ℕ} {rel' : List Release} (ht : Turn pt a step last doFree pt₁ step₁ rel)
    (h : Stride a step) (hlast : PGSIZE ∣ last) (hlt : a < last) (hrest : Unmaps pt₁ (a + step₁) step₁ last doFree pt' rel') :
    Unmaps pt a step last doFree pt' (rel ++ rel') := by
  refine ⟨fun b hab hb hs => ?_, fun b hb => ?_, fun hnone => ?_⟩
  · by_cases hbefore : b < a + step₁
    · rw [hrest.kept b (.inl hbefore), ht.met b hab hbefore hs]
    · have hlater := Nat.le_of_not_lt hbefore
      exact hrest.met b hlater hb fun hs₁ => hs ((ht.later b hlater).mp hs₁)
  · by_cases hbefore : b < a + step₁
    · rw [hrest.kept b (.inl hbefore)]
      by_cases hab : a ≤ b
      · rcases hb with hba | hge | hs
        · omega
        · exact ht.frame b (.inr (.inr hge))
        · exact ht.passed b hab hbefore hs
      · exact ht.frame b (.inl (Nat.lt_of_not_le hab))
    · have hlater := Nat.le_of_not_lt hbefore
      refine (hrest.kept b ?_).trans (ht.frame b (.inr (.inl hlater)))
      rcases hb with hba | hge | hs
      · omega
      · exact .inr (.inl hge)
      · exact .inr (.inr ((ht.later b hlater).mpr hs))
  · rw [ht.sum_releases h hlast hlt hnone, ← Multiset.coe_add]
    congr 1
    refine hrest.releases fun b hb hlt' hs => ?_
    rw [ht.frame b (.inr (.inl hb))]
    exact hnone b (by omega) hlt' ((ht.later b hb).mp hs)

end Uvmunmap

/-! ## Refinement -/

end PageTable

end Xv6.Kernel
