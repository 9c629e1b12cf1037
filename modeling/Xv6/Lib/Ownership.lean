import Mathlib.Data.Set.Basic

/-!
# Owners of Blocks

Blocks of an area are given to owners, and which blocks are in use is kept in a place of its own. `Owned`
says that the two agree: a block is marked exactly if it has an owner, and it never has two.

- `Owned.attach`: a block that is not marked is given to an owner that has none;
- `Owned.release`: a set of owners gives up what they have.
-/

namespace Xv6.Lib

variable {ι : Type*}

/-- The owners `S` have blocks of the area, or 0 where they have none. -/
structure Owned (S : Set ι) (area : Set ℕ) (ptr : ι → ℕ) (used : ℕ → Bool) : Prop where
  zero_notMem : 0 ∉ area
  mem_area : ∀ i ∈ S, ptr i ≠ 0 → ptr i ∈ area
  inj : ∀ i ∈ S, ∀ j ∈ S, ptr i ≠ 0 → ptr i = ptr j → i = j
  used_iff : ∀ b ∈ area, used b = true ↔ ∃ i ∈ S, ptr i = b

namespace Owned

variable {S : Set ι} {area : Set ℕ} {ptr ptr' : ι → ℕ} {used used' : ℕ → Bool}

theorem ne_zero (h : Owned S area ptr used) {b : ℕ} (hb : b ∈ area) : b ≠ 0 := fun h0 => h.zero_notMem (h0 ▸ hb)

theorem used_ptr (h : Owned S area ptr used) {i : ι} (hi : i ∈ S) (hne : ptr i ≠ 0) : used (ptr i) = true :=
  (h.used_iff _ (h.mem_area i hi hne)).mpr ⟨i, hi, rfl⟩

/-- A block that is not marked has no owner. -/
theorem ptr_ne (h : Owned S area ptr used) {i : ι} (hi : i ∈ S) {b : ℕ} (hb : b ∈ area) (hfree : used b = false) :
    ptr i ≠ b := by
  rintro rfl
  rw [h.used_ptr hi (h.ne_zero hb)] at hfree
  cases hfree

theorem attach (h : Owned S area ptr used) {i : ι} (hi : i ∈ S) (hnull : ptr i = 0) {b : ℕ} (hb : b ∈ area)
    (hfree : used b = false) (hself : ptr' i = b) (hother : ∀ j ∈ S, j ≠ i → ptr' j = ptr j)
    (hused : ∀ c ∈ area, used' c = true ↔ c = b ∨ used c = true) : Owned S area ptr' used' := by
  refine ⟨h.zero_notMem, fun j hj hne => ?_, fun j hj k hk hne heq => ?_, fun c hc => ?_⟩
  · by_cases hji : j = i
    · rw [hji, hself]
      exact hb
    · rw [hother j hj hji] at hne ⊢
      exact h.mem_area j hj hne
  · by_cases hji : j = i
    · subst hji
      by_contra hjk
      rw [hself, hother k hk (Ne.symm hjk)] at heq
      exact h.ptr_ne hk hb hfree heq.symm
    · by_cases hki : k = i
      · subst hki
        rw [hself, hother j hj hji] at heq
        exact absurd heq (h.ptr_ne hj hb hfree)
      · rw [hother j hj hji] at hne heq
        rw [hother k hk hki] at heq
        exact h.inj j hj k hk hne heq
  · rw [hused c hc, h.used_iff c hc]
    constructor
    · rintro (rfl | ⟨j, hj, rfl⟩)
      · exact ⟨i, hi, hself⟩
      · have hji : j ≠ i := by
          rintro rfl
          exact h.ne_zero hc hnull
        exact ⟨j, hj, hother j hj hji⟩
    · rintro ⟨j, hj, rfl⟩
      by_cases hji : j = i
      · rw [hji, hself]
        exact .inl rfl
      · exact .inr ⟨j, hj, (hother j hj hji).symm⟩

theorem release (h : Owned S area ptr used) {T : Set ι} (hgone : ∀ i ∈ S, i ∈ T → ptr' i = 0)
    (hkeep : ∀ i ∈ S, i ∉ T → ptr' i = ptr i)
    (hused : ∀ b ∈ area, used' b = true ↔ used b = true ∧ ∀ i ∈ S, i ∈ T → ptr i ≠ b) :
    Owned S area ptr' used' := by
  have hmem : ∀ i ∈ S, ptr' i ≠ 0 → i ∉ T ∧ ptr' i = ptr i := by
    intro i hi hne
    have hT : i ∉ T := fun hT => hne (hgone i hi hT)
    exact ⟨hT, hkeep i hi hT⟩
  refine ⟨h.zero_notMem, fun i hi hne => ?_, fun i hi j hj hne heq => ?_, fun b hb => ?_⟩
  · have hi' := hmem i hi hne
    rw [hi'.2] at hne ⊢
    exact h.mem_area i hi hne
  · have hi' := hmem i hi hne
    have hj' := hmem j hj (heq ▸ hne)
    rw [hi'.2] at hne heq
    rw [hj'.2] at heq
    exact h.inj i hi j hj hne heq
  · rw [hused b hb, h.used_iff b hb]
    constructor
    · rintro ⟨⟨i, hi, rfl⟩, hT⟩
      exact ⟨i, hi, hkeep i hi fun hiT => hT i hi hiT rfl⟩
    · rintro ⟨i, hi, rfl⟩
      have hi' := hmem i hi (h.ne_zero hb)
      refine ⟨⟨i, hi, hi'.2.symm⟩, fun j hj hjT heq => hi'.1 ?_⟩
      rw [hi'.2] at hb heq
      rwa [← h.inj j hj i hi (heq ▸ h.ne_zero hb) heq]

end Owned

end Xv6.Lib
