import Mathlib.Algebra.BigOperators.Fin
import Mathlib.Algebra.Order.BigOperators.Group.Finset
import Mathlib.Data.Fintype.BigOperators

/-!
# Tallies over a Family of Components

In a system with finitely many components, a shared counter often has to equal the
sum of what each component accounts for. `tally f g` is that sum, where component `i`
is in the state `g i` and a component in the state `x` accounts for `f x`.

- `tally_update`: one component changes its state;
- `eq_zero_of_tally_eq`: if one component accounts for everything, the others
  account for nothing;
- `eq_zero_of_full`: where the components' shares and a reserve fit in a whole, a
  component that has the whole excludes all others.
-/

namespace Xv6.Lib

variable {ι σ : Type*} [Fintype ι]

/-- What all components account for together. -/
def tally (f : σ → ℕ) (g : ι → σ) : ℕ := ∑ i, f (g i)

theorem le_tally (f : σ → ℕ) (g : ι → σ) (i : ι) : f (g i) ≤ tally f g :=
  Finset.single_le_sum (f := fun i => f (g i)) (fun _ _ => Nat.zero_le _) (Finset.mem_univ i)

theorem tally_eq_zero_iff {f : σ → ℕ} {g : ι → σ} : tally f g = 0 ↔ ∀ i, f (g i) = 0 := by
  simp [tally, Finset.sum_eq_zero_iff]

theorem tally_congr {f f' : σ → ℕ} {g : ι → σ} (h : ∀ i, f (g i) = f' (g i)) :
    tally f g = tally f' g := Finset.sum_congr rfl fun i _ => h i

theorem tally_eq_of_forall {f : σ → ℕ} {g : ι → σ} {n : ℕ} (h : ∀ i, f (g i) = n) :
    tally f g = Fintype.card ι * n := by
  simp [tally, h]

variable [DecidableEq ι]

/-- One component's share and the rest. -/
theorem tally_eq_add_erase (f : σ → ℕ) (g : ι → σ) (i : ι) :
    tally f g = f (g i) + ∑ j ∈ Finset.univ.erase i, f (g j) :=
  (Finset.add_sum_erase _ (fun j => f (g j)) (Finset.mem_univ i)).symm

/-- When component `i` moves to the state `x`, its share is exchanged. -/
theorem tally_update (f : σ → ℕ) (g : ι → σ) (i : ι) (x : σ) :
    tally f (Function.update g i x) + f (g i) = tally f g + f x := by
  have hrest : ∑ j ∈ Finset.univ.erase i, f (Function.update g i x j)
      = ∑ j ∈ Finset.univ.erase i, f (g j) :=
    Finset.sum_congr rfl fun j hj => by rw [Function.update_of_ne (Finset.ne_of_mem_erase hj)]
  rw [tally_eq_add_erase f _ i, tally_eq_add_erase f g i, Function.update_self, hrest]
  omega

omit [Fintype ι] in
/-- In a sum of any kind, what one component has is exchanged. -/
theorem sum_exchange {M : Type*} [AddCommMonoid M] {s : Finset ι} {f g : ι → M} {i : ι} (hi : i ∈ s)
    (h : ∀ j ∈ s, j ≠ i → f j = g j) : ∑ j ∈ s, f j + g i = ∑ j ∈ s, g j + f i := by
  have hrest : ∑ j ∈ s.erase i, f j = ∑ j ∈ s.erase i, g j :=
    Finset.sum_congr rfl fun j hj => h j (Finset.mem_of_mem_erase hj) (Finset.ne_of_mem_erase hj)
  rw [← Finset.add_sum_erase s f hi, ← Finset.add_sum_erase s g hi, hrest]
  rw [add_right_comm, add_comm (f i) (g i), add_right_comm]

/-- Two components' shares fit in the tally. -/
theorem add_le_tally (f : σ → ℕ) (g : ι → σ) {i j : ι} (hne : i ≠ j) :
    f (g i) + f (g j) ≤ tally f g := by
  rw [tally_eq_add_erase f g i]
  have hj : j ∈ Finset.univ.erase i := Finset.mem_erase.mpr ⟨hne.symm, Finset.mem_univ j⟩
  have := Finset.single_le_sum (f := fun j => f (g j)) (fun _ _ => Nat.zero_le _) hj
  omega

theorem eq_zero_of_tally_eq {f : σ → ℕ} {g : ι → σ} {i : ι} (h : tally f g = f (g i)) {j : ι}
    (hne : j ≠ i) : f (g j) = 0 := by
  have := add_le_tally f g hne.symm
  omega

theorem tally_eq_of_forall_ne {f : σ → ℕ} {g : ι → σ} {i : ι} (h : ∀ j, j ≠ i → f (g j) = 0) :
    tally f g = f (g i) := by
  rw [tally_eq_add_erase f g i,
    Finset.sum_eq_zero fun j hj => h j (Finset.ne_of_mem_erase hj), Nat.add_zero]

/-- Where at most one component has anything, the tally is what one component has. -/
theorem tally_le_of_unique {f : σ → ℕ} {g : ι → σ} {n : ℕ} (hle : ∀ i, f (g i) ≤ n)
    (huniq : ∀ i j, f (g i) ≠ 0 → f (g j) ≠ 0 → i = j) : tally f g ≤ n := by
  by_cases h : ∃ i, f (g i) ≠ 0
  · obtain ⟨i, hi⟩ := h
    rw [tally_eq_of_forall_ne fun j hj => by_contra fun hj0 => hj (huniq j i hj0 hi)]
    exact hle i
  · rw [tally_eq_zero_iff.mpr fun i => by_contra fun hi => h ⟨i, hi⟩]
    exact Nat.zero_le n

/-! ## Shares of a whole

A resource of which there are `n` shares: `r` of them are kept in reserve, and a
component in the state `x` has `f x`.
-/

/-- Whoever has all shares is the only one to have any. -/
theorem eq_zero_of_full {f : σ → ℕ} {g : ι → σ} {r n : ℕ} (h : r + tally f g ≤ n) {i : ι}
    (hi : f (g i) = n) {j : ι} (hne : j ≠ i) : f (g j) = 0 := by
  have := add_le_tally f g hne.symm
  omega

omit [DecidableEq ι] in
theorem reserve_eq_zero_of_full {f : σ → ℕ} {g : ι → σ} {r n : ℕ} (h : r + tally f g ≤ n) {i : ι}
    (hi : f (g i) = n) : r = 0 := by
  have := le_tally f g i
  omega

/-- A component may give shares back to the reserve or take them from there. -/
theorem tally_update_le {f : σ → ℕ} {g : ι → σ} {r r' n : ℕ} {i : ι} {x : σ}
    (h : r + tally f g ≤ n) (hx : r' + f x ≤ r + f (g i)) :
    r' + tally f (Function.update g i x) ≤ n := by
  have := tally_update f g i x
  omega

/-- A component that has the only shares given out may take all of them. -/
theorem tally_update_full {f : σ → ℕ} {g : ι → σ} {r r' n : ℕ} {i : ι} {x : σ}
    (hall : r + tally f g = f (g i)) (hx : r' + f x ≤ n) :
    r' + tally f (Function.update g i x) ≤ n := by
  have := tally_update f g i x
  omega

end Xv6.Lib
