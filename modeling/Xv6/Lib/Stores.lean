import Mathlib.Data.List.Basic
import Mathlib.Logic.Function.Basic

/-!
# Block Stores

Memory as a function from addresses to cells, and what a piece of code stores into it as
the list of the blocks that it stores, in order. The list tells which cells are written at
all, also where the value written is the one that was there.

- `applyAll_of_not_covers`: a cell outside of all blocks keeps its value;
- `apply_offset`, `apply_one`: a cell of a block gets the value stored there.
-/

namespace Xv6.Lib

variable {β : Type*}

/-- The cells from `base` on, `len` of them, are set to `src 0`, `src 1`, … -/
structure Store (β : Type*) where
  base : ℕ
  len : ℕ
  src : ℕ → β

namespace Store

/-- The cell is among those stored. -/
def Covers (st : Store β) (a : ℕ) : Prop := st.base ≤ a ∧ a < st.base + st.len

instance (st : Store β) (a : ℕ) : Decidable (st.Covers a) := inferInstanceAs (Decidable (_ ∧ _))

def apply (st : Store β) (m : ℕ → β) : ℕ → β :=
  fun a => if st.Covers a then st.src (a - st.base) else m a

/-- The stores of a list, the first one first -/
def applyAll : List (Store β) → (ℕ → β) → ℕ → β
  | [], m => m
  | st :: rest, m => applyAll rest (st.apply m)

variable {st : Store β} {sts : List (Store β)} {m : ℕ → β} {a : ℕ}

@[simp] theorem applyAll_nil : applyAll [] m = m := rfl

@[simp] theorem applyAll_cons : applyAll (st :: sts) m = applyAll sts (st.apply m) := rfl

theorem applyAll_append (sts' : List (Store β)) :
    applyAll (sts ++ sts') m = applyAll sts' (applyAll sts m) := by
  induction sts generalizing m with
  | nil => rfl
  | cons st sts ih => exact ih

theorem apply_of_not_covers (h : ¬ st.Covers a) : st.apply m a = m a := if_neg h

theorem apply_offset {i : ℕ} (h : i < st.len) : st.apply m (st.base + i) = st.src i := by
  have hcovers : st.Covers (st.base + i) := ⟨Nat.le_add_right .., Nat.add_lt_add_left h _⟩
  rw [apply, if_pos hcovers, Nat.add_sub_cancel_left]

/-- Storing a single cell -/
theorem apply_one (b : ℕ) (v : β) : Store.apply ⟨b, 1, fun _ => v⟩ m = Function.update m b v := by
  funext a
  by_cases h : a = b
  · subst h
    rw [Function.update_self]
    exact apply_offset (show 0 < (⟨a, 1, fun _ => v⟩ : Store β).len from Nat.zero_lt_one)
  · rw [Function.update_of_ne h, apply_of_not_covers]
    rintro ⟨hle, hlt⟩
    exact h (Nat.le_antisymm (Nat.lt_succ_iff.mp hlt) hle)

theorem applyAll_of_not_covers (h : ∀ st ∈ sts, ¬ st.Covers a) : applyAll sts m a = m a := by
  induction sts generalizing m with
  | nil => rfl
  | cons st sts ih =>
    rw [applyAll_cons, ih fun st hst => h st (List.mem_cons_of_mem _ hst)]
    exact apply_of_not_covers (h st List.mem_cons_self)

end Store

end Xv6.Lib
