import Mathlib.Logic.Function.Basic
import Mathlib.Data.List.Basic
import Mathlib.Data.Nat.ModEq

/-!
# Ring Buffers

An array of `c` cells used as a ring: position `n` of an unbounded stream lives
in cell `n % c`. `Holds data c start xs` says that the cells from position
`start` on hold the list `xs`; appending behind the list and taking from its
front keep the relation as long as the list fits.
-/

namespace Xv6.Lib.Ring

variable {β : Type*}

/-- The cells of a ring of `c` cells from position `start` on hold `xs`. -/
structure Holds (data : ℕ → β) (c start : ℕ) (xs : List β) : Prop where
  fits : xs.length ≤ c
  get : ∀ j (h : j < xs.length), data ((start + j) % c) = xs[j]

variable {data : ℕ → β} {c start : ℕ} {xs : List β}

theorem holds_nil : Holds data c start [] where
  fits := Nat.zero_le _
  get := nofun

/-- Two positions less than `c` apart live in different cells. -/
theorem cell_ne {i j : ℕ} (hij : i < j) (hj : j < c) :
    (start + i) % c ≠ (start + j) % c := by
  intro heq
  have hmod : i % c = j % c := Nat.ModEq.add_left_cancel' start heq
  rw [Nat.mod_eq_of_lt (hij.trans hj), Nat.mod_eq_of_lt hj] at hmod
  exact absurd hmod hij.ne

/-- Writing the cell behind a list that leaves a cell free appends to the list. -/
theorem Holds.push (h : Holds data c start xs) (hlt : xs.length < c) (x : β) :
    Holds (Function.update data ((start + xs.length) % c) x) c start (xs ++ [x]) where
  fits := by simpa [Nat.succ_le_iff] using hlt
  get j hj := by
    rcases Nat.lt_or_ge j xs.length with hold | hnew
    · rw [Function.update_of_ne (cell_ne hold hlt), h.get j hold, List.getElem_append_left hold]
    · -- the only index past the old list is the new cell
      obtain rfl : j = xs.length := by
        simp only [List.length_append, List.length_singleton] at hj
        omega
      simp

/-- Only the start's cell matters. -/
theorem Holds.of_modEq {start' : ℕ} (h : Holds data c start xs) (heq : start ≡ start' [MOD c]) :
    Holds data c start' xs where
  fits := h.fits
  get j hj := by
    have hcell : (start' + j) % c = (start + j) % c := (heq.add_right j).symm
    rw [hcell]
    exact h.get j hj

/-- The first cell holds the head of the list. -/
theorem Holds.head {x : β} (h : Holds data c start (x :: xs)) : data (start % c) = x :=
  h.get 0 (Nat.succ_pos _)

/-- Moving the start past the first cell drops the head of the list. -/
theorem Holds.pop {x : β} (h : Holds data c start (x :: xs)) : Holds data c (start + 1) xs where
  fits := Nat.le_of_succ_le h.fits
  get j hj := by
    have hget := h.get (j + 1) (by simpa using hj)
    rw [← Nat.add_assoc, Nat.add_right_comm] at hget
    simpa using hget

/-- The ring holds every front part of what it holds. -/
theorem Holds.of_append {ys : List β} (h : Holds data c start (xs ++ ys)) :
    Holds data c start xs where
  fits := Nat.le_trans (by simp) h.fits
  get j hj := by
    rw [h.get j (by rw [List.length_append]; omega), List.getElem_append_left hj]

end Xv6.Lib.Ring
