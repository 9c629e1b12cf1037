import Mathlib.Logic.Function.Basic
import Mathlib.Data.List.Nodup

/-!
# Singly Linked Lists

Cells linked by a `next` field, as a program sees them: `none` is the null
pointer. `Seg next a xs b` walks from the pointer `a` through the cells `xs` to
the pointer `b`; `Chain next a xs` is a whole list, down to the null pointer.

- `Chain.unique`: the cells of a list are determined by its head;
- `Seg.update`: writing a cell outside of a list leaves the list alone;
- `Chain.cut`: clearing the link of a cell cuts the list behind it;
- `Chain.snoc`: linking a cell behind the last one appends it;
- `Chain.push`, `Chain.unlink`: linking a cell in front, and taking one out.
-/

namespace Xv6.Lib

variable {β : Type*}

/-- From the pointer `a` through the cells `xs` to the pointer `b`. -/
inductive Seg (next : β → Option β) : Option β → List β → Option β → Prop where
  | nil (a : Option β) : Seg next a [] a
  | cons {x : β} {xs : List β} {b : Option β} : Seg next (next x) xs b → Seg next (some x) (x :: xs) b

/-- The list with head `a` consists of the cells `xs`. -/
abbrev Chain (next : β → Option β) (a : Option β) (xs : List β) : Prop := Seg next a xs none

variable {next : β → Option β} {a b : Option β} {x : β} {xs ys : List β}

namespace Seg

@[simp] theorem nil_iff : Seg next a [] b ↔ a = b :=
  ⟨fun h => by cases h; rfl, fun h => h ▸ .nil a⟩

@[simp] theorem cons_iff : Seg next a (x :: xs) b ↔ a = some x ∧ Seg next (next x) xs b := by
  constructor
  · rintro ⟨⟩
    exact ⟨rfl, ‹_›⟩
  · rintro ⟨rfl, h⟩
    exact .cons h

theorem append_iff : Seg next a (xs ++ ys) b ↔ ∃ c, Seg next a xs c ∧ Seg next c ys b := by
  induction xs generalizing a with
  | nil => simp
  | cons x xs ih => simp [ih, and_assoc]

theorem append {c : Option β} (h₁ : Seg next a xs b) (h₂ : Seg next b ys c) :
    Seg next a (xs ++ ys) c :=
  append_iff.mpr ⟨b, h₁, h₂⟩

/-- A write to a cell outside of the segment does not change it. -/
theorem update [DecidableEq β] (h : Seg next a xs b) (hx : x ∉ xs) (v : Option β) :
    Seg (Function.update next x v) a xs b := by
  induction h with
  | nil a => exact .nil a
  | cons _ ih =>
    rw [List.mem_cons, not_or] at hx
    refine .cons ?_
    rw [Function.update_of_ne (Ne.symm hx.1)]
    exact ih hx.2

/-- Walking cells with the same links, a segment is the same. -/
theorem congr {next' : β → Option β} (h : Seg next a xs b) (hn : ∀ x ∈ xs, next' x = next x) :
    Seg next' a xs b := by
  induction h with
  | nil a => exact .nil a
  | @cons y ys b _ ih =>
    refine .cons ?_
    rw [hn y List.mem_cons_self]
    exact ih fun x hx => hn x (List.mem_cons_of_mem _ hx)

end Seg

namespace Chain

/-- The null pointer heads the empty list only. -/
theorem eq_nil (h : Chain next none xs) : xs = [] := by
  cases h
  rfl

/-- A list with a head is that cell and the list behind it. -/
theorem eq_cons (h : Chain next (some x) xs) : ∃ ys, xs = x :: ys ∧ Chain next (next x) ys := by
  cases h with
  | cons h => exact ⟨_, rfl, h⟩

/-- The head pointer leads to the first cell. -/
theorem head_eq (h : Chain next a xs) : a = xs.head? := by
  cases h <;> rfl

/-- The link of a cell leads to the cell behind it. -/
theorem next_eq (h : Chain next a (xs ++ x :: ys)) : next x = ys.head? := by
  obtain ⟨b, -, hx⟩ := Seg.append_iff.mp h
  exact head_eq (Seg.cons_iff.mp hx).2

/-- Linking a new cell in front of a list. -/
theorem push (h : Chain next a xs) (hnext : next x = a) : Chain next (some x) (x :: xs) := by
  refine .cons ?_
  rwa [hnext]

/-- Leading the pointer in front of a cell past it takes the cell out of the list. -/
theorem unlink [DecidableEq β] {y : β} (h : Chain next a (xs ++ y :: x :: ys))
    (hnd : (xs ++ y :: x :: ys).Nodup) :
    Chain (Function.update next y (next x)) a (xs ++ y :: ys) := by
  obtain ⟨b, hxs, hy⟩ := Seg.append_iff.mp h
  obtain ⟨rfl, hrest⟩ := Seg.cons_iff.mp hy
  obtain ⟨-, hys⟩ := Seg.cons_iff.mp hrest
  have hnd' := List.nodup_append.mp hnd
  have hyxs : y ∉ xs := fun hmem => hnd'.2.2 y hmem y (by simp) rfl
  have hyys : y ∉ ys := fun hmem => (List.nodup_cons.mp hnd'.2.1).1 (by simp [hmem])
  refine (hxs.update hyxs _).append (.cons ?_)
  rw [Function.update_self]
  exact hys.update hyys _

theorem unique (hx : Chain next a xs) (hy : Chain next a ys) : xs = ys := by
  induction xs generalizing a ys with
  | nil =>
    obtain rfl := Seg.nil_iff.mp hx
    exact hy.eq_nil.symm
  | cons x xs ih =>
    obtain ⟨rfl, hxs⟩ := Seg.cons_iff.mp hx
    obtain ⟨ys, rfl, hys⟩ := hy.eq_cons
    rw [ih hxs hys]

/-- Clearing the link of a cell leaves the list up to it, and the list behind it
    with its old link as the head. -/
theorem cut [DecidableEq β] (h : Chain next a (xs ++ x :: ys)) (hnd : (xs ++ x :: ys).Nodup) :
    Chain (Function.update next x none) a (xs ++ [x]) ∧
      Chain (Function.update next x none) (next x) ys := by
  obtain ⟨b, hxs, hx⟩ := Seg.append_iff.mp h
  obtain ⟨rfl, hys⟩ := Seg.cons_iff.mp hx
  have hnd' := List.nodup_append.mp hnd
  have hx₁ : x ∉ xs := fun hmem => hnd'.2.2 x hmem x (by simp) rfl
  have hx₂ : x ∉ ys := (List.nodup_cons.mp hnd'.2.1).1
  refine ⟨(hxs.update hx₁ none).append (.cons ?_), hys.update hx₂ none⟩
  rw [Function.update_self]
  exact .nil none

/-- The last cell of a list has no link. -/
theorem last_eq_none (h : Chain next a (xs ++ [x])) : next x = none := by
  obtain ⟨b, -, hx⟩ := Seg.append_iff.mp h
  obtain ⟨rfl, hend⟩ := Seg.cons_iff.mp hx
  exact Seg.nil_iff.mp hend

/-- Linking a cell without a link behind the last cell appends it. -/
theorem snoc [DecidableEq β] (h : Chain next a (xs ++ [x])) (hnd : (xs ++ [x]).Nodup) {y : β}
    (hy : y ∉ xs ++ [x]) (hnone : next y = none) :
    Chain (Function.update next x (some y)) a (xs ++ [x] ++ [y]) := by
  obtain ⟨b, hxs, hx⟩ := Seg.append_iff.mp h
  obtain ⟨rfl, -⟩ := Seg.cons_iff.mp hx
  have hx' : x ∉ xs := fun hmem => (List.nodup_append.mp hnd).2.2 x hmem x (by simp) rfl
  have hyx : y ≠ x := fun he => hy (by simp [he])
  refine ((hxs.update hx' _).append (.cons ?_)).append (.cons ?_)
  · rw [Function.update_self]
    exact .nil _
  · rw [Function.update_of_ne hyx, hnone]
    exact .nil none

/-- Cells that link each to the one after it. -/
theorem range' {next : ℕ → Option ℕ} {a n : ℕ}
    (h : ∀ i, a ≤ i → i < a + n → next i = if i + 1 < a + n then some (i + 1) else none) :
    Chain next (if n = 0 then none else some a) (List.range' a n) := by
  induction n generalizing a with
  | zero => exact .nil none
  | succ n ih =>
    have hrest := ih (a := a + 1) fun i hi hlt => by
      rw [h i (by omega) (by omega)]
      congr 1
      exact propext (by omega)
    rw [if_neg (Nat.succ_ne_zero n), List.range'_succ]
    refine .cons ?_
    rw [h a (Nat.le_refl a) (by omega)]
    convert hrest using 1
    split_ifs <;> first | rfl | omega

end Chain

end Xv6.Lib
