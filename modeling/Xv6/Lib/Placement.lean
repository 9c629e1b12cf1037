import Mathlib.Logic.Function.Basic
import Mathlib.Data.List.Nodup
import Mathlib.Data.Set.Defs

/-!
# Items Kept in Lists at Places

A set of items is kept in lists, one list for each place. `Splits L S` says that
every item of `S` is on exactly one of the lists, once, and nothing else is on
any. Moving items between two places keeps this.
-/

namespace Xv6.Lib

variable {κ β : Type*}

/-- The lists `L` split the set `S`. -/
structure Splits (L : κ → List β) (S : Set β) : Prop where
  nodup : ∀ a, (L a).Nodup
  disjoint : ∀ a b, a ≠ b → (L a).Disjoint (L b)
  mem_iff : ∀ x, x ∈ S ↔ ∃ a, x ∈ L a

namespace Splits

variable {L : κ → List β} {S : Set β}

theorem mem (h : Splits L S) {a : κ} {x : β} (hx : x ∈ L a) : x ∈ S := (h.mem_iff x).mpr ⟨a, hx⟩

/-- An item is at one place only. -/
theorem place_unique (h : Splits L S) {a b : κ} {x : β} (ha : x ∈ L a) (hb : x ∈ L b) : a = b := by
  by_contra hab
  exact h.disjoint a b hab ha hb

variable [DecidableEq κ]

/-- Items move between two places: together the two places keep what they had. -/
theorem move (h : Splits L S) {a b : κ} (hab : a ≠ b) {xs ys : List β}
    (hperm : (xs ++ ys).Perm (L a ++ L b)) :
    Splits (Function.update (Function.update L a xs) b ys) S := by
  have hnd : (xs ++ ys).Nodup :=
    hperm.nodup_iff.mpr (List.nodup_append'.mpr ⟨h.nodup a, h.nodup b, h.disjoint a b hab⟩)
  obtain ⟨hxs, hys, hdis⟩ := List.nodup_append'.mp hnd
  have hmem : ∀ x, x ∈ xs ∨ x ∈ ys ↔ x ∈ L a ∨ x ∈ L b := fun x => by
    rw [← List.mem_append, ← List.mem_append, hperm.mem_iff]
  -- a third place holds nothing the two places hold
  have hthird : ∀ c, c ≠ a → c ≠ b → ∀ x, x ∈ L c → x ∉ xs ∧ x ∉ ys := fun c hca hcb x hx => by
    rw [← not_or, hmem]
    rintro (hxa | hxb)
    · exact hca (h.place_unique hx hxa)
    · exact hcb (h.place_unique hx hxb)
  have hval : ∀ c, Function.update (Function.update L a xs) b ys c =
      if c = b then ys else if c = a then xs else L c := fun c => by
    by_cases hcb : c = b
    · subst hcb; simp
    · by_cases hca : c = a
      · subst hca; simp [hcb]
      · simp [hcb, hca]
  refine ⟨fun c => ?_, fun c d hcd => ?_, fun x => ?_⟩
  · rw [hval]
    split_ifs
    exacts [hys, hxs, h.nodup c]
  · rw [hval, hval, List.disjoint_left]
    intro x hxc hxd
    have hold : ∀ {c d}, c ≠ d → x ∈ L c → x ∉ L d := fun hne hc hd => h.disjoint _ _ hne hc hd
    grind [List.disjoint_left]
  · rw [h.mem_iff]
    simp only [hval]
    constructor
    · rintro ⟨c, hc⟩
      grind
    · rintro ⟨c, hc⟩
      grind

end Splits

end Xv6.Lib
