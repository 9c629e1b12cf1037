import Mathlib.Tactic.Common
import Mathlib.Algebra.Order.Ring.Nat

/-!
# Intervals on a Circle of Numbers

The numbers below `M`, of which the last is followed by 0. An interval of them is given by where it
begins and how long it is; it is one in the usual order only if it does not go past the last number.

- `ahead`: how far one number is ahead of another;
- `ahead_add`, `ahead_succ`: what becomes of it when one of the two goes on;
- `arc_iff`, `between_iff`: the intervals that are those of the usual order;
- `after_iff`: when "ahead by less than half of the circle" is "greater".
-/

namespace Xv6.Lib.Circle

variable {M a b n x : ℕ}

/-! ## Distances -/

/-- How far `b` is ahead of `a` -/
def ahead (M a b : ℕ) : ℕ := (M - a + b) % M

theorem ahead_of_le (h : a ≤ b) (hb : b < M) : ahead M a b = b - a := by
  have hsum : M - a + b = b - a + M := by omega
  rw [ahead, hsum, Nat.add_mod_right]
  exact Nat.mod_eq_of_lt (by omega)

theorem ahead_of_lt (h : b < a) (ha : a < M) : ahead M a b = M - a + b :=
  Nat.mod_eq_of_lt (by omega)

/-- Numbers that are ahead by the same distance are equal. -/
theorem ahead_eq_zero (ha : a < M) (hb : b < M) : ahead M a b = 0 ↔ b = a := by
  rcases Nat.lt_or_ge b a with h | h
  · rw [ahead_of_lt h ha]
    omega
  · rw [ahead_of_le h hb]
    omega

theorem ahead_lt (hM : 0 < M) (a b : ℕ) : ahead M a b < M := Nat.mod_lt _ hM

/-- A number that goes on towards another one, but not past it -/
theorem ahead_add {k : ℕ} (ha : a < M) (hb : b < M) (hk : k ≤ ahead M a b) :
    ahead M ((a + k) % M) b = ahead M a b - k := by
  rcases Nat.lt_or_ge b a with h | h
  · rw [ahead_of_lt h ha] at hk ⊢
    rcases Nat.lt_or_ge (a + k) M with hlt | hge
    · rw [Nat.mod_eq_of_lt hlt, ahead_of_lt (by omega) hlt]
      omega
    · -- past the last number
      have hmod : (a + k) % M = a + k - M := by
        rw [Nat.mod_eq_sub_mod hge]
        exact Nat.mod_eq_of_lt (by omega)
      rw [hmod, ahead_of_le (by omega) hb]
      omega
  · rw [ahead_of_le h hb] at hk ⊢
    rw [Nat.mod_eq_of_lt (by omega), ahead_of_le (by omega) hb]
    omega

/-- The other one goes on, but not once around. -/
theorem ahead_succ (ha : a < M) (hb : b < M) (h : ahead M a b + 1 < M) :
    ahead M a ((b + 1) % M) = ahead M a b + 1 := by
  rcases Nat.lt_or_ge (b + 1) M with hlt | hge
  · rw [Nat.mod_eq_of_lt hlt]
    rcases Nat.lt_or_ge b a with hba | hab
    · rw [ahead_of_lt hba ha] at h ⊢
      rw [ahead_of_lt (by omega) ha]
      omega
    · rw [ahead_of_le hab hb, ahead_of_le (by omega) hlt]
      omega
  · have hlast : b + 1 = M := by omega
    rw [hlast, Nat.mod_self, ahead_of_le (by omega) hb] at *
    rw [ahead_of_lt (by omega) ha]
    omega

/-- The next number is `a` if and only if `a` is as far behind as it can be. -/
theorem succ_mod_eq_iff (ha : a < M) (hb : b < M) : (b + 1) % M = a ↔ ahead M a b + 1 = M := by
  have hmod : (b + 1) % M = if b + 1 < M then b + 1 else 0 := by
    split
    · next hlt => exact Nat.mod_eq_of_lt hlt
    · next hge =>
      have hlast : b + 1 = M := by omega
      rw [hlast, Nat.mod_self]
  rw [hmod]
  rcases Nat.lt_or_ge b a with hba | hab
  · rw [ahead_of_lt hba ha]
    split <;> omega
  · rw [ahead_of_le hab hb]
    split <;> omega

/-! ## Intervals -/

/-- The `n` numbers from `a` on -/
def Arc (M a n x : ℕ) : Prop := ahead M a x < n

/-- The numbers from `a` to `b`, both of them included -/
def Between (M a b x : ℕ) : Prop := ahead M a x ≤ ahead M a b

/-- An arc that ends at `M` or before is an interval. -/
theorem arc_iff (hx : x < M) (h : a + n ≤ M) (ha : a < M) : Arc M a n x ↔ a ≤ x ∧ x < a + n := by
  unfold Arc
  rcases Nat.lt_or_ge x a with hlt | hge
  · rw [ahead_of_lt hlt ha]
    omega
  · rw [ahead_of_le hge hx]
    omega

/-- The numbers between two are those of an interval, if the second is not less than the first. -/
theorem between_iff (hx : x < M) (hab : a ≤ b) (hb : b < M) : Between M a b x ↔ a ≤ x ∧ x ≤ b := by
  unfold Between
  rw [ahead_of_le hab hb]
  rcases Nat.lt_or_ge x a with hlt | hge
  · rw [ahead_of_lt hlt (by omega)]
    omega
  · rw [ahead_of_le hge hx]
    omega

/-! ## Order -/

/-- `x` is ahead of `a` by less than half of the circle. -/
def After (M a x : ℕ) : Prop := 0 < ahead M a x ∧ 2 * ahead M a x < M

/-- Two numbers are in their usual order on the circle if and only if they are less than half of it
    apart. -/
theorem after_iff (ha : a < M) (hx : x < M) :
    (After M a x ↔ a < x) ↔ (a < x → 2 * (x - a) < M) ∧ (x ≤ a → 2 * (a - x) ≤ M) := by
  unfold After
  rcases Nat.lt_or_ge x a with hlt | hge
  · rw [ahead_of_lt hlt ha]
    omega
  · rw [ahead_of_le hge hx]
    omega

end Xv6.Lib.Circle
