import Mathlib

/-!
# Addresses and Lines

`get_debuginfo` looks an address up in the table that `readfile` has filled, for the lines of a `backtrace`.

Its bounds are unsigned. When the search comes to an address before the first one of the table, `right` wraps
around, and the search goes on in the memory far behind the table; when the table is empty it begins there.

- `loop`: the search, with the indices that it reads;
- `Finds`: it ends, has read the table only, and returns the last row that does not begin after the address;
- `finds_iff`: when it does.
-/

namespace Xv6.Kernel.DebugTable

/-! ## The code -/

def MAX_ROW_LENGTH : ℕ := 8192

/-- `debugtbl_addr`, with what is in memory behind it, and `debugtbl_row` -/
structure Table where
  addr : ℕ → UInt32
  row : ℕ
  row_le : row ≤ MAX_ROW_LENGTH
  sorted : ∀ i j, i ≤ j → j < row → addr i ≤ addr j

/-- The loop of `get_debuginfo`: what it reads, and what is returned. There is no result if the loop does not end
    within the given number of tests. -/
def loop (t : Table) (address : UInt64) : ℕ → UInt32 → UInt32 → Option (List ℕ × ℤ)
  | 0, _, _ => none
  | fuel + 1, left, right =>
    if left ≤ right then
      let mid := (left + right) >>> 1
      let rest :=
        if address < (t.addr mid.toNat).toUInt64 then loop t address fuel left (mid - 1)
        else loop t address fuel (mid + 1) right
      rest.map fun (reads, res) => (mid.toNat :: reads, res)
    else some ([], (left - 1).toInt32.toInt)

/-- `get_debuginfo(address)` -/
def getDebuginfo (t : Table) (address : UInt64) (fuel : ℕ) : Option (List ℕ × ℤ) :=
  loop t address fuel 0 (UInt32.ofNat t.row - 1)

/-! ## What it is for -/

/-- The row `i` begins at the address or before. -/
def Table.Before (t : Table) (address : UInt64) (i : ℕ) : Prop := (t.addr i).toNat ≤ address.toNat

/-- The last row that does not begin after the address, or -1 -/
def Table.Line (t : Table) (address : UInt64) (res : ℤ) : Prop :=
  res = -1 ∧ (∀ i < t.row, ¬ t.Before address i) ∨
    ∃ k < t.row, res = k ∧ t.Before address k ∧ ∀ i < t.row, t.Before address i → i ≤ k

/-- **The line is found**: the search ends, it has read rows of the table only, and its result is right. -/
def Finds (t : Table) (address : UInt64) : Prop :=
  ∃ fuel reads res, getDebuginfo t address fuel = some (reads, res) ∧
    (∀ i ∈ reads, i < t.row) ∧ t.Line address res

/-! ## The search -/

section Search

variable {t : Table} {address : UInt64} {left right : UInt32}

theorem before_mono {i j : ℕ} (hij : i ≤ j) (hj : j < t.row) (h : t.Before address j) : t.Before address i :=
  (UInt32.le_iff_toNat_le.mp (t.sorted i j hij hj)).trans h

theorem lt_iff_not_before (i : ℕ) : address < (t.addr i).toUInt64 ↔ ¬ t.Before address i := by
  rw [UInt64.lt_iff_toNat_lt, UInt32.toNat_toUInt64]
  exact Nat.not_le.symm

/-- Between the bounds of a table nothing overflows. -/
theorem mid_toNat (hl : left.toNat ≤ MAX_ROW_LENGTH) (hr : right.toNat ≤ MAX_ROW_LENGTH) :
    ((left + right) >>> 1).toNat = (left.toNat + right.toNat) / 2 := by
  have hmax : MAX_ROW_LENGTH = 8192 := rfl
  rw [UInt32.toNat_shiftRight, UInt32.toNat_add, Nat.mod_eq_of_lt (by omega), Nat.shiftRight_eq_div_pow]
  rfl

/-- The rows before `left` begin early enough, those after `right` do not, and the first one does. -/
structure Inv (t : Table) (address : UInt64) (left right : UInt32) : Prop where
  first : t.Before address 0
  right_lt : right.toNat < t.row
  left_le : left.toNat ≤ right.toNat + 1
  below : ∀ i < left.toNat, t.Before address i
  above : ∀ i, right.toNat < i → i < t.row → ¬ t.Before address i

/-- **The search finds the line** from bounds that keep the invariant. -/
theorem loop_spec (fuel : ℕ) (h : Inv t address left right) (hfuel : right.toNat + 1 - left.toNat < fuel) :
    ∃ reads res, loop t address fuel left right = some (reads, res) ∧
      (∀ i ∈ reads, i < t.row) ∧ t.Line address res := by
  -- the distance of the bounds gets smaller in every round
  induction fuel generalizing left right with
  | zero => omega
  | succ fuel ih =>
    have hrow : t.row ≤ 8192 := t.row_le
    have hr := h.right_lt
    have hl := h.left_le
    rw [loop]
    by_cases hle : left ≤ right
    · have hle' : left.toNat ≤ right.toNat := UInt32.le_iff_toNat_le.mp hle
      have hmid : ((left + right) >>> 1).toNat = (left.toNat + right.toNat) / 2 :=
        mid_toNat (by simp only [MAX_ROW_LENGTH]; omega) (by simp only [MAX_ROW_LENGTH]; omega)
      rw [if_pos hle]
      dsimp only
      set mid := (left + right) >>> 1
      have hstep : ∃ reads res,
          (if address < (t.addr mid.toNat).toUInt64 then loop t address fuel left (mid - 1)
            else loop t address fuel (mid + 1) right) = some (reads, res) ∧
          (∀ i ∈ reads, i < t.row) ∧ t.Line address res := by
        by_cases hlt : address < (t.addr mid.toNat).toUInt64
        · have hafter := (lt_iff_not_before _).mp hlt
          -- the first row is not after the address, so that the middle is another one
          have hpos : 0 < mid.toNat := Nat.pos_of_ne_zero fun hzero => hafter (hzero ▸ h.first)
          have hpred : (mid - 1).toNat = mid.toNat - 1 :=
            UInt32.toNat_sub_of_le _ _ (UInt32.le_iff_toNat_le.mpr hpos)
          rw [if_pos hlt]
          refine ih ⟨h.first, by omega, by omega, h.below, fun i hi hirow hbefore => ?_⟩ (by omega)
          exact hafter (before_mono (by omega) hirow hbefore)
        · have hbefore := not_not.mp (mt (lt_iff_not_before _).mpr hlt)
          have hsucc : (mid + 1).toNat = mid.toNat + 1 := by
            rw [UInt32.toNat_add]
            exact Nat.mod_eq_of_lt (by rw [UInt32.toNat_one]; omega)
          rw [if_neg hlt]
          refine ih ⟨h.first, hr, by omega, fun i hi => ?_, h.above⟩ (by omega)
          exact before_mono (by omega) (by omega) hbefore
      obtain ⟨reads, res, hloop, hreads, hline⟩ := hstep
      refine ⟨mid.toNat :: reads, res, by rw [hloop]; rfl, ?_, hline⟩
      exact List.forall_mem_cons.mpr ⟨by omega, hreads⟩
    · have hgt : right.toNat < left.toNat := Nat.lt_of_not_le fun hn => hle (UInt32.le_iff_toNat_le.mpr hn)
      have hpred : (left - 1).toNat = left.toNat - 1 :=
        UInt32.toNat_sub_of_le _ _ (UInt32.le_iff_toNat_le.mpr (by rw [UInt32.toNat_one]; omega))
      have hres : (left - 1).toInt32.toInt = (left.toNat - 1 : ℕ) := by
        rw [← hpred]
        exact BitVec.toInt_eq_toNat_of_lt (show 2 * (left - 1).toNat < 2 ^ 32 by omega)
      rw [if_neg hle]
      refine ⟨[], _, rfl, by simp, Or.inr ⟨left.toNat - 1, by omega, hres, h.below _ (by omega), ?_⟩⟩
      intro i hi hbefore
      by_contra hgt'
      exact h.above i (by omega) hi hbefore

/-! ### Before the first row -/

/-- What is read in a round is among the reads. -/
theorem mid_mem {fuel : ℕ} {reads : List ℕ} {res : ℤ} (hle : left ≤ right)
    (h : loop t address (fuel + 1) left right = some (reads, res)) :
    ((left + right) >>> 1).toNat ∈ reads := by
  rw [loop, if_pos hle] at h
  obtain ⟨⟨reads', res'⟩, -, heq⟩ := Option.map_eq_some_iff.mp h
  cases heq
  exact List.mem_cons_self

/-- When `right` has wrapped around, the next index is 2^31 - 1. -/
theorem wrapped_reads {fuel : ℕ} {reads : List ℕ} {res : ℤ} (h : loop t address fuel 0 (0 - 1) = some (reads, res)) :
    ∃ i ∈ reads, t.row ≤ i := by
  cases fuel with
  | zero => cases h
  | succ fuel =>
    have hrow : t.row ≤ 8192 := t.row_le
    have hmid : (((0 : UInt32) + (0 - 1)) >>> 1).toNat = 2147483647 := by decide
    refine ⟨_, mid_mem (by decide) h, ?_⟩
    omega

/-- **Before the first row** the search leaves the table at its lower end. -/
theorem loop_before (hbefore : ∀ i < t.row, ¬ t.Before address i) (fuel : ℕ) (hr : right.toNat < t.row)
    {reads : List ℕ} {res : ℤ} (h : loop t address fuel 0 right = some (reads, res)) :
    ∃ i ∈ reads, t.row ≤ i := by
  -- `left` stays 0, and `right` gets smaller until it wraps around
  induction fuel generalizing right reads res with
  | zero => cases h
  | succ fuel ih =>
    have hrow : t.row ≤ 8192 := t.row_le
    have hmid : ((0 + right) >>> 1).toNat = right.toNat / 2 := by
      rw [mid_toNat (Nat.zero_le _) (by simp only [MAX_ROW_LENGTH]; omega), UInt32.toNat_zero, Nat.zero_add]
    rw [loop, if_pos (UInt32.le_iff_toNat_le.mpr (Nat.zero_le _))] at h
    dsimp only at h
    set mid := (0 + right) >>> 1
    rw [if_pos ((lt_iff_not_before _).mpr (hbefore _ (by omega)))] at h
    obtain ⟨⟨reads', res'⟩, hrest, heq⟩ := Option.map_eq_some_iff.mp h
    cases heq
    have hout : ∃ i ∈ reads', t.row ≤ i := by
      by_cases hzero : mid.toNat = 0
      · have hmid0 : mid = 0 := UInt32.toNat_inj.mp hzero
        rw [hmid0] at hrest
        exact wrapped_reads hrest
      · have hpred : (mid - 1).toNat = mid.toNat - 1 :=
          UInt32.toNat_sub_of_le _ _ (UInt32.le_iff_toNat_le.mpr (Nat.pos_of_ne_zero hzero))
        exact ih (by omega) hrest
    obtain ⟨i, hi, hout⟩ := hout
    exact ⟨i, List.mem_cons_of_mem _ hi, hout⟩

end Search

/-! ## When the line is found -/

theorem row_pred {t : Table} (h : t.row ≠ 0) : (UInt32.ofNat t.row - 1).toNat = t.row - 1 := by
  have hrow : t.row ≤ 8192 := t.row_le
  have hnat : (UInt32.ofNat t.row).toNat = t.row := UInt32.toNat_ofNat_of_lt' (by simp [UInt32.size]; omega)
  rw [UInt32.toNat_sub_of_le _ _ (UInt32.le_iff_toNat_le.mpr (by rw [hnat, UInt32.toNat_one]; omega)), hnat]
  rfl

/-- **When the line is found**: if the table has a first row, and that does not begin after the address. -/
theorem finds_iff (t : Table) (address : UInt64) : Finds t address ↔ t.row ≠ 0 ∧ t.Before address 0 := by
  constructor
  · rintro ⟨fuel, reads, res, hres, hreads, -⟩
    unfold getDebuginfo at hres
    by_contra hnot
    have hout : ∃ i ∈ reads, t.row ≤ i := by
      by_cases hrow : t.row = 0
      · rw [hrow] at hres
        exact wrapped_reads hres
      · have hfirst : ¬ t.Before address 0 := fun h => hnot ⟨hrow, h⟩
        have hlast := row_pred hrow
        exact loop_before (fun i hi h => hfirst (before_mono (Nat.zero_le i) hi h)) fuel (by omega) hres
    obtain ⟨i, hi, hle⟩ := hout
    exact absurd (hreads i hi) (by omega)
  · rintro ⟨hrow, hfirst⟩
    have hlast := row_pred hrow
    have hinv : Inv t address 0 (UInt32.ofNat t.row - 1) :=
      ⟨hfirst, by omega, Nat.zero_le _, fun i hi => absurd hi (Nat.not_lt_zero i), fun i hi hirow => by omega⟩
    exact ⟨_, loop_spec _ hinv (Nat.lt_succ_self _)⟩

/-- The two rows of a table that begins at the kernel's first address -/
def twoRows : Table where
  addr i := if i = 0 then 0x80000000 else 0x80000100
  row := 2
  row_le := by decide
  sorted i j hij hj := by
    interval_cases j <;> interval_cases i <;> decide

/-- An address below the first row, and any address if the table is empty, send the search out of it. -/
theorem outside_not_found :
    ¬ Finds twoRows 0 ∧ ¬ Finds { twoRows with row := 0, row_le := by decide, sorted := by simp } 0x80000000 := by
  rw [finds_iff, finds_iff]
  exact ⟨fun h => absurd h.2 (by unfold Table.Before; decide), fun h => h.1 rfl⟩

example : getDebuginfo twoRows 0x80000084 3 = some ([0, 1], 0) := by decide

end Xv6.Kernel.DebugTable
