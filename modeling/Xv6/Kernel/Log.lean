import Mathlib
import Xv6.Kernel.Param

/-!
# The In-Memory Log

`struct log` of `log.c` and the critical sections of `begin_op`, `end_op` and
`log_write`, each as a function on the state that `log.lock` protects. What the
commit does to the disk is in `Xv6.Kernel.LogRecovery`; how many operations may
share a transaction is in `Xv6.Kernel.LogReservation`.
-/

namespace Xv6.Kernel

/-- `struct log`. The header `lh` holds the block numbers `lh.block[0..lh.n)`;
    the array past `lh.n` is never read. -/
structure Log where
  /-- First block of the log area, the header block -/
  start : ℕ
  /-- Number of blocks of the log area, header included -/
  size : ℕ
  /-- How many file-system calls are executing -/
  outstanding : ℤ
  /-- In `commit()`, please wait -/
  committing : Bool
  /-- Block numbers of the current transaction -/
  lh : List ℕ

namespace Log

/-- `lh.n` -/
def n (l : Log) : ℕ := l.lh.length

/-! ## Critical sections -/

/-- One pass of `begin_op` through its loop: `none` when the caller goes to
    sleep, waiting for a commit to finish or to free log space. -/
def beginOp (l : Log) : Option Log :=
  if l.committing then none
  else if (l.n : ℤ) + (l.outstanding + 1) * MAXOPBLOCKS > LOGSIZE then none
  else some { l with outstanding := l.outstanding + 1 }

/-- The first critical section of `end_op`; the flag is `do_commit`. -/
def endOp (l : Log) : Except String (Log × Bool) :=
  let l := { l with outstanding := l.outstanding - 1 }
  if l.committing then .error "log.committing"
  else if l.outstanding = 0 then .ok ({ l with committing := true }, true)
  else .ok (l, false)

/-- The second critical section of `end_op`, after `commit()`. -/
def endCommit (l : Log) : Log := { l with committing := false }

/-- `log_write(b)`; the flag tells whether the block is new to the transaction
    and has been pinned. -/
def logWrite (l : Log) (blockno : ℕ) : Except String (Log × Bool) :=
  if l.n ≥ LOGSIZE ∨ (l.n : ℤ) ≥ (l.size : ℤ) - 1 then .error "too big a transaction"
  else if l.outstanding < 1 then .error "log_write outside of trans"
  else if l.lh.idxOf blockno = l.n then .ok ({ l with lh := l.lh ++ [blockno] }, true)
  else .ok ({ l with lh := l.lh.set (l.lh.idxOf blockno) blockno }, false)

/-! ## What the sections do -/

/-- Whether `log_write` finds no room. The test comes before absorption, so it
    does not matter whether the block is already in the log. -/
def Full (l : Log) : Prop := l.n ≥ LOGSIZE ∨ (l.n : ℤ) ≥ (l.size : ℤ) - 1

theorem beginOp_eq_some {l l' : Log} (h : l.beginOp = some l') :
    l.committing = false ∧ (l.n : ℤ) + (l.outstanding + 1) * MAXOPBLOCKS ≤ LOGSIZE ∧
      l' = { l with outstanding := l.outstanding + 1 } := by
  unfold beginOp at h
  split at h
  · cases h
  · split at h
    · cases h
    · next hc hn => exact ⟨by simpa using hc, by omega, (Option.some.inj h).symm⟩

theorem endOp_eq_ok {l l' : Log} {c : Bool} (h : l.endOp = .ok (l', c)) :
    l.committing = false ∧ (c = true ↔ l.outstanding = 1) ∧
      l' = { l with outstanding := l.outstanding - 1, committing := c } := by
  unfold endOp at h
  simp only at h
  split at h
  · cases h
  · next hc =>
    have hc : l.committing = false := by simpa using hc
    split at h
    · next h0 => cases h; exact ⟨hc, by simp; omega, rfl⟩
    · next h0 => cases h; exact ⟨hc, by simp; omega, by simp [hc]⟩

theorem endOp_eq_error {l : Log} {msg : String} (h : l.endOp = .error msg) :
    msg = "log.committing" := by
  unfold endOp at h
  simp only at h
  split at h
  · cases h; rfl
  · split at h <;> cases h

theorem set_idxOf_self {bs : List ℕ} {b : ℕ} : bs.set (bs.idxOf b) b = bs := by
  induction bs with
  | nil => rfl
  | cons a bs ih =>
    by_cases h : a = b
    · subst h; simp
    · simp [List.idxOf_cons_ne bs h, ih]

/-- `log_write` absorbs a block the transaction already has and appends any other. -/
theorem logWrite_eq_ok {l l' : Log} {b : ℕ} {pin : Bool} (h : l.logWrite b = .ok (l', pin)) :
    ¬ l.Full ∧ 1 ≤ l.outstanding ∧ (pin = true ↔ b ∉ l.lh) ∧
      l' = { l with lh := if b ∈ l.lh then l.lh else l.lh ++ [b] } := by
  unfold logWrite at h
  split at h
  · cases h
  · next hfull =>
    split at h
    · cases h
    · next hout =>
      refine ⟨hfull, by omega, ?_⟩
      split at h
      · next hi =>
        have hb : b ∉ l.lh := List.idxOf_eq_length_iff.mp hi
        cases h
        simp [hb]
      · next hi =>
        have hb : b ∈ l.lh := by
          by_contra hb
          exact hi (List.idxOf_eq_length_iff.mpr hb)
        cases h
        simp [hb, set_idxOf_self]

theorem logWrite_of_full {l : Log} (b : ℕ) (h : l.Full) :
    l.logWrite b = .error "too big a transaction" := if_pos h

/-- Inside an operation, running out of room is the only way `log_write` fails. -/
theorem logWrite_ok_of_not_full {l : Log} (b : ℕ) (h : ¬ l.Full) (ho : 1 ≤ l.outstanding) :
    ∃ r, l.logWrite b = .ok r := by
  unfold logWrite
  rw [if_neg (show ¬ (_ ∨ _) from h), if_neg (by omega)]
  split <;> exact ⟨_, rfl⟩

end Log

end Xv6.Kernel
