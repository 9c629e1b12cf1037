import Mathlib
import Xv6.Lib.TransitionSystem
import Xv6.Lib.Overlay
import Xv6.Lib.Tally
import Xv6.Kernel.Kalloc

/-!
# Copy-on-Write Sharing

Any number of processes that came out of `fork` sharing one physical page. They
write to it, take `copyonwrite` faults and exit; the critical sections of
`ref_lock`, `tlock` and the free lists, and the fills of pages outside of them, are
the steps. The contents at fork and the bytes each process has written are kept
as history.

`kalloc_cow` gives its reference back before the page is copied. In the window up
to the copy the count is one too low, so that the last other sharer finds it to be
one: it writes in place what is still to be copied, or frees the page by exiting.

- `Inv.run`: one kernel step keeps the accounting of pages;
- `cow_isolation`: in runs where nobody finds the count to be one within another's
  window, every process sees the contents at fork under its own writes, and no
  copy is taken from a freed page;
- `window_write_is_copied`: without that condition a write of one process appears
  in the memory of another.
-/

namespace Xv6.Kernel.CopyOnWrite

open Xv6.Lib

/-! ## Processes -/

/-- Where a process is in `copyonwrite` or in the `kfree` of its exit. The address
    `pa` and the flags are those that `copyonwrite` has read from the entry. -/
inductive Pc where
  /-- In user mode -/
  | idle
  /-- `copyonwrite` holds `slock` -/
  | entered
  /-- About to enter `kalloc_cow` -/
  | cow (pa : ℕ) (flags : Pte)
  /-- `kalloc_cow` has dropped the reference and calls `kalloc` -/
  | alloc (pa : ℕ) (flags : Pte)
  /-- `kalloc` has the page `r` in hand -/
  | popped (pa : ℕ) (flags : Pte) (r : ℕ)
  /-- `kalloc` has counted a reference to `r` -/
  | counted (pa : ℕ) (flags : Pte) (r : ℕ)
  /-- `kalloc` has returned 0 to `kalloc_cow` -/
  | failed (pa : ℕ)
  /-- `kalloc_cow` has returned `mem` -/
  | copy (pa : ℕ) (flags : Pte) (mem : ℕ)
  /-- `kfree` has dropped the last reference to `q` -/
  | junk (q : ℕ)
  /-- `kfree` has filled `q` with junk -/
  | push (q : ℕ)
  | exited
  deriving DecidableEq

/-- One process: the entry that maps the page under consideration, and its threads
    that are waiting for `slock` in `copyonwrite`. -/
structure Proc where
  pte : Pte
  pc : Pc
  pending : ℕ

namespace Proc

/-- The process still runs user code. -/
def live (p : Proc) : Bool :=
  match p.pc with
  | .junk _ | .push _ | .exited => false
  | _ => true

/-- The next step inside the kernel, given what the free lists offer to `kalloc`
    (pages that `find_swapping_page` obtains elsewhere included). An error is the
    message of a `panic`. -/
def run (k : Kmem) (p : Proc) (page : Option ℕ) : Option (Except String (Kmem × Proc)) :=
  match p.pc with
  | .idle =>
    if p.pending = 0 then none
    else some (.ok (k, { p with pc := .entered, pending := p.pending - 1 }))
  | .entered =>
    if p.pte.w then some (.ok (k, { p with pc := .idle }))
    else if isSuppg p.pte.pa then some (.error "copyonwrite")
    else some (.ok (k, { p with pc := .cow p.pte.ppn p.pte }))
  | .cow pa flags =>
    match k.kallocCowRef p.pte with
    | .error msg => some (.error msg)
    | .ok (k', some pte) => some (.ok (k', { p with pte := pte, pc := .copy pa flags p.pte.ppn }))
    | .ok (k', none) => some (.ok (k', { p with pc := .alloc pa flags }))
  | .alloc pa flags =>
    match page with
    | none => some (.ok (k, { p with pc := .failed pa }))
    | some r =>
      if r ∈ k.freelist then some (.ok (k.pop r, { p with pc := .popped pa flags r })) else none
  | .popped pa flags r =>
    if (k.kincget r).1 ≠ 1 then some (.error "kalloc_ref_cnt")
    else some (.ok ((k.kincget r).2, { p with pc := .counted pa flags r }))
  | .counted pa flags r =>
    some (.ok (k.setPage r (fun _ => 5), { p with pc := .copy pa flags r }))
  | .failed pa => some (.ok ((k.kincget pa).2, { p with pc := .idle }))
  | .copy pa flags mem =>
    if mem = pa then some (.ok (k, { p with pc := .idle }))
    else some (.ok (k.setPage mem (k.mem pa),
      { p with pte := { flags with ppn := mem }.decow, pc := .idle }))
  | .junk q => some (.ok (k.setPage q (fun _ => 1), { p with pc := .push q }))
  | .push q => some (.ok (k.push q, { p with pte := .zero, pc := .exited }))
  | .exited => none

/-- `uvmunmap` of the page when the process exits, up to the `ref_lock` section of `kfree`. -/
def exit (k : Kmem) (p : Proc) : Except String (Kmem × Proc) :=
  match k.kfreeRef p.pte.ppn with
  | .error msg => .error msg
  | .ok (res, k') =>
    if 0 < res then .ok (k', { p with pte := .zero, pc := .exited })
    else .ok (k', { p with pc := .junk p.pte.ppn })

end Proc

/-! ## The system -/

structure State (ι : Type*) where
  k : Kmem
  proc : ι → Proc
  /-- The page as it was at fork -/
  orig : ByteBlock
  /-- The bytes each process has written, oldest first -/
  writes : ι → List (ℕ × UInt8)
  /-- The pages whose last reference has been dropped -/
  freed : Finset ℕ
  /-- The message of the `panic` that stopped the system -/
  panic : Option String

inductive Act (ι : Type*) where
  /-- A user store of the byte `b` at the offset `off` -/
  | write (i : ι) (off : ℕ) (b : UInt8)
  /-- A thread takes a store fault and calls `copyonwrite` -/
  | fault (i : ι)
  /-- The next step inside the kernel -/
  | run (i : ι) (page : Option ℕ)
  /-- The last thread exits -/
  | exit (i : ι)

variable {ι : Type*} [DecidableEq ι]

namespace State

/-- What process `i` should see in its page: its own writes over the contents at fork. -/
def expected (s : State ι) (i : ι) : ByteBlock := overlay (s.writes i) s.orig

/-- Process `i` has taken a step. -/
def set (s : State ι) (i : ι) (k : Kmem) (p : Proc) : State ι :=
  { s with k := k, proc := Function.update s.proc i p }

@[simp] theorem set_k (s : State ι) (i : ι) (k : Kmem) (p : Proc) : (s.set i k p).k = k := rfl

end State

def exec (s : State ι) : Act ι → Option (State ι)
  | .write i off b =>
    let p := s.proc i
    if p.live && p.pte.v && p.pte.u && p.pte.w && decide (off < PGSIZE) then
      some { s with
        k := s.k.setPage p.pte.ppn (Function.update (s.k.mem p.pte.ppn) off b)
        writes := Function.update s.writes i (s.writes i ++ [(off, b)]) }
    else none
  | .fault i =>
    let p := s.proc i
    if p.live && p.pte.v && p.pte.cow then some (s.set i s.k { p with pending := p.pending + 1 })
    else none
  | .run i page =>
    match (s.proc i).run s.k page with
    | none => none
    | some (.error msg) => some { s with panic := some msg }
    | some (.ok (k, p)) => some (s.set i k p)
  | .exit i =>
    let p := s.proc i
    if decide (p.pc = .idle) && decide (p.pending = 0) && p.pte.v then
      match p.exit s.k with
      | .error msg => some { s with panic := some msg }
      | .ok (k, p') =>
        some { s.set i k p' with
          freed := if p'.pc = .exited then s.freed else insert p.pte.ppn s.freed }
    else none

/-- A panic stops every process. -/
def step (s : State ι) (a : Act ι) : Option (State ι) :=
  if s.panic.isSome then none else exec s a

/-- After `fork`: all processes map one page copy-on-write, whose count is the
    number of processes, and the pages on the free lists are not referenced. -/
structure Init [Fintype ι] (s : State ι) : Prop where
  pte : ∀ i, (s.proc i).pte.v = true ∧ (s.proc i).pte.u = true ∧ (s.proc i).pte.cow = true ∧
    (s.proc i).pte.w = false
  pc : ∀ i, (s.proc i).pc = .idle ∧ (s.proc i).pending = 0
  shared : ∃ q, (∀ i, (s.proc i).pte.ppn = q) ∧ s.k.refCnt q = Fintype.card ι ∧
    q ∉ s.k.freelist ∧ s.orig = s.k.mem q
  free : ∀ q ∈ s.k.freelist, s.k.refCnt q = 0
  history : (∀ i, s.writes i = []) ∧ s.freed = ∅ ∧ s.panic = none

variable (ι) in
def system [Fintype ι] : System (State ι) (Act ι) where
  init := Init
  step := step

/-! ## Accounting of pages

A page has as many shares as there are processes. A mapping that is read-only takes
one of them, a writable mapping takes all, and so does whoever has the page in hand:
a kernel step that allocates or frees it, the free list, or a user outside of the
system. -/

namespace Proc

/-- The page that the process has in hand inside the kernel. -/
def holds (p : Proc) : Option ℕ :=
  match p.pc with
  | .popped _ _ r | .counted _ _ r | .junk r | .push r => some r
  | .copy pa _ mem => if mem = pa then none else some mem
  | _ => none

/-- The page in hand that has been counted. -/
def holdsRef (p : Proc) : Option ℕ :=
  match p.pc with
  | .counted _ _ r => some r
  | .copy pa _ mem => if mem = pa then none else some mem
  | _ => none

/-- The page that is still to be copied although its reference has been given back. -/
def window (p : Proc) : Option ℕ :=
  match p.pc with
  | .alloc pa _ | .popped pa _ _ | .counted pa _ _ | .failed pa => some pa
  | .copy pa _ mem => if mem = pa then none else some pa
  | _ => none

/-- The references to the page `q` that the process has. -/
def refs (q : ℕ) (p : Proc) : ℕ :=
  (if p.live ∧ p.window = none ∧ p.pte.ppn = q then 1 else 0) +
    (if p.holdsRef = some q then 1 else 0)

/-- The shares of the page `q`, out of `n`, that the process has. -/
def shares (n q : ℕ) (p : Proc) : ℕ :=
  (if p.holds = some q then n else 0) +
    (if p.live ∧ p.pte.ppn = q then (if p.pte.w then n else 1) else 0)

/-- In `kalloc_cow` the entry is the one that `copyonwrite` has read. -/
def Ok (p : Proc) : Prop :=
  match p.pc with
  | .cow pa _ | .alloc pa _ | .popped pa _ _ | .counted pa _ _ | .failed pa =>
    p.pte.ppn = pa ∧ p.pte.w = false
  | .copy pa _ mem => mem ≠ pa → p.pte.ppn = pa ∧ p.pte.w = false
  | _ => True

theorem shares_pos {n : ℕ} {p : Proc} (hn : 0 < n) (hl : p.live) : 0 < p.shares n p.pte.ppn := by
  unfold shares
  simp only [hl, true_and, if_true]
  split_ifs <;> omega

/-- A process that has no share of a page does not map it. -/
theorem ppn_ne_of_shares {n q : ℕ} {p : Proc} (hn : 0 < n) (hl : p.live)
    (h : p.shares n q = 0) : p.pte.ppn ≠ q := by
  rintro rfl
  exact absurd h (shares_pos hn hl).ne'

theorem shares_holds {n q : ℕ} {p : Proc} (h : p.holds = some q) : n ≤ p.shares n q := by
  simp [shares, h]

theorem shares_writable {n : ℕ} {p : Proc} (hl : p.live) (hw : p.pte.w) :
    n ≤ p.shares n p.pte.ppn := by
  simp [shares, hl, hw]

/-- The page in the window is the one that the process maps. -/
theorem Ok.window_eq {p : Proc} (h : p.Ok) {q : ℕ} (hq : p.window = some q) :
    p.pte.ppn = q ∧ p.pte.w = false ∧ p.live := by
  unfold window at hq
  split at hq <;> rename_i hpc <;> simp only [Ok, hpc] at h <;> simp only [live, hpc]
  · cases hq; simp [h]
  · cases hq; simp [h]
  · cases hq; simp [h]
  · cases hq; simp [h]
  · split at hq
    · cases hq
    next hne => cases hq; simp [h hne]
  · cases hq

end Proc

variable [Fintype ι]

/-- The shares of the page `q` that no process has: all of them when `q` is free or
    when there are references from outside. -/
def reserve (n : ℕ) (base : ℕ → ℕ) (k : Kmem) (q : ℕ) : ℕ :=
  (if q ∈ k.freelist then n else 0) + (if base q = 0 then 0 else n)

@[simp] theorem reserve_refCnt {n : ℕ} {base : ℕ → ℕ} {k : Kmem} {q : ℕ} {f : ℕ → ℕ} :
    reserve n base { k with refCnt := f } q = reserve n base k q := rfl

@[simp] theorem reserve_kincget {n : ℕ} {base : ℕ → ℕ} {k : Kmem} {q r : ℕ} :
    reserve n base (k.kincget r).2 q = reserve n base k q := rfl

@[simp] theorem reserve_setPage {n : ℕ} {base : ℕ → ℕ} {k : Kmem} {q r : ℕ} {b : ByteBlock} :
    reserve n base (k.setPage r b) q = reserve n base k q := rfl

/-- The shares of a free page go to whoever takes it. -/
theorem reserve_pop {n : ℕ} {base : ℕ → ℕ} {k : Kmem} {q r : ℕ} (hr : r ∈ k.freelist) :
    reserve n base (k.pop r) q + (if r = q then n else 0) = reserve n base k q := by
  by_cases hq : r = q
  · subst hq
    simp [reserve, Kmem.pop, hr, Nat.add_comm]
  · simp [reserve, Kmem.pop, hq, Ne.symm hq]

theorem reserve_push_le {n : ℕ} {base : ℕ → ℕ} {k : Kmem} {q r : ℕ} :
    reserve n base (k.push r) q ≤ reserve n base k q + (if r = q then n else 0) := by
  by_cases hq : r = q
  · subst hq
    simp [reserve, Kmem.push, Nat.add_comm]
  · simp [reserve, Kmem.push, hq, Ne.symm hq]

/-- The invariant. `base` counts the references from outside of the system. -/
structure Inv (base : ℕ → ℕ) (s : State ι) : Prop where
  refs : ∀ q, s.k.refCnt q = tally (Proc.refs q) s.proc + base q
  shares : ∀ q, reserve (Fintype.card ι) base s.k q +
    tally (Proc.shares (Fintype.card ι) q) s.proc ≤ Fintype.card ι
  ok : ∀ i, (s.proc i).Ok
  content : ∀ i, (s.proc i).live → s.k.mem (s.proc i).pte.ppn = s.expected i
  unfreed : ∀ i, (s.proc i).live → (s.proc i).pte.w = false → (s.proc i).pte.ppn ∉ s.freed

namespace Inv

variable {base : ℕ → ℕ} {s s' : State ι}

/-- Whoever has all shares of a page is the only one to map it. -/
theorem ppn_ne {i j : ι} {q r : ℕ}
    (hsum : r + tally (Proc.shares (Fintype.card ι) q) s.proc ≤ Fintype.card ι)
    (hi : Fintype.card ι ≤ (s.proc i).shares (Fintype.card ι) q) (hne : j ≠ i)
    (hl : (s.proc j).live) : (s.proc j).pte.ppn ≠ q := by
  have hle := le_tally (Proc.shares (Fintype.card ι) q) s.proc i
  have hfull : (s.proc i).shares (Fintype.card ι) q = Fintype.card ι := by omega
  exact Proc.ppn_ne_of_shares (Fintype.card_pos_iff.mpr ⟨i⟩) hl (eq_zero_of_full hsum hfull hne)

/-- **The step rule.** A step of process `i` keeps the invariant when the counts
    change by its references, shares only move between it and the reserve or are
    upgraded where nobody else has any, and it changes only pages of which it has
    all shares. -/
theorem move (h : Inv base s) {i : ι} {x : Proc}
    (hproc : s'.proc = Function.update s.proc i x)
    (horig : s'.orig = s.orig) (hwrites : ∀ j, j ≠ i → s'.writes j = s.writes j)
    (hrefs : ∀ q, s'.k.refCnt q + (s.proc i).refs q = s.k.refCnt q + x.refs q)
    (hshares : ∀ q,
      reserve (Fintype.card ι) base s'.k q + x.shares (Fintype.card ι) q ≤
        reserve (Fintype.card ι) base s.k q + (s.proc i).shares (Fintype.card ι) q ∨
      (reserve (Fintype.card ι) base s.k q + tally (Proc.shares (Fintype.card ι) q) s.proc =
          (s.proc i).shares (Fintype.card ι) q ∧
        reserve (Fintype.card ι) base s'.k q + x.shares (Fintype.card ι) q ≤ Fintype.card ι))
    (hmem : ∀ q, s'.k.mem q ≠ s.k.mem q →
      Fintype.card ι ≤ (s.proc i).shares (Fintype.card ι) q)
    (hfreed : ∀ q ∈ s'.freed, q ∉ s.freed → Fintype.card ι ≤ x.shares (Fintype.card ι) q)
    (hok : x.Ok) (hcontent : x.live → s'.k.mem x.pte.ppn = s'.expected i)
    (hunfreed : x.live → x.pte.w = false → x.pte.ppn ∉ s'.freed) : Inv base s' := by
  have hself : s'.proc i = x := by rw [hproc, Function.update_self]
  have hother : ∀ j, j ≠ i → s'.proc j = s.proc j := fun j hj => by
    rw [hproc, Function.update_of_ne hj]
  have hshares' : ∀ q, reserve (Fintype.card ι) base s'.k q +
      tally (Proc.shares (Fintype.card ι) q) s'.proc ≤ Fintype.card ι := fun q => by
    rw [hproc]
    rcases hshares q with hle | ⟨hall, hle⟩
    · exact tally_update_le (h.shares q) hle
    · exact tally_update_full hall hle
  refine ⟨fun q => ?refs, hshares', fun j => ?ok, fun j hl => ?content, fun j hl hw => ?unfreed⟩
  case refs =>
    have hupd := tally_update (Proc.refs q) s.proc i x
    rw [← hproc] at hupd
    have hold := h.refs q
    have hnew := hrefs q
    omega
  all_goals by_cases hj : j = i
  case pos => subst hj; rwa [hself]
  case neg => rw [hother j hj]; exact h.ok j
  case pos =>
    subst hj
    rw [hself] at hl ⊢
    exact hcontent hl
  case neg =>
    -- A page that `j` maps is not among those that `i` may change.
    rw [hother j hj] at hl ⊢
    have hsame : s'.k.mem (s.proc j).pte.ppn = s.k.mem (s.proc j).pte.ppn := by
      by_contra hch
      exact ppn_ne (h.shares _) (hmem _ hch) hj hl rfl
    rw [hsame, h.content j hl, State.expected, State.expected, horig, hwrites j hj]
  case pos =>
    subst hj
    rw [hself] at hl hw ⊢
    exact hunfreed hl hw
  case neg =>
    rw [hother j hj] at hl hw ⊢
    intro hin
    have hx := hfreed _ hin (h.unfreed j hl hw)
    rw [← hself] at hx
    exact ppn_ne (hshares' _) hx hj (by rwa [hother j hj]) (by rw [hother j hj])

end Inv

/-! ## Steps keep the accounting -/

/-- Within nobody's window: no process has given its reference to the page `q` back
    and still has to copy the page. -/
def Unwindowed (s : State ι) (q : ℕ) : Prop := ∀ j, (s.proc j).window ≠ some q

/-- Where the count of a page is one, `kalloc_cow` and `kfree` take the page for
    their own only outside of the windows of the others. -/
def Guard (s : State ι) : Act ι → Prop
  | .run i _ => ∀ pa flags, (s.proc i).pc = .cow pa flags →
      s.k.refCnt (s.proc i).pte.ppn = 1 → Unwindowed s (s.proc i).pte.ppn
  | .exit i => s.k.refCnt (s.proc i).pte.ppn = 1 → Unwindowed s (s.proc i).pte.ppn
  | _ => True

namespace Inv

variable {base : ℕ → ℕ} {s s' : State ι}

omit [DecidableEq ι] in
/-- A page that a live process maps is not free and has no references from outside. -/
theorem reserve_eq_zero (h : Inv base s) {i : ι} (hl : (s.proc i).live) :
    reserve (Fintype.card ι) base s.k (s.proc i).pte.ppn = 0 := by
  have hpos := Proc.shares_pos (Fintype.card_pos_iff.mpr ⟨i⟩) hl
  have hle := le_tally (Proc.shares (Fintype.card ι) (s.proc i).pte.ppn) s.proc i
  have hsum := h.shares (s.proc i).pte.ppn
  unfold reserve at hsum ⊢
  split_ifs at hsum ⊢ <;> omega

omit [DecidableEq ι] in
theorem base_eq_zero (h : Inv base s) {i : ι} (hl : (s.proc i).live) :
    base (s.proc i).pte.ppn = 0 := by
  have hr := h.reserve_eq_zero hl
  have hpos : 0 < Fintype.card ι := Fintype.card_pos_iff.mpr ⟨i⟩
  unfold reserve at hr
  by_contra hb
  rw [if_neg hb] at hr
  omega

omit [DecidableEq ι] in
/-- A page in hand is not the one that the process maps. -/
theorem ppn_ne_of_holds (h : Inv base s) {i : ι} {r : ℕ} (hl : (s.proc i).live)
    (hr : (s.proc i).holds = some r) : (s.proc i).pte.ppn ≠ r := by
  rintro rfl
  have hpos : 0 < Fintype.card ι := Fintype.card_pos_iff.mpr ⟨i⟩
  have hle := le_tally (Proc.shares (Fintype.card ι) (s.proc i).pte.ppn) s.proc i
  have hsum := h.shares (s.proc i).pte.ppn
  have htwice : Fintype.card ι + 1 ≤ (s.proc i).shares (Fintype.card ι) (s.proc i).pte.ppn := by
    simp only [Proc.shares, hr, hl, true_and, if_true]
    split_ifs <;> omega
  omega

omit [DecidableEq ι] in
/-- A step that fills a page changes only pages of which the process has all shares. -/
theorem fill_full {i : ι} {r : ℕ} {b : ByteBlock}
    (hfull : Fintype.card ι ≤ (s.proc i).shares (Fintype.card ι) r) {q : ℕ}
    (hq : (s.k.setPage r b).mem q ≠ s.k.mem q) :
    Fintype.card ι ≤ (s.proc i).shares (Fintype.card ι) q := by
  by_cases hqr : q = r
  · rwa [hqr]
  · exact absurd (s.k.setPage_mem_of_ne b hqr) hq

/-- With a count of one, outside of all windows, the process has the only shares. -/
theorem sole (h : Inv base s) {i : ι} (hl : (s.proc i).live) (hw : (s.proc i).window = none)
    (hone : s.k.refCnt (s.proc i).pte.ppn = 1) (hwin : Unwindowed s (s.proc i).pte.ppn) :
    reserve (Fintype.card ι) base s.k (s.proc i).pte.ppn +
      tally (Proc.shares (Fintype.card ι) (s.proc i).pte.ppn) s.proc =
    (s.proc i).shares (Fintype.card ι) (s.proc i).pte.ppn := by
  set q := (s.proc i).pte.ppn with hq
  have hself : 1 ≤ (s.proc i).refs q := by simp [Proc.refs, hl, hw, hq]
  have hrefs : tally (Proc.refs q) s.proc = (s.proc i).refs q := by
    have hcount := h.refs q
    have hle := le_tally (Proc.refs q) s.proc i
    rw [h.base_eq_zero hl] at hcount
    omega
  rw [h.reserve_eq_zero hl, Nat.zero_add]
  refine tally_eq_of_forall_ne fun j hj => ?_
  have hsum := add_le_tally (Proc.shares (Fintype.card ι) q) s.proc hj
  have hpos : 0 < (s.proc i).shares (Fintype.card ι) q :=
    Proc.shares_pos (Fintype.card_pos_iff.mpr ⟨i⟩) hl
  have hle := h.shares q
  have hnohold : (s.proc j).holds ≠ some q := fun hh => by
    have := Proc.shares_holds (n := Fintype.card ι) hh
    omega
  -- A mapping without a reference is in its window, which is excluded for `q`.
  have hnomap : ¬ ((s.proc j).live ∧ (s.proc j).pte.ppn = q) := by
    rintro ⟨hlj, hqj⟩
    have hzero := eq_zero_of_tally_eq hrefs hj
    cases hwj : (s.proc j).window with
    | none => simp [Proc.refs, hlj, hwj, hqj] at hzero
    | some q' =>
      obtain ⟨hq', -, -⟩ := (h.ok j).window_eq hwj
      exact hwin j (by rw [hwj, ← hq', hqj])
  unfold Proc.shares
  rw [if_neg hnohold, if_neg hnomap]

variable {i : ι} {k : Kmem} {x : Proc}

/-- A step that moves a process on without touching pages, counts or its entry. -/
theorem set_pc (h : Inv base s) {pc : Pc} {m : ℕ}
    (hrefs : ∀ q, (s.proc i).refs q = Proc.refs q ⟨(s.proc i).pte, pc, m⟩)
    (hshares : ∀ q, (s.proc i).shares (Fintype.card ι) q =
      Proc.shares (Fintype.card ι) q ⟨(s.proc i).pte, pc, m⟩)
    (hlive : (s.proc i).live = Proc.live ⟨(s.proc i).pte, pc, m⟩)
    (hok : Proc.Ok ⟨(s.proc i).pte, pc, m⟩) :
    Inv base (s.set i s.k ⟨(s.proc i).pte, pc, m⟩) := by
  refine h.move rfl rfl (fun _ _ => rfl) (fun q => by rw [hrefs q]; rfl)
    (fun q => .inl (by rw [hshares q]; exact Nat.le_refl _)) (fun q hq => absurd rfl hq)
    (fun q hq hq' => absurd hq hq') hok (fun hl => ?_) (fun hl => ?_)
  · exact h.content i (hlive.trans hl)
  · exact h.unfreed i (hlive.trans hl)

/-- **One kernel step keeps the accounting of pages.** -/
theorem run (h : Inv base s) {page : Option ℕ} (hG : Guard s (.run i page))
    (hrun : (s.proc i).run s.k page = some (.ok (k, x))) : Inv base (s.set i k x) := by
  have hok := h.ok i
  have hcontent := h.content i
  have hunfreed := h.unfreed i
  cases hpc : (s.proc i).pc with
  | idle =>
    simp only [Proc.run, hpc] at hrun
    split at hrun
    · cases hrun
    cases hrun
    exact h.set_pc (fun q => by simp [Proc.refs, Proc.live, Proc.window, Proc.holdsRef, hpc])
      (fun q => by simp [Proc.shares, Proc.live, Proc.holds, hpc]) (by simp [Proc.live, hpc]) trivial
  | entered =>
    simp only [Proc.run, hpc] at hrun
    split at hrun
    · cases hrun
      exact h.set_pc (fun q => by simp [Proc.refs, Proc.live, Proc.window, Proc.holdsRef, hpc])
        (fun q => by simp [Proc.shares, Proc.live, Proc.holds, hpc]) (by simp [Proc.live, hpc])
        trivial
    next hw =>
    split at hrun
    · cases hrun
    cases hrun
    exact h.set_pc (fun q => by simp [Proc.refs, Proc.live, Proc.window, Proc.holdsRef, hpc])
      (fun q => by simp [Proc.shares, Proc.live, Proc.holds, hpc]) (by simp [Proc.live, hpc])
      ⟨rfl, by simpa using hw⟩
  | cow pa flags =>
    simp only [Proc.run, hpc] at hrun
    simp only [Proc.Ok, hpc] at hok
    obtain ⟨rfl, hw⟩ := hok
    have hlive : (s.proc i).live = true := by simp [Proc.live, hpc]
    have hwin : (s.proc i).window = none := by simp [Proc.window, hpc]
    cases hcow : s.k.kallocCowRef (s.proc i).pte with
    | error msg => simp [hcow] at hrun
    | ok res =>
      obtain ⟨k', r⟩ := res
      rcases Kmem.kallocCowRef_ok hcow with ⟨hone, rfl, rfl⟩ | ⟨htwo, rfl, rfl⟩
      · simp only [hcow] at hrun
        cases hrun
        -- The count is one and nobody is in a window: the page becomes private.
        have hsole := h.sole hlive hwin hone (hG _ _ hpc hone)
        refine h.move rfl rfl (fun _ _ => rfl) (fun q => ?_) (fun q => ?_)
          (fun q hq => absurd rfl hq) (fun q hq hq' => absurd hq hq') (by simp [Proc.Ok])
          (fun _ => hcontent hlive) (by simp [Pte.decow])
        · simp [Proc.refs, Proc.live, Proc.window, Proc.holdsRef, Pte.decow, hpc]
        · by_cases hq : (s.proc i).pte.ppn = q
          · subst hq
            have hres := h.reserve_eq_zero hlive
            exact .inr ⟨hsole, by simp [hres, Proc.shares, Proc.live, Proc.holds, Pte.decow]⟩
          · exact .inl (by simp [Proc.shares, Proc.live, Proc.holds, Pte.decow, hpc, hq])
      · simp only [hcow] at hrun
        cases hrun
        refine h.move rfl rfl (fun _ _ => rfl) (fun q => ?_) (fun q => .inl ?_)
          (fun q hq => absurd rfl hq) (fun q hq hq' => absurd hq hq') ⟨rfl, hw⟩
          (fun _ => hcontent hlive) (fun _ => hunfreed hlive)
        · by_cases hq : q = (s.proc i).pte.ppn
          · subst hq
            simp [Proc.refs, Proc.live, Proc.window, Proc.holdsRef, hpc]
            omega
          · simp [Proc.refs, Proc.live, Proc.window, Proc.holdsRef, hpc, hq, Ne.symm hq]
        · simp [Proc.shares, Proc.live, Proc.holds, hpc]
  | alloc pa flags =>
    simp only [Proc.run, hpc] at hrun
    simp only [Proc.Ok, hpc] at hok
    have hlive : (s.proc i).live = true := by simp [Proc.live, hpc]
    cases page with
    | none =>
      simp only [Option.some.injEq, Except.ok.injEq, Prod.mk.injEq] at hrun
      obtain ⟨rfl, rfl⟩ := hrun
      exact h.set_pc (fun q => by simp [Proc.refs, Proc.live, Proc.window, Proc.holdsRef, hpc])
        (fun q => by simp [Proc.shares, Proc.live, Proc.holds, hpc]) (by simp [Proc.live, hpc]) hok
    | some r =>
      simp only at hrun
      split at hrun
      next hr =>
        cases hrun
        refine h.move rfl rfl (fun _ _ => rfl) (fun q => ?_) (fun q => .inl ?_)
          (fun q hq => absurd rfl hq) (fun q hq hq' => absurd hq hq') hok
          (fun _ => hcontent hlive) (fun _ => hunfreed hlive)
        · simp [Kmem.pop, Proc.refs, Proc.live, Proc.window, Proc.holdsRef, hpc]
        · -- The shares of `r` pass from the free list to the process.
          have hpop := @reserve_pop (Fintype.card ι) base s.k q r hr
          simp [Proc.shares, Proc.live, Proc.holds, hpc]
          omega
      · cases hrun
  | popped pa flags r =>
    simp only [Proc.run, hpc] at hrun
    simp only [Proc.Ok, hpc] at hok
    have hlive : (s.proc i).live = true := by simp [Proc.live, hpc]
    split at hrun
    · cases hrun
    cases hrun
    refine h.move rfl rfl (fun _ _ => rfl) (fun q => ?_) (fun q => .inl ?_)
      (fun q hq => absurd rfl hq) (fun q hq hq' => absurd hq hq') hok
      (fun _ => hcontent hlive) (fun _ => hunfreed hlive)
    · by_cases hq : q = r
      · subst hq
        simp [Kmem.kincget, Proc.refs, Proc.live, Proc.window, Proc.holdsRef, hpc]
      · simp [Kmem.kincget, Proc.refs, Proc.live, Proc.window, Proc.holdsRef, hpc, hq, Ne.symm hq]
    · simp [Proc.shares, Proc.live, Proc.holds, hpc]
  | counted pa flags r =>
    simp only [Proc.run, hpc] at hrun
    simp only [Proc.Ok, hpc] at hok
    have hlive : (s.proc i).live = true := by simp [Proc.live, hpc]
    have hfull : Fintype.card ι ≤ (s.proc i).shares (Fintype.card ι) r :=
      Proc.shares_holds (by simp [Proc.holds, hpc])
    cases hrun
    have hne : r ≠ pa := fun he =>
      h.ppn_ne_of_holds hlive (by simp [Proc.holds, hpc]) (hok.1.trans he.symm)
    refine h.move rfl rfl (fun _ _ => rfl) (fun q => ?_) (fun q => .inl ?_)
      (fun q hq => fill_full hfull hq) (fun q hq hq' => absurd hq hq') (fun _ => hok)
      (fun _ => ?_) (fun _ => hunfreed hlive)
    · simp [Kmem.setPage, Proc.refs, Proc.live, Proc.window, Proc.holdsRef, hpc, hne]
    · simp [Proc.shares, Proc.live, Proc.holds, hpc, hne]
    · exact (s.k.setPage_mem_of_ne _ (hok.1.trans_ne hne.symm)).trans (hcontent hlive)
  | failed pa =>
    simp only [Proc.run, hpc] at hrun
    simp only [Proc.Ok, hpc] at hok
    have hlive : (s.proc i).live = true := by simp [Proc.live, hpc]
    cases hrun
    refine h.move rfl rfl (fun _ _ => rfl) (fun q => ?_) (fun q => .inl ?_)
      (fun q hq => absurd rfl hq) (fun q hq hq' => absurd hq hq') trivial
      (fun _ => hcontent hlive) (fun _ => hunfreed hlive)
    · by_cases hq : q = pa
      · subst hq
        simp [Kmem.kincget, Proc.refs, Proc.live, Proc.window, Proc.holdsRef, hpc, hok.1]
      · simp [Kmem.kincget, Proc.refs, Proc.live, Proc.window, Proc.holdsRef, hpc, hok.1, hq,
          Ne.symm hq]
    · simp [Proc.shares, Proc.live, Proc.holds, hpc]
  | copy pa flags mem =>
    simp only [Proc.run, hpc] at hrun
    simp only [Proc.Ok, hpc] at hok
    have hlive : (s.proc i).live = true := by simp [Proc.live, hpc]
    split at hrun
    next heq =>
      cases hrun
      exact h.set_pc
        (fun q => by simp [Proc.refs, Proc.live, Proc.window, Proc.holdsRef, hpc, heq])
        (fun q => by simp [Proc.shares, Proc.live, Proc.holds, hpc, heq])
        (by simp [Proc.live, hpc]) trivial
    next hne =>
      cases hrun
      obtain ⟨rfl, hw⟩ := hok hne
      have hfull : Fintype.card ι ≤ (s.proc i).shares (Fintype.card ι) mem :=
        Proc.shares_holds (by simp [Proc.holds, hpc, hne])
      refine h.move rfl rfl (fun _ _ => rfl) (fun q => ?_) (fun q => .inl ?_)
        (fun q hq => fill_full hfull hq) (fun q hq hq' => absurd hq hq') trivial
        (fun _ => ?_) (by simp [Pte.decow])
      · simp [Kmem.setPage, Proc.refs, Proc.live, Proc.window, Proc.holdsRef, Pte.decow, hpc, hne]
      · simp [Proc.shares, Proc.live, Proc.holds, Pte.decow, hpc, hne]
      · -- The copy is what the process saw in the shared page.
        exact (s.k.setPage_mem_self _ _).trans (hcontent hlive)
  | junk q =>
    simp only [Proc.run, hpc] at hrun
    have hfull : Fintype.card ι ≤ (s.proc i).shares (Fintype.card ι) q :=
      Proc.shares_holds (by simp [Proc.holds, hpc])
    cases hrun
    refine h.move rfl rfl (fun _ _ => rfl) (fun r => ?_) (fun r => .inl ?_)
      (fun r hr => fill_full hfull hr) (fun r hr hr' => absurd hr hr') trivial
      (by simp [Proc.live]) (by simp [Proc.live])
    · simp [Kmem.setPage, Proc.refs, Proc.live, Proc.holdsRef, hpc]
    · simp [Proc.shares, Proc.live, Proc.holds, hpc]
  | push q =>
    simp only [Proc.run, hpc] at hrun
    cases hrun
    refine h.move rfl rfl (fun _ _ => rfl) (fun r => ?_) (fun r => .inl ?_)
      (fun r hr => absurd rfl hr) (fun r hr hr' => absurd hr hr') trivial
      (by simp [Proc.live]) (by simp [Proc.live])
    · simp [Kmem.push, Proc.refs, Proc.live, Proc.holdsRef, hpc]
    · have hpush := @reserve_push_le (Fintype.card ι) base s.k r q
      simpa [Proc.shares, Proc.live, Proc.holds, hpc] using hpush
  | exited => simp [Proc.run, hpc] at hrun

/-- A user store changes a page that only the process itself maps. -/
theorem write (h : Inv base s) {off : ℕ} {b : UInt8} (hl : (s.proc i).live)
    (hw : (s.proc i).pte.w) :
    Inv base { s with
      k := s.k.setPage (s.proc i).pte.ppn (Function.update (s.k.mem (s.proc i).pte.ppn) off b)
      writes := Function.update s.writes i (s.writes i ++ [(off, b)]) } := by
  refine h.move (i := i) (x := s.proc i) (by simp) rfl (fun j hj => Function.update_of_ne hj ..)
    (fun q => rfl) (fun q => .inl (Nat.le_refl _))
    (fun q hq => fill_full (Proc.shares_writable hl hw) hq) (fun q hq hq' => absurd hq hq')
    (h.ok i) (fun _ => ?_) (h.unfreed i)
  rw [Kmem.setPage_mem_self, h.content i hl]
  simp [State.expected, overlay_append]

/-- A process that exits gives its reference back, and takes the page in hand when it
    was the last one. -/
theorem exit (h : Inv base s) (hG : Guard s (.exit i)) (hpc : (s.proc i).pc = .idle)
    (hexit : (s.proc i).exit s.k = .ok (k, x)) :
    Inv base { s.set i k x with
      freed := if x.pc = .exited then s.freed else insert (s.proc i).pte.ppn s.freed } := by
  have hlive : (s.proc i).live = true := by simp [Proc.live, hpc]
  have hwin : (s.proc i).window = none := by simp [Proc.window, hpc]
  unfold Proc.exit at hexit
  cases hfree : s.k.kfreeRef (s.proc i).pte.ppn with
  | error msg => simp [hfree] at hexit
  | ok r =>
    obtain ⟨res, k'⟩ := r
    obtain ⟨hpos, hres, rfl⟩ := Kmem.kfreeRef_ok hfree
    simp only [hfree] at hexit
    have hdrop : ∀ q, Function.update s.k.refCnt (s.proc i).pte.ppn
        (s.k.refCnt (s.proc i).pte.ppn - 1) q + (s.proc i).refs q = s.k.refCnt q := fun q => by
      by_cases hq : q = (s.proc i).pte.ppn
      · subst hq
        simp [Proc.refs, Proc.live, Proc.window, Proc.holdsRef, hpc]
        omega
      · simp [Proc.refs, Proc.live, Proc.window, Proc.holdsRef, hpc, hq, Ne.symm hq]
    split at hexit
    · cases hexit
      refine h.move rfl rfl (fun _ _ => rfl) (fun q => (hdrop q).trans ?_) (fun q => .inl ?_)
        (fun q hq => absurd rfl hq) (fun q hq hq' => absurd (by simpa using hq) hq') trivial
        (by simp [Proc.live]) (by simp [Proc.live])
      · simp [Proc.refs, Proc.live, Proc.holdsRef]
      · simp [Proc.shares, Proc.live, Proc.holds, hpc]
    · cases hexit
      have hone : s.k.refCnt (s.proc i).pte.ppn = 1 := by omega
      have hsole := h.sole hlive hwin hone (hG hone)
      refine h.move rfl rfl (fun _ _ => rfl) (fun q => (hdrop q).trans ?_) (fun q => ?_)
        (fun q hq => absurd rfl hq) (fun q hq hq' => ?_) trivial
        (by simp [Proc.live]) (by simp [Proc.live])
      · simp [Proc.refs, Proc.live, Proc.holdsRef]
      · by_cases hq : (s.proc i).pte.ppn = q
        · subst hq
          have hres := h.reserve_eq_zero hlive
          exact .inr ⟨hsole, by simp [hres, Proc.shares, Proc.live, Proc.holds]⟩
        · exact .inl (by simp [Proc.shares, Proc.live, Proc.holds, hpc, hq])
      · -- Only the page in hand has been freed.
        simp only [reduceCtorEq, if_false, Finset.mem_insert] at hq
        rcases hq with rfl | hq
        · exact Proc.shares_holds rfl
        · exact absurd hq hq'

omit [DecidableEq ι] in
/-- A panic changes none of what the invariant is about. -/
theorem panicked (h : Inv base s) (msg : String) : Inv base { s with panic := some msg } :=
  ⟨h.refs, h.shares, h.ok, h.content, h.unfreed⟩

/-- Every guarded step keeps the invariant. -/
theorem step {a : Act ι} (h : Inv base s) (hG : Guard s a) (hstep : step s a = some s') :
    Inv base s' := by
  unfold CopyOnWrite.step at hstep
  split at hstep
  · cases hstep
  -- a thread writes, faults, goes on in the handler, or exits
  cases a with
  | write i off b =>
    simp only [exec] at hstep
    split at hstep
    next hc =>
      simp only [Bool.and_eq_true] at hc
      cases hstep
      exact h.write hc.1.1.1.1 hc.1.2
    · cases hstep
  | fault i =>
    simp only [exec] at hstep
    split at hstep
    · cases hstep
      exact h.set_pc (fun q => rfl) (fun q => rfl) rfl (h.ok i)
    · cases hstep
  | run i page =>
    simp only [exec] at hstep
    split at hstep
    · cases hstep
    · cases hstep
      exact h.panicked _
    next k x hrun =>
      cases hstep
      exact h.run hG hrun
  | exit i =>
    simp only [exec] at hstep
    split at hstep
    next hc =>
      simp only [Bool.and_eq_true, decide_eq_true_eq] at hc
      split at hstep
      · cases hstep
        exact h.panicked _
      next k x hexit =>
        cases hstep
        exact h.exit hG hc.1.1 hexit
    · cases hstep

omit [DecidableEq ι] in
/-- The state after `fork` satisfies the invariant; all pages but the shared one are
    referenced from outside only. -/
theorem init (h : Init s) : ∃ base, Inv base s := by
  obtain ⟨q, hq, hcount, hfree, horig⟩ := h.shared
  have hidle : ∀ i, (s.proc i).pc = .idle := fun i => (h.pc i).1
  have hw : ∀ i, (s.proc i).pte.w = false := fun i => (h.pte i).2.2.2
  have hrefs : ∀ r i, (s.proc i).refs r = if q = r then 1 else 0 := fun r i => by
    simp [Proc.refs, Proc.live, Proc.window, Proc.holdsRef, hidle i, hq i]
  have hshares : ∀ r i, (s.proc i).shares (Fintype.card ι) r = if q = r then 1 else 0 := fun r i => by
    simp [Proc.shares, Proc.live, Proc.holds, hidle i, hq i, hw i]
  refine ⟨fun r => if q = r then 0 else s.k.refCnt r, fun r => ?refs, fun r => ?shares,
    fun i => ?ok, fun i _ => ?content, fun i _ _ => ?unfreed⟩
  case refs =>
    rw [tally_eq_of_forall (hrefs r)]
    by_cases hr : q = r
    · subst hr; simp [hcount]
    · simp [hr]
  case shares =>
    rw [tally_eq_of_forall (hshares r), reserve]
    by_cases hr : q = r
    · subst hr; simp [hfree]
    · by_cases hmem : r ∈ s.k.freelist
      · simp [hr, hmem, h.free r hmem]
      · simp only [hr, hmem, if_false]
        split_ifs <;> omega
  case ok => simp [Proc.Ok, hidle i]
  case content => rw [hq i, State.expected, h.history.1 i, overlay_nil, horig]
  case unfreed => simp [h.history.2.1]

end Inv

/-! ## Isolation -/

/-- Every process sees the contents at fork under its own writes. -/
def Isolated (s : State ι) : Prop :=
  ∀ i, (s.proc i).live → s.k.mem (s.proc i).pte.ppn = s.expected i

/-- Whenever a page is about to be copied, it has not been freed. -/
def CopiesUnfreed (s : State ι) : Prop :=
  ∀ i pa flags mem, (s.proc i).pc = .copy pa flags mem → mem ≠ pa → pa ∉ s.freed

/-- **Copy-on-write isolation.** In runs where nobody finds a count of one within
    another's window, every process sees its page as it was at fork under its own
    writes, and no copy is taken from a page that has been freed. -/
theorem cow_isolation :
    (∀ s : State ι, (system ι).ReachableUnder Guard s → Isolated s) ∧
    (∀ s : State ι, (system ι).ReachableUnder Guard s → CopiesUnfreed s) := by
  have hinv : ∀ s : State ι, (system ι).ReachableUnder Guard s → ∃ base, Inv base s := fun s h =>
    System.invariant (fun s => ∃ base, Inv base s) (fun _ h0 => Inv.init h0)
      (fun _ _ _ ⟨base, hi⟩ hG hstep => ⟨base, hi.step hG hstep⟩) h
  refine ⟨fun s h => ?_, fun s h i pa flags mem hpc hne => ?_⟩
  · obtain ⟨base, hi⟩ := hinv s h
    exact hi.content
  · obtain ⟨base, hi⟩ := hinv s h
    have hok := hi.ok i
    simp only [Proc.Ok, hpc] at hok
    obtain ⟨rfl, hw⟩ := hok hne
    exact hi.unfreed i (by simp [Proc.live, hpc]) hw

/-! ## A write within the window -/

/-- Two processes share the page 1, the pages 2 and 3 are free. -/
def forked : State (Fin 2) where
  k := ⟨0, fun q => if q = 1 then 2 else 0, {2, 3}, fun _ => .zero⟩
  proc := fun _ => ⟨{ Pte.zero with ppn := 1, v := true, r := true, u := true, cow := true }, .idle, 0⟩
  orig := .zero
  writes := fun _ => []
  freed := ∅
  panic := none

/-- The process `t` drops its reference; the process `u` finds a count of one, writes the page in
    place, and only then `t` copies it. -/
def windowWrite {τ : Type} (t u : τ) : List (Act τ) :=
  [.fault t, .run t none, .run t none, .run t none,
   .fault u, .run u none, .run u none, .run u none, .run u none, .write u 0 7,
   .run t (some 2), .run t none, .run t none, .run t none]

/-- The write of process 1 appears in the memory of process 0. -/
theorem window_write_is_copied :
    ¬ ∀ s : State (Fin 2), (system (Fin 2)).Reachable s → Isolated s ∧ CopiesUnfreed s := by
  intro h
  have hrun : ((system (Fin 2)).run forked (windowWrite 0 1)).any
      (fun s => (s.proc 0).live && decide (s.k.mem (s.proc 0).pte.ppn 0 = 7) &&
        decide (s.expected 0 0 = 0)) = true := by
    decide +kernel
  have hinit : Init forked :=
    ⟨fun _ => ⟨rfl, rfl, rfl, rfl⟩, fun _ => ⟨rfl, rfl⟩, ⟨1, fun _ => rfl, rfl, by decide, rfl⟩,
      by decide, ⟨fun _ => rfl, rfl, rfl⟩⟩
  obtain ⟨s, hs, hp⟩ := System.exists_reachable_of_run hinit hrun
  simp only [Bool.and_eq_true, decide_eq_true_eq] at hp
  have hsame := congrFun ((h s hs).1 0 hp.1.1) 0
  rw [hp.1.2, hp.2] at hsame
  exact absurd hsame (by decide)

end Xv6.Kernel.CopyOnWrite
