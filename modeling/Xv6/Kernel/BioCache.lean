import Mathlib
import Xv6.Lib.Tally
import Xv6.Kernel.Bio

/-!
# Blocks in the Buffer Cache

Which buffer holds which block, over all interleavings of the tasks that use the
buffer cache. The invariant says who refers to a buffer: an entry of the table, or
else at most one task, which has taken the buffer in order to recycle it.

- `Inv.quiet`: steps that leave entries, block numbers and references alone;
- `cache_exclusive`: in runs that satisfy `Guard` no two blocks have one buffer, and a
  buffer keeps its block while a task holds it;
- `hit_before_stamp`: without `Guard` a task gets a buffer of another block.
-/

namespace Xv6.Kernel.Bio

open Xv6.Lib

/-! ## Packed words -/

theorem REFCNT_eq (x : ℕ) : REFCNT x = x / 32 := Nat.shiftRight_eq_div_pow x 5

theorem IDX_eq (x : ℕ) : IDX x = x % 32 := Nat.and_two_pow_sub_one_eq_mod x 5

theorem IDX_lt (x : ℕ) : IDX x < 32 := by
  rw [IDX_eq]
  omega

theorem REFCNT_IDX_eq {x y : ℕ} (hy : y < 32) : REFCNT_IDX x y = (32 * x + y) % 2 ^ 32 := by
  have hor := Nat.two_pow_add_eq_or_of_lt (i := 5) hy x
  rw [REFCNT_IDX, Nat.shiftLeft_eq, Nat.mul_comm x, ← hor]

theorem IDX_REFCNT_IDX {x y : ℕ} (hy : y < 32) : IDX (REFCNT_IDX x y) = y := by
  rw [IDX_eq, REFCNT_IDX_eq hy]
  omega

theorem REFCNT_REFCNT_IDX {x y : ℕ} (hy : y < 32) (hx : x < 2 ^ 27) :
    REFCNT (REFCNT_IDX x y) = x := by
  rw [REFCNT_eq, REFCNT_IDX_eq hy]
  omega

theorem IDX_INC (x : ℕ) : IDX (INC_REFCNT x) = IDX x := IDX_REFCNT_IDX (IDX_lt x)

theorem REFCNT_INC {x : ℕ} (hx : REFCNT x + 1 < 2 ^ 27) : REFCNT (INC_REFCNT x) = REFCNT x + 1 :=
  REFCNT_REFCNT_IDX (IDX_lt x) hx

theorem IDX_DEC (x : ℕ) : IDX (DEC_REFCNT x) = IDX x := IDX_REFCNT_IDX (IDX_lt x)

theorem REFCNT_DEC {x : ℕ} (hpos : 0 < REFCNT x) (hx : REFCNT x < 2 ^ 27) :
    REFCNT (DEC_REFCNT x) = REFCNT x - 1 := by
  have hdec : decRefcnt x = REFCNT x - 1 := by
    unfold decRefcnt
    omega
  rw [DEC_REFCNT, hdec]
  exact REFCNT_REFCNT_IDX (IDX_lt x) (by omega)

/-! ## What a task refers to -/

/-- After a hit, `bget` has counted a reference. -/
def Cont.bound : Cont → Option (ℕ × ℕ)
  | .hit n idx => some (n, idx)
  | .done => none

namespace Pc

/-- The block and the buffer to which the task has a counted reference. -/
def bound : Pc → Option (ℕ × ℕ)
  | .lock n b | .lockNew n b | .setValid n b | .setDev n b | .setBlock n b | .holding n b
  | .relDev n b | .relHolding n b | .relUnlock n b | .relBlock n b | .relRead n b _
  | .relCas n b _ _ | .pinBlock n b | .pinRead n b _ | .pinCas n b _ _ | .unpinBlock n b
  | .unpinRead n b _ | .unpinCas n b _ _ => some (n, b)
  | .enqFlag _ c | .enqNull _ c | .enqTail _ c | .enqNext _ c _ | .enqCheck _ c _ _
  | .enqLink _ c _ _ | .enqHelp _ c _ _ | .enqSwing _ c _ => c.bound
  | _ => none

/-- The task has entered the buffer for the block, and is to store the block number. -/
def pending : Pc → Option (ℕ × ℕ)
  | .lockNew n b | .setValid n b | .setDev n b | .setBlock n b => some (n, b)
  | _ => none

/-- The task relies on the block number that the buffer has. -/
def stamped : Pc → Option (ℕ × ℕ)
  | .holding n b | .relDev n b | .relHolding n b | .relUnlock n b | .relBlock n b
  | .relRead n b _ | .relCas n b _ _ | .pinBlock n b | .pinRead n b _ | .pinCas n b _ _
  | .unpinBlock n b | .unpinRead n b _ | .unpinCas n b _ _ => some (n, b)
  | _ => none

/-- The buffer that the task has taken in order to recycle it. -/
def claim : Pc → Option ℕ
  | .lookup _ b | .hit _ b _ => b
  | .install _ b _ => some b
  | _ => none

/-- `bget` has returned the buffer `b` for the block `n`, and it has not been released. -/
def held : Pc → Option (ℕ × ℕ)
  | .holding n b | .pinBlock n b | .pinRead n b _ | .pinCas n b _ _ | .relDev n b
  | .relHolding n b | .relUnlock n b => some (n, b)
  | _ => none

/-- The references that the task has to the block `n`. -/
def refs (n : ℕ) (p : Pc) : ℕ :=
  match p.bound with
  | some (m, _) => if m = n then 1 else 0
  | none => 0

/-- What the branches taken say about the local variables. -/
def Ok : Pc → Prop
  | .hit _ _ w => IDX w ≠ NONE
  | .install _ _ w | .deqHead _ w | .deqTail _ w _ | .deqNext _ w _ _ | .deqCheck _ w _ _ _
  | .deqHelp _ w _ _ | .deqCas _ w _ _ | .deqFlag _ w _ | .evictBlock _ w _
  | .evictRead _ w _ _ => IDX w = NONE
  | .evict _ w _ _ expect => IDX w = NONE ∧ REFCNT expect = 0
  | .relRead n _ k | .relCas n _ k _ | .pinRead n _ k | .pinCas n _ k _ | .unpinRead n _ k
  | .unpinCas n _ k _ => k = n
  | _ => True

theorem stamped_bound {p : Pc} {x : ℕ × ℕ} (h : p.stamped = some x) : p.bound = some x := by
  cases p <;> simp_all [stamped, bound]

theorem pending_bound {p : Pc} {x : ℕ × ℕ} (h : p.pending = some x) : p.bound = some x := by
  cases p <;> simp_all [pending, bound]

theorem held_stamped {p : Pc} {x : ℕ × ℕ} (h : p.held = some x) : p.stamped = some x := by
  cases p <;> simp_all [held, stamped]

theorem refs_of_bound {p : Pc} {n b : ℕ} (h : p.bound = some (n, b)) (m : ℕ) :
    p.refs m = if n = m then 1 else 0 := by
  simp [refs, h]

theorem refs_of_none {p : Pc} (h : p.bound = none) (m : ℕ) : p.refs m = 0 := by
  simp [refs, h]

end Pc

/-! ## The invariant -/

variable {τ : Type*}

/-- No entry names the buffer, and no task has taken it. -/
def Idle (s : State τ) (b : ℕ) : Prop :=
  (∀ n, IDX (s.hashtable n) ≠ b) ∧ ∀ t, (s.task t).claim ≠ some b

/-- The pins that an entry counts. -/
def pinsOf (s : State τ) (w : ℕ) : ℕ := if IDX w = NONE then 0 else s.pins (IDX w)

structure Inv [Fintype τ] (s : State τ) : Prop where
  names : ∀ n m, IDX (s.hashtable n) ≠ NONE → IDX (s.hashtable n) = IDX (s.hashtable m) → n = m
  claimFree : ∀ t b, (s.task t).claim = some b → b < NONE ∧ ∀ n, IDX (s.hashtable n) ≠ b
  claimOne : ∀ t t' b, (s.task t).claim = some b → (s.task t').claim = some b → t = t'
  counts : ∀ n, REFCNT (s.hashtable n) = tally (Pc.refs n) s.task + pinsOf s (s.hashtable n)
  unused : ∀ n, IDX (s.hashtable n) = NONE → REFCNT (s.hashtable n) = 0
  word : ∀ n, REFCNT (s.hashtable n) < 2 ^ 27
  bound : ∀ t n b, (s.task t).bound = some (n, b) → IDX (s.hashtable n) = b ∧ b ≠ NONE
  stamped : ∀ t n b, (s.task t).stamped = some (n, b) → (s.buf b).blockno = n
  fresh : ∀ n, IDX (s.hashtable n) ≠ NONE → (s.buf (IDX (s.hashtable n))).blockno = n ∨
    ∃ t, (s.task t).pending = some (n, IDX (s.hashtable n))
  pinned : ∀ b, 0 < s.pins b → IDX (s.hashtable (s.buf b).blockno) = b ∧ b ≠ NONE
  ok : ∀ t, (s.task t).Ok

/-- The condition under which a step does what the cache relies on. An eviction succeeds
    on an entry that names the buffer, or the buffer is idle; a task that hit gets
    the lock of a buffer whose block number has been stored; and counts stay in 27 bits. -/
def Guard (s : State τ) : Act τ → Prop
  | .run t =>
    match s.task t with
    | .evict _ _ b k expect => s.hashtable k = expect →
        (IDX expect = b ∧ b ≠ NONE) ∨ (b < NONE ∧ Idle s b)
    | .lock _ b => ∀ t' m, (s.task t').pending ≠ some (m, b)
    | .hit _ _ w | .pinCas _ _ _ w => REFCNT w + 1 < 2 ^ 27
    | _ => True
  | _ => True

namespace Inv

variable [DecidableEq τ] [Fintype τ] {s s' : State τ} {t : τ} {p : Pc}

omit [Fintype τ] in
theorem task_cases (htask : s'.task = Function.update s.task t p) (t' : τ) :
    (t' ≠ t ∧ s'.task t' = s.task t') ∨ (t' = t ∧ s'.task t' = p) := by
  rw [htask]
  by_cases ht : t' = t
  · exact .inr ⟨ht, by rw [ht]; exact Function.update_self ..⟩
  · exact .inl ⟨ht, Function.update_of_ne ht ..⟩

/-- A step that leaves entries, block numbers, pins and what the task refers to alone. -/
theorem quiet (h : Inv s) (htable : s'.hashtable = s.hashtable) (hpins : s'.pins = s.pins)
    (hblock : ∀ b, (s'.buf b).blockno = (s.buf b).blockno)
    (htask : s'.task = Function.update s.task t p) (hbound : p.bound = (s.task t).bound)
    (hclaim : p.claim = (s.task t).claim) (hpending : p.pending = (s.task t).pending)
    (hstamped : p.stamped = (s.task t).stamped) (hok : p.Ok) : Inv s' := by
  have hcase := task_cases htask
  have hbound' : ∀ t', (s'.task t').bound = (s.task t').bound := fun t' => by
    rcases hcase t' with ⟨-, e⟩ | ⟨rfl, e⟩ <;> rw [e]
    exact hbound
  have hclaim' : ∀ t', (s'.task t').claim = (s.task t').claim := fun t' => by
    rcases hcase t' with ⟨-, e⟩ | ⟨rfl, e⟩ <;> rw [e]
    exact hclaim
  have hpending' : ∀ t', (s'.task t').pending = (s.task t').pending := fun t' => by
    rcases hcase t' with ⟨-, e⟩ | ⟨rfl, e⟩ <;> rw [e]
    exact hpending
  have hstamped' : ∀ t', (s'.task t').stamped = (s.task t').stamped := fun t' => by
    rcases hcase t' with ⟨-, e⟩ | ⟨rfl, e⟩ <;> rw [e]
    exact hstamped
  have hrefs : ∀ n, tally (Pc.refs n) s'.task = tally (Pc.refs n) s.task := fun n =>
    Finset.sum_congr rfl fun t' _ => by
      unfold Pc.refs
      rw [hbound']
  -- the invariant reads nothing that has changed, except the program counter of `t`
  obtain ⟨hnames, hfree, hone, hcounts, hunused, hword, hbd, hst, hfresh, hpinned, hok'⟩ := h
  refine ⟨?_, ?_, ?_, ?_, ?_, ?_, ?_, ?_, ?_, ?_, fun t' => ?_⟩
  case refine_11 =>
    rcases hcase t' with ⟨-, e⟩ | ⟨rfl, e⟩ <;> rw [e]
    · exact hok' t'
    · exact hok
  all_goals
    simp only [htable, hpins, hblock, hbound', hclaim', hpending', hstamped', hrefs, pinsOf]
    assumption

/-- The entry of a block goes on naming the same buffer, and its count changes with the
    references of the task and the pins. -/
theorem recount (h : Inv s) {n w : ℕ} (htable : s'.hashtable = Function.update s.hashtable n w)
    (hblock : ∀ b, (s'.buf b).blockno = (s.buf b).blockno)
    (htask : s'.task = Function.update s.task t p)
    (hidx : IDX w = IDX (s.hashtable n)) (hnone : IDX (s.hashtable n) ≠ NONE)
    (hword : REFCNT w < 2 ^ 27)
    (hpins : ∀ b, b ≠ IDX (s.hashtable n) → s'.pins b = s.pins b)
    (hcount : REFCNT w + (s.task t).refs n + s.pins (IDX (s.hashtable n)) =
      REFCNT (s.hashtable n) + p.refs n + s'.pins (IDX (s.hashtable n)))
    (hrefs : ∀ m, m ≠ n → p.refs m = (s.task t).refs m)
    (hbound : ∀ m b, p.bound = some (m, b) → m = n ∧ b = IDX (s.hashtable n))
    (hclaim : p.claim = none) (hpending : (s.task t).pending = none)
    (hstamped : ∀ m b, p.stamped = some (m, b) → (s.buf b).blockno = m)
    (hpin : s'.pins = s.pins ∨ (s.buf (IDX (s.hashtable n))).blockno = n)
    (hok : p.Ok) : Inv s' := by
  have hcase := task_cases htask
  have hself : s'.hashtable n = w := by rw [htable]; exact Function.update_self ..
  have hother : ∀ m, m ≠ n → s'.hashtable m = s.hashtable m := fun m hm => by
    rw [htable]; exact Function.update_of_ne hm ..
  have hidx' : ∀ m, IDX (s'.hashtable m) = IDX (s.hashtable m) := fun m => by
    by_cases hm : m = n
    · rw [hm, hself, hidx]
    · rw [hother m hm]
  refine ⟨fun m m' => ?_, fun t' b hc => ?_, fun t1 t2 b h1 h2 => ?_, fun m => ?_, fun m hm => ?_,
    fun m => ?_, fun t' m b hb => ?_, fun t' m b hb => ?_, fun m hm => ?_, fun b hb => ?_,
    fun t' => ?_⟩
  · rw [hidx', hidx']
    exact h.names m m'
  · rcases hcase t' with ⟨-, e⟩ | ⟨rfl, e⟩ <;> rw [e] at hc
    · exact ⟨(h.claimFree t' b hc).1, fun m => by rw [hidx']; exact (h.claimFree t' b hc).2 m⟩
    · rw [hclaim] at hc; cases hc
  · rcases hcase t1 with ⟨-, e1⟩ | ⟨rfl, e1⟩ <;> rcases hcase t2 with ⟨-, e2⟩ | ⟨rfl, e2⟩ <;>
      rw [e1] at h1 <;> rw [e2] at h2
    · exact h.claimOne t1 t2 b h1 h2
    · rw [hclaim] at h2; cases h2
    · rw [hclaim] at h1; cases h1
  -- the counts: the entry of the block `n` changes together with the references of `t`
  · have hupd := tally_update (Pc.refs m) s.task t p
    rw [← htask] at hupd
    have hold := h.counts m
    by_cases hm : m = n
    · subst hm
      rw [pinsOf, if_neg hnone] at hold
      rw [hself, pinsOf, hidx, if_neg hnone]
      omega
    · have hpins' : pinsOf s' (s.hashtable m) = pinsOf s (s.hashtable m) := by
        unfold pinsOf
        split
        · rfl
        next hm' => exact hpins _ fun he => hm (h.names m n hm' he)
      have := hrefs m hm
      rw [hother m hm, hpins']
      omega
  · by_cases hmn : m = n
    · rw [hmn, hidx'] at hm
      exact absurd hm hnone
    · rw [hother m hmn] at hm ⊢
      exact h.unused m hm
  · by_cases hm : m = n
    · rwa [hm, hself]
    · rw [hother m hm]
      exact h.word m
  · rw [hidx']
    rcases hcase t' with ⟨-, e⟩ | ⟨rfl, e⟩ <;> rw [e] at hb
    · exact h.bound t' m b hb
    · obtain ⟨rfl, rfl⟩ := hbound m b hb
      exact ⟨rfl, hnone⟩
  · rw [hblock]
    rcases hcase t' with ⟨-, e⟩ | ⟨rfl, e⟩ <;> rw [e] at hb
    · exact h.stamped t' m b hb
    · exact hstamped m b hb
  -- a block on its way to a buffer: `t` was not the task that brings it
  · rw [hidx'] at hm ⊢
    rw [hblock]
    rcases h.fresh m hm with hm' | ⟨t', ht'⟩
    · exact .inl hm'
    · rcases hcase t' with ⟨-, e⟩ | ⟨rfl, -⟩
      · exact .inr ⟨t', by rw [e, ht']⟩
      · rw [hpending] at ht'; cases ht'
  · rw [hblock, hidx']
    by_cases hbi : b = IDX (s.hashtable n)
    · rcases hpin with hpin | hpin
      · rw [hpin] at hb
        exact h.pinned b hb
      · subst hbi
        rw [hpin]
        exact ⟨rfl, hnone⟩
    · rw [hpins b hbi] at hb
      exact h.pinned b hb
  · rcases hcase t' with ⟨-, e⟩ | ⟨rfl, e⟩ <;> rw [e]
    · exact h.ok t'
    · exact hok

/-- An eviction frees the entry of a block that nobody refers to. The task takes a buffer
    that was named by this entry, or was idle. -/
theorem evict (h : Inv s) {k e b n w : ℕ} (hentry : s.hashtable k = e) (hzero : REFCNT e = 0)
    (hG : (IDX e = b ∧ b ≠ NONE) ∨ (b < NONE ∧ Idle s b)) (hw : IDX w = NONE)
    (hnone : (s.task t).bound = none) :
    Inv ((s.setWord k (REFCNT_IDX 0 NONE)).goto t (.install n b w)) := by
  set s' := (s.setWord k (REFCNT_IDX 0 NONE)).goto t (.install n b w)
  have hcase : ∀ t', (t' ≠ t ∧ s'.task t' = s.task t') ∨ (t' = t ∧ s'.task t' = .install n b w) :=
    task_cases (s := s) rfl
  have hself : s'.hashtable k = REFCNT_IDX 0 NONE := Function.update_self ..
  have hother : ∀ m, m ≠ k → s'.hashtable m = s.hashtable m := fun m hm =>
    Function.update_of_ne hm ..
  have hidxk : IDX (s'.hashtable k) = NONE := by rw [hself]; rfl
  have hbuf : s'.buf = s.buf := rfl
  have hpins : s'.pins = s.pins := rfl
  -- Nobody refers to the block whose entry is freed.
  have hcount := h.counts k
  rw [hentry, hzero] at hcount
  have hunbound : ∀ t' m b', (s.task t').bound = some (m, b') → m ≠ k := by
    rintro t' m b' hb rfl
    have := le_tally (Pc.refs m) s.task t'
    rw [Pc.refs_of_bound hb, if_pos rfl] at this
    omega
  have hlt : b < NONE := by
    rcases hG with ⟨hb, hbn⟩ | ⟨hb, -⟩
    · have := IDX_lt e
      unfold NONE at hbn ⊢
      omega
    · exact hb
  have hbfree : ∀ m, IDX (s'.hashtable m) ≠ b := fun m => by
    by_cases hm : m = k
    · rw [hm, hidxk]
      exact hlt.ne'
    · rw [hother m hm]
      rcases hG with ⟨hb, hbn⟩ | ⟨-, hb⟩
      · intro hmb
        rw [← hentry] at hb
        exact hm (h.names m k (by rwa [hmb]) (hmb.trans hb.symm))
      · exact hb.1 m
  have hbone : ∀ t', (s.task t').claim ≠ some b := fun t' hc => by
    rcases hG with ⟨hb, -⟩ | ⟨-, hb⟩
    · exact (h.claimFree t' b hc).2 k (by rw [hentry, hb])
    · exact hb.2 t' hc
  refine ⟨fun m m' hm he => ?_, fun t' b' hc => ?_, fun t1 t2 b' h1 h2 => ?_, fun m => ?_,
    fun m hm => ?_, fun m => ?_, fun t' m b' hb => ?_, fun t' m b' hb => ?_, fun m hm => ?_,
    fun b' hb => ?_, fun t' => ?_⟩
  · have hmk : m ≠ k := fun hk => hm (hk ▸ hidxk)
    have hmk' : m' ≠ k := fun hk => hm (he.trans (hk ▸ hidxk))
    rw [hother m hmk] at hm he
    rw [hother m' hmk'] at he
    exact h.names m m' hm he
  · rcases hcase t' with ⟨-, e⟩ | ⟨rfl, e⟩ <;> rw [e] at hc
    · refine ⟨(h.claimFree t' b' hc).1, fun m => ?_⟩
      by_cases hm : m = k
      · rw [hm, hidxk]
        exact (h.claimFree t' b' hc).1.ne'
      · rw [hother m hm]
        exact (h.claimFree t' b' hc).2 m
    · cases hc
      exact ⟨hlt, hbfree⟩
  · rcases hcase t1 with ⟨-, e1⟩ | ⟨rfl, e1⟩ <;> rcases hcase t2 with ⟨-, e2⟩ | ⟨rfl, e2⟩ <;>
      rw [e1] at h1 <;> rw [e2] at h2
    · exact h.claimOne t1 t2 b' h1 h2
    · cases h2; exact absurd h1 (hbone t1)
    · cases h1; exact absurd h2 (hbone t2)
  · have hupd := tally_update (Pc.refs m) s.task t (.install n b w)
    have htally : tally (Pc.refs m) s'.task = tally (Pc.refs m) s.task := by
      have h1 := Pc.refs_of_none hnone m
      have h2 := Pc.refs_of_none (p := .install n b w) rfl m
      change tally (Pc.refs m) (Function.update s.task t (.install n b w)) = _
      omega
    rw [htally]
    by_cases hm : m = k
    · subst hm
      rw [pinsOf, if_pos hidxk, hself]
      have hz : REFCNT (REFCNT_IDX 0 NONE) = 0 := rfl
      omega
    · rw [hother m hm]
      exact h.counts m
  · by_cases hmk : m = k
    · rw [hmk, hself]; rfl
    · rw [hother m hmk] at hm ⊢
      exact h.unused m hm
  · by_cases hm : m = k
    · rw [hm, hself]
      exact Nat.two_pow_pos 27
    · rw [hother m hm]
      exact h.word m
  · rcases hcase t' with ⟨-, e⟩ | ⟨rfl, e⟩ <;> rw [e] at hb
    · rw [hother m (hunbound t' m b' hb)]
      exact h.bound t' m b' hb
    · cases hb
  · rcases hcase t' with ⟨-, e⟩ | ⟨rfl, e⟩ <;> rw [e] at hb
    · exact h.stamped t' m b' hb
    · cases hb
  · have hmk : m ≠ k := fun hk => hm (hk ▸ hidxk)
    rw [hother m hmk] at hm ⊢
    rcases h.fresh m hm with hm' | ⟨t', ht'⟩
    · exact .inl hm'
    · rcases hcase t' with ⟨-, e⟩ | ⟨rfl, -⟩
      · exact .inr ⟨t', by rw [e, ht']⟩
      · rw [Pc.pending_bound ht'] at hnone
        cases hnone
  · have hp := h.pinned b' hb
    have hne : (s.buf b').blockno ≠ k := by
      intro hk
      rw [hk, hentry] at hp
      rw [pinsOf, if_neg (hp.1 ▸ hp.2), hp.1] at hcount
      rw [hpins] at hb
      omega
    rw [hbuf, hother _ hne]
    exact hp
  · rcases hcase t' with ⟨-, e⟩ | ⟨rfl, e⟩ <;> rw [e]
    · exact h.ok t'
    · exact hw

/-- A task enters the buffer it has taken for a block that has none. -/
theorem install (h : Inv s) {n b w : ℕ} (hpc : s.task t = .install n b w)
    (hentry : s.hashtable n = w) :
    Inv ((s.setWord n (REFCNT_IDX 1 b)).goto t (.lockNew n b)) := by
  set s' := (s.setWord n (REFCNT_IDX 1 b)).goto t (.lockNew n b)
  have hcase : ∀ t', (t' ≠ t ∧ s'.task t' = s.task t') ∨ (t' = t ∧ s'.task t' = .lockNew n b) :=
    task_cases (s := s) rfl
  have hself : s'.hashtable n = REFCNT_IDX 1 b := Function.update_self ..
  have hother : ∀ m, m ≠ n → s'.hashtable m = s.hashtable m := fun m hm =>
    Function.update_of_ne hm ..
  have hw : IDX w = NONE := by
    have := h.ok t
    rwa [hpc] at this
  have hclaim : (s.task t).claim = some b := by rw [hpc]; rfl
  obtain ⟨hlt, hfree⟩ := h.claimFree t b hclaim
  have hblt : b < 32 := Nat.lt_succ_of_lt hlt
  have hidxn : IDX (s'.hashtable n) = b := by rw [hself, IDX_REFCNT_IDX hblt]
  have hnone : IDX (s.hashtable n) = NONE := by rw [hentry, hw]
  -- The block had no entry, so nobody refers to it, and the buffer is not pinned.
  have hcount := h.counts n
  rw [h.unused n hnone, pinsOf, if_pos hnone] at hcount
  have hunbound : ∀ t' m b', (s.task t').bound = some (m, b') → m ≠ n := by
    rintro t' m b' hb rfl
    have := le_tally (Pc.refs m) s.task t'
    rw [Pc.refs_of_bound hb, if_pos rfl] at this
    omega
  have hunpinned : s.pins b = 0 := by
    by_contra hp
    exact hfree _ (h.pinned b (by omega)).1
  refine ⟨fun m m' hm he => ?_, fun t' b' hc => ?_, fun t1 t2 b' h1 h2 => ?_, fun m => ?_,
    fun m hm => ?_, fun m => ?_, fun t' m b' hb => ?_, fun t' m b' hb => ?_, fun m hm => ?_,
    fun b' hb => ?_, fun t' => ?_⟩
  · by_cases hmn : m = n <;> by_cases hmn' : m' = n
    · rw [hmn, hmn']
    · rw [hmn, hidxn, hother m' hmn'] at he
      exact absurd he.symm (hfree m')
    · rw [hmn', hidxn, hother m hmn] at he
      exact absurd he (hfree m)
    · rw [hother m hmn] at hm he
      rw [hother m' hmn'] at he
      exact h.names m m' hm he
  · rcases hcase t' with ⟨hne, e⟩ | ⟨rfl, e⟩ <;> rw [e] at hc
    · refine ⟨(h.claimFree t' b' hc).1, fun m => ?_⟩
      by_cases hm : m = n
      · rw [hm, hidxn]
        rintro rfl
        exact hne (h.claimOne t' t b hc hclaim)
      · rw [hother m hm]
        exact (h.claimFree t' b' hc).2 m
    · cases hc
  · rcases hcase t1 with ⟨-, e1⟩ | ⟨rfl, e1⟩ <;> rcases hcase t2 with ⟨-, e2⟩ | ⟨rfl, e2⟩ <;>
      rw [e1] at h1 <;> rw [e2] at h2
    · exact h.claimOne t1 t2 b' h1 h2
    · cases h2
    · cases h1
  · have hupd := tally_update (Pc.refs m) s.task t (.lockNew n b)
    change tally (Pc.refs m) s'.task + _ = _ at hupd
    rw [Pc.refs_of_none (by rw [hpc]; rfl),
      Pc.refs_of_bound (show (Pc.lockNew n b).bound = some (n, b) from rfl)] at hupd
    by_cases hm : m = n
    · subst hm
      rw [pinsOf, hidxn, if_neg hlt.ne, hself, REFCNT_REFCNT_IDX hblt (by omega)]
      change _ = _ + s.pins b
      rw [if_pos rfl] at hupd
      omega
    · rw [hother m hm]
      rw [if_neg (Ne.symm hm)] at hupd
      exact (h.counts m).trans (congrArg (· + _) hupd.symm)
  · by_cases hmn : m = n
    · rw [hmn, hidxn] at hm
      exact absurd hm hlt.ne
    · rw [hother m hmn] at hm ⊢
      exact h.unused m hm
  · by_cases hm : m = n
    · rw [hm, hself, REFCNT_REFCNT_IDX hblt (by omega)]
      omega
    · rw [hother m hm]
      exact h.word m
  · rcases hcase t' with ⟨-, e⟩ | ⟨rfl, e⟩ <;> rw [e] at hb
    · rw [hother m (hunbound t' m b' hb)]
      exact h.bound t' m b' hb
    · cases hb
      exact ⟨hidxn, hlt.ne⟩
  · rcases hcase t' with ⟨-, e⟩ | ⟨rfl, e⟩ <;> rw [e] at hb
    · exact h.stamped t' m b' hb
    · cases hb
  · by_cases hmn : m = n
    · rcases hcase t with ⟨hne, -⟩ | ⟨-, e⟩
      · exact absurd rfl hne
      · exact .inr ⟨t, by rw [e, hmn, hidxn]; rfl⟩
    · rw [hother m hmn] at hm ⊢
      rcases h.fresh m hm with hm' | ⟨t', ht'⟩
      · exact .inl hm'
      · rcases hcase t' with ⟨-, e⟩ | ⟨rfl, -⟩
        · exact .inr ⟨t', by rw [e, ht']⟩
        · rw [hpc] at ht'; cases ht'
  · have hp := h.pinned b' hb
    have hne : (s.buf b').blockno ≠ n := by
      intro hbn
      rw [hbn, hnone] at hp
      exact hp.2 hp.1.symm
    change IDX (s'.hashtable (s.buf b').blockno) = b' ∧ b' ≠ NONE
    rw [hother _ hne]
    exact hp
  · rcases hcase t' with ⟨-, e⟩ | ⟨rfl, e⟩ <;> rw [e]
    · exact h.ok t'
    · trivial

/-- A step that leaves entries alone, while the buffer gets or has the block number that
    the task then relies on. -/
theorem stamp (h : Inv s) {n b : ℕ} (htable : s'.hashtable = s.hashtable)
    (hpins : s'.pins = s.pins) (hself : (s'.buf b).blockno = n)
    (hother : ∀ b', b' ≠ b → (s'.buf b').blockno = (s.buf b').blockno)
    (htask : s'.task = Function.update s.task t (.holding n b))
    (hbound : (s.task t).bound = some (n, b)) (hclaim : (s.task t).claim = none) : Inv s' := by
  have hcase := task_cases htask
  obtain ⟨hidx, hbn⟩ := h.bound t n b hbound
  have hbound' : ∀ t', (s'.task t').bound = (s.task t').bound := fun t' => by
    rcases hcase t' with ⟨-, e⟩ | ⟨rfl, e⟩ <;> rw [e]
    exact hbound.symm
  have hclaim' : ∀ t', (s'.task t').claim = (s.task t').claim := fun t' => by
    rcases hcase t' with ⟨-, e⟩ | ⟨rfl, e⟩ <;> rw [e]
    exact hclaim.symm
  have hrefs : ∀ m, tally (Pc.refs m) s'.task = tally (Pc.refs m) s.task := fun m =>
    Finset.sum_congr rfl fun t' _ => by
      unfold Pc.refs
      rw [hbound']
  -- A buffer that has the block number of an entry naming it keeps it.
  have hkeep : ∀ m b', IDX (s.hashtable m) = b' → b' ≠ NONE → (s.buf b').blockno = m →
      (s'.buf b').blockno = m := by
    rintro m b' rfl hm hbm
    by_cases he : IDX (s.hashtable m) = b
    · rw [he, hself]
      exact (h.names m n hm (he.trans hidx.symm)).symm
    · rw [hother _ he, hbm]
  refine ⟨?_, ?_, ?_, fun m => ?_, ?_, ?_, ?_, fun t' m b' hb => ?_, fun m hm => ?_, fun b' hb => ?_,
    fun t' => ?_⟩
  · rw [htable]; exact h.names
  · rw [htable]; simp only [hclaim']; exact h.claimFree
  · simp only [hclaim']; exact h.claimOne
  · rw [htable, hrefs, pinsOf, hpins]; exact h.counts m
  · rw [htable]; exact h.unused
  · rw [htable]; exact h.word
  · rw [htable]; simp only [hbound']; exact h.bound
  · rcases hcase t' with ⟨-, e⟩ | ⟨rfl, e⟩ <;> rw [e] at hb
    · have hidx' := h.bound t' m b' (Pc.stamped_bound hb)
      exact hkeep m b' hidx'.1 hidx'.2 (h.stamped t' m b' hb)
    · cases hb
      exact hself
  · rw [htable] at hm ⊢
    rcases h.fresh m hm with hm' | ⟨t', ht'⟩
    · exact .inl (hkeep m _ rfl hm hm')
    · rcases hcase t' with ⟨-, e⟩ | ⟨rfl, -⟩
      · exact .inr ⟨t', by rw [e, ht']⟩
      · have hp := Pc.pending_bound ht'
        rw [hbound] at hp
        obtain ⟨rfl, hb'⟩ := Prod.mk.inj (Option.some.inj hp)
        rw [← hb', hself]
        exact .inl rfl
  · rw [hpins] at hb
    have hp := h.pinned b' hb
    rw [htable, hkeep _ b' hp.1 hp.2 rfl]
    exact hp
  · rcases hcase t' with ⟨-, e⟩ | ⟨rfl, e⟩ <;> rw [e]
    · exact h.ok t'
    · trivial

omit [DecidableEq τ] [Fintype τ] in
theorem setBuf_blockno {b : ℕ} {x : Buf τ} (hx : x.blockno = (s.buf b).blockno) (b' : ℕ) :
    ((s.setBuf b x).buf b').blockno = (s.buf b').blockno := by
  by_cases hb : b' = b
  · simp [State.setBuf, hb, hx]
  · simp [State.setBuf, hb]

/-- `quiet` for a task at the place `p'` that goes to `p`. -/
theorem go (h : Inv s) {s1 : State τ} {p' : Pc} (hpc : s.task t = p')
    (htable : s1.hashtable = s.hashtable) (hpins : s1.pins = s.pins) (htask : s1.task = s.task)
    (hblock : ∀ b, (s1.buf b).blockno = (s.buf b).blockno) (hbound : p.bound = p'.bound)
    (hclaim : p.claim = p'.claim) (hpending : p.pending = p'.pending)
    (hstamped : p.stamped = p'.stamped) (hok : p.Ok) : Inv (s1.goto t p) :=
  h.quiet htable hpins hblock (by rw [State.goto, htask]) (by rw [hpc, hbound])
    (by rw [hpc, hclaim]) (by rw [hpc, hpending]) (by rw [hpc, hstamped]) hok

/-- A hit counts a reference to the buffer that has the block. -/
theorem hit (h : Inv s) {n w : ℕ} {b : Option ℕ} (hpc : s.task t = .hit n b w)
    (hentry : s.hashtable n = w) (hmax : REFCNT w + 1 < 2 ^ 27)
    (hbound : p.bound = some (n, IDX w)) (hclaim : p.claim = none) (hstamped : p.stamped = none)
    (hok : p.Ok) : Inv ((s.setWord n (INC_REFCNT w)).goto t p) := by
  have hw : IDX w ≠ NONE := by
    have := h.ok t
    rwa [hpc] at this
  have hcount : REFCNT (INC_REFCNT w) = REFCNT w + 1 := REFCNT_INC hmax
  refine h.recount rfl (fun _ => rfl) rfl (by rw [IDX_INC, hentry]) (by rwa [hentry])
    (by omega) (fun _ _ => rfl) ?_ (fun m hm => ?_) (fun m b' hb => ?_) hclaim
    (by rw [hpc]; rfl) (fun m b' hb => ?_) (.inl rfl) hok
  · rw [hentry, hcount, hpc, Pc.refs_of_none rfl, Pc.refs_of_bound hbound, if_pos rfl]
    rfl
  · rw [hpc, Pc.refs_of_none (p := .hit n b w) rfl, Pc.refs_of_bound hbound,
      if_neg (Ne.symm hm)]
  · rw [hbound] at hb
    cases hb
    exact ⟨rfl, by rw [hentry]⟩
  · rw [hstamped] at hb
    cases hb

omit [DecidableEq τ] in
/-- A panic changes none of what the invariant is about. -/
theorem panicked (h : Inv s) (msg : String) : Inv { s with panic := some msg } :=
  ⟨h.names, h.claimFree, h.claimOne, h.counts, h.unused, h.word, h.bound, h.stamped, h.fresh,
    h.pinned, h.ok⟩

theorem step_bget (h : Inv s) (hG : Guard s (.run t)) (hpc : s.task t = p)
    (hstep : bgetStep s t p = some s') : Inv s' := by
  have hok := h.ok t
  rw [hpc] at hok
  -- only `hit`, `evict` and `install` change an entry, and only `lock` and `setBlock` stamp a
  -- buffer
  cases p with
  | lookup n b =>
    simp only [bgetStep, Option.some.injEq] at hstep
    subst hstep
    split
    next hw => exact h.go hpc rfl rfl rfl (fun _ => rfl) rfl rfl rfl rfl hw
    next hw =>
      have hw : IDX (s.hashtable n) = NONE := by simpa using hw
      cases b with
      | some b => exact h.go hpc rfl rfl rfl (fun _ => rfl) rfl rfl rfl rfl hw
      | none => exact h.go hpc rfl rfl rfl (fun _ => rfl) rfl rfl rfl rfl hw
  | hit n b w =>
    simp only [bgetStep] at hstep
    split at hstep
    next hentry =>
      cases hstep
      simp only [Guard, hpc] at hG
      cases b with
      | some b => exact h.hit hpc hentry hG rfl rfl rfl trivial
      | none => exact h.hit hpc hentry hG rfl rfl rfl trivial
    · cases hstep
      exact h.go hpc rfl rfl rfl (fun _ => rfl) rfl rfl rfl rfl trivial
  | lock n b =>
    simp only [bgetStep] at hstep
    split at hstep
    · cases hstep
      simp only [Guard, hpc] at hG
      have hbound : (s.task t).bound = some (n, b) := by rw [hpc]; rfl
      obtain ⟨hidx, hbn⟩ := h.bound t n b hbound
      have hblock : (s.buf b).blockno = n := by
        rcases h.fresh n (by rwa [hidx]) with hb | ⟨t', ht'⟩
        · rwa [hidx] at hb
        · exact absurd (hidx ▸ ht') (hG t' n)
      exact h.stamp (n := n) (b := b) rfl rfl
        ((setBuf_blockno (b := b) (x := { s.buf b with lock := some t }) rfl b).trans hblock)
        (fun b' _ => setBuf_blockno (b := b) (x := { s.buf b with lock := some t }) rfl b') rfl
        hbound (by rw [hpc]; rfl)
    · cases hstep
  | evictBlock n w b =>
    cases hstep
    exact h.go hpc rfl rfl rfl (fun _ => rfl) rfl rfl rfl rfl hok
  | evictRead n w b k =>
    cases hstep
    exact h.go hpc rfl rfl rfl (fun _ => rfl) rfl rfl rfl rfl
      ⟨hok, REFCNT_REFCNT_IDX (IDX_lt _) (Nat.two_pow_pos 27)⟩
  | evict n w b k e =>
    simp only [bgetStep] at hstep
    split at hstep
    next hentry =>
      cases hstep
      simp only [Guard, hpc] at hG
      exact h.evict hentry hok.2 (hG hentry) hok.1 (by rw [hpc]; rfl)
    · cases hstep
      exact h.go hpc rfl rfl rfl (fun _ => rfl) rfl rfl rfl rfl hok.1
  | install n b w =>
    simp only [bgetStep] at hstep
    split at hstep
    next hentry =>
      cases hstep
      exact h.install hpc hentry
    · cases hstep
      exact h.go hpc rfl rfl rfl (fun _ => rfl) rfl rfl rfl rfl trivial
  | lockNew n b =>
    simp only [bgetStep] at hstep
    split at hstep
    · cases hstep
      exact h.go hpc rfl rfl rfl (setBuf_blockno rfl) rfl rfl rfl rfl trivial
    · cases hstep
  | setValid n b =>
    cases hstep
    exact h.go hpc rfl rfl rfl (setBuf_blockno rfl) rfl rfl rfl rfl trivial
  | setDev n b =>
    cases hstep
    exact h.go hpc rfl rfl rfl (setBuf_blockno rfl) rfl rfl rfl rfl trivial
  | setBlock n b =>
    cases hstep
    exact h.stamp (n := n) (b := b) rfl rfl (by simp [State.goto, State.setBuf])
      (fun b' hb => by simp [State.goto, State.setBuf, hb]) rfl (by rw [hpc]; rfl)
      (by rw [hpc]; rfl)
  | _ => cases hstep

theorem step_dequeue (h : Inv s) (hpc : s.task t = p) (hstep : dequeueStep s t p = some s') :
    Inv s' := by
  have hok := h.ok t
  rw [hpc] at hok
  -- the queue of unused buffers has no part in the invariant
  cases p with
  | deqHead n w | deqTail n w head | deqNext n w head tail =>
    cases hstep
    exact h.go hpc rfl rfl rfl (fun _ => rfl) rfl rfl rfl rfl hok
  | deqCheck n w head tail next =>
    simp only [dequeueStep] at hstep
    split at hstep
    · split at hstep
      · split at hstep <;> cases hstep
        · exact h.panicked _
        · exact h.go hpc rfl rfl rfl (fun _ => rfl) rfl rfl rfl rfl hok
      · cases hstep
        exact h.go hpc rfl rfl rfl (fun _ => rfl) rfl rfl rfl rfl hok
    · cases hstep
      exact h.go hpc rfl rfl rfl (fun _ => rfl) rfl rfl rfl rfl hok
  | deqHelp n w tail next =>
    cases hstep
    exact h.go hpc rfl rfl rfl (fun _ => rfl) rfl rfl rfl rfl hok
  | deqCas n w head next =>
    simp only [dequeueStep] at hstep
    split at hstep <;> cases hstep
    · exact h.go hpc rfl rfl rfl (fun _ => rfl) rfl rfl rfl rfl hok
    · exact h.go hpc rfl rfl rfl (fun _ => rfl) rfl rfl rfl rfl hok
  | deqFlag n w ret =>
    cases hstep
    exact h.go hpc rfl rfl rfl (setBuf_blockno rfl) rfl rfl rfl rfl hok
  | _ => cases hstep

/-- When `enqueue` returns, its caller goes on. -/
theorem enqueue_return (h : Inv s) {s1 : State τ} {p' : Pc} {c : Cont} (hpc : s.task t = p')
    (htable : s1.hashtable = s.hashtable) (hpins : s1.pins = s.pins) (htask : s1.task = s.task)
    (hblock : ∀ b, (s1.buf b).blockno = (s.buf b).blockno) (hbound : p'.bound = c.bound)
    (hclaim : p'.claim = none) (hpending : p'.pending = none) (hstamped : p'.stamped = none) :
    Inv (s1.goto t c.pc) := by
  cases c with
  | hit n idx =>
    exact h.go (p := .lock n idx) hpc htable hpins htask hblock hbound.symm hclaim.symm
      hpending.symm hstamped.symm trivial
  | done =>
    exact h.go (p := .idle) hpc htable hpins htask hblock hbound.symm hclaim.symm hpending.symm
      hstamped.symm trivial

theorem step_enqueue (h : Inv s) (hpc : s.task t = p) (hstep : enqueueStep s t p = some s') :
    Inv s' := by
  -- the count of the buffer has dropped before it enters the queue
  cases p with
  | enqFlag b c =>
    simp only [enqueueStep] at hstep
    split at hstep <;> cases hstep
    · exact h.go hpc rfl rfl rfl (setBuf_blockno rfl) rfl rfl rfl rfl trivial
    · exact h.enqueue_return hpc rfl rfl rfl (fun _ => rfl) rfl rfl rfl rfl
  | enqNull b c =>
    cases hstep
    exact h.go hpc rfl rfl rfl (setBuf_blockno rfl) rfl rfl rfl rfl trivial
  | enqTail b c | enqNext b c tail =>
    cases hstep
    exact h.go hpc rfl rfl rfl (fun _ => rfl) rfl rfl rfl rfl trivial
  | enqCheck b c tail next =>
    simp only [enqueueStep] at hstep
    split at hstep
    · split at hstep <;> cases hstep
      · exact h.go hpc rfl rfl rfl (fun _ => rfl) rfl rfl rfl rfl trivial
      · exact h.go hpc rfl rfl rfl (fun _ => rfl) rfl rfl rfl rfl trivial
    · cases hstep
      exact h.go hpc rfl rfl rfl (fun _ => rfl) rfl rfl rfl rfl trivial
  | enqLink b c tail next =>
    simp only [enqueueStep] at hstep
    split at hstep <;> cases hstep
    · exact h.go hpc rfl rfl rfl (setBuf_blockno rfl) rfl rfl rfl rfl trivial
    · exact h.go hpc rfl rfl rfl (fun _ => rfl) rfl rfl rfl rfl trivial
  | enqHelp b c tail next =>
    cases hstep
    exact h.go hpc rfl rfl rfl (fun _ => rfl) rfl rfl rfl rfl trivial
  | enqSwing b c tail =>
    cases hstep
    exact h.enqueue_return hpc rfl rfl rfl (fun _ => rfl) rfl rfl rfl rfl
  | _ => cases hstep

/-- A task gives its counted reference to a block back. -/
theorem release (h : Inv s) {n b w w' : ℕ} (hbound : (s.task t).bound = some (n, b))
    (hpending : (s.task t).pending = none) (hentry : s.hashtable n = w)
    (hw' : w' = DEC_REFCNT w) (hnone : p.bound = none) (hclaim : p.claim = none)
    (hstamped : p.stamped = none) (hok : p.Ok) : Inv ((s.setWord n w').goto t p) := by
  subst hw'
  obtain ⟨hidx, hbn⟩ := h.bound t n b hbound
  have hrefs := Pc.refs_of_bound hbound n
  have hle := le_tally (Pc.refs n) s.task t
  have hcount := h.counts n
  have hword := h.word n
  rw [hentry] at hcount hword
  rw [if_pos rfl] at hrefs
  have hdec : REFCNT (DEC_REFCNT w) = REFCNT w - 1 := REFCNT_DEC (by omega) hword
  refine h.recount rfl (fun _ => rfl) rfl (by rw [IDX_DEC, hentry]) (by rwa [hidx]) (by omega)
    (fun _ _ => rfl) ?_ (fun m hm => ?_) (fun m b' hb => ?_) hclaim hpending
    (fun m b' hb => ?_) (.inl rfl) hok
  · rw [hentry, hdec, hrefs, Pc.refs_of_none hnone]
    change REFCNT w - 1 + 1 + s.pins (IDX w) = REFCNT w + 0 + s.pins (IDX w)
    omega
  · rw [Pc.refs_of_none hnone, Pc.refs_of_bound hbound, if_neg (Ne.symm hm)]
  · rw [hnone] at hb; cases hb
  · rw [hstamped] at hb; cases hb

theorem step_brelse (h : Inv s) (hpc : s.task t = p) (hstep : brelseStep s t p = some s') :
    Inv s' := by
  have hok := h.ok t
  rw [hpc] at hok
  -- the compare-and-swap gives the reference back; before it nothing changes
  cases p with
  | relDev n b | relHolding n b =>
    simp only [brelseStep] at hstep
    split at hstep <;> cases hstep
    · exact h.panicked _
    · exact h.go hpc rfl rfl rfl (fun _ => rfl) rfl rfl rfl rfl trivial
  | relUnlock n b =>
    cases hstep
    exact h.go hpc rfl rfl rfl (setBuf_blockno rfl) rfl rfl rfl rfl trivial
  | relBlock n b =>
    cases hstep
    exact h.go hpc rfl rfl rfl (fun _ => rfl) rfl rfl rfl rfl (h.stamped t n b (by rw [hpc]; rfl))
  | relRead n b k =>
    cases hstep
    exact h.go hpc rfl rfl rfl (fun _ => rfl) rfl rfl rfl rfl hok
  | relCas n b k w =>
    obtain rfl : k = n := hok
    simp only [brelseStep] at hstep
    split at hstep
    next hentry =>
      cases hstep
      have hbound : (s.task t).bound = some (k, b) := by rw [hpc]; rfl
      split
      · exact h.release hbound (by rw [hpc]; rfl) hentry rfl rfl rfl rfl trivial
      · exact h.release hbound (by rw [hpc]; rfl) hentry rfl rfl rfl rfl trivial
    · cases hstep
      exact h.go hpc rfl rfl rfl (fun _ => rfl) rfl rfl rfl rfl rfl
  | _ => cases hstep

theorem step_pin (h : Inv s) (hG : Guard s (.run t)) (hpc : s.task t = p)
    (hstep : pinStep s t p = some s') : Inv s' := by
  have hok := h.ok t
  rw [hpc] at hok
  -- a pin and its release change the count at their compare-and-swap only
  cases p with
  | pinBlock n b | unpinBlock n b =>
    cases hstep
    exact h.go hpc rfl rfl rfl (fun _ => rfl) rfl rfl rfl rfl (h.stamped t n b (by rw [hpc]; rfl))
  | pinRead n b k | unpinRead n b k =>
    cases hstep
    exact h.go hpc rfl rfl rfl (fun _ => rfl) rfl rfl rfl rfl hok
  | pinCas n b k w =>
    obtain rfl : k = n := hok
    simp only [pinStep] at hstep
    split at hstep
    next hentry =>
      cases hstep
      simp only [Guard, hpc] at hG
      have hbound : (s.task t).bound = some (k, b) := by rw [hpc]; rfl
      have hblock := h.stamped t k b (by rw [hpc]; rfl)
      obtain ⟨hidx, hbn⟩ := h.bound t k b hbound
      refine h.recount (n := k) (p := .holding k b) rfl (fun _ => rfl) rfl (by rw [IDX_INC, hentry])
        (by rwa [hidx]) (by rwa [REFCNT_INC hG]) (fun b' hb => ?_) ?_ (fun m _ => by rw [hpc]; rfl)
        (fun m b' hb => ?_) rfl (by rw [hpc]; rfl) (fun m b' hb => ?_) (.inr (by rw [hidx, hblock]))
        trivial
      · rw [hidx] at hb
        exact Function.update_of_ne hb ..
      · rw [REFCNT_INC hG, hidx, hentry, hpc]
        change _ = _ + Pc.refs k (.pinCas k b k w) + Function.update s.pins b _ b
        rw [Function.update_self]
        omega
      · cases hb
        exact ⟨rfl, hidx.symm⟩
      · cases hb
        exact hblock
    · cases hstep
      exact h.go hpc rfl rfl rfl (fun _ => rfl) rfl rfl rfl rfl rfl
  | unpinCas n b k w =>
    obtain rfl : k = n := hok
    simp only [pinStep] at hstep
    split at hstep
    next hentry =>
      cases hstep
      exact h.release (b := b) (by rw [hpc]; rfl) (by rw [hpc]; rfl) hentry rfl rfl rfl rfl trivial
    · cases hstep
      exact h.go hpc rfl rfl rfl (fun _ => rfl) rfl rfl rfl rfl rfl
  | _ => cases hstep

/-- `bunpin` takes over the reference of a pin. -/
theorem unpin (h : Inv s) {b : ℕ} (hpc : s.task t = .idle) (hpos : 0 < s.pins b) :
    Inv { s.goto t (.unpinBlock (s.buf b).blockno b) with
      pins := Function.update s.pins b (s.pins b - 1) } := by
  obtain ⟨hidx, hbn⟩ := h.pinned b hpos
  refine h.recount (n := (s.buf b).blockno) (w := s.hashtable (s.buf b).blockno)
    (p := .unpinBlock (s.buf b).blockno b) (Function.update_eq_self ..).symm (fun _ => rfl) rfl rfl
    (by rwa [hidx]) (h.word _) (fun b' hb => ?_) ?_ (fun m hm => ?_) (fun m b' hb => ?_) rfl
    (by rw [hpc]; rfl) (fun m b' hb => ?_) (.inr (by rw [hidx])) trivial
  · rw [hidx] at hb
    exact Function.update_of_ne hb ..
  · rw [hidx, hpc, Pc.refs_of_none rfl, Pc.refs_of_bound (n := (s.buf b).blockno) (b := b) rfl,
      if_pos rfl]
    change _ = _ + Function.update s.pins b _ b
    rw [Function.update_self]
    omega
  · rw [hpc, Pc.refs_of_none (p := .idle) rfl,
      Pc.refs_of_bound (n := (s.buf b).blockno) (b := b) rfl, if_neg (Ne.symm hm)]
  · cases hb
    exact ⟨rfl, hidx.symm⟩
  · cases hb
    rfl

/-- Every guarded step keeps the invariant. -/
theorem step {a : Act τ} (h : Inv s) (hG : Guard s a) (hstep : Bio.step s a = some s') :
    Inv s' := by
  unfold Bio.step at hstep
  split at hstep
  · cases hstep
  cases a with
  | bget t dev n =>
    simp only [exec] at hstep
    split at hstep
    next hpc =>
      split at hstep <;> cases hstep
      · exact h.panicked _
      · exact h.go hpc rfl rfl rfl (fun _ => rfl) rfl rfl rfl rfl trivial
    · cases hstep
  | brelse t =>
    simp only [exec] at hstep
    split at hstep
    next hpc =>
      cases hstep
      exact h.go hpc rfl rfl rfl (fun _ => rfl) rfl rfl rfl rfl trivial
    · cases hstep
  | bpin t =>
    simp only [exec] at hstep
    split at hstep
    next hpc =>
      cases hstep
      exact h.go hpc rfl rfl rfl (fun _ => rfl) rfl rfl rfl rfl trivial
    · cases hstep
  | bunpin t b =>
    simp only [exec] at hstep
    split at hstep
    next hpc =>
      split at hstep
      next hpos =>
        cases hstep
        exact h.unpin hpc hpos
      · cases hstep
    · cases hstep
  | run t =>
    -- The five kinds of points at which a running CPU can be.
    simp only [exec, runStep, Option.orElse_eq_orElse, Option.orElse_eq_or,
      Option.or_eq_some_iff] at hstep
    rcases hstep with hs | ⟨-, hs | ⟨-, hs | ⟨-, hs | ⟨-, hs⟩⟩⟩⟩
    · exact h.step_bget hG rfl hs
    · exact h.step_dequeue rfl hs
    · exact h.step_enqueue rfl hs
    · exact h.step_brelse rfl hs
    · exact h.step_pin hG rfl hs

omit [DecidableEq τ] in
/-- `binit` leaves every buffer idle. -/
theorem init : Inv (binit : State τ) := by
  have hidx : ∀ n, IDX ((binit : State τ).hashtable n) = NONE := fun _ =>
    IDX_REFCNT_IDX (by decide)
  have hzero : ∀ n, REFCNT ((binit : State τ).hashtable n) = 0 := fun _ =>
    REFCNT_REFCNT_IDX (by decide) (Nat.two_pow_pos 27)
  refine ⟨fun n _ hn => absurd (hidx n) hn, fun _ _ hc => (by cases hc),
    fun _ _ _ hc => (by cases hc), fun n => ?_, fun n _ => hzero n, fun n => ?_,
    fun _ _ _ hb => (by cases hb), fun _ _ _ hb => (by cases hb),
    fun n hn => absurd (hidx n) hn, fun b hb => absurd hb (Nat.lt_irrefl 0), fun _ => trivial⟩
  · have hrefs : tally (Pc.refs n) (binit : State τ).task = 0 := tally_eq_zero_iff.mpr fun _ => rfl
    rw [hzero, pinsOf, if_pos (hidx n), hrefs]
  · rw [hzero]
    exact Nat.two_pow_pos 27

/-- The invariant holds in every state of a guarded run. -/
theorem of_reachable (h : (system τ).ReachableUnder Guard s) : Inv s :=
  System.invariant Inv (fun _ h0 => by rw [h0]; exact init) (fun _ _ _ hi hG hs => hi.step hG hs) h

end Inv

/-! ## Blocks and buffers -/

/-- No two blocks have entries that name the same buffer. -/
def Exclusive (s : State τ) : Prop :=
  ∀ n m, IDX (s.hashtable n) ≠ NONE → IDX (s.hashtable n) = IDX (s.hashtable m) → n = m

/-- A buffer that `bget` has returned for a block has the number of that block. -/
def HoldsBlock (s : State τ) : Prop :=
  ∀ t n b, (s.task t).held = some (n, b) → (s.buf b).blockno = n

variable [DecidableEq τ]

/-- **A block has its buffer to itself.** In runs that satisfy `Guard` no two blocks have
    one buffer, and a buffer keeps its block from the return of `bget` to its release. -/
theorem cache_exclusive [Fintype τ] :
    (∀ s : State τ, (system τ).ReachableUnder Guard s → Exclusive s) ∧
    (∀ s : State τ, (system τ).ReachableUnder Guard s → HoldsBlock s) :=
  ⟨fun _ h => (Inv.of_reachable h).names,
    fun _ h t n b hb => (Inv.of_reachable h).stamped t n b (Pc.held_stamped hb)⟩

/-- Task 0 enters a buffer for block 5; before it takes the lock, task 1 hits block 5 and
    gets the lock. -/
def overtakingHit : List (Act (Fin 2)) :=
  .bget 0 1 5 :: List.replicate 11 (.run 0) ++ .bget 1 1 5 :: List.replicate 3 (.run 1)

/-- Task 1 has got a buffer for block 5 that has the number of block 0. -/
theorem hit_before_stamp :
    ¬ ∀ s : State (Fin 2), (system (Fin 2)).Reachable s → Exclusive s ∧ HoldsBlock s := by
  intro h
  have hrun : ((system (Fin 2)).run binit overtakingHit).any (fun s =>
      decide (s.task 1 = .holding 5 30) && decide ((s.buf 30).blockno = 0)) = true := by
    decide +kernel
  obtain ⟨s, hs, hp⟩ := System.exists_reachable_of_run rfl hrun
  simp only [Bool.and_eq_true, decide_eq_true_eq] at hp
  have hblock := (h s hs).2 1 5 30 (by rw [hp.1]; rfl)
  rw [hp.2] at hblock
  cases hblock

end Xv6.Kernel.Bio
