import Mathlib
import Xv6.User.UmallocRuns

/-!
# The Order of the Free List

`malloc_align` links what is left of a block above the one it gives out in front of what is left below, so that the
list is in order only as long as nothing is left below.

- `Ordered`: from the static header on the addresses go up, with a gap behind every block;
- `Contains`: there are adjacent free cells for a request, in one block or in several;
- `ordered_kept`: what holds after any calls, of which `malloc_align` takes only blocks that are aligned already;
- `order_broken`: the first call of `malloc_align`.
-/

namespace Xv6.User.Umalloc

open Xv6.Lib Xv6.Kernel

variable {base : ℕ} {s : State} {k : Sbrk base} {L : List Block} {b p : Block}

/-- **The list is in order**: it is a ring, its addresses go up from the static header on and no two of its blocks are
    adjacent. -/
structure Ordered (base : ℕ) (s : State) : Prop where
  ring : ∀ p, s.freep = some p → Ring s.mem (head base :: s.freeList base) ∧
    p ∈ (head base :: s.freeList base).map Block.addr
  ascending : Block.Separated (head base :: s.freeList base)

/-- Adjacent cells for `n` units are free, whichever blocks they are in. -/
def Contains (base : ℕ) (s : State) (n : UInt32) : Prop :=
  ∃ a, ∀ x, a ≤ x → x < a + HEADER * n.toNat → ∃ b ∈ s.freeList base, b.Has x

/-- **What is asked of a call**: as for a call that is safe, but of `malloc_align` that the block it is taken from
    begins at the end of a page, and has more units than are taken. -/
def Keeps (s : State) : Act base → Prop
  | .mallocAlign oribytes k => Enough k (s.start base).1 (State.nunits (oribytes + 4096)) ∧
    ∀ x, (s.start base).1.target k (State.nunits (oribytes + 4096)) = some x →
      PGSIZE ∣ x.addr + HEADER ∧ HEADER * (State.nunits oribytes).toNat < x.len
  | a => Meets s a

theorem Inv.ordered (h : Inv base s) (hsep : Block.Separated (head base :: s.freeList base)) : Ordered base s where
  ascending := hsep
  ring p hp := by
    cases h with
    | unused hfreep _ _ =>
      rw [hfreep] at hp
      cases hp
    | list L hsafe _ =>
      rw [hsafe.freeList]
      obtain ⟨q, hq, hfreep⟩ := hsafe.freep
      obtain rfl := Option.some.inj (hfreep.symm.trans hp)
      exact ⟨hsafe.ring, List.mem_map_of_mem hq⟩

/-! ## One Call -/

theorem Inv.mallocAlignOrdered {oribytes : UInt32} (h : Inv base s) (hkeeps : Keeps s (.mallocAlign oribytes k)) :
    ∃ s' r, s.mallocAlign k oribytes = some (s', r) ∧ Inv base s' ∧
      (Block.Separated (head base :: s.freeList base) → Block.Separated (head base :: s'.freeList base)) := by
  obtain ⟨L, hfreep, hsafe, hused, hheap, htotal, hlist⟩ := h.start
  rw [← hused, ← hheap] at htotal
  rw [hlist]
  unfold State.mallocAlign
  rcases hsafe.allocate (State.takeAligned (State.nunits oribytes)) (n := State.nunits oribytes)
      (Q := fun L₁ L' _ => Block.Separated (head base :: L₁) → Block.Separated (head base :: L'))
      hfreep (nunits_pos _) hkeeps.1 htotal
      (fun {s₁ L₁ A p x C} hs₁ hsplit _ htarget => by
        have hx : x ∈ L₁ := mem_of_split_tail hsplit List.mem_cons_self
        have hxmax := (hs₁.bounds (List.mem_append_left _ hx)).2
        have hxsize : HEADER * (s₁.mem x.addr).size.toNat = x.len := hs₁.ring.sizes x (List.mem_cons_of_mem _ hx)
        obtain ⟨hpage, hroom⟩ := hkeeps.2 x htarget
        -- nothing is left below the block
        obtain ⟨d, -, -, hdiv, -, hzero⟩ := align_eq (hs₁.laid.grain x (List.mem_append_left _ hx)).1
          ((Nat.le_add_right _ _).trans hxmax)
        rw [← hxsize] at hroom
        have hlt := Nat.lt_of_mul_lt_mul_left hroom
        rw [hzero hpage] at hdiv
        obtain ⟨L', u, htaken, -, hsep⟩ := hs₁.takeAligned hsplit (nunits_pos oribytes) (by omega)
        exact ⟨L', u, htaken, hsep hpage⟩)
    with ⟨s', ap, L₁, L', u, hsearch, hs', htotal', -, -, -, -, hsep, hQ⟩ | ⟨hsearch, -⟩
  · refine ⟨s', some ap, hsearch, .list L' hs' htotal', fun hL => ?_⟩
    rw [hs'.freeList]
    exact hQ (hsep hL)
  · refine ⟨_, none, hsearch, .list L hsafe htotal, fun hL => ?_⟩
    rwa [hsafe.freeList]

/-- **One call** that meets the condition leaves the list in order. -/
theorem Inv.ordered_step {s' : State} {a : Act base} (h : Inv base s)
    (hsep : Block.Separated (head base :: s.freeList base)) (hkeeps : Keeps s a) (hs : Umalloc.step s a = some s') :
    Inv base s' ∧ Block.Separated (head base :: s'.freeList base) := by
  -- One case for each call; what it leaves in order is its lemma's last part.
  cases a with
  | malloc nbytes k =>
    obtain ⟨t, r, hmalloc, ht, -, hkept⟩ := h.malloc hkeeps
    have hstep : Umalloc.step s (.malloc nbytes k) = some t := congrArg (Option.map Prod.fst) hmalloc
    obtain rfl := Option.some.inj (hstep.symm.trans hs)
    exact ⟨ht, hkept hsep⟩
  | mallocAlign oribytes k =>
    obtain ⟨t, r, hmalloc, ht, hkept⟩ := h.mallocAlignOrdered hkeeps
    have hstep : Umalloc.step s (.mallocAlign oribytes k) = some t := congrArg (Option.map Prod.fst) hmalloc
    obtain rfl := Option.some.inj (hstep.symm.trans hs)
    exact ⟨ht, hkept hsep⟩
  | free ap =>
    obtain ⟨b, hb, rfl⟩ := step_free_cases hs
    -- Before the first call of `malloc` nothing is in use that could be freed.
    cases h with
    | unused _ _ hused =>
      rw [hused] at hb
      nomatch hb
    | list L hsafe htotal =>
      have hfit : ∀ j, s.freed (b.addr + HEADER - HEADER) = some j → j.len < HEADER * 2 ^ 32 := hkeeps
      rw [Nat.add_sub_cancel] at hfit
      obtain ⟨t, L', ht, hsafe', htotal', hkept⟩ := hsafe.freeUsed htotal hb hfit
      obtain rfl := Option.some.inj (ht.symm.trans hs)
      rw [hsafe.freeList] at hsep
      exact ⟨.list L' hsafe' htotal', hsafe'.freeList ▸ hkept hsep⟩
  | write a v =>
    obtain ⟨ha, ⟨b, hb, hle, hlt⟩, rfl⟩ := step_write_cases hs
    cases h with
    | unused _ _ hused =>
      rw [hused] at hb
      nomatch hb
    | list L hsafe htotal =>
      -- A program writes into its own blocks.
      have hsafe' := hsafe.writes (v := v) ha hb hle hlt
      rw [hsafe.freeList] at hsep
      exact ⟨.list L hsafe' htotal, hsafe'.freeList.symm ▸ hsep⟩

/-! ## Requests That Fit -/

/-- **A request for which adjacent cells are free** finds a block, without `morecore`. -/
theorem Inv.found {take : State → ℕ → ℕ → State × ℕ} {nu : UInt32} (h : Inv base s)
    (hsep : Block.Separated (head base :: s.freeList base)) (hnu : 0 < nu.toNat) (hfits : Contains base s nu)
    (htake : ∀ t p x, (take t p x).1.heap = t.heap) :
    ∃ s' ap, (let (s, prevp) := s.start base
      State.search k take nu s.searchFuel s prevp (s.mem prevp).ptr) = some (s', some ap) ∧ s'.heap = s.heap := by
  obtain ⟨L, hfreep, hsafe, -, hheap, -, hlist⟩ := h.start
  obtain ⟨a, hcells⟩ := hfits
  rw [hlist] at hcells hsep
  obtain ⟨b, hb, hle, hlimit⟩ := Block.Separated.window (hsep.sublist (List.sublist_cons_self _ L))
    (Nat.mul_pos (by decide) hnu) hcells
  have hfuel : L.length < (s.start base).1.searchFuel := by
    have hlen := hsafe.length_lt
    unfold State.searchFuel
    rw [List.length_cons] at hlen
    omega
  rcases hsafe.search (k := k) take hfreep hnu hfuel with ⟨A, p, x, C, -, -, -, hsearch⟩ | ⟨hnofit, -⟩
  · exact ⟨_, _, hsearch, (htake _ _ _).trans hheap⟩
  · -- the block that contains the cells is large enough
    have hsize : HEADER * ((s.start base).1.mem b.addr).size.toNat = b.len :=
      hsafe.ring.sizes b (List.mem_cons_of_mem _ hb)
    have hunits : HEADER * nu.toNat ≤ HEADER * ((s.start base).1.mem b.addr).size.toNat := by
      rw [hsize]
      unfold Block.limit at hlimit
      omega
    exact absurd (UInt32.le_iff_toNat_le.mpr (Nat.le_of_mul_le_mul_left hunits (by decide))) (hnofit b hb)

theorem takeEnd_heap (nu : UInt32) (t : State) (p x : ℕ) : (State.takeEnd nu t p x).1.heap = t.heap := by
  unfold State.takeEnd
  split <;> rfl

theorem takeAligned_heap (nu : UInt32) (t : State) (p x : ℕ) : (State.takeAligned nu t p x).1.heap = t.heap := rfl

/-! ## Runs -/

theorem ordered_reachable (h : (system base).ReachableUnder Keeps s) :
    Inv base s ∧ Block.Separated (head base :: s.freeList base) :=
  System.invariant (fun s => Inv base s ∧ Block.Separated (head base :: s.freeList base))
    (fun s (hs : s.freep = none ∧ s.heap = [] ∧ s.used = []) => by
      refine ⟨.unused hs.1 hs.2.1 hs.2.2, ?_⟩
      unfold State.freeList
      rw [hs.1]
      exact List.pairwise_singleton _ _)
    (fun _ _ _ hi hk hs => hi.1.ordered_step hi.2 hk hs) h

/-- **The free list is in order in every run whose calls meet the condition**, and a request for which adjacent cells
    are free is satisfied without `morecore`. -/
theorem ordered_kept (base : ℕ) (s : State) :
    (system base).ReachableUnder Keeps s →
      Ordered base s ∧
      (∀ nbytes (k : Sbrk base), Contains base s (State.nunits nbytes) →
        ∃ s' ap, s.malloc k nbytes = some (s', some ap) ∧ s'.heap = s.heap) ∧
      ∀ oribytes (k : Sbrk base), Contains base s (State.nunits (oribytes + 4096)) →
        ∃ s' ap, s.mallocAlign k oribytes = some (s', some ap) ∧ s'.heap = s.heap := by
  intro h
  obtain ⟨hinv, hsep⟩ := ordered_reachable h
  refine ⟨hinv.ordered hsep, fun nbytes k hfits => ?_, fun oribytes k hfits => ?_⟩
  · exact hinv.found hsep (nunits_pos nbytes) hfits (takeEnd_heap _)
  · exact hinv.found hsep (nunits_pos _) hfits (takeAligned_heap _)

instance (s : State) (a : Act base) : Decidable (Keeps s a) :=
  match a with
  | .malloc nbytes k => inferInstanceAs (Decidable (Meets s (.malloc nbytes k)))
  | .mallocAlign oribytes k => inferInstanceAs (Decidable (Enough k (s.start base).1 (State.nunits (oribytes + 4096)) ∧
      ∀ x ∈ (s.start base).1.target k (State.nunits (oribytes + 4096)),
        PGSIZE ∣ x.addr + HEADER ∧ HEADER * (State.nunits oribytes).toNat < x.len))
  | .free ap => inferInstanceAs (Decidable (Meets s (.free ap : Act base)))
  | .write a v => inferInstanceAs (Decidable (Meets s (.write a v : Act base)))

/-- A heap that begins at the end of the first page -/
def pageEnd : Sbrk 64 := contiguous (by decide : 64 + HEADER ≤ 4080) (by decide)

/-- Two blocks are handed out, one of them aligned, and the first one is freed again. -/
theorem ordered_kept_three : ∃ s, s.used = [⟨4080, 8208⟩] ∧ Ordered 64 s := by
  have hrun : ((system 64).runUnder (fun s a => decide (Keeps s a)) fresh
      [.malloc 24 pageEnd, .mallocAlign 8192 pageEnd, .free 69584]).any
        (fun s => decide (s.used = [⟨4080, 8208⟩])) = true := by
    decide +kernel
  obtain ⟨s, hs, hused⟩ := System.exists_reachableUnder_of_runUnder (G := Keeps)
    (fun s a h => of_decide_eq_true h) (show (system 64).init fresh from ⟨rfl, rfl, rfl⟩) hrun
  exact ⟨s, of_decide_eq_true hused, (ordered_kept 64 s hs).1⟩

/-- **The first call of `malloc_align`** in a heap that begins with a page leaves the list out of order: behind the
    static header comes the block at 16384, and then the one at 4096. -/
theorem order_broken : ∃ s', step fresh (.mallocAlign 8192 pageTwo) = some s' ∧ ¬ Ordered 64 s' := by
  have hcall : (step fresh (.mallocAlign 8192 pageTwo)).map (fun s => s.freeList 64) =
      some [⟨16384, 53248⟩, ⟨4096, 4080⟩] := by
    decide +kernel
  obtain ⟨s', hs, hlist⟩ := Option.map_eq_some_iff.mp hcall
  refine ⟨s', hs, fun hordered => ?_⟩
  have hsep := hordered.ascending
  rw [hlist] at hsep
  exact absurd hsep (by decide)

end Xv6.User.Umalloc
