import Mathlib
import Xv6.User.UmallocSafety

/-!
# Calls of the Allocator, in Any Order

- `Inv`: every unit that `sbrk` has returned is in a free block or in a used one, and in no other;
- `Safe.allocate`: a request ends with a block, or with nothing changed;
- `blocks_safe`: what holds after any calls, of which none asks `sbrk` for more than an `int` or makes a free block of
  2^32 units;
- `block_outside`: a call that does.
-/

namespace Xv6.User.Umalloc

open Xv6.Lib Xv6.Kernel

variable {base : ℕ} {s : State} {k : Sbrk base} {L : List Block} {b p : Block}

/-! ## The Free List -/

/-- The blocks behind the static header -/
def State.freeList (base : ℕ) (s : State) : List Block :=
  match s.freep with
  | none => []
  | some _ => ((walk s.mem base s.fuel (s.mem base).ptr).dropLast).map (blockAt s.mem)

theorem Safe.freeList (h : Safe base s L) : s.freeList base = L := by
  obtain ⟨f, -, hf⟩ := h.freep
  have hseg : Seg (next s.mem) (some (s.mem base).ptr) (L.map Block.addr ++ [base]) (next s.mem base) :=
    h.ring.seg.append (.cons (.nil _))
  have hlen : (L.map Block.addr).length < s.fuel := by
    rw [List.length_map]
    exact h.length_lt
  unfold State.freeList
  rw [hf]
  dsimp only
  rw [walk_of_seg hseg (List.nodup_cons.mp h.nodup).1 hlen, List.dropLast_concat, List.map_map]
  refine (List.map_congr_left fun b hb => ?_).trans (List.map_id L)
  exact (h.ring.sizes b (List.mem_cons_of_mem _ hb)).blockAt

/-! ## Requests -/

/-- What is asked of a request that has to call `morecore` -/
def Enough (k : Sbrk base) (s : State) (nu : UInt32) : Prop := s.firstFit nu = none → Grows k s nu

/-- **A request** ends with a block, of which `Q` holds, or with nothing changed. -/
theorem Safe.allocate (take : State → ℕ → ℕ → State × ℕ) {nu n : UInt32} {freep : ℕ}
    {Q : List Block → List Block → Block → Prop} (h : Safe base s L) (hfreep : s.freep = some freep)
    (hnu : 0 < nu.toNat) (henough : Enough k s nu)
    (htotal : Block.total L + Block.total s.used = Block.total s.heap)
    (htake : ∀ {s₁ L₁ A p x C}, Safe base s₁ L₁ → head base :: L₁ = A ++ p :: x :: C → (s₁.mem x.addr).size ≥ nu →
      s.target k nu = some x → ∃ L' u, Taken base s₁ L₁ n (take s₁ p.addr x.addr) L' u ∧ Q L₁ L' u) :
    (∃ s' ap L₁ L' u, State.search k take nu s.searchFuel s freep (s.mem freep).ptr = some (s', some ap) ∧
      Safe base s' L' ∧ Block.total L' + Block.total s'.used = Block.total s'.heap ∧ s'.used = u :: s.used ∧
      ap = u.addr + HEADER ∧ u.len = HEADER * n.toNat ∧ ((s.firstFit nu).isSome → s'.heap = s.heap) ∧
      (Block.Separated (head base :: L) → Block.Separated (head base :: L₁)) ∧ Q L₁ L' u) ∨
    State.search k take nu s.searchFuel s freep (s.mem freep).ptr = some (s, none) ∧ s.firstFit nu = none := by
  have hfuel : 2 * L.length + 2 < s.searchFuel := by
    have hlen := h.length_lt
    unfold State.searchFuel
    rw [List.length_cons] at hlen
    omega
  rcases h.alloc take hfreep hnu henough hfuel with
    ⟨s₁, L₁, A, p, x, C, hsearch, hs₁, hused, hsplit, hfits, hsep, htarget, hheap, hsame⟩ | hfail
  · obtain ⟨L', u, htaken, hQ⟩ := htake hs₁ hsplit hfits htarget
    refine .inl ⟨_, _, L₁, L', u, hsearch, htaken.safe, ?_, hused ▸ htaken.used, htaken.ret, htaken.len,
      fun hsome => htaken.heap.trans (hsame hsome), hsep, hQ⟩
    have hcut := htaken.total
    rw [htaken.used, htaken.heap, hused, Block.total_cons]
    omega
  · exact .inr hfail

theorem nunits_toNat (n : UInt32) : (State.nunits n).toNat = (n.toNat + 15) / 16 + 1 := by
  have hn := n.toNat_lt
  unfold State.nunits
  rw [UInt32.toNat_ofNat_of_lt' (by dsimp only [HEADER, UInt32.size]; omega)]
  rfl

theorem nunits_pos (n : UInt32) : 0 < (State.nunits n).toNat := by
  rw [nunits_toNat]
  exact Nat.succ_pos _

/-! ## Any Calls -/

/-- **Nothing is lost**: the units that `sbrk` has returned are those of the free blocks and of the used ones. -/
inductive Inv (base : ℕ) (s : State) : Prop where
  | unused (hfreep : s.freep = none) (hheap : s.heap = []) (hused : s.used = [])
  | list (L : List Block) (hsafe : Safe base s L) (htotal : Block.total L + Block.total s.used = Block.total s.heap)

/-- The list of the static header alone -/
theorem Safe.empty {m : Mem} (hm : m base = ⟨base, 0⟩) : Safe base ⟨m, some base, [], []⟩ [] where
  ring := by
    refine ⟨⟨some base, .cons ?_⟩, List.forall_mem_cons.mpr ⟨?_, nofun⟩⟩
    · dsimp only [next, head]
      rw [hm]
      exact .nil _
    · dsimp only [Stored, head]
      rw [hm]
      rfl
  freep := ⟨head base, List.mem_cons_self, rfl⟩
  laid := .nil
  stored := nofun
  above := nofun

/-- The list that a call works on -/
theorem Inv.start (h : Inv base s) : ∃ L, (s.start base).1.freep = some (s.start base).2 ∧
    Safe base (s.start base).1 L ∧ (s.start base).1.used = s.used ∧ (s.start base).1.heap = s.heap ∧
    Block.total L + Block.total s.used = Block.total s.heap ∧ s.freeList base = L := by
  cases h with
  | unused hfreep hheap hused =>
    obtain ⟨m, freep, heap, used⟩ := s
    obtain rfl : freep = none := hfreep
    obtain rfl : heap = [] := hheap
    obtain rfl : used = [] := hused
    have hself : setSize (setPtr m base base) base 0 base = ⟨base, 0⟩ := by
      rw [setSize_self, setPtr_self]
    exact ⟨[], rfl, .empty hself, rfl, rfl, rfl, rfl⟩
  | list L hsafe htotal =>
    obtain ⟨f, -, hf⟩ := hsafe.freep
    have hstart : s.start base = (s, f.addr) := by
      unfold State.start
      rw [hf]
    rw [hstart]
    exact ⟨L, hf, hsafe, rfl, rfl, htotal, hsafe.freeList⟩

/-- What a request returns, when it does not return the null pointer -/
def Answers (s s' : State) (nbytes : UInt32) (ap : ℕ) : Prop :=
  ∃ u, s'.used = u :: s.used ∧ ap = u.addr + HEADER ∧ nbytes.toNat + HEADER ≤ u.len

theorem len_nunits (n : UInt32) : n.toNat + HEADER ≤ HEADER * (State.nunits n).toNat := by
  rw [nunits_toNat]
  dsimp only [HEADER]
  omega

theorem Inv.malloc {nbytes : UInt32} (h : Inv base s)
    (henough : Enough k (s.start base).1 (State.nunits nbytes)) :
    ∃ s' r, s.malloc k nbytes = some (s', r) ∧ Inv base s' ∧ (∀ ap, r = some ap → Answers s s' nbytes ap) ∧
      (Block.Separated (head base :: s.freeList base) → Block.Separated (head base :: s'.freeList base)) := by
  obtain ⟨L, hfreep, hsafe, hused, hheap, htotal, hlist⟩ := h.start
  rw [← hused, ← hheap] at htotal
  rw [hlist]
  unfold State.malloc
  rcases hsafe.allocate (State.takeEnd (State.nunits nbytes)) (n := State.nunits nbytes)
      (Q := fun L₁ L' _ => Block.Separated (head base :: L₁) → Block.Separated (head base :: L'))
      hfreep (nunits_pos nbytes) henough htotal (fun hs₁ hsplit hfits _ => hs₁.takeEnd hsplit (nunits_pos nbytes) hfits)
    with ⟨s', ap, L₁, L', u, hsearch, hs', htotal', hused', hap, hlen, -, hsep, hQ⟩ | ⟨hsearch, -⟩
  · refine ⟨s', some ap, hsearch, .list L' hs' htotal', fun ap' hap' => ?_, fun hL => ?_⟩
    · obtain rfl := Option.some.inj hap'
      exact ⟨u, hused ▸ hused', hap, hlen ▸ len_nunits nbytes⟩
    · rw [hs'.freeList]
      exact hQ (hsep hL)
  · refine ⟨_, none, hsearch, .list L hsafe htotal, nofun, fun hL => ?_⟩
    rwa [hsafe.freeList]

/-- `malloc_align` asks for a page more than it needs. -/
theorem nunits_room {oribytes : UInt32} (h : oribytes.toNat + 4096 < 2 ^ 32) :
    (State.nunits (oribytes + 4096)).toNat = (State.nunits oribytes).toNat + 256 := by
  have hsum : (oribytes + 4096).toNat = oribytes.toNat + 4096 := by
    rw [UInt32.toNat_add]
    exact Nat.mod_eq_of_lt h
  rw [nunits_toNat, nunits_toNat, hsum]
  omega

theorem Inv.mallocAlign {oribytes : UInt32} (h : Inv base s) (hori : oribytes.toNat + 4096 < 2 ^ 32)
    (henough : Enough k (s.start base).1 (State.nunits (oribytes + 4096))) :
    ∃ s' r, s.mallocAlign k oribytes = some (s', r) ∧ Inv base s' ∧
      ∀ ap, r = some ap → Answers s s' oribytes ap ∧ PGSIZE ∣ ap := by
  obtain ⟨L, hfreep, hsafe, hused, hheap, htotal, -⟩ := h.start
  rw [← hused, ← hheap] at htotal
  unfold State.mallocAlign
  rcases hsafe.allocate (State.takeAligned (State.nunits oribytes)) (n := State.nunits oribytes)
      (Q := fun _ _ u => PGSIZE ∣ u.addr + HEADER) hfreep (nunits_pos _) henough htotal
      (fun {s₁ L₁ A p x C} hs₁ hsplit hfits _ => by
        have hx : x ∈ L₁ := mem_of_split_tail hsplit List.mem_cons_self
        have hxmax := (hs₁.bounds (List.mem_append_left _ hx)).2
        obtain ⟨d, hd, -, hdiv, -⟩ := align_eq (hs₁.laid.grain x (List.mem_append_left _ hx)).1
          ((Nat.le_add_right _ _).trans hxmax)
        have hsize := UInt32.le_iff_toNat_le.mp hfits
        rw [nunits_room hori] at hsize
        obtain ⟨L', u, htaken, hpage, -⟩ := hs₁.takeAligned hsplit (nunits_pos oribytes) (by omega)
        exact ⟨L', u, htaken, hpage⟩) with
    ⟨s', ap, -, L', u, hsearch, hs', htotal', hused', hap, hlen, -, -, hpage⟩ | ⟨hsearch, -⟩
  · refine ⟨s', some ap, hsearch, .list L' hs' htotal', fun ap' hap' => ?_⟩
    obtain rfl := Option.some.inj hap'
    exact ⟨⟨u, hused ▸ hused', hap, hlen ▸ len_nunits oribytes⟩, hap ▸ hpage⟩
  · exact ⟨_, none, hsearch, .list L hsafe htotal, nofun⟩

/-- A used block among the others -/
theorem Safe.release (h : Safe base s L) (hb : b ∈ s.used) :
    ∃ U, (s.used.filter fun c => c.addr + HEADER ≠ b.addr + HEADER) = U ∧ (b :: U).Perm s.used := by
  refine ⟨_, rfl, ?_⟩
  have hnodup := (h.laid.sublist (List.sublist_append_right L s.used)).nodup
  generalize s.used = l at hb hnodup
  -- the filter takes out the one block that begins where `b` begins
  induction l with
  | nil => nomatch hb
  | cons c l ih =>
    rw [List.map_cons, List.nodup_cons] at hnodup
    rcases List.mem_cons.mp hb with rfl | hbl
    · rw [List.filter_cons_of_neg (by simp), List.filter_eq_self.mpr fun d hd => ?_]
      refine decide_eq_true fun he => hnodup.1 ?_
      rw [← Nat.add_right_cancel he]
      exact List.mem_map_of_mem hd
    · have hcb : c.addr ≠ b.addr := fun he => hnodup.1 (he ▸ List.mem_map_of_mem hbl)
      have hkeep : decide (c.addr + HEADER ≠ b.addr + HEADER) = true :=
        decide_eq_true fun he => hcb (Nat.add_right_cancel he)
      rw [List.filter_cons, if_pos hkeep]
      exact (List.Perm.swap c b _).trans ((ih hbl hnodup.2).cons c)

/-- The state in which `free` is called for a block of the program -/
theorem Safe.given (h : Safe base s L) (hb : b ∈ s.used) :
    let t : State := { s with used := s.used.filter fun c => c.addr + HEADER ≠ b.addr + HEADER }
    Safe base t L ∧ Block.Laid HEADER t.heap (b :: (L ++ t.used)) ∧ Block.total t.used + b.len = Block.total s.used := by
  obtain ⟨U, hU, hperm⟩ := h.release hb
  dsimp only
  rw [hU]
  have hlaid : Block.Laid HEADER s.heap (b :: (L ++ U)) := h.laid.perm
    (((List.Perm.refl L).append hperm.symm).trans List.perm_middle)
  refine ⟨⟨h.ring, h.freep, hlaid.sublist (List.sublist_cons_self _ _), fun c hc => h.stored c ?_, h.above⟩, hlaid, ?_⟩
  · exact hperm.mem_iff.mp (List.mem_cons_of_mem b hc)
  · rw [← Block.total_perm hperm, Block.total_cons, Nat.add_comm]

theorem Safe.writes {a : ℕ} {v : Header} (h : Safe base s L) (ha : HEADER ∣ a) (hb : b ∈ s.used)
    (hle : b.addr + HEADER ≤ a) (hlt : a < b.limit) : Safe base { s with mem := Function.update s.mem a v } L := by
  have hne : ∀ r ∈ head base :: (L ++ s.used), r.addr ≠ a := by
    intro r hr he
    rcases List.mem_cons.mp hr with rfl | hr
    · have habove := (h.bounds (List.mem_append_right L hb)).1
      unfold head at he
      dsimp only [HEADER] at *
      omega
    · rcases eq_or_ne r.addr b.addr with heq | hneq
      · dsimp only [HEADER] at *
        omega
      · have hapart := h.laid.apart_of_ne hr (List.mem_append_right L hb) hneq
        have hr0 := h.laid.pos r hr
        unfold Block.Apart Block.limit at *
        dsimp only [HEADER] at *
        omega
  exact ⟨h.ring.congr fun r hr => Function.update_of_ne
      (hne r (List.cons_subset_cons _ (List.subset_append_left _ _) hr)) _ _, h.freep, h.laid,
    fun c hc => (h.stored c hc).congr
      (Function.update_of_ne (hne c (List.mem_cons_of_mem _ (List.mem_append_right _ hc))) _ _), h.above⟩

/-! ## Runs -/

/-- **What is asked of a call**: a request that needs more memory asks `sbrk` for less than 2^31 bytes, and no block of
    2^32 units is made in the free list; 4096 can be added to what `malloc_align` is asked for. -/
def Meets (s : State) : Act base → Prop
  | .malloc nbytes k => Enough k (s.start base).1 (State.nunits nbytes)
  | .mallocAlign oribytes k =>
    oribytes.toNat + 4096 < 2 ^ 32 ∧ Enough k (s.start base).1 (State.nunits (oribytes + 4096))
  | .free ap => ∀ j, s.freed (ap - HEADER) = some j → j.len < HEADER * 2 ^ 32
  | .write _ _ => True

/-- **What holds between the calls**: free and used blocks overlap neither each other nor themselves, lie in the memory
    that `sbrk` has returned, and make up all of it. -/
structure Sound (base : ℕ) (s : State) : Prop where
  apart : (s.freeList base ++ s.used).Pairwise Block.Apart
  within : ∀ b ∈ s.freeList base ++ s.used, b.Within s.heap
  total : Block.total (s.freeList base) + Block.total s.used = Block.total s.heap

theorem Inv.sound (h : Inv base s) : Sound base s := by
  cases h with
  | unused hfreep hheap hused =>
    have hnil : s.freeList base = [] := by
      unfold State.freeList
      rw [hfreep]
    refine ⟨?_, ?_, ?_⟩ <;> rw [hnil, hused]
    · exact .nil
    · nofun
    · rw [hheap]
      rfl
  | list L hsafe htotal =>
    refine ⟨?_, ?_, ?_⟩ <;> rw [hsafe.freeList]
    · exact hsafe.laid.apart
    · exact hsafe.laid.within
    · exact htotal

theorem step_free (hb : b ∈ s.used) : step s (.free (b.addr + HEADER) : Act base) =
    { s with used := s.used.filter fun c => c.addr + HEADER ≠ b.addr + HEADER }.free (b.addr + HEADER) :=
  if_pos ⟨b, hb, rfl⟩

theorem step_free_cases {s' : State} {ap : ℕ} (hs : step s (.free ap : Act base) = some s') :
    ∃ b ∈ s.used, b.addr + HEADER = ap := by
  by_contra hno
  have hnone : step s (.free ap : Act base) = none := if_neg hno
  nomatch hnone.symm.trans hs

theorem step_write_cases {s' : State} {a : ℕ} {v : Header} (hs : step s (.write a v : Act base) = some s') :
    HEADER ∣ a ∧ (∃ b ∈ s.used, b.addr + HEADER ≤ a ∧ a < b.limit) ∧
      s' = { s with mem := Function.update s.mem a v } := by
  by_cases hright : HEADER ∣ a ∧ ∃ b ∈ s.used, b.addr + HEADER ≤ a ∧ a < b.limit
  · have hstep : step s (.write a v : Act base) = some { s with mem := Function.update s.mem a v } := if_pos hright
    exact ⟨hright.1, hright.2, Option.some.inj (hs.symm.trans hstep)⟩
  · have hnone : step s (.write a v : Act base) = none := if_neg hright
    nomatch hnone.symm.trans hs

/-- A block is freed that the program has. -/
theorem Safe.freeUsed (h : Safe base s L) (htotal : Block.total L + Block.total s.used = Block.total s.heap)
    (hb : b ∈ s.used) (hfit : ∀ j, s.freed b.addr = some j → j.len < HEADER * 2 ^ 32) :
    ∃ s' L', step s (.free (b.addr + HEADER) : Act base) = some s' ∧ Safe base s' L' ∧
      Block.total L' + Block.total s'.used = Block.total s'.heap ∧
      (Block.Separated (head base :: L) → Block.Separated (head base :: L')) := by
  obtain ⟨ht, hlaid, hused⟩ := h.given hb
  obtain ⟨s', L', j, hfree, hs', hheap', hused', hsep, htotal', -⟩ := ht.free hlaid (h.stored b hb) hfit
  refine ⟨s', L', ?_, hs', ?_, hsep⟩
  · exact (step_free hb).trans hfree
  · rw [hheap', hused', htotal']
    dsimp only at hused ⊢
    omega

theorem Inv.step {s' : State} {a : Act base} (h : Inv base s) (hmeets : Meets s a) (hs : step s a = some s') :
    Inv base s' := by
  -- One case for each call.
  cases a with
  | malloc nbytes k =>
    obtain ⟨t, r, hmalloc, ht, -⟩ := h.malloc hmeets
    have hstep : Umalloc.step s (.malloc nbytes k) = some t := congrArg (Option.map Prod.fst) hmalloc
    obtain rfl := Option.some.inj (hstep.symm.trans hs)
    exact ht
  | mallocAlign oribytes k =>
    obtain ⟨t, r, hmalloc, ht, -⟩ := h.mallocAlign hmeets.1 hmeets.2
    have hstep : Umalloc.step s (.mallocAlign oribytes k) = some t := congrArg (Option.map Prod.fst) hmalloc
    obtain rfl := Option.some.inj (hstep.symm.trans hs)
    exact ht
  | free ap =>
    obtain ⟨b, hb, rfl⟩ := step_free_cases hs
    -- Before the first call of `malloc` nothing is in use that could be freed.
    cases h with
    | unused _ _ hused =>
      rw [hused] at hb
      nomatch hb
    | list L hsafe htotal =>
      have hfit : ∀ j, s.freed (b.addr + HEADER - HEADER) = some j → j.len < HEADER * 2 ^ 32 := hmeets
      rw [Nat.add_sub_cancel] at hfit
      obtain ⟨t, L', ht, hsafe', htotal', -⟩ := hsafe.freeUsed htotal hb hfit
      obtain rfl := Option.some.inj (ht.symm.trans hs)
      exact .list L' hsafe' htotal'
  | write a v =>
    obtain ⟨ha, ⟨b, hb, hle, hlt⟩, rfl⟩ := step_write_cases hs
    cases h with
    | unused _ _ hused =>
      rw [hused] at hb
      nomatch hb
    | list L hsafe htotal => exact .list L (hsafe.writes ha hb hle hlt) htotal

theorem Inv.reachable (h : (system base).ReachableUnder Meets s) : Inv base s :=
  System.invariant (Inv base) (fun s (hs : s.freep = none ∧ s.heap = [] ∧ s.used = []) => .unused hs.1 hs.2.1 hs.2.2)
    (fun _ _ _ hi hm hs => hi.step hm hs) h

/-! ## Conditions That Are Evaluated -/

instance (k : Sbrk base) (s : State) (nu : UInt32) : Decidable (Grows k s nu) :=
  decidable_of_iff (∀ r ∈ s.obtain k nu,
      HEADER * (State.atLeast nu).toNat < 2 ^ 31 ∧ ∀ j ∈ r.2.freed r.1, j.len < HEADER * 2 ^ 32)
    ⟨fun h q s' hr => h (q, s') hr, fun h r hr => h r.1 r.2 hr⟩

instance (k : Sbrk base) (s : State) (nu : UInt32) : Decidable (Enough k s nu) :=
  inferInstanceAs (Decidable (_ → _))

instance (s : State) (a : Act base) : Decidable (Meets s a) :=
  match a with
  | .malloc nbytes k => inferInstanceAs (Decidable (Enough k (s.start base).1 (State.nunits nbytes)))
  | .mallocAlign oribytes k => inferInstanceAs (Decidable (oribytes.toNat + 4096 < 2 ^ 32 ∧
      Enough k (s.start base).1 (State.nunits (oribytes + 4096))))
  | .free ap => inferInstanceAs (Decidable (∀ j ∈ s.freed (ap - HEADER), j.len < HEADER * 2 ^ 32))
  | .write _ _ => .isTrue trivial

/-- **The allocator is safe in every run whose calls meet the condition.** Between the calls the blocks are sound; a
    request that returns a block returns one of at least the bytes that were asked for and a header, and
    `malloc_align` one at a page; and a block that the program has can be freed. -/
theorem blocks_safe (base : ℕ) (s : State) :
    (system base).ReachableUnder Meets s →
      Sound base s ∧
      (∀ nbytes (k : Sbrk base), Meets s (.malloc nbytes k) →
        ∃ s' r, s.malloc k nbytes = some (s', r) ∧ Sound base s' ∧ ∀ ap, r = some ap → Answers s s' nbytes ap) ∧
      (∀ oribytes (k : Sbrk base), Meets s (.mallocAlign oribytes k) →
        ∃ s' r, s.mallocAlign k oribytes = some (s', r) ∧ Sound base s' ∧
          ∀ ap, r = some ap → Answers s s' oribytes ap ∧ PGSIZE ∣ ap) ∧
      ∀ b ∈ s.used, ∃ s', step s (.free (b.addr + HEADER) : Act base) = some s' := by
  intro h
  have hinv := Inv.reachable h
  refine ⟨hinv.sound, fun nbytes k hmeets => ?_, fun oribytes k hmeets => ?_, fun b hb => ?_⟩
  · obtain ⟨s', r, hmalloc, hinv', hanswer, -⟩ := hinv.malloc hmeets
    exact ⟨s', r, hmalloc, hinv'.sound, hanswer⟩
  · obtain ⟨s', r, hmalloc, hinv', hanswer⟩ := hinv.mallocAlign hmeets.1 hmeets.2
    exact ⟨s', r, hmalloc, hinv'.sound, hanswer⟩
  · cases hinv with
    | unused _ _ hused =>
      rw [hused] at hb
      nomatch hb
    | list L hsafe _ =>
      obtain ⟨ht, hlaid, -⟩ := hsafe.given hb
      rw [step_free hb]
      exact ht.free_ends hlaid

/-- A program that has not called the allocator yet -/
def fresh : State := ⟨fun _ => ⟨0, 0⟩, none, [], []⟩

/-- A heap that begins in the second page, and the static header at 64 -/
def pageTwo : Sbrk 64 := contiguous (by decide : 64 + HEADER ≤ 4096) (by decide)

/-- Two blocks are handed out and the first one is freed again. -/
theorem blocks_safe_three : ∃ s, s.used = [⟨8176, 8208⟩] ∧ Sound 64 s := by
  have hrun : ((system 64).runUnder (fun s a => decide (Meets s a)) fresh
      [.malloc 24 pageTwo, .mallocAlign 8192 pageTwo, .free 69600]).any
        (fun s => decide (s.used = [⟨8176, 8208⟩])) = true := by
    decide +kernel
  obtain ⟨s, hs, hused⟩ := System.exists_reachableUnder_of_runUnder (G := Meets)
    (fun s a h => of_decide_eq_true h) (show (system 64).init fresh from ⟨rfl, rfl, rfl⟩) hrun
  exact ⟨s, of_decide_eq_true hused, (blocks_safe 64 s hs).1⟩

/-- **A block outside of the memory**: `malloc_align` of 4096 bytes less than 2^32, and one, makes `morecore` ask for
    16 bytes. -/
theorem block_outside : ∃ s' ap, fresh.mallocAlign pageTwo 0xffffefff = some (s', some ap) ∧
    ∃ u ∈ s'.used, ¬ u.Within s'.heap := by
  have hcall : (fresh.mallocAlign pageTwo 0xffffefff).map (fun r => (r.1.used, r.1.heap, r.2)) =
      some ([⟨8176, 4294963216⟩], [⟨4096, 16⟩], some 8192) := by
    decide +kernel
  obtain ⟨⟨s', r⟩, hmalloc, hr⟩ := Option.map_eq_some_iff.mp hcall
  simp only [Prod.mk.injEq] at hr
  obtain ⟨hused, hheap, rfl⟩ := hr
  refine ⟨s', 8192, hmalloc, ⟨8176, 4294963216⟩, by simp [hused], fun hwithin => ?_⟩
  obtain ⟨r, hr, hle, hlt⟩ := hwithin 8176 ⟨le_rfl, by decide⟩
  rw [hheap, List.mem_singleton] at hr
  subst hr
  exact absurd hlt (by decide)

end Xv6.User.Umalloc
