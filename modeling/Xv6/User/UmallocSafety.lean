import Mathlib
import Xv6.User.UmallocRing

/-!
# The Blocks of a Program

- `Safe`: the free blocks are in a ring with the static header, and overlap neither each other nor a used block;
- `Safe.free`, `Safe.morecore`, `Safe.search`: what the functions do with them;
- `Safe.takeEnd`, `Safe.takeAligned`: the two ways to take a block out of a free one.
-/

namespace Xv6.User.Umalloc

open Xv6.Lib Xv6.Kernel

variable {base : ℕ} {s : State} {k : Sbrk base} {A B C L : List Block} {b p r : Block}

/-- The static header -/
def head (base : ℕ) : Block := ⟨base, 0⟩

/-- **What is free and what is used**: `L` are the blocks of the list behind the static header. -/
structure Safe (base : ℕ) (s : State) (L : List Block) : Prop where
  ring : Ring s.mem (head base :: L)
  freep : ∃ p ∈ head base :: L, s.freep = some p.addr
  laid : Block.Laid HEADER s.heap (L ++ s.used)
  stored : ∀ b ∈ s.used, Stored s.mem b
  above : ∀ r ∈ s.heap, base + HEADER ≤ r.addr ∧ r.limit ≤ MAXVA

/-- The block that a block of the program would become in the free list -/
def State.freed (s : State) (bp : ℕ) : Option Block :=
  s.freep.bind fun freep => (spot s.mem bp s.fuel freep).map (merged s.mem bp)

/-! ## Blocks and Addresses -/

theorem within_above {heap : List Block} (habove : ∀ r ∈ heap, base + HEADER ≤ r.addr ∧ r.limit ≤ MAXVA)
    (hpos : 0 < b.len) (hb : b.Within heap) : base + HEADER ≤ b.addr ∧ b.limit ≤ MAXVA := by
  obtain ⟨r, hr, hrb⟩ := hb b.addr ⟨le_rfl, Nat.lt_add_of_pos_right hpos⟩
  obtain ⟨q, hq, hqb⟩ := hb (b.limit - 1) ⟨by unfold Block.limit; omega, by unfold Block.limit; omega⟩
  have hr' := habove r hr
  have hq' := habove q hq
  refine ⟨hr'.1.trans hrb.1, ?_⟩
  have := hqb.2
  omega

theorem Safe.bounds (h : Safe base s L) (hb : b ∈ L ++ s.used) : base + HEADER ≤ b.addr ∧ b.limit ≤ MAXVA :=
  within_above h.above (h.laid.pos b hb) (h.laid.within b hb)

/-- The static header is below every block. -/
theorem Safe.head_le (h : Safe base s L) (hp : p ∈ head base :: L) : base ≤ p.addr := by
  rcases List.mem_cons.mp hp with rfl | hp
  · exact le_rfl
  · have := (h.bounds (List.mem_append_left _ hp)).1
    exact (Nat.le_add_right _ _).trans this

theorem Safe.nodup (h : Safe base s L) : ((head base :: L).map Block.addr).Nodup := by
  rw [List.map_cons, List.nodup_cons]
  refine ⟨fun hmem => ?_, (h.laid.sublist (List.sublist_append_left L s.used)).nodup⟩
  obtain ⟨b, hb, heq⟩ := List.mem_map.mp hmem
  have hlt := (h.bounds (List.mem_append_left _ hb)).1
  rw [heq] at hlt
  exact absurd hlt (by unfold head; simp)

/-- A block besides the others begins at an address of its own. -/
theorem addr_ne {heap U : List Block} (habove : base + HEADER ≤ b.addr) (hb : Block.Laid HEADER heap (b :: (L ++ U))) :
    ∀ r ∈ head base :: (L ++ U), r.addr ≠ b.addr := by
  obtain ⟨hapart, hpos, -, -, hothers⟩ := Block.Laid.cons_iff.mp hb
  intro r hr
  rcases List.mem_cons.mp hr with rfl | hr
  · unfold head
    dsimp only [HEADER] at habove ⊢
    omega
  · have hbr := hapart r hr
    have hr0 := hothers.pos r hr
    unfold Block.Apart Block.limit at hbr
    omega

theorem Safe.length_lt (h : Safe base s L) : (head base :: L).length ≤ s.fuel :=
  Nat.succ_le_succ (h.laid.sublist (List.sublist_append_left L s.used)).length_le

/-- The ring, from one of its blocks on -/
theorem Safe.seg (h : Safe base s L) (hp : p ∈ head base :: L) :
    ∃ R, Ring s.mem (p :: R) ∧ (p :: R).Perm (head base :: L) := by
  obtain ⟨A, B, hsplit⟩ := List.append_of_mem hp
  have hring := h.ring
  rw [hsplit] at hring ⊢
  have hperm : ((p :: B) ++ A).Perm (A ++ p :: B) := List.perm_append_comm
  exact ⟨B ++ A, hring.rotate, hperm⟩

/-! ## Freeing a Block -/

/-- Where the static header stands in the list -/
theorem head_split (h : head base :: L = A ++ p :: B) :
    (A = [] ∧ p = head base ∧ L = B) ∨ ∃ A', A = head base :: A' ∧ L = A' ++ p :: B := by
  cases A with
  | nil =>
    obtain ⟨rfl, rfl⟩ := List.cons.inj h
    exact .inl ⟨rfl, rfl, rfl⟩
  | cons a A =>
    obtain ⟨rfl, rfl⟩ := List.cons.inj h
    exact .inr ⟨A, rfl, rfl⟩

theorem mem_of_split_tail (h : head base :: L = A ++ p :: B) (hr : r ∈ B) : r ∈ L := by
  rcases head_split h with ⟨-, -, rfl⟩ | ⟨A', -, rfl⟩
  · exact hr
  · simp [hr]

/-- A block of the ring that begins below another block ends below it. -/
theorem limit_le (hb : Block.Laid HEADER s.heap (b :: (L ++ s.used)))
    (hp : p ∈ head base :: L) (hlt : p.addr < b.addr) : p.limit ≤ b.addr := by
  rcases List.mem_cons.mp hp with rfl | hp
  · exact hlt.le
  · have hapart := (Block.Laid.cons_iff.mp hb).1 p (List.mem_append_left _ hp)
    unfold Block.Apart Block.limit at *
    omega

/-- What follows a block of the ring -/
theorem Safe.next_eq (h : Safe base s L) (hsplit : head base :: L = A ++ p :: B) :
    (s.mem p.addr).ptr = (B.head?.map Block.addr).getD base := by
  have hring := h.ring
  cases B with
  | nil =>
    rcases head_split hsplit with ⟨-, rfl, rfl⟩ | ⟨A', rfl, -⟩
    · exact hring.next_single
    · rw [hsplit] at hring
      exact hring.next_last
  | cons r C =>
    rw [hsplit] at hring
    exact hring.next_eq

/-- In a list that is in order there is one place for a block: behind the last one below it. -/
theorem Safe.place (h : Safe base s L) (hsplit : head base :: L = A ++ p :: B) (hsep : Block.Separated (head base :: L))
    (hb : Block.Laid HEADER s.heap (b :: (L ++ s.used))) (hstops : Stops s.mem b.addr p.addr) :
    p.limit ≤ b.addr ∧ ∀ r ∈ B, b.limit ≤ r.addr := by
  obtain ⟨hapart, hpos, -, hwithin, -⟩ := Block.Laid.cons_iff.mp hb
  have habove := (within_above h.above hpos hwithin).1
  have hp : p ∈ head base :: L := by simp [hsplit]
  have hple := h.head_le hp
  unfold Stops at hstops
  rw [h.next_eq hsplit] at hstops
  -- At the end of the list the search stops when `b` is above the last block.
  cases B with
  | nil =>
    have hlt : p.addr < b.addr := by
      rw [show (([] : List Block).head?.map Block.addr).getD base = base from rfl] at hstops
      dsimp only [HEADER] at habove
      omega
    exact ⟨limit_le hb hp hlt, nofun⟩
  -- Else it stops when `b` is between two blocks.
  | cons r C =>
    rw [hsplit] at hsep
    obtain ⟨hgap, htail⟩ := List.pairwise_cons.mp (List.pairwise_append.mp hsep).2.1
    have hpr : p.addr < r.addr := (Nat.le_add_right _ _).trans_lt (hgap r List.mem_cons_self)
    have hbetween : p.addr < b.addr ∧ b.addr < r.addr := by
      rw [show ((r :: C).head?.map Block.addr).getD base = r.addr from rfl] at hstops
      omega
    have hbr : b.limit ≤ r.addr := by
      have hr := hapart r (List.mem_append_left _ (mem_of_split_tail hsplit List.mem_cons_self))
      unfold Block.Apart Block.limit at *
      omega
    refine ⟨limit_le hb hp hbetween.1, List.forall_mem_cons.mpr ⟨hbr, fun c hc => ?_⟩⟩
    have hrc := (List.pairwise_cons.mp htail).1 c hc
    exact hbr.trans ((Nat.le_add_right _ _).trans hrc.le)

/-- The list behind the static header, once a block has been inserted into the ring -/
theorem exists_insert (hsplit : head base :: L = A ++ p :: B) (hb : base < b.addr) :
    ∃ L', head base :: L' = A ++ Block.insertAfter p b B ∧
      (∀ {u heap} {R : List Block}, Block.Laid u heap (b :: (L ++ R)) → Block.Laid u heap (L' ++ R)) ∧
      Block.total L' = Block.total L + b.len := by
  rcases head_split hsplit with ⟨rfl, rfl, rfl⟩ | ⟨A', rfl, rfl⟩
  · -- the static header takes no block
    have hne : (head base).limit ≠ (b.absorb L).1.addr := by
      rw [Block.absorb_addr]
      exact hb.ne
    refine ⟨(b.absorb L).1 :: (b.absorb L).2, ?_, fun hlaid => hlaid.absorb, ?_⟩
    · unfold Block.insertAfter Block.attach
      rw [if_neg hne]
      rfl
    · rw [Block.total_cons, Block.total_absorb, Nat.add_comm]
  · refine ⟨A' ++ Block.insertAfter p b B, rfl, fun hlaid => hlaid.insertAfter, ?_⟩
    rw [Block.total_append, Block.total_insertAfter, Block.total_append, Block.total_cons]
    omega

theorem Safe.used_ne (h : Safe base s L) (hp : p ∈ head base :: L) (hb : b ∈ s.used) : b.addr ≠ p.addr := by
  rcases List.mem_cons.mp hp with rfl | hp
  · have habove := (h.bounds (List.mem_append_right L hb)).1
    unfold head
    dsimp only [HEADER] at habove ⊢
    omega
  · have hapart := (List.pairwise_append.mp h.laid.apart).2.2 p hp b hb
    have hp0 := h.laid.pos p (List.mem_append_left _ hp)
    have hb0 := h.laid.pos b (List.mem_append_right _ hb)
    unfold Block.Apart Block.limit at hapart
    omega

/-- **The search ends**, whatever the order of the list. -/
theorem Safe.spot (h : Safe base s L) (hb : Block.Laid HEADER s.heap (b :: (L ++ s.used))) :
    ∃ f p, s.freep = some f ∧ p ∈ head base :: L ∧ Stops s.mem b.addr p.addr ∧
      State.spot s.mem b.addr s.fuel f = some p.addr := by
  obtain ⟨-, hpos, -, hwithin, -⟩ := Block.Laid.cons_iff.mp hb
  have habove := (within_above h.above hpos hwithin).1
  have hne := addr_ne habove hb
  have hbase : base < b.addr := by
    dsimp only [HEADER] at habove
    omega
  obtain ⟨f, hf, hfreep⟩ := h.freep
  obtain ⟨R, hring, hperm⟩ := h.seg hf
  obtain ⟨q, hq, hqstops⟩ := Ring.exists_stops (A := []) h.ring hbase
    (fun r hr => hne r (List.mem_cons_of_mem _ (List.mem_append_left _ hr)))
    (fun r hr q hq => by
      obtain rfl := Option.some.inj hr
      exact h.head_le hq)
  have hseg : Seg (next s.mem) (some f.addr) ((f :: R).map Block.addr) (some f.addr) := .cons hring.seg
  have hfuel : ((f :: R).map Block.addr).length ≤ s.fuel := by
    rw [List.length_map, hperm.length_eq]
    exact h.length_lt
  obtain ⟨a, ha, hstops, hspot⟩ := spot_of_seg hseg
    ⟨q.addr, List.mem_map_of_mem (hperm.mem_iff.mpr hq), hqstops⟩ hfuel
  obtain ⟨p, hp, rfl⟩ := List.mem_map.mp ha
  exact ⟨f.addr, p, hfreep, hperm.mem_iff.mp hp, hstops, hspot⟩

theorem Safe.free_ends (h : Safe base s L) (hb : Block.Laid HEADER s.heap (b :: (L ++ s.used))) :
    ∃ s', s.free (b.addr + HEADER) = some s' := by
  obtain ⟨f, p, hfreep, -, -, hspot⟩ := h.spot hb
  unfold State.free
  rw [hfreep]
  dsimp only
  rw [Nat.add_sub_cancel, hspot]
  exact ⟨_, rfl⟩

/-- **`free`** finds a place for the block, and the block is in the ring there. -/
theorem Safe.free (h : Safe base s L) (hb : Block.Laid HEADER s.heap (b :: (L ++ s.used))) (hstored : Stored s.mem b)
    (hfit : ∀ j, s.freed b.addr = some j → j.len < HEADER * 2 ^ 32) :
    ∃ s' L' j, s.free (b.addr + HEADER) = some s' ∧ Safe base s' L' ∧ s'.heap = s.heap ∧ s'.used = s.used ∧
      (Block.Separated (head base :: L) → Block.Separated (head base :: L')) ∧
      Block.total L' = Block.total L + b.len ∧ L'.length ≤ L.length + 1 ∧
      s.freed b.addr = some j ∧ j ∈ L' ∧ b.len ≤ j.len ∧ ∀ r ∈ L', r = j ∨ r ∈ L := by
  obtain ⟨hapart, hpos, -, hwithin, -⟩ := Block.Laid.cons_iff.mp hb
  have habove := (within_above h.above hpos hwithin).1
  have hbase : base < b.addr := by
    dsimp only [HEADER] at habove
    omega
  have hne := addr_ne habove hb
  obtain ⟨f, p, hfreep, hp, hstops, hspot⟩ := h.spot hb
  obtain ⟨A, B, hsplit⟩ := List.append_of_mem hp
  -- the insertion
  have hfreed : s.freed b.addr = some (merged s.mem b.addr p.addr) := by
    unfold State.freed
    rw [hfreep, Option.bind_some, hspot]
    rfl
  have hringA := h.ring
  have hnodup := h.nodup
  rw [hsplit] at hringA hnodup
  obtain ⟨hlink, hframe, hmerged⟩ := hringA.link hstored
    (fun r hr => hne r (by
      rw [← hsplit] at hr
      exact (List.cons_subset_cons _ (List.subset_append_left _ _)) hr))
    (fun hB => by
      subst hB
      rw [h.next_eq hsplit]
      exact ((hbase.trans_le (Nat.le_add_right _ _))).ne) hnodup (hfit _ hfreed)
  obtain ⟨L', hL', hlaid, htotal⟩ := exists_insert hsplit hbase
  have hpart := hlaid hb
  have hlength : L'.length ≤ L.length + 1 := by
    have hins := Block.length_insertAfter (p := p) (b := b) (B := B)
    have hold := congrArg List.length hsplit
    have hnew := congrArg List.length hL'
    simp only [List.length_cons, List.length_append] at hold hnew
    omega
  have hhead : ∀ r ∈ L', r ≠ head base := fun r hr he => by
    have hr0 := hpart.pos r (List.mem_append_left _ hr)
    rw [he] at hr0
    exact absurd hr0 (lt_irrefl 0)
  have hmem : ∀ r, r ∈ head base :: L' ↔ r ∈ A ∨ r ∈ Block.insertAfter p b B := fun r => by
    rw [hL', List.mem_append]
  have hfree : s.free (b.addr + HEADER) = some
      { s with mem := State.linkLower (State.linkUpper s.mem b.addr p.addr) b.addr p.addr, freep := some p.addr } := by
    unfold State.free
    rw [hfreep]
    dsimp only
    rw [Nat.add_sub_cancel, hspot]
  refine ⟨_, L', Block.inserted p b B, hfree, ⟨hL' ▸ hlink, ?_, hpart, fun u hu => ?_, h.above⟩, rfl, rfl,
    fun hsep => ?_, htotal, hlength, hmerged ▸ hfreed, ?_, Block.len_le_inserted, fun r hr => ?_⟩
  · obtain ⟨d, hd, hdp⟩ := Block.exists_addr_insertAfter (p := p) (b := b) (B := B)
    exact ⟨d, (hmem d).mpr (.inr hd), congrArg some hdp.symm⟩
  · exact (h.stored u hu).congr (hframe u.addr
      (hne u (List.mem_cons_of_mem _ (List.mem_append_right _ hu))) (h.used_ne hp hu))
  · obtain ⟨hpb, hBb⟩ := h.place hsplit hsep hb hstops
    rw [hL']
    exact Block.Separated.insertAfter (hsplit ▸ hsep) hpb hBb
  · refine (List.mem_cons.mp ((hmem _).mpr (.inr Block.inserted_mem))).resolve_left fun he => ?_
    have hlen : b.len ≤ (head base).len := he ▸ Block.len_le_inserted
    exact absurd (hpos.trans_le hlen) (lt_irrefl 0)
  · have hold : r = Block.inserted p b B ∨ r ∈ A ++ p :: B := by
      rcases (hmem r).mp (List.mem_cons_of_mem _ hr) with hA | hins
      · exact .inr (List.mem_append_left _ hA)
      · rcases Block.mem_insertAfter hins with rfl | rfl | hB
        · exact .inl rfl
        · exact .inr (by simp)
        · exact .inr (by simp [hB])
    rw [← hsplit] at hold
    exact hold.imp_right fun hr' => (List.mem_cons.mp hr').resolve_left (hhead r hr)

/-! ## More Memory -/

/-- What is asked of a call of `morecore` that gets memory: the number of bytes is an `int`, and the block that the
    memory becomes part of has less than 2^32 units. -/
def Grows (k : Sbrk base) (s : State) (nu : UInt32) : Prop :=
  ∀ q s', s.obtain k nu = some (q, s') →
    HEADER * (State.atLeast nu).toNat < 2 ^ 31 ∧ ∀ j, s'.freed q = some j → j.len < HEADER * 2 ^ 32

theorem toInt_eq {n : ℕ} (h : n < 2 ^ 31) : State.toInt n = n := by
  unfold State.toInt
  rw [BitVec.toInt_ofNat', Int.bmod_def]
  split <;> omega

/-- Memory that `sbrk` has returned -/
theorem obtain_eq {q : ℕ} {s' : State} {nu : UInt32} (hobtain : s.obtain k nu = some (q, s'))
    (hint : HEADER * (State.atLeast nu).toNat < 2 ^ 31) :
    s' = { s with heap := ⟨q, HEADER * (State.atLeast nu).toNat⟩ :: s.heap,
                  mem := setSize s.mem q (State.atLeast nu) } ∧
      base + HEADER ≤ q ∧ HEADER ∣ q ∧ q + HEADER * (State.atLeast nu).toNat ≤ MAXVA ∧
      ∀ r ∈ s.heap, r.Apart ⟨q, HEADER * (State.atLeast nu).toNat⟩ := by
  unfold State.obtain State.sbrk at hobtain
  dsimp only at hobtain
  rw [Nat.mul_comm, toInt_eq hint] at hobtain
  generalize HEADER * (State.atLeast nu).toNat = n at hobtain ⊢
  cases hgrow : k.grow s.heap n with
  | none =>
    rw [hgrow] at hobtain
    nomatch hobtain
  | some a =>
    rw [hgrow, Option.map_some, Option.map_some, if_neg (by omega)] at hobtain
    obtain ⟨rfl, rfl⟩ := Prod.mk.inj (Option.some.inj hobtain)
    have hfresh := k.fresh hgrow (by omega)
    rw [Int.toNat_natCast] at hfresh
    exact ⟨rfl, hfresh⟩

theorem Safe.morecore {nu : UInt32} (h : Safe base s L) (hgrows : Grows k s nu) {q : ℕ} {s₁ : State}
    (hobtain : s.obtain k nu = some (q, s₁)) :
    ∃ s' L' j, s.morecore k nu = some (s', s'.freep) ∧ Safe base s' L' ∧ s'.heap = s₁.heap ∧ s'.used = s.used ∧
      (Block.Separated (head base :: L) → Block.Separated (head base :: L')) ∧
      Block.total L' = Block.total L + HEADER * (State.atLeast nu).toNat ∧ L'.length ≤ L.length + 1 ∧
      s₁.freed q = some j ∧ j ∈ L' ∧ HEADER * nu.toNat ≤ j.len ∧ ∀ r ∈ L', r = j ∨ r ∈ L := by
  obtain ⟨hint, hfit⟩ := hgrows q s₁ hobtain
  obtain ⟨rfl, habove, hgrain, hmax, hfresh⟩ := obtain_eq hobtain hint
  have hnu : nu.toNat ≤ (State.atLeast nu).toNat ∧ 0 < (State.atLeast nu).toNat := by
    unfold State.atLeast
    split
    · next hlt =>
      rw [UInt32.lt_iff_toNat_lt] at hlt
      exact ⟨hlt.le, by decide⟩
    · next hge =>
      rw [UInt32.lt_iff_toNat_lt, not_lt] at hge
      exact ⟨le_rfl, (by decide : 0 < (4096 : UInt32).toNat).trans_le hge⟩
  generalize State.atLeast nu = n at hnu ⊢ hobtain hint hfit hmax hfresh
  set b : Block := ⟨q, HEADER * n.toNat⟩ with hb
  have hq : base + HEADER ≤ q := habove
  have hlaid : Block.Laid HEADER (b :: s.heap) (b :: (L ++ s.used)) := by
    refine Block.Laid.cons_iff.mpr ⟨fun c hc => ?_, Nat.mul_pos (by decide) hnu.2, ⟨hgrain, Nat.dvd_mul_right _ _⟩,
      fun x hx => ⟨b, List.mem_cons_self, hx⟩, h.laid.mono fun c hc x hx => ?_⟩
    · -- a block that overlaps the new memory would lie in the old one too
      by_contra hover
      have hc0 := h.laid.pos c hc
      have hb0 : 0 < b.len := Nat.mul_pos (by decide) hnu.2
      obtain ⟨r, hr, hx⟩ := h.laid.within c hc (max b.addr c.addr) (by
        unfold Block.Apart Block.Has Block.limit at *
        omega)
      have hrb := hfresh r hr
      unfold Block.Apart Block.Has Block.limit at *
      omega
    · obtain ⟨r, hr, hrx⟩ := hc x hx
      exact ⟨r, List.mem_cons_of_mem b hr, hrx⟩
  have hne := addr_ne hq hlaid
  have hsafe : Safe base { s with heap := b :: s.heap, mem := setSize s.mem q n } L := by
    refine ⟨h.ring.congr fun r hr => ?_, h.freep, hlaid.sublist (List.sublist_cons_self _ _), fun u hu => ?_,
      List.forall_mem_cons.mpr ⟨⟨hq, hmax⟩, h.above⟩⟩
    · exact setSize_of_ne (hne r (List.cons_subset_cons _ (List.subset_append_left _ _) hr)) n
    · exact (h.stored u hu).congr
        (setSize_of_ne (hne u (List.mem_cons_of_mem _ (List.mem_append_right _ hu))) n)
  have hstored : Stored (setSize s.mem q n) b := by
    unfold Stored
    rw [hb, setSize_self]
  obtain ⟨s', L', j, hfree, hs', hheap, hused, hsep, htotal, hlength, hfreed, hj, hlen, hrest⟩ :=
    hsafe.free hlaid hstored hfit
  refine ⟨s', L', j, ?_, hs', hheap, hused, hsep, htotal, hlength, hfreed, hj,
    (Nat.mul_le_mul_left _ hnu.1).trans hlen, hrest⟩
  unfold State.morecore
  rw [hobtain]
  dsimp only
  rw [hfree]
  rfl

/-! ## The Search for a Block -/

/-- The addresses from `p` on up to `q` -/
def State.walk (m : Mem) (q : ℕ) : ℕ → ℕ → List ℕ
  | 0, _ => []
  | fuel + 1, p => p :: if p = q then [] else walk m q fuel (m p).ptr

/-- The first block behind `freep` that has `nu` units -/
def State.firstFit (s : State) (nu : UInt32) : Option ℕ :=
  s.freep.bind fun freep => (walk s.mem freep s.fuel (s.mem freep).ptr).find? fun p => (s.mem p).size ≥ nu

theorem walk_of_seg {m : Mem} {q fuel a : ℕ} {xs : List ℕ} (h : Seg (next m) (some a) (xs ++ [q]) (next m q))
    (hq : q ∉ xs) (hfuel : xs.length < fuel) : State.walk m q fuel a = xs ++ [q] := by
  induction xs generalizing a fuel with
  | nil =>
    obtain ⟨ha, -⟩ := Seg.cons_iff.mp h
    obtain rfl := Option.some.inj ha
    obtain ⟨fuel, rfl⟩ := Nat.exists_eq_succ_of_ne_zero (Nat.ne_zero_of_lt hfuel)
    unfold State.walk
    rw [if_pos rfl]
    rfl
  | cons x xs ih =>
    obtain ⟨ha, hxs⟩ := Seg.cons_iff.mp h
    obtain rfl := Option.some.inj ha
    obtain ⟨fuel, rfl⟩ := Nat.exists_eq_succ_of_ne_zero (Nat.ne_zero_of_lt hfuel)
    obtain ⟨hne, hnot⟩ := not_or.mp (List.mem_cons.not.mp hq)
    unfold State.walk
    rw [if_neg (Ne.symm hne), ih hxs hnot (Nat.lt_of_succ_lt_succ hfuel)]
    rfl

/-- The search goes from block to block up to `freep`, and then asks for memory. -/
theorem search_of_seg (take : State → ℕ → ℕ → State × ℕ) (nu : UInt32) {fuel freep prevp a : ℕ} {xs : List ℕ}
    (h : Seg (next s.mem) (some a) (xs ++ [freep]) (next s.mem freep)) (hprev : (s.mem prevp).ptr = a)
    (hfreep : s.freep = some freep) (hnot : freep ∉ xs) (hfuel : xs.length < fuel) :
    (∃ pr x, pr ∈ prevp :: xs ∧ (s.mem pr).ptr = x ∧ (s.mem x).size ≥ nu ∧
      (xs ++ [freep]).find? (fun p => (s.mem p).size ≥ nu) = some x ∧
      State.search k take nu fuel s prevp a = some ((take s pr x).1, some (take s pr x).2)) ∨
    (xs ++ [freep]).find? (fun p => (s.mem p).size ≥ nu) = none ∧
      State.search k take nu fuel s prevp a =
        match s.morecore k nu with
        | none => none
        | some (s', none) => some (s', none)
        | some (s', some p) => State.search k take nu (fuel - (xs.length + 1)) s' p (s'.mem p).ptr := by
  -- Induction on the blocks between `a` and `freep`.
  induction xs generalizing prevp a fuel with
  -- The search has come to `freep`: it fits, or memory is asked for.
  | nil =>
    obtain ⟨ha, -⟩ := Seg.cons_iff.mp h
    obtain rfl := Option.some.inj ha
    obtain ⟨fuel, rfl⟩ := Nat.exists_eq_succ_of_ne_zero (Nat.ne_zero_of_lt hfuel)
    by_cases hfits : (s.mem a).size ≥ nu
    · refine .inl ⟨prevp, a, List.mem_cons_self, hprev, hfits, ?_, ?_⟩
      · exact List.find?_cons_of_pos (decide_eq_true hfits)
      · unfold State.search
        rw [if_pos hfits]
    · refine .inr ⟨List.find?_cons_of_neg (by simpa using hfits), ?_⟩
      rw [State.search, if_neg hfits, if_pos hfreep]
      rfl
  | cons x xs ih =>
    obtain ⟨ha, hxs⟩ := Seg.cons_iff.mp h
    obtain rfl := Option.some.inj ha
    obtain ⟨fuel, rfl⟩ := Nat.exists_eq_succ_of_ne_zero (Nat.ne_zero_of_lt hfuel)
    obtain ⟨hne, hnot⟩ := not_or.mp (List.mem_cons.not.mp hnot)
    by_cases hfits : (s.mem a).size ≥ nu
    · refine .inl ⟨prevp, a, List.mem_cons_self, hprev, hfits, ?_, ?_⟩
      · exact List.find?_cons_of_pos (decide_eq_true hfits)
      · unfold State.search
        rw [if_pos hfits]
    -- The search goes on to the next block.
    · have hon : State.search k take nu (fuel + 1) s prevp a = State.search k take nu fuel s a (s.mem a).ptr := by
        rw [State.search, if_neg hfits, if_neg]
        rw [hfreep]
        exact fun he => hne (Option.some.inj he)
      have hfind : (a :: xs ++ [freep]).find? (fun p => decide ((s.mem p).size ≥ nu)) =
          (xs ++ [freep]).find? fun p => decide ((s.mem p).size ≥ nu) :=
        List.find?_cons_of_neg (by simpa using hfits)
      rw [hon, hfind]
      rcases ih hxs rfl hnot (Nat.lt_of_succ_lt_succ hfuel) with ⟨pr, x, hpr, hrest⟩ | ⟨hnone, hsearch⟩
      · exact .inl ⟨pr, x, List.mem_cons_of_mem _ hpr, hrest⟩
      · refine .inr ⟨hnone, hsearch.trans ?_⟩
        rw [List.length_cons, Nat.succ_sub_succ]

theorem Safe.search (take : State → ℕ → ℕ → State × ℕ) {nu : UInt32} {fuel freep : ℕ} (h : Safe base s L)
    (hfreep : s.freep = some freep) (hnu : 0 < nu.toNat) (hfuel : L.length < fuel) :
    (∃ A p x C, head base :: L = A ++ p :: x :: C ∧ (s.mem x.addr).size ≥ nu ∧ s.firstFit nu = some x.addr ∧
      State.search k take nu fuel s freep (s.mem freep).ptr =
        some ((take s p.addr x.addr).1, some (take s p.addr x.addr).2)) ∨
    (∀ x ∈ L, ¬ (s.mem x.addr).size ≥ nu) ∧ s.firstFit nu = none ∧
      State.search k take nu fuel s freep (s.mem freep).ptr =
        match s.morecore k nu with
        | none => none
        | some (s', none) => some (s', none)
        | some (s', some p) => State.search k take nu (fuel - (L.length + 1)) s' p (s'.mem p).ptr := by
  obtain ⟨f, hf, hf'⟩ := h.freep
  obtain rfl := Option.some.inj (hfreep.symm.trans hf')
  obtain ⟨R, hring, hperm⟩ := h.seg hf
  have hseg : Seg (next s.mem) (some (s.mem f.addr).ptr) (R.map Block.addr ++ [f.addr]) (next s.mem f.addr) :=
    hring.seg.append (.cons (.nil _))
  have hnot : f.addr ∉ R.map Block.addr :=
    (List.nodup_cons.mp (((hperm.map Block.addr).nodup_iff).mpr h.nodup)).1
  have hlen : (R.map Block.addr).length = L.length := by
    have hlength := hperm.length_eq
    rw [List.length_cons, List.length_cons] at hlength
    rw [List.length_map]
    exact Nat.succ.inj hlength
  have hfirst : s.firstFit nu =
      (R.map Block.addr ++ [f.addr]).find? fun p => (s.mem p).size ≥ nu := by
    unfold State.firstFit
    rw [hf', Option.bind_some, walk_of_seg hseg hnot (hlen ▸ h.length_lt)]
  rw [hfirst]
  rcases search_of_seg (k := k) take nu hseg rfl hf' hnot (hlen ▸ hfuel) with
    ⟨pr, x, hpr, hx, hfits, hfind, hsearch⟩ | ⟨hnone, hsearch⟩
  · obtain ⟨p, hp, rfl⟩ : ∃ p ∈ f :: R, p.addr = pr := List.mem_map.mp hpr
    obtain ⟨A, B, hsplit⟩ := List.append_of_mem (hperm.mem_iff.mp hp)
    have hnext := h.next_eq hsplit
    cases B with
    | nil =>
      -- the static header has no units
      have hbase : (s.mem base).size.toNat = 0 := by
        have hstored : HEADER * (s.mem base).size.toNat = 0 := h.ring.sizes (head base) List.mem_cons_self
        simpa using hstored
      obtain rfl : x = base := hx.symm.trans hnext
      have hle := UInt32.le_iff_toNat_le.mp hfits
      rw [hbase] at hle
      exact absurd (hnu.trans_le hle) (lt_irrefl 0)
    | cons r C =>
      obtain rfl : x = r.addr := hx.symm.trans hnext
      exact .inl ⟨A, p, r, C, hsplit, hfits, hfind, hsearch⟩
  · refine .inr ⟨fun x hx => ?_, hnone, hlen ▸ hsearch⟩
    have hmem : x.addr ∈ R.map Block.addr ++ [f.addr] := by
      have hxR := hperm.mem_iff.mpr (List.mem_cons_of_mem (head base) hx)
      rcases List.mem_cons.mp hxR with rfl | hxR
      · exact List.mem_append_right _ (List.mem_singleton_self _)
      · exact List.mem_append_left _ (List.mem_map_of_mem hxR)
    simpa using List.find?_eq_none.mp hnone x.addr hmem

/-- The block that a request for `nu` units is taken from: the first that is large enough, or else the one that the
    memory from `sbrk` becomes part of -/
def State.target (k : Sbrk base) (s : State) (nu : UInt32) : Option Block :=
  match s.firstFit nu with
  | some p => some (blockAt s.mem p)
  | none => (s.obtain k nu).bind fun (q, s') => s'.freed q

/-- What a search ends with that asks for memory at most once -/
theorem Safe.alloc (take : State → ℕ → ℕ → State × ℕ) {nu : UInt32} {fuel freep : ℕ} (h : Safe base s L)
    (hfreep : s.freep = some freep) (hnu : 0 < nu.toNat) (hgrows : s.firstFit nu = none → Grows k s nu)
    (hfuel : 2 * L.length + 2 < fuel) :
    (∃ s₁ L₁ A p x C, State.search k take nu fuel s freep (s.mem freep).ptr =
        some ((take s₁ p.addr x.addr).1, some (take s₁ p.addr x.addr).2) ∧
      Safe base s₁ L₁ ∧ s₁.used = s.used ∧ head base :: L₁ = A ++ p :: x :: C ∧ (s₁.mem x.addr).size ≥ nu ∧
      (Block.Separated (head base :: L) → Block.Separated (head base :: L₁)) ∧
      s.target k nu = some x ∧ Block.total L₁ + Block.total s.heap = Block.total L + Block.total s₁.heap ∧
      ((s.firstFit nu).isSome → s₁.heap = s.heap)) ∨
    State.search k take nu fuel s freep (s.mem freep).ptr = some (s, none) ∧ s.firstFit nu = none := by
  have hfuel₀ : L.length < fuel := by omega
  rcases h.search (k := k) take hfreep hnu hfuel₀ with
    ⟨A, p, x, C, hsplit, hfits, hfirst, hsearch⟩ | ⟨hnofit, hnone, hsearch⟩
  · have hstored : Stored s.mem x := h.ring.sizes x (by simp [hsplit])
    refine .inl ⟨s, L, A, p, x, C, hsearch, h, rfl, hsplit, hfits, id, ?_, rfl, fun _ => rfl⟩
    unfold State.target
    rw [hfirst]
    exact congrArg some hstored.blockAt
  cases hobtain : s.obtain k nu with
  | none =>
    have hmore : s.morecore k nu = some (s, none) := by
      unfold State.morecore
      rw [hobtain]
    rw [hmore] at hsearch
    exact .inr ⟨hsearch, hnone⟩
  | some qs =>
    obtain ⟨q, s₂⟩ := qs
    obtain ⟨s₁, L₁, j, hmore, hs₁, hheap, hused, hsep, htotal, hlength, hfreed, hj, hlen, hrest⟩ :=
      h.morecore (hgrows hnone) hobtain
    obtain ⟨f₁, -, hf₁⟩ := hs₁.freep
    rw [hmore, hf₁] at hsearch
    dsimp only at hsearch
    have hfuel₁ : L₁.length < fuel - (L.length + 1) := by omega
    rcases hs₁.search take (k := k) hf₁ hnu hfuel₁ with ⟨A, p, x, C, hsplit, hfits, -, hsearch₁⟩ | ⟨hnofit₁, -⟩
    · have hx : x ∈ L₁ := mem_of_split_tail hsplit List.mem_cons_self
      -- no other block has become larger
      obtain rfl : x = j := (hrest x hx).resolve_right fun hold => by
        have hsize := (h.ring.sizes x (List.mem_cons_of_mem _ hold)).trans
          (hs₁.ring.sizes x (List.mem_cons_of_mem _ hx)).symm
        refine hnofit x hold ?_
        rw [ge_iff_le, UInt32.le_iff_toNat_le, Nat.eq_of_mul_eq_mul_left (by decide) hsize]
        exact UInt32.le_iff_toNat_le.mp hfits
      have htarget : s.target k nu = some x := by
        unfold State.target
        rw [hnone, hobtain]
        exact hfreed
      refine .inl ⟨s₁, L₁, A, p, x, C, hsearch.trans hsearch₁, hs₁, hused, hsplit, hfits, hsep, htarget, ?_,
        fun hsome => by rw [hnone] at hsome; nomatch hsome⟩
      obtain ⟨rfl, -⟩ := obtain_eq hobtain (hgrows hnone q s₂ hobtain).1
      rw [htotal, hheap, Block.total_cons, Nat.add_assoc]
    · have hsize : HEADER * (s₁.mem j.addr).size.toNat = j.len := hs₁.ring.sizes j (List.mem_cons_of_mem _ hj)
      rw [← hsize] at hlen
      exact absurd (UInt32.le_iff_toNat_le.mpr (Nat.le_of_mul_le_mul_left hlen (by decide))) (hnofit₁ j hj)

/-! ## Taking a Block -/

theorem split_tail (h : head base :: L = A ++ p :: B) : ∃ L₀, head base :: L₀ = A ++ [p] ∧ L = L₀ ++ B := by
  rcases head_split h with ⟨rfl, rfl, rfl⟩ | ⟨A', rfl, rfl⟩
  · exact ⟨[], rfl, rfl⟩
  · exact ⟨A' ++ [p], rfl, by simp⟩

/-- No other header lies in a free block. -/
theorem Safe.outside (h : Safe base s L) {x : Block} (hx : x ∈ L) (hr : r ∈ head base :: (L ++ s.used))
    (hne : r.addr ≠ x.addr) : ¬ x.Has r.addr := by
  rintro ⟨hle, hlt⟩
  rcases List.mem_cons.mp hr with rfl | hr
  · have habove := (h.bounds (List.mem_append_left _ hx)).1
    unfold head at *
    dsimp only [HEADER] at *
    omega
  · have hr0 := h.laid.pos r hr
    have hapart := h.laid.apart_of_ne hr (List.mem_append_left _ hx) hne
    unfold Block.Apart Block.limit at *
    omega

/-- **A block is taken out of a free one**: what is left is linked behind `p`. -/
theorem Safe.carve (m' : Mem) (N : List Block) {x u : Block} (h : Safe base s L)
    (hsplit : head base :: L = A ++ p :: x :: C)
    (hframe : ∀ c, c ≠ p.addr → ¬ x.Has c → m' c = s.mem c)
    (hlaid : ∀ {heap} {R : List Block}, Block.Laid HEADER heap (x :: R) → Block.Laid HEADER heap (u :: (N ++ R)))
    (hlinks : Seg (next m') (some p.addr) ((p :: N).map Block.addr) (next s.mem x.addr))
    (hsizes : ∀ r ∈ p :: N, Stored m' r) (hu : Stored m' u) :
    ∃ L₀, head base :: L₀ = A ++ [p] ∧ L = L₀ ++ x :: C ∧
      Safe base { s with mem := m', freep := some p.addr, used := u :: s.used } (L₀ ++ N ++ C) := by
  obtain ⟨L₀, hL₀, hL⟩ := split_tail hsplit
  have hx : x ∈ L := mem_of_split_tail hsplit List.mem_cons_self
  have hnodup := h.nodup
  rw [hsplit, List.map_append, List.map_cons, List.map_cons] at hnodup
  -- The blocks that stay have headers of their own.
  have hpne : ∀ r ∈ A ++ C, r.addr ≠ p.addr ∧ r.addr ≠ x.addr := by
    rw [List.nodup_middle, List.nodup_cons, List.nodup_middle, List.nodup_cons, ← List.map_append] at hnodup
    refine fun r hr => ⟨fun he => hnodup.1 ?_, fun he => hnodup.2.1 (he ▸ List.mem_map_of_mem hr)⟩
    rw [← he, List.mem_append, List.mem_cons]
    rcases List.mem_append.mp hr with hr | hr
    · exact .inl (List.mem_map_of_mem hr)
    · exact .inr (.inr (List.mem_map_of_mem hr))
  -- The two blocks `p` and `x` of the ring are replaced by `p` and what is left of `x`.
  have hring : Ring m' (A ++ (p :: N) ++ C) := by
    have hold : Ring s.mem (A ++ [p, x] ++ C) := by
      have hring := h.ring
      rw [hsplit] at hring
      simpa using hring
    have hother : ∀ r ∈ A ++ C, m' r.addr = s.mem r.addr := fun r hr =>
      hframe r.addr (hpne r hr).1 (h.outside hx (by
        rw [← List.cons_append, hsplit]
        rcases List.mem_append.mp hr with hr | hr <;> simp [hr]) (hpne r hr).2)
    refine hold.replace (fun c c' hc => ?_) hsizes (fun r hr => hother r (List.mem_append_left _ hr))
      fun r hr => hother r (List.mem_append_right _ hr)
    obtain ⟨rfl, hpc⟩ := Seg.cons_iff.mp hc
    obtain ⟨-, hxc⟩ := Seg.cons_iff.mp hpc
    obtain rfl := Seg.nil_iff.mp hxc
    exact hlinks
  -- The ring, `freep`, the layout of the heap, and the headers of the blocks in use.
  refine ⟨L₀, hL₀, hL, ⟨?_, ⟨p, ?_, rfl⟩, ?_, List.forall_mem_cons.mpr ⟨hu, fun b hb => ?_⟩, h.above⟩⟩
  · have heq : head base :: (L₀ ++ N ++ C) = A ++ (p :: N) ++ C := by
      rw [← List.cons_append, ← List.cons_append, hL₀]
      simp
    rw [heq]
    exact hring
  · rw [← List.cons_append, ← List.cons_append, hL₀]
    simp
  · have hxR : Block.Laid HEADER s.heap (x :: (L₀ ++ C ++ s.used)) := h.laid.perm (Block.perm_of_count fun c => by
      rw [hL]
      simp only [List.count_append, List.count_cons]
      omega)
    refine (hlaid hxR).perm (Block.perm_of_count fun c => ?_)
    simp only [List.count_append, List.count_cons]
    omega
  · have hbp := h.used_ne (p := p) (by simp [hsplit]) hb
    have hbx := h.used_ne (List.mem_cons_of_mem _ hx) hb
    exact (h.stored b hb).congr (hframe b.addr hbp
      (h.outside hx (List.mem_cons_of_mem _ (List.mem_append_right _ hb)) hbx))

/-- **A block has been handed out**: it is one of `n` units, and the rest is still free. -/
structure Taken (base : ℕ) (s : State) (L : List Block) (n : UInt32) (r : State × ℕ) (L' : List Block) (u : Block) :
    Prop where
  safe : Safe base r.1 L'
  used : r.1.used = u :: s.used
  heap : r.1.heap = s.heap
  ret : r.2 = u.addr + HEADER
  len : u.len = HEADER * n.toNat
  total : Block.total L' + u.len = Block.total L

theorem Safe.split_ne {x : Block} (h : Safe base s L) (hsplit : head base :: L = A ++ p :: x :: C) :
    p.addr ≠ x.addr ∧ ¬ x.Has p.addr := by
  have hnodup := h.nodup
  rw [hsplit, List.map_append, List.map_cons, List.map_cons, List.nodup_middle, List.nodup_cons] at hnodup
  have hne : p.addr ≠ x.addr := fun he => hnodup.1 (by rw [he]; simp)
  refine ⟨hne, h.outside (mem_of_split_tail hsplit List.mem_cons_self) ?_ hne⟩
  rw [← List.cons_append, hsplit]
  simp

/-- **The end of a block**, or all of it, is handed out. -/
theorem Safe.takeEnd {x : Block} {nu : UInt32} (h : Safe base s L) (hsplit : head base :: L = A ++ p :: x :: C)
    (hnu : 0 < nu.toNat) (hfits : (s.mem x.addr).size ≥ nu) :
    ∃ L' u, Taken base s L nu (State.takeEnd nu s p.addr x.addr) L' u ∧
      (Block.Separated (head base :: L) → Block.Separated (head base :: L')) := by
  obtain ⟨hpx, hout⟩ := h.split_ne hsplit
  have hxsize : HEADER * (s.mem x.addr).size.toNat = x.len := h.ring.sizes x (by simp [hsplit])
  have hpsize : HEADER * (s.mem p.addr).size.toNat = p.len := h.ring.sizes p (by simp [hsplit])
  unfold State.takeEnd
  -- A block that fits exactly is handed out as a whole.
  by_cases heq : (s.mem x.addr).size = nu
  · rw [if_pos heq]
    obtain ⟨L₀, hL₀, hL, hsafe⟩ := h.carve (setPtr s.mem p.addr (s.mem x.addr).ptr) [] (u := x) hsplit
      (fun c hc _ => setPtr_of_ne hc _) id (.cons (by rw [next, setPtr_self]; exact .nil _))
      (fun r hr => by
        rw [List.mem_singleton.mp hr]
        unfold Stored
        rw [setPtr_self]
        exact hpsize)
      (Stored.congr hxsize (setPtr_of_ne hpx.symm _))
    have hx : (⟨x.addr, HEADER * nu.toNat⟩ : Block) = x := by rw [← heq, hxsize]
    rw [hx]
    refine ⟨L₀ ++ [] ++ C, x, ⟨hsafe, rfl, rfl, rfl, by rw [← heq, hxsize], ?_⟩, fun hsep => ?_⟩
    · rw [hL]
      simp only [Block.total_append, Block.total_cons, Block.total_nil]
      omega
    · rw [hL] at hsep
      refine hsep.sublist (.cons_cons _ ?_)
      rw [List.append_nil]
      exact (List.Sublist.refl L₀).append (List.sublist_cons_self x C)
  -- Any other keeps its beginning, and its end is handed out.
  · rw [if_neg heq]
    dsimp only
    rw [setSize_self]
    dsimp only
    -- The difference of the sizes does not wrap around.
    have hlt : nu.toNat < (s.mem x.addr).size.toNat :=
      lt_of_le_of_ne (UInt32.le_iff_toNat_le.mp hfits) fun he => heq (UInt32.toNat.inj he.symm)
    have hsub := UInt32.toNat_sub_of_le (s.mem x.addr).size nu hfits
    generalize (s.mem x.addr).size - nu = rest at hsub ⊢
    have hxy : x.addr ≠ x.addr + HEADER * rest.toNat := by
      dsimp only [HEADER]
      omega
    have hpy : p.addr ≠ x.addr + HEADER * rest.toNat := fun he => hout (by
      unfold Block.Has Block.limit
      dsimp only [HEADER] at *
      omega)
    -- The two headers that are written.
    set m' := setSize (setSize s.mem x.addr rest) (x.addr + HEADER * rest.toNat) nu with hm'
    have hmp : m' p.addr = s.mem p.addr := by
      rw [hm', setSize_of_ne hpy, setSize_of_ne hpx]
    have hmx : m' x.addr = ⟨(s.mem x.addr).ptr, rest⟩ := by
      rw [hm', setSize_of_ne hxy, setSize_self]
    have hptr : (s.mem p.addr).ptr = x.addr := h.next_eq hsplit
    obtain ⟨L₀, hL₀, hL, hsafe⟩ := h.carve m' [⟨x.addr, HEADER * rest.toNat⟩]
      (u := ⟨x.addr + HEADER * rest.toNat, HEADER * nu.toNat⟩) hsplit
      (fun c _ hc => by
        -- Other headers are in neither part.
        have hcx : c ≠ x.addr := fun he => hc (he ▸ ⟨le_rfl, by unfold Block.limit; dsimp only [HEADER] at *; omega⟩)
        have hcy : c ≠ x.addr + HEADER * rest.toNat := fun he => hc (he ▸ ⟨Nat.le_add_right _ _, by
          unfold Block.limit
          dsimp only [HEADER] at *
          omega⟩)
        rw [hm', setSize_of_ne hcy, setSize_of_ne hcx])
      (fun {heap R} hR => by
        have hrest := hR.split (k := HEADER * rest.toNat) (by dsimp only [HEADER]; omega)
          (by dsimp only [HEADER] at *; omega) (Nat.dvd_mul_right _ _)
        rw [show x.len - HEADER * rest.toNat = HEADER * nu.toNat by dsimp only [HEADER] at *; omega] at hrest
        exact hrest.perm (.swap _ _ _))
      (.cons (by
        rw [next, hmp, hptr]
        refine .cons ?_
        rw [next, hmx]
        exact .nil _))
      (fun r hr => by
        rcases List.mem_cons.mp hr with rfl | hr
        · exact Stored.congr hpsize hmp
        · rw [List.mem_singleton.mp hr]
          unfold Stored
          rw [hmx])
      (by unfold Stored; rw [hm', setSize_self])
    refine ⟨_, _, ⟨hsafe, rfl, rfl, rfl, rfl, ?_⟩, fun hsep => ?_⟩
    · rw [hL]
      simp only [Block.total_append, Block.total_cons, Block.total_nil]
      dsimp only [HEADER] at *
      omega
    -- The list stays in order, since the part that is left begins where the block did.
    · rw [hL, ← List.cons_append] at hsep
      have hshrink := Block.Separated.shrink (c := ⟨x.addr, HEADER * rest.toNat⟩) hsep le_rfl (by
        unfold Block.limit
        dsimp only [HEADER] at *
        omega)
      simpa using hshrink

/-- Where an aligned block begins: `d` units behind the block it is taken from -/
theorem align_eq {a : ℕ} (ha : HEADER ∣ a) (hmax : a ≤ MAXVA) :
    ∃ d < 256, pgRoundUp (a + HEADER) - HEADER = a + HEADER * d ∧
      (pgRoundUp (a + HEADER) - HEADER - a) / HEADER = d ∧ PGSIZE ∣ a + HEADER * d + HEADER ∧
      (PGSIZE ∣ a + HEADER → d = 0) := by
  obtain ⟨c, rfl⟩ := ha
  unfold pgRoundUp roundUp add64
  dsimp only [HEADER, MAXVA, PGSIZE] at *
  refine ⟨((16 * c + 16 + (4096 - 1)) % 2 ^ 64 / 4096 * 4096 - 16 - 16 * c) / 16, ?_, ?_, rfl, ?_, ?_⟩ <;> omega

/-- **The middle of a block is handed out**, with its header at the end of a page. -/
theorem Safe.takeAligned {x : Block} {ounits : UInt32} (h : Safe base s L) (hsplit : head base :: L = A ++ p :: x :: C)
    (hou : 0 < ounits.toNat)
    (hroom : (pgRoundUp (x.addr + HEADER) - HEADER - x.addr) / HEADER + ounits.toNat < (s.mem x.addr).size.toNat) :
    ∃ L' u, Taken base s L ounits (State.takeAligned ounits s p.addr x.addr) L' u ∧ PGSIZE ∣ u.addr + HEADER ∧
      (PGSIZE ∣ x.addr + HEADER → Block.Separated (head base :: L) → Block.Separated (head base :: L')) := by
  obtain ⟨hpx, hout⟩ := h.split_ne hsplit
  have hx : x ∈ L := mem_of_split_tail hsplit List.mem_cons_self
  have hxsize : HEADER * (s.mem x.addr).size.toNat = x.len := h.ring.sizes x (by simp [hsplit])
  have hpsize : HEADER * (s.mem p.addr).size.toNat = p.len := h.ring.sizes p (by simp [hsplit])
  have hxmax := (h.bounds (List.mem_append_left _ hx)).2
  obtain ⟨d, hd, hret, hdiv, hpage, hzero⟩ := align_eq (h.laid.grain x (List.mem_append_left _ hx)).1
    ((Nat.le_add_right _ _).trans hxmax)
  have hsz : (UInt32.ofNat d).toNat = d := UInt32.toNat_ofNat_of_lt' (by
    rw [UInt32.size]
    omega)
  have hps := (s.mem x.addr).size.toNat_lt
  unfold State.takeAligned
  have hdiv' : (x.addr + HEADER * d - x.addr) / HEADER = d := hret ▸ hdiv
  rw [hdiv] at hroom
  rw [hret]
  dsimp only
  rw [hdiv']
  -- the block is cut into what is left below, the block and what is left above
  obtain ⟨rest, hrest, hrs⟩ : ∃ rest, (s.mem x.addr).size - ounits - UInt32.ofNat d = rest ∧
      rest.toNat = (s.mem x.addr).size.toNat - ounits.toNat - d := by
    refine ⟨_, rfl, ?_⟩
    have hle : ounits ≤ (s.mem x.addr).size := UInt32.le_iff_toNat_le.mpr (by omega)
    have hsub := UInt32.toNat_sub_of_le (s.mem x.addr).size ounits hle
    rw [UInt32.toNat_sub_of_le _ _ (UInt32.le_iff_toNat_le.mpr (by rw [hsub, hsz]; omega)), hsub, hsz]
  rw [hrest]
  have hpr : p.addr ≠ x.addr + HEADER * d := fun he => hout (by
    unfold Block.Has Block.limit
    dsimp only [HEADER] at *
    omega)
  have hpq : p.addr ≠ x.addr + HEADER * d + HEADER * ounits.toNat := fun he => hout (by
    unfold Block.Has Block.limit
    dsimp only [HEADER] at *
    omega)
  have hrq : x.addr + HEADER * d ≠ x.addr + HEADER * d + HEADER * ounits.toNat := by
    dsimp only [HEADER]
    omega
  have hxq : x.addr ≠ x.addr + HEADER * d + HEADER * ounits.toNat := by
    dsimp only [HEADER]
    omega
  rcases Nat.eq_zero_or_pos d with rfl | hd0
  · -- nothing is left below
    rw [Nat.mul_zero, Nat.add_zero] at *
    have hzero : UInt32.ofNat 0 = 0 := rfl
    rw [if_pos hzero, setSize_of_ne hxq, setSize_self]
    set q := x.addr + HEADER * ounits.toNat with hq
    set m' := setPtr (setPtr (setSize (setSize s.mem x.addr ounits) q rest) q (s.mem x.addr).ptr) p.addr q with hm'
    have hmp : m' p.addr = ⟨q, (s.mem p.addr).size⟩ := by
      rw [hm', setPtr_self, setPtr_of_ne hpq, setSize_of_ne hpq, setSize_of_ne hpx]
    have hmq : m' q = ⟨(s.mem x.addr).ptr, rest⟩ := by
      rw [hm', setPtr_of_ne hpq.symm, setPtr_self, setSize_self]
    have hmx : m' x.addr = ⟨(s.mem x.addr).ptr, ounits⟩ := by
      rw [hm', setPtr_of_ne hpx.symm, setPtr_of_ne hxq, setSize_of_ne hxq, setSize_self]
    have hxin : x.Has x.addr ∧ x.Has q := by
      unfold Block.Has Block.limit
      dsimp only [HEADER] at *
      omega
    obtain ⟨L₀, hL₀, hL, hsafe⟩ := h.carve m' [⟨q, HEADER * rest.toNat⟩]
      (u := ⟨x.addr, HEADER * ounits.toNat⟩) hsplit
      (fun c hcp hc => by
        have hcx : c ≠ x.addr := fun he => hc (he ▸ hxin.1)
        have hcq : c ≠ q := fun he => hc (he ▸ hxin.2)
        rw [hm', setPtr_of_ne hcp, setPtr_of_ne hcq, setSize_of_ne hcq, setSize_of_ne hcx])
      (fun {heap R} hR => by
        have hparts := hR.split (k := HEADER * ounits.toNat) (by dsimp only [HEADER]; omega)
          (by dsimp only [HEADER] at *; omega) (Nat.dvd_mul_right _ _)
        rwa [show x.len - HEADER * ounits.toNat = HEADER * rest.toNat by dsimp only [HEADER] at *; omega] at hparts)
      (.cons (by
        rw [next, hmp]
        refine .cons ?_
        rw [next, hmq]
        exact .nil _))
      (List.forall_mem_cons.mpr ⟨by unfold Stored; rw [hmp]; exact hpsize,
        List.forall_mem_cons.mpr ⟨by unfold Stored; rw [hmq], nofun⟩⟩)
      (by unfold Stored; rw [hmx])
    refine ⟨_, _, ⟨hsafe, rfl, rfl, rfl, rfl, ?_⟩, hpage, fun _ hsep => ?_⟩
    · rw [hL]
      simp only [Block.total_append, Block.total_cons, Block.total_nil]
      dsimp only [HEADER] at *
      omega
    · rw [hL, ← List.cons_append] at hsep
      have hshrink := Block.Separated.shrink (c := ⟨q, HEADER * rest.toNat⟩) hsep (Nat.le_add_right _ _) (by
        unfold Block.limit
        dsimp only [HEADER] at *
        omega)
      simpa using hshrink
  · -- what is left below stays in the list, behind what is left above
    have hne : UInt32.ofNat d ≠ 0 := fun he => by
      rw [he] at hsz
      exact absurd hsz hd0.ne
    have hxr : x.addr ≠ x.addr + HEADER * d := by
      dsimp only [HEADER]
      omega
    rw [if_neg hne]
    set r := x.addr + HEADER * d with hr
    set q := r + HEADER * ounits.toNat with hq
    set m' := setPtr (setSize (setPtr (setSize (setSize s.mem r ounits) q rest) q x.addr) x.addr (UInt32.ofNat d))
      p.addr q with hm'
    have hmp : m' p.addr = ⟨q, (s.mem p.addr).size⟩ := by
      rw [hm', setPtr_self, setSize_of_ne hpx, setPtr_of_ne hpq, setSize_of_ne hpq, setSize_of_ne hpr]
    have hmq : m' q = ⟨x.addr, rest⟩ := by
      rw [hm', setPtr_of_ne hpq.symm, setSize_of_ne hxq.symm, setPtr_self, setSize_self]
    have hmx : m' x.addr = ⟨(s.mem x.addr).ptr, UInt32.ofNat d⟩ := by
      rw [hm', setPtr_of_ne hpx.symm, setSize_self, setPtr_of_ne hxq, setSize_of_ne hxq, setSize_of_ne hxr]
    have hmr : m' r = ⟨(s.mem r).ptr, ounits⟩ := by
      rw [hm', setPtr_of_ne hpr.symm, setSize_of_ne hxr.symm, setPtr_of_ne hrq, setSize_of_ne hrq, setSize_self]
    have hxin : x.Has x.addr ∧ x.Has q ∧ x.Has r := by
      unfold Block.Has Block.limit
      dsimp only [HEADER] at *
      omega
    obtain ⟨L₀, hL₀, hL, hsafe⟩ := h.carve m' [⟨q, HEADER * rest.toNat⟩, ⟨x.addr, HEADER * d⟩]
      (u := ⟨r, HEADER * ounits.toNat⟩) hsplit
      (fun c hcp hc => by
        have hcx : c ≠ x.addr := fun he => hc (he ▸ hxin.1)
        have hcq : c ≠ q := fun he => hc (he ▸ hxin.2.1)
        have hcr : c ≠ r := fun he => hc (he ▸ hxin.2.2)
        rw [hm', setPtr_of_ne hcp, setSize_of_ne hcx, setPtr_of_ne hcq, setSize_of_ne hcq, setSize_of_ne hcr])
      (fun {heap R} hR => by
        have hlow := hR.split (k := HEADER * d) (by dsimp only [HEADER]; omega)
          (by dsimp only [HEADER] at *; omega) (Nat.dvd_mul_right _ _)
        have hhigh := (hlow.perm (.swap _ _ _)).split (k := HEADER * ounits.toNat) (by dsimp only [HEADER]; omega)
          (by dsimp only [HEADER] at *; omega) (Nat.dvd_mul_right _ _)
        dsimp only at hhigh
        rwa [show x.len - HEADER * d - HEADER * ounits.toNat = HEADER * rest.toNat by
          dsimp only [HEADER] at *
          omega] at hhigh)
      (.cons (by
        rw [next, hmp]
        refine .cons ?_
        rw [next, hmq]
        refine .cons ?_
        rw [next, hmx]
        exact .nil _))
      (List.forall_mem_cons.mpr ⟨by unfold Stored; rw [hmp]; exact hpsize,
        List.forall_mem_cons.mpr ⟨by unfold Stored; rw [hmq],
          List.forall_mem_cons.mpr ⟨by unfold Stored; rw [hmx, hsz], nofun⟩⟩⟩)
      (by unfold Stored; rw [hmr])
    refine ⟨_, _, ⟨hsafe, rfl, rfl, rfl, rfl, ?_⟩, hpage, fun hx0 => absurd (hzero hx0) hd0.ne'⟩
    rw [hL]
    simp only [Block.total_append, Block.total_cons, Block.total_nil]
    dsimp only [HEADER] at *
    omega

end Xv6.User.Umalloc
