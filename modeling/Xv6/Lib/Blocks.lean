import Mathlib.Data.List.Pairwise
import Mathlib.Data.List.Perm.Subperm
import Mathlib.Algebra.BigOperators.Group.List.Basic
import Mathlib.Algebra.Order.Ring.Nat

/-!
# Blocks of Memory

Intervals of addresses, as an allocator divides memory into them.

- `Laid u heap l`: the blocks `l` do not overlap, and lie in the regions `heap`, on multiples of `u`;
- `Laid.join`, `Laid.split`: neighbours made one, and one block made two;
- `insertAfter`: a block put behind another one, and joined with its neighbours where it touches them;
- `Separated`: blocks in ascending order with a gap between any two, and what is kept of it;
- `Separated.window`: an interval of cells of separated blocks is in one of them.
-/

namespace Xv6.Lib

/-- The `len` cells from `addr` on -/
structure Block where
  addr : ℕ
  len : ℕ
  deriving DecidableEq, Repr

namespace Block

/-- The first address behind the block -/
def limit (b : Block) : ℕ := b.addr + b.len

/-- The address is one of the cells. -/
def Has (b : Block) (x : ℕ) : Prop := b.addr ≤ x ∧ x < b.limit

/-- One of the two ends before the other one begins. -/
def Apart (b c : Block) : Prop := b.limit ≤ c.addr ∨ c.limit ≤ b.addr

/-- Every cell of the block is a cell of the regions. -/
def Within (b : Block) (heap : List Block) : Prop := ∀ x, b.Has x → ∃ r ∈ heap, r.Has x

/-- The number of cells of the blocks -/
def total (l : List Block) : ℕ := (l.map len).sum

/-- Two neighbours as one block -/
def join (b c : Block) : Block := ⟨b.addr, b.len + c.len⟩

variable {b c d p : Block} {heap l l' A B R : List Block} {u k x : ℕ}

theorem Apart.symm (h : b.Apart c) : c.Apart b := Or.symm h

theorem join_limit (h : b.limit = c.addr) : (b.join c).limit = c.limit := by
  unfold join limit at *
  dsimp only
  omega

@[simp] theorem total_nil : total [] = 0 := rfl

@[simp] theorem total_cons : total (b :: l) = b.len + total l := by
  simp only [total, List.map_cons, List.sum_cons]

@[simp] theorem total_append : total (l ++ l') = total l + total l' := by
  simp only [total, List.map_append, List.sum_append]

theorem total_perm (h : l.Perm l') : total l = total l' := (h.map len).sum_eq

/-- The same blocks in another order -/
theorem perm_of_count (h : ∀ b, l.count b = l'.count b) : l.Perm l' := List.perm_iff_count.mpr h

/-! ## Blocks That Do Not Overlap -/

/-- **Memory that is divided**: the blocks do not overlap, none of them is empty, and they lie in the regions, on
    multiples of `u`. -/
structure Laid (u : ℕ) (heap l : List Block) : Prop where
  apart : l.Pairwise Apart
  pos : ∀ b ∈ l, 0 < b.len
  grain : ∀ b ∈ l, u ∣ b.addr ∧ u ∣ b.len
  within : ∀ b ∈ l, b.Within heap

namespace Laid

theorem nil : Laid u heap [] := ⟨.nil, nofun, nofun, nofun⟩

theorem perm (h : Laid u heap l) (hp : l.Perm l') : Laid u heap l' where
  apart := (hp.pairwise_iff fun hbc => Apart.symm hbc).mp h.apart
  pos b hb := h.pos b (hp.mem_iff.mpr hb)
  grain b hb := h.grain b (hp.mem_iff.mpr hb)
  within b hb := h.within b (hp.mem_iff.mpr hb)

theorem sublist (h : Laid u heap l) (hs : l'.Sublist l) : Laid u heap l' where
  apart := h.apart.sublist hs
  pos b hb := h.pos b (hs.subset hb)
  grain b hb := h.grain b (hs.subset hb)
  within b hb := h.within b (hs.subset hb)

/-- More memory -/
theorem mono {heap' : List Block} (h : Laid u heap l) (hsub : ∀ b : Block, b.Within heap → b.Within heap') :
    Laid u heap' l :=
  ⟨h.apart, h.pos, h.grain, fun b hb => hsub b (h.within b hb)⟩

theorem cons_iff : Laid u heap (b :: l) ↔
    (∀ c ∈ l, b.Apart c) ∧ 0 < b.len ∧ (u ∣ b.addr ∧ u ∣ b.len) ∧ b.Within heap ∧ Laid u heap l := by
  constructor
  · intro h
    have hb := List.mem_cons_self (a := b) (l := l)
    exact ⟨(List.pairwise_cons.mp h.apart).1, h.pos b hb, h.grain b hb, h.within b hb,
      h.sublist (List.sublist_cons_self b l)⟩
  · rintro ⟨hapart, hpos, hgrain, hwithin, h⟩
    exact ⟨List.pairwise_cons.mpr ⟨hapart, h.apart⟩, List.forall_mem_cons.mpr ⟨hpos, h.pos⟩,
      List.forall_mem_cons.mpr ⟨hgrain, h.grain⟩, List.forall_mem_cons.mpr ⟨hwithin, h.within⟩⟩

/-- **Two neighbours become one block.** -/
theorem join (h : Laid u heap (b :: c :: R)) (hbc : b.limit = c.addr) : Laid u heap (b.join c :: R) := by
  obtain ⟨hb, hb0, hbu, hbin, h⟩ := cons_iff.mp h
  obtain ⟨hc, hc0, hcu, hcin, h⟩ := cons_iff.mp h
  refine cons_iff.mpr ⟨fun d hd => ?_, Nat.add_pos_left hb0 _, ⟨hbu.1, Nat.dvd_add hbu.2 hcu.2⟩, fun x hx => ?_, h⟩
  · have hbd := hb d (List.mem_cons_of_mem c hd)
    have hcd := hc d hd
    have hd0 := h.pos d hd
    -- nothing fits between the two
    unfold Apart at *
    rw [join_limit hbc]
    unfold Block.join limit at *
    dsimp only
    omega
  · rcases Nat.lt_or_ge x c.addr with hlt | hge
    · exact hbin x ⟨hx.1, hbc ▸ hlt⟩
    · exact hcin x ⟨hge, join_limit hbc ▸ hx.2⟩

/-- **One block becomes two.** -/
theorem split (h : Laid u heap (b :: R)) (hk : 0 < k) (hlt : k < b.len) (hu : u ∣ k) :
    Laid u heap (⟨b.addr, k⟩ :: ⟨b.addr + k, b.len - k⟩ :: R) := by
  obtain ⟨hb, -, hbu, hbin, h⟩ := cons_iff.mp h
  refine cons_iff.mpr ⟨List.forall_mem_cons.mpr ⟨.inl le_rfl, fun d hd => ?_⟩, hk, ⟨hbu.1, hu⟩, fun x hx => ?_,
    cons_iff.mpr ⟨fun d hd => ?_, Nat.sub_pos_of_lt hlt, ⟨Nat.dvd_add hbu.1 hu, Nat.dvd_sub hbu.2 hu⟩,
      fun x hx => ?_, h⟩⟩
  · have hbd := hb d hd
    unfold Apart limit at *
    dsimp only
    omega
  · refine hbin x ?_
    unfold Has limit at *
    dsimp only at hx
    omega
  · have hbd := hb d hd
    unfold Apart limit at *
    dsimp only
    omega
  · refine hbin x ?_
    unfold Has limit at *
    dsimp only at hx
    omega

instance : Std.Symm Apart := ⟨fun _ _ h => h.symm⟩

theorem apart_of_ne (h : Laid u heap l) (hb : b ∈ l) (hc : c ∈ l) (hne : b.addr ≠ c.addr) : b.Apart c :=
  h.apart.forall hb hc fun he => hne (congrArg addr he)

/-- Blocks begin at different addresses. -/
theorem nodup (h : Laid u heap l) : (l.map addr).Nodup := by
  refine List.pairwise_map.mpr (h.apart.imp_of_mem fun {b c} hb hc hbc heq => ?_)
  have hb0 := h.pos b hb
  have hc0 := h.pos c hc
  unfold Apart limit at hbc
  omega

/-- There are no more blocks than cells. -/
theorem length_le (h : Laid u heap l) : l.length ≤ total heap := by
  have hsub : l.map addr ⊆ heap.flatMap fun r => List.range' r.addr r.len := by
    intro a ha
    obtain ⟨b, hb, rfl⟩ := List.mem_map.mp ha
    obtain ⟨r, hr, hx⟩ := h.within b hb b.addr ⟨le_rfl, Nat.lt_add_of_pos_right (h.pos b hb)⟩
    exact List.mem_flatMap.mpr ⟨r, hr, List.mem_range'_1.mpr hx⟩
  have hlen := (h.nodup.subperm hsub).length_le
  rw [List.length_map, List.length_flatMap] at hlen
  simp only [List.length_range'] at hlen
  exact hlen

end Laid

/-! ## Blocks Joined Where They Touch -/

/-- The block takes the one behind it, if it touches it. -/
def absorb (b : Block) : List Block → Block × List Block
  | [] => (b, [])
  | r :: C => if b.limit = r.addr then (b.join r, C) else (b, r :: C)

/-- The block `p` takes the block `b`, if it touches it. -/
def attach (p b : Block) : List Block := if p.limit = b.addr then [p.join b] else [p, b]

/-- The block `b` between `p` and the blocks `B` -/
def insertAfter (p b : Block) (B : List Block) : List Block := attach p (b.absorb B).1 ++ (b.absorb B).2

theorem absorb_cons (b r : Block) (C : List Block) :
    b.absorb (r :: C) = if b.limit = r.addr then (b.join r, C) else (b, r :: C) := rfl

theorem absorb_addr : (b.absorb B).1.addr = b.addr := by
  cases B with
  | nil => rfl
  | cons r C =>
    rw [absorb_cons]
    split <;> rfl

theorem absorb_subset : (b.absorb B).2 ⊆ B := by
  cases B with
  | nil => exact List.Subset.refl _
  | cons r C =>
    rw [absorb_cons]
    split
    · exact List.subset_cons_self r C
    · exact List.Subset.refl _

theorem len_le_absorb : b.len ≤ (b.absorb B).1.len := by
  cases B with
  | nil => exact le_rfl
  | cons r C =>
    rw [absorb_cons]
    split
    · exact Nat.le_add_right _ _
    · exact le_rfl

theorem total_absorb : (b.absorb B).1.len + total (b.absorb B).2 = b.len + total B := by
  cases B with
  | nil => rfl
  | cons r C =>
    rw [absorb_cons]
    split
    · simp only [join, total_cons, Nat.add_assoc]
    · rfl

/-- What the block `b` is part of, once it has been inserted -/
def inserted (p b : Block) (B : List Block) : Block :=
  if p.limit = b.addr then p.join (b.absorb B).1 else (b.absorb B).1

theorem inserted_mem : inserted p b B ∈ insertAfter p b B := by
  unfold inserted insertAfter attach
  rw [absorb_addr]
  refine List.mem_append_left _ ?_
  split
  · exact List.mem_singleton_self _
  · exact List.mem_cons_of_mem _ (List.mem_singleton_self _)

theorem mem_insertAfter (hd : d ∈ insertAfter p b B) : d = inserted p b B ∨ d = p ∨ d ∈ B := by
  unfold inserted
  rcases List.mem_append.mp hd with hd | hd
  · unfold attach at hd
    rw [absorb_addr] at hd
    split at hd
    · next htouch =>
      rw [if_pos htouch]
      exact .inl (List.mem_singleton.mp hd)
    · next htouch =>
      rw [if_neg htouch]
      rcases List.mem_cons.mp hd with rfl | hd
      · exact .inr (.inl rfl)
      · exact .inl (List.mem_singleton.mp hd)
  · exact .inr (.inr (absorb_subset hd))

theorem len_le_inserted : b.len ≤ (inserted p b B).len := by
  unfold inserted
  split
  · exact len_le_absorb.trans (Nat.le_add_left _ _)
  · exact len_le_absorb

/-- The first block is where `p` was. -/
theorem exists_addr_insertAfter : ∃ d ∈ insertAfter p b B, d.addr = p.addr := by
  unfold insertAfter attach
  split
  · exact ⟨_, List.mem_cons_self, rfl⟩
  · exact ⟨_, List.mem_cons_self, rfl⟩

theorem length_insertAfter : (insertAfter p b B).length ≤ B.length + 2 := by
  have habs : (b.absorb B).2.length ≤ B.length := by
    cases B with
    | nil => exact le_rfl
    | cons r C =>
      rw [absorb_cons]
      split
      · exact Nat.le_succ _
      · exact le_rfl
  unfold insertAfter attach
  split <;> simp only [List.length_append, List.length_cons, List.length_nil] <;> omega

theorem total_attach : total (p.attach b) = p.len + b.len := by
  unfold attach
  split <;> simp only [join, total_cons, total_nil, Nat.add_zero]

theorem total_insertAfter : total (insertAfter p b B) = p.len + b.len + total B := by
  rw [insertAfter, total_append, total_attach, Nat.add_assoc, total_absorb, Nat.add_assoc]

theorem Laid.absorb (h : Laid u heap (b :: (B ++ R))) : Laid u heap ((b.absorb B).1 :: ((b.absorb B).2 ++ R)) := by
  cases B with
  | nil => exact h
  | cons r C =>
    rw [absorb_cons]
    split
    · next htouch => exact Laid.join h htouch
    · exact h

theorem Laid.attach (h : Laid u heap (p :: b :: R)) : Laid u heap (p.attach b ++ R) := by
  unfold Block.attach
  split
  · next htouch => exact Laid.join h htouch
  · exact h

/-- **A block that is inserted** overlaps nothing, nor does what it is joined to. -/
theorem Laid.insertAfter (h : Laid u heap (b :: (A ++ p :: B ++ R))) :
    Laid u heap (A ++ Block.insertAfter p b B ++ R) := by
  have habs : Laid u heap (b :: (B ++ (p :: A ++ R))) := h.perm (perm_of_count fun c => by
    simp only [List.count_append, List.count_cons]
    omega)
  have hatt : Laid u heap (p :: (b.absorb B).1 :: ((b.absorb B).2 ++ A ++ R)) :=
    habs.absorb.perm (perm_of_count fun c => by
      simp only [List.count_append, List.count_cons]
      omega)
  refine hatt.attach.perm (perm_of_count fun c => ?_)
  simp only [Block.insertAfter, List.count_append]
  omega

/-! ## Blocks in Ascending Order -/

/-- **In ascending order, with a gap between any two** -/
def Separated (l : List Block) : Prop := l.Pairwise fun b c => b.limit < c.addr

instance (l : List Block) : Decidable (Separated l) := inferInstanceAs (Decidable (List.Pairwise _ l))

theorem Separated.sublist (h : Separated l) (hs : l'.Sublist l) : Separated l' := List.Pairwise.sublist hs h

/-- Two of the blocks are one, or there is a gap between them. -/
theorem Separated.gap (h : Separated l) (hb : b ∈ l) (hc : c ∈ l) (hbc : b ≠ c) :
    b.limit < c.addr ∨ c.limit < b.addr := by
  induction l with
  | nil => nomatch hb
  | cons d l ih =>
    obtain ⟨hd, hl⟩ := List.pairwise_cons.mp h
    rcases List.mem_cons.mp hb with rfl | hbl
    · rcases List.mem_cons.mp hc with rfl | hcl
      · exact absurd rfl hbc
      · exact .inl (hd c hcl)
    · rcases List.mem_cons.mp hc with rfl | hcl
      · exact .inr (hd b hbl)
      · exact ih hl hbl hcl

/-- **An interval of free cells is in one block.** -/
theorem Separated.window (h : Separated l) {a n : ℕ} (hn : 0 < n)
    (hcells : ∀ x, a ≤ x → x < a + n → ∃ b ∈ l, b.Has x) : ∃ b ∈ l, b.addr ≤ a ∧ a + n ≤ b.limit := by
  obtain ⟨b, hb, hab, hlt⟩ := hcells a le_rfl (Nat.lt_add_of_pos_right hn)
  refine ⟨b, hb, hab, ?_⟩
  by_contra hover
  -- the first cell behind the block would be in another one, which begins there or before
  obtain ⟨c, hc, hcx, hxc⟩ := hcells b.limit hlt.le (by omega)
  have hbc : b ≠ c := fun he => by
    subst he
    exact absurd hxc (lt_irrefl _)
  have hgap := h.gap hb hc hbc
  omega

/-- A block becomes smaller. -/
theorem Separated.shrink (h : Separated (A ++ b :: B)) (haddr : b.addr ≤ c.addr) (hlimit : c.limit ≤ b.limit) :
    Separated (A ++ c :: B) := by
  obtain ⟨hA, hbB, hAb⟩ := List.pairwise_append.mp h
  obtain ⟨hb, hB⟩ := List.pairwise_cons.mp hbB
  refine List.pairwise_append.mpr ⟨hA, List.pairwise_cons.mpr ⟨fun d hd => hlimit.trans_lt (hb d hd), hB⟩,
    fun a ha d hd => ?_⟩
  rcases List.mem_cons.mp hd with rfl | hd
  · exact (hAb a ha b List.mem_cons_self).trans_le haddr
  · exact hAb a ha d (List.mem_cons_of_mem b hd)

theorem Separated.absorb (h : Separated B) (hB : ∀ c ∈ B, b.limit ≤ c.addr) :
    Separated ((b.absorb B).1 :: (b.absorb B).2) := by
  cases B with
  | nil => exact List.pairwise_singleton _ _
  | cons r C =>
    obtain ⟨hr, hC⟩ := List.pairwise_cons.mp h
    have hbr := hB r List.mem_cons_self
    rw [absorb_cons]
    split
    · next htouch =>
      refine List.pairwise_cons.mpr ⟨fun c hc => ?_, hC⟩
      rw [join_limit htouch]
      exact hr c hc
    · next htouch =>
      refine List.pairwise_cons.mpr ⟨List.forall_mem_cons.mpr ⟨lt_of_le_of_ne hbr htouch, fun c hc => ?_⟩, h⟩
      have hrc := hr c hc
      exact hbr.trans_lt ((Nat.le_add_right _ _).trans_lt hrc)

theorem Separated.attach (h : Separated (b :: B)) (hp : p.limit ≤ b.addr) : Separated (p.attach b ++ B) := by
  obtain ⟨hbB, hB⟩ := List.pairwise_cons.mp h
  unfold Block.attach
  split
  · next htouch =>
    refine List.pairwise_cons.mpr ⟨fun c hc => ?_, hB⟩
    rw [join_limit htouch]
    exact hbB c hc
  · next htouch =>
    have hlt := lt_of_le_of_ne hp htouch
    refine List.pairwise_cons.mpr ⟨List.forall_mem_cons.mpr ⟨hlt, fun c hc => ?_⟩, h⟩
    exact hlt.trans ((Nat.le_add_right _ _).trans_lt (hbB c hc))

/-- **A block that is inserted between two others** leaves the list in order, and with gaps. -/
theorem Separated.insertAfter (h : Separated (A ++ p :: B)) (hp : p.limit ≤ b.addr) (hB : ∀ c ∈ B, b.limit ≤ c.addr) :
    Separated (A ++ Block.insertAfter p b B) := by
  obtain ⟨hA, hpB, hAp⟩ := List.pairwise_append.mp h
  obtain ⟨-, hBsep⟩ := List.pairwise_cons.mp hpB
  have habs := Separated.absorb hBsep hB
  have hatt := Separated.attach habs (hp.trans_eq absorb_addr.symm)
  refine List.pairwise_append.mpr ⟨hA, hatt, fun a ha c hc => ?_⟩
  -- everything behind `p` begins at `p` or after it
  have hap := hAp a ha p List.mem_cons_self
  have hpc : p.addr ≤ c.addr := by
    rcases List.mem_append.mp hc with hc | hc
    · unfold Block.attach at hc
      split at hc
      · rw [List.mem_singleton.mp hc]
        exact le_rfl
      · rcases List.mem_cons.mp hc with rfl | hc
        · exact le_rfl
        · rw [List.mem_singleton.mp hc, absorb_addr]
          exact (Nat.le_add_right _ _).trans hp
    · have hbc := (List.pairwise_cons.mp habs).1 c hc
      have hpb : p.addr ≤ b.addr := (Nat.le_add_right _ _).trans hp
      have hle : (b.absorb B).1.addr ≤ (b.absorb B).1.limit := Nat.le_add_right _ _
      rw [absorb_addr] at hle
      omega
  exact hap.trans_le hpc

end Block

end Xv6.Lib
