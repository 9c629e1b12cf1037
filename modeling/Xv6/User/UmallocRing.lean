import Mathlib
import Xv6.User.Umalloc

/-!
# The Circular List of Free Blocks

- `Ring`: the headers lead through a list of blocks and back to the first;
- `Ring.replace`: a part of the list is replaced by blocks that lead to the same place;
- `spot_spec`: the search of `free` ends, whatever the order of the list;
- `Ring.link`: what `free` does with the list.
-/

namespace Xv6.User.Umalloc

open Xv6.Lib Xv6.Kernel

variable {m m' : Mem} {A B C D N R : List Block} {b p r : Block} {a c : ℕ}

/-! ## Headers -/

@[simp] theorem setPtr_self (m : Mem) (a c : ℕ) : setPtr m a c a = ⟨c, (m a).size⟩ := Function.update_self a _ m

@[simp] theorem setSize_self (m : Mem) (a : ℕ) (n : UInt32) : setSize m a n a = ⟨(m a).ptr, n⟩ :=
  Function.update_self a _ m

theorem setPtr_setSize (m : Mem) (a c : ℕ) (n : UInt32) :
    setPtr (setSize m a n) a c = Function.update m a ⟨c, n⟩ := by
  unfold setPtr
  rw [setSize_self]
  exact Function.update_idem _ _ _

theorem setPtr_of_ne (h : c ≠ a) (x : ℕ) : setPtr m a x c = m c := Function.update_of_ne h _ m

theorem setSize_of_ne (h : c ≠ a) (n : UInt32) : setSize m a n c = m c := Function.update_of_ne h _ m

/-- The pointer of a header, as the link of a list -/
def next (m : Mem) (a : ℕ) : Option ℕ := some (m a).ptr

/-- The header of the block has its size. -/
def Stored (m : Mem) (b : Block) : Prop := HEADER * (m b.addr).size.toNat = b.len

theorem Stored.congr (h : Stored m b) (heq : m' b.addr = m b.addr) : Stored m' b := by
  unfold Stored
  rw [heq]
  exact h

theorem Stored.blockAt (h : Stored m b) : Umalloc.blockAt m b.addr = b := by
  unfold Umalloc.blockAt
  rw [h]

/-! ## The Ring -/

/-- **The headers lead through the blocks `R`** and back to the first of them. -/
structure Ring (m : Mem) (R : List Block) : Prop where
  links : ∃ a, Seg (next m) a (R.map Block.addr) a
  sizes : ∀ b ∈ R, Stored m b

namespace Ring

/-- A ring may be entered anywhere. -/
theorem rotate (h : Ring m (A ++ B)) : Ring m (B ++ A) where
  links := by
    obtain ⟨a, ha⟩ := h.links
    rw [List.map_append] at ha
    obtain ⟨c, hA, hB⟩ := Seg.append_iff.mp ha
    rw [List.map_append]
    exact ⟨c, hB.append hA⟩
  sizes b hb := h.sizes b (List.mem_append.mpr (List.mem_append.mp hb).symm)

/-- From the first block on, and back to it -/
theorem seg (h : Ring m (p :: R)) : Seg (next m) (next m p.addr) (R.map Block.addr) (some p.addr) := by
  obtain ⟨a, ha⟩ := h.links
  rw [List.map_cons] at ha
  obtain ⟨rfl, ha⟩ := Seg.cons_iff.mp ha
  exact ha

theorem next_eq (h : Ring m (A ++ p :: r :: B)) : (m p.addr).ptr = r.addr := by
  have hr := seg (R := r :: B ++ A) (rotate h)
  exact Option.some.inj (Seg.cons_iff.mp hr).1

theorem next_last (h : Ring m (b :: A ++ [p])) : (m p.addr).ptr = b.addr := by
  have hr := seg (R := b :: A) (rotate h)
  exact Option.some.inj (Seg.cons_iff.mp hr).1

theorem next_single (h : Ring m [p]) : (m p.addr).ptr = p.addr :=
  Option.some.inj (Seg.nil_iff.mp h.seg)

/-- **A part of the ring is replaced**, and nothing else is written. -/
theorem replace (h : Ring m (A ++ D ++ C))
    (hN : ∀ c c', Seg (next m) c (D.map Block.addr) c' → Seg (next m') c (N.map Block.addr) c')
    (hsizes : ∀ b ∈ N, Stored m' b) (hA : ∀ b ∈ A, m' b.addr = m b.addr) (hC : ∀ b ∈ C, m' b.addr = m b.addr) :
    Ring m' (A ++ N ++ C) where
  links := by
    obtain ⟨a, ha⟩ := h.links
    rw [List.map_append, List.map_append] at ha
    obtain ⟨c', hAD, hCseg⟩ := Seg.append_iff.mp ha
    obtain ⟨c, hAseg, hD⟩ := Seg.append_iff.mp hAD
    have hframe : ∀ l : List Block, (∀ b ∈ l, m' b.addr = m b.addr) → ∀ x ∈ l.map Block.addr, next m' x = next m x := by
      intro l hl x hx
      obtain ⟨b, hb, rfl⟩ := List.mem_map.mp hx
      unfold next
      rw [hl b hb]
    rw [List.map_append, List.map_append]
    exact ⟨a, ((hAseg.congr (hframe A hA)).append (hN c c' hD)).append (hCseg.congr (hframe C hC))⟩
  sizes b hb := by
    rcases List.mem_append.mp hb with hb | hb
    · rcases List.mem_append.mp hb with hb | hb
      · exact (h.sizes b (by simp [hb])).congr (hA b hb)
      · exact hsizes b hb
    · exact (h.sizes b (by simp [hb])).congr (hC b hb)

/-- Writes outside of the ring -/
theorem congr (h : Ring m R) (heq : ∀ b ∈ R, m' b.addr = m b.addr) : Ring m' R := by
  have hR : Ring m (R ++ [] ++ []) := by simpa using h
  simpa using hR.replace (N := []) (fun c c' hc => Seg.nil_iff.mpr (Seg.nil_iff.mp hc)) nofun heq nofun

end Ring

/-! ## The Search of `free` -/

/-- Behind `p` is a place for the address `bp`: between two blocks, or where the addresses begin again. -/
def Stops (m : Mem) (bp p : ℕ) : Prop := bp > p ∧ bp < (m p).ptr ∨ p ≥ (m p).ptr ∧ (bp > p ∨ bp < (m p).ptr)

/-- A ring in any order has a place for an address that is not below all of the ring. -/
theorem Ring.exists_stops {bp : ℕ} (h : Ring m (A ++ p :: B)) (hp : p.addr < bp) (hne : ∀ r ∈ B, r.addr ≠ bp)
    (hmin : ∀ r ∈ (A ++ p :: B).head?, ∀ q ∈ A ++ p :: B, r.addr ≤ q.addr) :
    ∃ q ∈ p :: B, Stops m bp q.addr := by
  induction B generalizing A p with
  | nil =>
    refine ⟨p, List.mem_cons_self, .inr ⟨?_, .inl hp⟩⟩
    -- the last block leads to the first
    cases A with
    | nil => exact h.next_single.le
    | cons b A =>
      rw [h.next_last]
      exact hmin b rfl p (by simp)
  | cons r B ih =>
    rcases Nat.lt_or_ge bp r.addr with hlt | hge
    · exact ⟨p, List.mem_cons_self, .inl ⟨hp, by rwa [h.next_eq]⟩⟩
    · have hr := lt_of_le_of_ne hge (hne r List.mem_cons_self)
      have happ : A ++ p :: r :: B = (A ++ [p]) ++ r :: B := by simp
      rw [happ] at h hmin
      obtain ⟨q, hq, hstops⟩ := ih h hr (fun r hr => hne r (List.mem_cons_of_mem _ hr)) hmin
      exact ⟨q, List.mem_cons_of_mem p hq, hstops⟩

/-- The search goes on until it finds a place. -/
theorem spot_of_seg {bp fuel : ℕ} {xs : List ℕ} (h : Seg (next m) (some a) xs (some c))
    (hex : ∃ q ∈ xs, Stops m bp q) (hfuel : xs.length ≤ fuel) :
    ∃ q ∈ xs, Stops m bp q ∧ State.spot m bp fuel a = some q := by
  induction xs generalizing a fuel with
  | nil =>
    obtain ⟨q, hq, -⟩ := hex
    nomatch hq
  | cons x xs ih =>
    obtain ⟨ha, hxs⟩ := Seg.cons_iff.mp h
    obtain rfl := Option.some.inj ha
    obtain ⟨fuel, rfl⟩ := Nat.exists_eq_succ_of_ne_zero (Nat.ne_zero_of_lt hfuel)
    have hlen : xs.length ≤ fuel := Nat.le_of_succ_le_succ hfuel
    by_cases hstop : Stops m bp a
    · refine ⟨a, List.mem_cons_self, hstop, ?_⟩
      unfold State.spot
      rcases hstop with hbetween | hwrap
      · rw [if_pos hbetween]
      · rw [if_pos hwrap, ite_self]
    · obtain ⟨q, hq, hqstop⟩ := hex
      have hqa : q ≠ a := fun he => hstop (he ▸ hqstop)
      obtain ⟨q, hq, hqstop, hspot⟩ := ih hxs ⟨q, (List.mem_cons.mp hq).resolve_left hqa, hqstop⟩ hlen
      refine ⟨q, List.mem_cons_of_mem a hq, hqstop, ?_⟩
      unfold State.spot
      rw [if_neg fun hb => hstop (.inl hb), if_neg fun hw => hstop (.inr hw)]
      exact hspot

/-! ## Linking a Block -/

/-- The number of units that the block gets from above -/
def fromUpper (m : Mem) (bp p : ℕ) : ℕ :=
  if bp + HEADER * (m bp).size.toNat = (m p).ptr then (m (m p).ptr).size.toNat else 0

/-- What `bp` becomes behind `p`, with the neighbours that it touches -/
def merged (m : Mem) (bp p : ℕ) : Block :=
  let n := (m bp).size.toNat + fromUpper m bp p
  if p + HEADER * (m p).size.toNat = bp then ⟨p, HEADER * ((m p).size.toNat + n)⟩ else ⟨bp, HEADER * n⟩

/-- The upper neighbour: the header of `b` is that of the block with what it absorbs. -/
theorem linkUpper_spec (h : Ring m (A ++ p :: B)) (hb : Stored m b) (hnew : ∀ r ∈ A ++ p :: B, r.addr ≠ b.addr)
    (hend : B = [] → (m p.addr).ptr ≠ b.limit)
    (hsize : (m b.addr).size.toNat + fromUpper m b.addr p.addr < 2 ^ 32) :
    ∃ E v n, B = E ++ (b.absorb B).2 ∧ (b.absorb B).1 = ⟨b.addr, HEADER * n.toNat⟩ ∧
      State.linkUpper m b.addr p.addr = Function.update m b.addr ⟨v, n⟩ ∧
      (∀ c, Seg (next m) (next m p.addr) (E.map Block.addr) c → c = some v) ∧
      n.toNat = (m b.addr).size.toNat + fromUpper m b.addr p.addr := by
  have hlimit : b.addr + HEADER * (m b.addr).size.toNat = b.limit := congrArg (b.addr + ·) hb
  have hpb : p.addr ≠ b.addr := hnew p (by simp)
  unfold fromUpper at hsize ⊢
  rw [hlimit] at hsize ⊢
  unfold State.linkUpper
  rw [hlimit]
  -- The block behind `p` begins where `b` ends, and is absorbed; or it does not.
  by_cases htouch : b.limit = (m p.addr).ptr
  · rw [if_pos htouch] at hsize ⊢
    rw [if_pos htouch]
    cases B with
    | nil => exact absurd htouch.symm (hend rfl)
    | cons r C =>
      have hr := h.next_eq
      have hrb : r.addr ≠ b.addr := hnew r (by simp)
      have hrsize : HEADER * (m r.addr).size.toNat = r.len := h.sizes r (by simp)
      -- The sum of the sizes does not wrap around.
      have hsum : ((m b.addr).size + (m r.addr).size).toNat = (m b.addr).size.toNat + (m r.addr).size.toNat := by
        rw [UInt32.toNat_add, Nat.mod_eq_of_lt (hr ▸ hsize)]
      rw [Block.absorb_cons, if_pos (htouch.trans hr)]
      refine ⟨[r], (m r.addr).ptr, (m b.addr).size + (m r.addr).size, rfl, ?_, ?_, fun c hc => ?_, ?_⟩
      · unfold Block.join
        rw [hsum, Nat.mul_add, hrsize, hb]
      · dsimp only
        rw [hr, setSize_of_ne hpb, hr, setSize_of_ne hrb]
        exact setPtr_setSize m b.addr _ _
      · exact (Seg.nil_iff.mp (Seg.cons_iff.mp hc).2).symm
      · rw [hr]
        exact hsum
  · rw [if_neg htouch] at hsize ⊢
    rw [if_neg htouch]
    -- No block is absorbed, and the header of `b` leads to the one behind `p`.
    have habs : b.absorb B = (b, B) := by
      cases B with
      | nil => rfl
      | cons r C =>
        rw [Block.absorb_cons, if_neg]
        rwa [← h.next_eq]
    rw [habs]
    refine ⟨[], (m p.addr).ptr, (m b.addr).size, rfl, ?_, rfl, fun c hc => ?_, rfl⟩
    · rw [hb]
    · exact (Seg.nil_iff.mp hc).symm

/-- The lower neighbour: one header is written, and leads through both blocks or the one they become. -/
theorem linkLower_spec {q : Block} (hpq : p.addr ≠ q.addr) (hp : Stored m p) (hq : Stored m q)
    (hsize : p.limit = q.addr → (m p.addr).size.toNat + (m q.addr).size.toNat < 2 ^ 32) :
    ∃ y, State.linkLower m q.addr p.addr = Function.update m p.addr y ∧
      (∀ m' : Mem, m' p.addr = y → m' q.addr = m q.addr →
        Seg (next m') (some p.addr) ((p.attach q).map Block.addr) (next m q.addr)) ∧
      ∀ m' : Mem, m' p.addr = y → m' q.addr = m q.addr → ∀ r ∈ p.attach q, Stored m' r := by
  have hlimit : p.addr + HEADER * (m p.addr).size.toNat = p.limit := congrArg (p.addr + ·) hp
  unfold State.linkLower Block.attach
  rw [hlimit]
  -- The block `p` ends where `b` begins, and they become one; or `p` leads to `b`.
  by_cases htouch : p.limit = q.addr
  · rw [if_pos htouch, if_pos htouch]
    -- The sum of the sizes does not wrap around.
    have hsum : ((m p.addr).size + (m q.addr).size).toNat = (m p.addr).size.toNat + (m q.addr).size.toNat := by
      rw [UInt32.toNat_add, Nat.mod_eq_of_lt (hsize htouch)]
    refine ⟨⟨(m q.addr).ptr, (m p.addr).size + (m q.addr).size⟩, ?_, fun m' hp' _ => ?_, fun m' hp' _ r hr => ?_⟩
    · dsimp only
      rw [setSize_of_ne hpq.symm]
      exact setPtr_setSize _ _ _ _
    · refine .cons ?_
      unfold next
      rw [hp']
      exact .nil _
    · rw [List.mem_singleton.mp hr]
      unfold Stored Block.join
      rw [hp', hsum, Nat.mul_add, hp, hq]
  · rw [if_neg htouch, if_neg htouch]
    refine ⟨⟨q.addr, (m p.addr).size⟩, rfl, fun m' hp' hq' => ?_, fun m' hp' hq' r hr => ?_⟩
    · refine .cons ?_
      unfold next
      rw [hp']
      refine .cons ?_
      rw [hq']
      exact .nil _
    · rcases List.mem_cons.mp hr with rfl | hr
      · unfold Stored
        rw [hp']
        exact hp
      · rw [List.mem_singleton.mp hr]
        exact hq.congr hq'

/-- **What `free` does with the ring**: the block is inserted behind `p`. -/
theorem Ring.link (h : Ring m (A ++ p :: B)) (hb : Stored m b) (hnew : ∀ r ∈ A ++ p :: B, r.addr ≠ b.addr)
    (hend : B = [] → (m p.addr).ptr ≠ b.limit) (hnodup : ((A ++ p :: B).map Block.addr).Nodup)
    (hsize : (merged m b.addr p.addr).len < HEADER * 2 ^ 32) :
    Ring (State.linkLower (State.linkUpper m b.addr p.addr) b.addr p.addr) (A ++ Block.insertAfter p b B) ∧
      (∀ c, c ≠ b.addr → c ≠ p.addr →
        State.linkLower (State.linkUpper m b.addr p.addr) b.addr p.addr c = m c) ∧
      merged m b.addr p.addr = Block.inserted p b B := by
  have hpb : p.addr ≠ b.addr := hnew p (by simp)
  have hpsize : HEADER * (m p.addr).size.toNat = p.len := h.sizes p (by simp)
  have hplimit : p.addr + HEADER * (m p.addr).size.toNat = p.limit := congrArg (p.addr + ·) hpsize
  -- The upper sum is bounded by the block that both neighbours leave.
  have hup : (m b.addr).size.toNat + fromUpper m b.addr p.addr < 2 ^ 32 := by
    have hlen : HEADER * ((m b.addr).size.toNat + fromUpper m b.addr p.addr) ≤ (merged m b.addr p.addr).len := by
      unfold merged
      split
      · exact Nat.mul_le_mul_left _ (Nat.le_add_left _ _)
      · exact le_rfl
    exact Nat.lt_of_mul_lt_mul_left (hlen.trans_lt hsize)
  -- First the upper neighbour is linked, then the lower, as the source does.
  obtain ⟨E, v, n, hB, hfst, hm, hE, hn⟩ := linkUpper_spec h hb hnew hend hup
  have hpm : Function.update m b.addr ⟨v, n⟩ p.addr = m p.addr := Function.update_of_ne hpb _ _
  have hbm : Function.update m b.addr ⟨v, n⟩ b.addr = ⟨v, n⟩ := Function.update_self _ _ _
  have hlow : p.limit = b.addr → (m p.addr).size.toNat + n.toNat < 2 ^ 32 := fun htouch => by
    unfold merged at hsize
    dsimp only at hsize
    rw [hplimit, if_pos htouch, ← hn] at hsize
    exact Nat.lt_of_mul_lt_mul_left hsize
  obtain ⟨y, hy, hpart, hstored⟩ := linkLower_spec (p := p) (q := ⟨b.addr, HEADER * n.toNat⟩) hpb
    ((h.sizes p (by simp)).congr hpm) (by unfold Stored; rw [hbm]) (by rw [hpm, hbm]; exact hlow)
  rw [hm, hy]
  -- The memory afterwards: two headers are written.
  set m' := Function.update (Function.update m b.addr ⟨v, n⟩) p.addr y with hm'
  have hpy : m' p.addr = y := Function.update_self _ _ _
  have hbv : m' b.addr = ⟨v, n⟩ := by
    rw [hm', Function.update_of_ne hpb.symm, Function.update_self]
  have hframe : ∀ c, c ≠ b.addr → c ≠ p.addr → m' c = m c := fun c hcb hcp => by
    rw [hm', Function.update_of_ne hcp, Function.update_of_ne hcb]
  have hmerged : merged m b.addr p.addr = Block.inserted p b B := by
    unfold merged Block.inserted
    dsimp only
    rw [hplimit, ← hn, hfst]
    unfold Block.join
    rw [Nat.mul_add, hpsize]
  -- What is behind `p` in the ring is replaced by the blocks of the insertion.
  refine ⟨?_, hframe, hmerged⟩
  rw [List.map_append, List.map_cons, List.nodup_middle, List.nodup_cons] at hnodup
  have hother : ∀ r ∈ A ++ B, m' r.addr = m r.addr := fun r hr =>
    hframe r.addr (hnew r (by simp only [List.mem_append, List.mem_cons] at hr ⊢; tauto)) fun he =>
      hnodup.1 (by rw [← List.map_append]; exact List.mem_map.mpr ⟨r, hr, he⟩)
  unfold Block.insertAfter
  rw [hfst, ← List.append_assoc]
  generalize (b.absorb B).2 = C at hB ⊢
  subst hB
  have hring : Ring m (A ++ (p :: E) ++ C) := by simpa using h
  refine hring.replace (fun c c' hc => ?_) (hstored m' hpy (hbv.trans hbm.symm)) (fun r hr => hother r (by simp [hr]))
    (fun r hr => hother r (by simp [hr]))
  rw [List.map_cons] at hc
  obtain ⟨rfl, hrest⟩ := Seg.cons_iff.mp hc
  have hend := hpart m' hpy (hbv.trans hbm.symm)
  rw [next, hbm] at hend
  rw [hE c' hrest]
  exact hend

end Xv6.User.Umalloc
