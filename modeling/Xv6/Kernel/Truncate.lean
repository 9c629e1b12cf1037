import Mathlib
import Xv6.Kernel.BlockLayer

/-!
# Truncating Files

`itrunc` frees the blocks of a file, its tables among them, and `ialloc` and `iput` allocate and free
inodes. With reading and writing these are the calls of the inode layer, in any order.

- `turncRecur_leaf`, `turncRecur_top`: what hangs on a table is freed, each block once;
- `Cut`: how far a file has been truncated, and `itrunc_spec`: the whole of it;
- `run_sound`: blocks are neither lost nor shared;
- `writei_readi`: a file is an array of bytes.
-/

namespace Xv6.Kernel.BlockLayer

open Xv6.Lib
open Xv6.Kernel.Bmap (slotOf NDIRECT NINDIRECT INDIR_LAYERS TOTBUF Entry)
open State

/-! ## Tables -/

/-- These blocks have been freed. -/
structure Frees (s s' : State) (F : Set ℕ) : Prop where
  size : s'.size = s.size
  used : ∀ c, s'.used c = true ↔ s.used c = true ∧ c ∉ F

section

variable {s s₁ s₂ : State} {first ip : ℕ} {F G : Set ℕ}

theorem Frees.refl (s : State) : Frees s s ∅ := ⟨rfl, fun _ => ⟨fun h => ⟨h, id⟩, fun h => h.1⟩⟩

theorem Frees.trans (h₁ : Frees s s₁ F) (h₂ : Frees s₁ s₂ G) : Frees s s₂ (F ∪ G) := by
  refine ⟨h₂.size.trans h₁.size, fun c => ?_⟩
  rw [h₂.used, h₁.used, and_assoc, Set.mem_union, not_or]

theorem Frees.congr (h : Frees s s₁ F) (hFG : ∀ c, c ∈ F ↔ c ∈ G) : Frees s s₁ G :=
  ⟨h.size, fun c => by rw [h.used, hFG]⟩

/-- A block that is marked is freed, and nothing else changes. -/
theorem bfree_frees {b : ℕ} (h : s.used b = true) :
    ∃ s', s.bfree b = .ok s' ∧ s'.blocks = s.blocks ∧ s'.inodes = s.inodes ∧ Frees s s' {b} := by
  refine ⟨_, if_pos h, rfl, rfl, rfl, fun c => ?_⟩
  dsimp only
  rw [Function.update_apply, Set.mem_singleton_iff]
  by_cases hcb : c = b <;> simp [hcb]

/-- The blocks that hang on a table of data blocks, with its own -/
def below (s : State) (ip : ℕ) (table : Bmap.Slot) : Set ℕ :=
  {c | c ≠ 0 ∧ (s.ptr (ip, table) = c ∨ ∃ k < NINDIRECT, ∃ slot, Entry table k slot ∧ s.ptr (ip, slot) = c)}

/-- **A table of data blocks is freed**, with its blocks, each of them once. -/
theorem turncRecur_leaf (s₁ : State) (h : s.Sound first) {table : Bmap.Slot} (htable : table.Valid)
    (hentry : ∀ k < NINDIRECT, ∃ slot, Entry table k slot) (hne : s.ptr (ip, table) ≠ 0)
    (hblocks : s₁.blocks (s.ptr (ip, table)) = s.blocks (s.ptr (ip, table)))
    (hused : ∀ c ∈ below s ip table, s₁.used c = true) :
    ∃ s', s₁.turncRecur 0 (s.ptr (ip, table)) = .ok s' ∧ s'.blocks = s₁.blocks ∧ s'.inodes = s₁.inodes ∧
      Frees s₁ s' (below s ip table) := by
  generalize ht : s.ptr (ip, table) = t at hne hblocks
  have hword : ∀ k slot, Entry table k slot → (s.blocks t).word k = s.ptr (ip, slot) := by
    intro k slot he
    rw [ptr_entry he, ht]
    exact (if_neg hne).symm
  have hloop : ∀ n ≤ NINDIRECT, ∃ s', (List.range n).foldlM (fun (s' : State) j =>
      if (s'.blocks t).word j = 0 then .ok s' else s'.bfree ((s'.blocks t).word j)) s₁ = Except.ok s' ∧
      s'.blocks = s₁.blocks ∧ s'.inodes = s₁.inodes ∧
      Frees s₁ s' {c | c ≠ 0 ∧ ∃ k < n, ∃ slot, Entry table k slot ∧ s.ptr (ip, slot) = c} := by
    intro n hn
    induction n with
    | zero =>
      refine ⟨s₁, rfl, rfl, rfl, (Frees.refl s₁).congr fun c => ?_⟩
      simp
    | succ n ih =>
      obtain ⟨s', hrun, hb, hi, hfrees⟩ := ih (by omega)
      rw [List.range_succ, List.foldlM_append, hrun]
      obtain ⟨slot, he⟩ := hentry n (by omega)
      have hslot : slot.Valid := he.valid (by omega) htable
      have hset : ∀ c, c ≠ 0 ∧ (∃ k < n + 1, ∃ slot, Entry table k slot ∧ s.ptr (ip, slot) = c) ↔
          (c ≠ 0 ∧ ∃ k < n, ∃ slot, Entry table k slot ∧ s.ptr (ip, slot) = c) ∨ c ≠ 0 ∧ s.ptr (ip, slot) = c := by
        intro c
        constructor
        · rintro ⟨hc, k, hk, slot', he', heq⟩
          rcases Nat.lt_succ_iff_lt_or_eq.mp hk with hlt | rfl
          · exact .inl ⟨hc, k, hlt, slot', he', heq⟩
          · rw [entry_slot_unique he he']
            exact .inr ⟨hc, heq⟩
        · rintro (⟨hc, k, hk, slot', he', heq⟩ | ⟨hc, heq⟩)
          · exact ⟨hc, k, by omega, slot', he', heq⟩
          · exact ⟨hc, n, by omega, slot, he, heq⟩
      simp only [bind, Except.bind, List.foldlM_cons, List.foldlM_nil]
      rw [hb, hblocks, hword n slot he]
      by_cases hz : s.ptr (ip, slot) = 0
      · rw [if_pos hz]
        refine ⟨s', rfl, hb, hi, hfrees.congr fun c => ?_⟩
        rw [Set.mem_ofPred_eq, Set.mem_ofPred_eq, hset, hz]
        exact ⟨.inl, fun hc => hc.elim id fun hc => absurd hc.2.symm hc.1⟩
      · rw [if_neg hz]
        have hmarked : s'.used (s.ptr (ip, slot)) = true := by
          rw [hfrees.used]
          refine ⟨hused _ ⟨hz, .inr ⟨n, by omega, slot, he, rfl⟩⟩, ?_⟩
          rintro ⟨-, k, hk, slot', he', heq⟩
          have hinj := h.owned.inj (ip, slot') (he'.valid (by omega) htable) (ip, slot) hslot (heq ▸ hz) heq
          cases congrArg Prod.snd hinj
          exact absurd (entry_table_unique he he').2 (by omega)
        obtain ⟨s'', hfree, hb', hi', hfrees'⟩ := bfree_frees hmarked
        rw [hfree]
        refine ⟨s'', rfl, hb'.trans hb, hi'.trans hi, (hfrees.trans hfrees').congr fun c => ?_⟩
        rw [Set.mem_ofPred_eq, hset, Set.mem_union, Set.mem_ofPred_eq, Set.mem_singleton_iff]
        refine or_congr Iff.rfl ⟨?_, fun hc => hc.2.symm⟩
        rintro rfl
        exact ⟨hz, rfl⟩
  obtain ⟨s', hrun, hb, hi, hfrees⟩ := hloop NINDIRECT le_rfl
  have hmarked : s'.used t = true := by
    rw [hfrees.used]
    refine ⟨hused t ⟨hne, .inl ht⟩, ?_⟩
    rintro ⟨-, k, hk, slot, he, heq⟩
    have hinj := h.owned.inj (ip, slot) (he.valid hk htable) (ip, table) htable (heq ▸ hne) (heq.trans ht.symm)
    exact entry_ne he (congrArg Prod.snd hinj)
  obtain ⟨s'', hfree, hb', hi', hfrees'⟩ := bfree_frees hmarked
  refine ⟨s'', ?_, hb'.trans hb, hi'.trans hi, (hfrees.trans hfrees').congr fun c => ?_⟩
  · rw [State.turncRecur, State.turncEntries, hrun]
    exact hfree
  · rw [Set.mem_union, Set.mem_singleton_iff, below, Set.mem_ofPred_eq, Set.mem_ofPred_eq, ht]
    constructor
    · rintro (⟨hc, hex⟩ | rfl)
      · exact ⟨hc, .inr hex⟩
      · exact ⟨hne, .inl rfl⟩
    · rintro ⟨hc, rfl | hex⟩
      · exact .inr rfl
      · exact .inl ⟨hc, hex⟩

end

section

variable {s s₁ : State} {first ip : ℕ}

theorem below_null {table : Bmap.Slot} (h : s.ptr (ip, table) = 0) : below s ip table = ∅ := by
  refine Set.eq_empty_iff_forall_notMem.mpr ?_
  rintro c ⟨hc, heq | ⟨k, -, slot, he, heq⟩⟩
  · exact hc (heq ▸ h)
  · rw [ptr_entry he, h] at heq
    exact hc heq.symm

/-- A block hangs on one table of the second layer only. -/
theorem below_leaf_unique (h : s.Sound first) {i i' c : ℕ} (hi : i < NINDIRECT) (hi' : i' < NINDIRECT)
    (hc : c ∈ below s ip (.leaf i)) (hc' : c ∈ below s ip (.leaf i')) : i = i' := by
  have hslot : ∀ i < NINDIRECT, c ∈ below s ip (.leaf i) →
      ∃ slot : Bmap.Slot, slot.Valid ∧ s.ptr (ip, slot) = c ∧ (slot = .leaf i ∨ ∃ k, slot = .double i k) := by
    rintro i hi ⟨-, heq | ⟨k, hk, slot, he, heq⟩⟩
    · exact ⟨.leaf i, hi, heq, .inl rfl⟩
    · refine ⟨slot, he.valid hk hi, heq, .inr ⟨k, ?_⟩⟩
      cases he
      rfl
  obtain ⟨slot, hvalid, heq, hshape⟩ := hslot i hi hc
  obtain ⟨slot', hvalid', heq', hshape'⟩ := hslot i' hi' hc'
  have hinj := congrArg Prod.snd (h.owned.inj (ip, slot) hvalid (ip, slot') hvalid' (heq.symm ▸ hc.1) (heq.trans heq'.symm))
  dsimp only at hinj
  subst hinj
  rcases hshape with rfl | ⟨k, rfl⟩ <;> rcases hshape' with hs | ⟨k', hs⟩ <;> cases hs <;> rfl

/-- **The table of tables is freed**, with all that hangs on it. -/
theorem turncRecur_top (s₁ : State) (h : s.Sound first) (hne : s.ptr (ip, .root (NDIRECT + 1)) ≠ 0)
    (hblocks : s₁.blocks = s.blocks)
    (htop : s₁.used (s.ptr (ip, .root (NDIRECT + 1))) = true)
    (hused : ∀ i < NINDIRECT, ∀ c ∈ below s ip (.leaf i), s₁.used c = true) :
    ∃ s', s₁.turncRecur 1 (s.ptr (ip, .root (NDIRECT + 1))) = .ok s' ∧ s'.inodes = s₁.inodes ∧
      (∀ c, c ≠ s.ptr (ip, .root (NDIRECT + 1)) → s'.blocks c = s.blocks c) ∧
      Frees s₁ s' {c | c = s.ptr (ip, .root (NDIRECT + 1)) ∨ ∃ i < NINDIRECT, c ∈ below s ip (.leaf i)} := by
  have hvalid : (ip, Bmap.Slot.root (NDIRECT + 1)) ∈ owners := show NDIRECT + 1 < TOTBUF by decide
  generalize ht : s.ptr (ip, .root (NDIRECT + 1)) = t at hne htop
  have hword : ∀ i, (s.blocks t).word i = s.ptr (ip, .leaf i) := by
    intro i
    rw [ptr_entry (.leaf i), ht]
    exact (if_neg hne).symm
  have hleaf_ne : ∀ i < NINDIRECT, s.ptr (ip, .leaf i) ≠ 0 → s.ptr (ip, .leaf i) ≠ t := by
    intro i hi hz heq
    cases congrArg Prod.snd (h.owned.inj (ip, .leaf i) hi _ hvalid hz (heq.trans ht.symm))
  have hloop : ∀ n ≤ NINDIRECT, ∃ s', (List.range n).foldlM (fun (s' : State) j =>
      if (s'.blocks t).word j = 0 then .ok s'
      else do
        let s' ← s'.turncRecur 0 ((s'.blocks t).word j)
        return s'.setWord t j 0) s₁ = Except.ok s' ∧
      s'.inodes = s₁.inodes ∧ (∀ c, c ≠ t → s'.blocks c = s.blocks c) ∧
      (∀ j, n ≤ j → (s'.blocks t).word j = (s.blocks t).word j) ∧
      Frees s₁ s' {c | ∃ i < n, c ∈ below s ip (.leaf i)} := by
    intro n hn
    induction n with
    | zero =>
      refine ⟨s₁, rfl, rfl, fun c _ => by rw [hblocks], fun j _ => by rw [hblocks], (Frees.refl s₁).congr fun c => ?_⟩
      simp
    | succ n ih =>
      obtain ⟨s', hrun, hi, hb, hw, hfrees⟩ := ih (by omega)
      rw [List.range_succ, List.foldlM_append, hrun]
      simp only [bind, Except.bind, List.foldlM_cons, List.foldlM_nil]
      have hset : ∀ c, (∃ i < n + 1, c ∈ below s ip (.leaf i)) ↔
          (∃ i < n, c ∈ below s ip (.leaf i)) ∨ c ∈ below s ip (.leaf n) := by
        intro c
        constructor
        · rintro ⟨i, hi, hc⟩
          rcases Nat.lt_succ_iff_lt_or_eq.mp hi with hlt | rfl
          · exact .inl ⟨i, hlt, hc⟩
          · exact .inr hc
        · rintro (⟨i, hi, hc⟩ | hc)
          · exact ⟨i, by omega, hc⟩
          · exact ⟨n, by omega, hc⟩
      rw [hw n le_rfl, hword n]
      by_cases hz : s.ptr (ip, .leaf n) = 0
      · rw [if_pos hz]
        refine ⟨s', rfl, hi, hb, fun j hj => hw j (by omega), hfrees.congr fun c => ?_⟩
        rw [Set.mem_ofPred_eq, Set.mem_ofPred_eq, hset, below_null hz]
        exact (or_iff_left (Set.notMem_empty c)).symm
      · rw [if_neg hz]
        obtain ⟨s'', hfree, hb', hi', hfrees'⟩ := turncRecur_leaf s' h (show Bmap.Slot.Valid (.leaf n) from hn)
          (fun k _ => ⟨_, .double n k⟩) hz (hb _ (hleaf_ne n hn hz)) fun c hc => by
            rw [hfrees.used]
            refine ⟨hused n hn c hc, ?_⟩
            rintro ⟨i, hin, hci⟩
            exact absurd (below_leaf_unique h (by omega) hn hci hc) (by omega)
        rw [hfree]
        refine ⟨s''.setWord t n 0, rfl, hi'.trans hi, fun c hc => ?_, fun j hj => ?_, ?_⟩
        · rw [setWord_blocks_of_ne hc, hb']
          exact hb c hc
        · rw [State.setWord]
          dsimp only
          rw [Function.update_self, ByteBlock.word_setWord_of_ne _ _ (by omega), hb']
          exact hw j (by omega)
        · refine Frees.congr ⟨(hfrees.trans hfrees').size, (hfrees.trans hfrees').used⟩ fun c => ?_
          rw [Set.mem_union, Set.mem_ofPred_eq, Set.mem_ofPred_eq, hset]
  obtain ⟨s', hrun, hi, hb, -, hfrees⟩ := hloop NINDIRECT le_rfl
  have hmarked : s'.used t = true := by
    rw [hfrees.used]
    refine ⟨htop, ?_⟩
    rintro ⟨i, hi, -, heq | ⟨k, hk, slot, he, heq⟩⟩
    · exact hleaf_ne i hi (heq ▸ hne) heq
    · have hinj := h.owned.inj (ip, slot) (he.valid hk hi) _ hvalid (heq ▸ hne) (heq.trans ht.symm)
      cases congrArg Prod.snd hinj
      cases he
  obtain ⟨s'', hfree, hb', hi', hfrees'⟩ := bfree_frees hmarked
  refine ⟨s'', ?_, hi'.trans hi, fun c hc => by rw [hb']; exact hb c hc, (hfrees.trans hfrees').congr fun c => ?_⟩
  · rw [State.turncRecur, State.turncEntries, hrun]
    exact hfree
  · rw [Set.mem_union, Set.mem_singleton_iff, Set.mem_ofPred_eq, Set.mem_ofPred_eq]
    exact or_comm

end

/-! ### `itrunc` -/

/-- The pointer in the inode from which the way goes on -/
def rootOf : Bmap.Slot → ℕ
  | .root i => i
  | .single _ => NDIRECT
  | .leaf _ => NDIRECT + 1
  | .double _ _ => NDIRECT + 1

theorem rootOf_entry {table slot : Bmap.Slot} {idx : ℕ} (h : Entry table idx slot) : rootOf slot = rootOf table := by
  cases h <;> rfl

theorem rootOf_lt {slot : Bmap.Slot} (h : slot.Valid) : rootOf slot < TOTBUF := by
  cases slot with
  | root i => exact h
  | single j => exact show NDIRECT < TOTBUF by decide
  | leaf i => exact show NDIRECT + 1 < TOTBUF by decide
  | double i j => exact show NDIRECT + 1 < TOTBUF by decide

/-- The blocks behind the first pointers of the inode -/
def behind (s : State) (ip n : ℕ) : Set ℕ :=
  {c | c ≠ 0 ∧ ∃ slot : Bmap.Slot, slot.Valid ∧ rootOf slot < n ∧ s.ptr (ip, slot) = c}

/-- The first pointers of the inode have been cleared, and the blocks behind them have been freed. -/
structure Cut (s s' : State) (ip n : ℕ) : Prop where
  frees : Frees s s' (behind s ip n)
  other : ∀ ip', ip' ≠ ip → s'.inodes ip' = s.inodes ip'
  type : (s'.inodes ip).type = (s.inodes ip).type
  addrs : ∀ i, (s'.inodes ip).addrs i = if i < n then 0 else (s.inodes ip).addrs i
  blocks : ∀ c, n ≤ NDIRECT + 1 ∨ c = 0 ∨ c ≠ s.ptr (ip, .root (NDIRECT + 1)) → s'.blocks c = s.blocks c

section

variable {s s' : State} {first ip n : ℕ}

theorem Cut.refl (s : State) (ip : ℕ) : Cut s s ip 0 := by
  refine ⟨(Frees.refl s).congr fun c => ?_, fun _ _ => rfl, rfl, fun _ => rfl, fun _ _ => rfl⟩
  rw [behind, Set.mem_ofPred_eq]
  refine ⟨fun hc => hc.elim, ?_⟩
  rintro ⟨-, slot, -, hlt, -⟩
  exact absurd hlt (Nat.not_lt_zero _)

/-- A block that is not behind the first pointers is marked still. -/
theorem Cut.used (hc : Cut s s' ip n) (h : s.Sound first) {slot : Bmap.Slot} (hvalid : slot.Valid)
    (hroot : n ≤ rootOf slot) (hne : s.ptr (ip, slot) ≠ 0) : s'.used (s.ptr (ip, slot)) = true := by
  rw [hc.frees.used]
  refine ⟨h.owned.used_ptr (i := (ip, slot)) hvalid hne, ?_⟩
  rintro ⟨-, slot', hvalid', hlt, heq⟩
  cases congrArg Prod.snd (h.owned.inj (ip, slot') hvalid' (ip, slot) hvalid (heq ▸ hne) heq)
  omega

theorem Cut.root (hc : Cut s s' ip n) : (s'.inodes ip).addrs n = s.ptr (ip, .root n) := by
  rw [hc.addrs, if_neg (lt_irrefl _)]
  rfl

/-- A pointer that is null already -/
theorem Cut.null (hc : Cut s s' ip n) (hz : s.ptr (ip, .root n) = 0) : Cut s s' ip (n + 1) := by
  have hbehind : ∀ slot : Bmap.Slot, rootOf slot = n → s.ptr (ip, slot) = 0 := by
    intro slot
    induction slot using slot_induction with
    | hroot i =>
      rintro rfl
      exact hz
    | hentry table idx slot he ih =>
      intro hroot
      rw [ptr_entry he, ih ((rootOf_entry he).symm.trans hroot)]
      rfl
  refine ⟨hc.frees.congr fun c => ?_, hc.other, hc.type, fun i => ?_, fun c h => hc.blocks c (h.imp_left (by omega))⟩
  · rw [behind, behind, Set.mem_ofPred_eq, Set.mem_ofPred_eq]
    constructor
    · rintro ⟨hne, slot, hvalid, hlt, heq⟩
      exact ⟨hne, slot, hvalid, by omega, heq⟩
    · rintro ⟨hne, slot, hvalid, hlt, heq⟩
      refine ⟨hne, slot, hvalid, lt_of_le_of_ne (by omega) fun hn => hne ?_, heq⟩
      rw [← heq, hbehind slot hn]
  · rw [hc.addrs]
    by_cases hin : i = n
    · subst hin
      rw [if_neg (lt_irrefl _), if_pos (Nat.lt_succ_self _)]
      exact hz
    · exact if_congr (by omega) rfl rfl

/-- A pointer is cleared when what is behind it has been freed. -/
theorem Cut.clear (hc : Cut s s' ip n) {s'' : State} {F : Set ℕ} (hF : Frees s' s'' F) (hi : s''.inodes = s'.inodes)
    (hb : ∀ c, n ≤ NDIRECT ∨ c = 0 ∨ c ≠ s.ptr (ip, .root (NDIRECT + 1)) → s''.blocks c = s'.blocks c)
    (hset : ∀ c, c ∈ F ↔ c ≠ 0 ∧ ∃ slot : Bmap.Slot, slot.Valid ∧ rootOf slot = n ∧ s.ptr (ip, slot) = c) :
    Cut s (s''.setAddr ip n 0) ip (n + 1) := by
  refine ⟨Frees.congr ⟨(hc.frees.trans hF).size, (hc.frees.trans hF).used⟩ fun c => ?_, fun ip' hip => ?_,
    ?_, fun i => ?_, fun c h => ?_⟩
  · rw [Set.mem_union, hset, behind, behind, Set.mem_ofPred_eq, Set.mem_ofPred_eq]
    constructor
    · rintro (⟨hne, slot, hvalid, hlt, heq⟩ | ⟨hne, slot, hvalid, hlt, heq⟩) <;>
        exact ⟨hne, slot, hvalid, by omega, heq⟩
    · rintro ⟨hne, slot, hvalid, hlt, heq⟩
      rcases Nat.lt_succ_iff_lt_or_eq.mp hlt with hlt | hn
      · exact .inl ⟨hne, slot, hvalid, hlt, heq⟩
      · exact .inr ⟨hne, slot, hvalid, hn, heq⟩
  · rw [← hc.other ip' hip, ← hi]
    simp [setAddr, setInode, hip, Function.update_of_ne]
  · rw [(setAddr_same s'' ip n 0 ip).2, hi, hc.type]
  · rw [setAddr_addrs, hi, hc.addrs]
    by_cases hin : i = n
    · subst hin
      simp
    · rw [if_neg (by tauto)]
      exact if_congr (by omega) rfl rfl
  · change s''.blocks c = s.blocks c
    rw [hb c (h.imp_left (by omega)), hc.blocks c (h.imp_left (by omega))]

/-- **The direct blocks are freed.** -/
theorem itrunc_direct (h : s.Sound first) (ip : ℕ) {n : ℕ} (hn : n ≤ NDIRECT) :
    ∃ s', (List.range n).foldlM (truncDirect ip) s = .ok s' ∧ Cut s s' ip n := by
  induction n with
  | zero => exact ⟨s, rfl, .refl s ip⟩
  | succ n ih =>
    obtain ⟨s', hrun, hc⟩ := ih (by omega)
    rw [List.range_succ, List.foldlM_append, hrun]
    simp only [bind, Except.bind, List.foldlM_cons, List.foldlM_nil]
    rw [truncDirect, hc.root]
    by_cases hz : s.ptr (ip, .root n) = 0
    · rw [if_pos hz]
      exact ⟨s', rfl, hc.null hz⟩
    · rw [if_neg hz]
      have hvalid : Bmap.Slot.Valid (.root n) := Nat.lt_of_lt_of_le hn (by decide)
      obtain ⟨s'', hfree, hb, hi, hfrees⟩ := bfree_frees (hc.used h hvalid le_rfl hz)
      rw [hfree]
      refine ⟨_, rfl, hc.clear hfrees hi (fun c _ => by rw [hb]) fun c => ?_⟩
      rw [Set.mem_singleton_iff]
      constructor
      · rintro rfl
        exact ⟨hz, .root n, hvalid, rfl, rfl⟩
      · rintro ⟨-, slot, -, hroot, rfl⟩
        cases slot with
        | root i =>
          cases hroot
          rfl
        | _ =>
          simp only [rootOf] at hroot
          omega

/-- What is behind a layer of tables -/
theorem Cut.layer (h : s.Sound first) {k : ℕ} (hk : k < INDIR_LAYERS) (hc : Cut s s' ip (NDIRECT + k)) :
    ∃ s'', truncLayer ip s' k = .ok s'' ∧ Cut s s'' ip (NDIRECT + k + 1) := by
  rw [truncLayer, hc.root]
  by_cases hz : s.ptr (ip, .root (NDIRECT + k)) = 0
  · rw [if_pos hz]
    exact ⟨s', rfl, hc.null hz⟩
  rw [if_neg hz]
  have hvalid : Bmap.Slot.Valid (.root (NDIRECT + k)) := show NDIRECT + k < TOTBUF by
    have htot : TOTBUF = NDIRECT + INDIR_LAYERS := rfl
    omega
  obtain rfl | rfl : k = 0 ∨ k = 1 := by
    have hlayers : INDIR_LAYERS = 2 := rfl
    omega
  · -- a table of data blocks
    have hmem : ∀ c, c ∈ below s ip (.root NDIRECT) ↔
        c ≠ 0 ∧ ∃ slot : Bmap.Slot, slot.Valid ∧ rootOf slot = NDIRECT ∧ s.ptr (ip, slot) = c := by
      intro c
      constructor
      · rintro ⟨hne, heq | ⟨j, hj, slot, he, heq⟩⟩
        · exact ⟨hne, _, hvalid, rfl, heq⟩
        · exact ⟨hne, slot, he.valid hj hvalid, rootOf_entry he, heq⟩
      · rintro ⟨hne, slot, hslot, hroot, heq⟩
        cases slot with
        | root i =>
          cases hroot
          exact ⟨hne, .inl heq⟩
        | single j => exact ⟨hne, .inr ⟨j, hslot, _, .single j, heq⟩⟩
        | leaf i => exact absurd hroot (show ¬ NDIRECT + 1 = NDIRECT by decide)
        | double i j => exact absurd hroot (show ¬ NDIRECT + 1 = NDIRECT by decide)
    obtain ⟨s'', hrun, hb, hi, hfrees⟩ := turncRecur_leaf s' h hvalid (fun j _ => ⟨_, .single j⟩) hz
      (hc.blocks _ (.inl (by decide))) fun c hcmem => by
        obtain ⟨hne, slot, hslot, hroot, rfl⟩ := (hmem c).mp hcmem
        exact hc.used h hslot hroot.ge hne
    rw [show turncRecur 0 s' (s.ptr (ip, .root (NDIRECT + 0))) = _ from hrun]
    exact ⟨_, rfl, hc.clear hfrees hi (fun c _ => by rw [hb]) hmem⟩
  · -- a table of tables
    have hmem : ∀ c, (c = s.ptr (ip, .root (NDIRECT + 1)) ∨ ∃ i < NINDIRECT, c ∈ below s ip (.leaf i)) ↔
        c ≠ 0 ∧ ∃ slot : Bmap.Slot, slot.Valid ∧ rootOf slot = NDIRECT + 1 ∧ s.ptr (ip, slot) = c := by
      intro c
      constructor
      · rintro (rfl | ⟨i, hi, hne, heq | ⟨j, hj, slot, he, heq⟩⟩)
        · exact ⟨hz, _, hvalid, rfl, rfl⟩
        · exact ⟨hne, .leaf i, hi, rfl, heq⟩
        · exact ⟨hne, slot, he.valid hj hi, rootOf_entry he, heq⟩
      · rintro ⟨hne, slot, hslot, hroot, heq⟩
        cases slot with
        | root i =>
          cases hroot
          exact .inl heq.symm
        | single j => exact absurd hroot (show ¬ NDIRECT = NDIRECT + 1 by decide)
        | leaf i => exact .inr ⟨i, hslot, hne, .inl heq⟩
        | double i j => exact .inr ⟨i, hslot.1, hne, .inr ⟨j, hslot.2, _, .double i j, heq⟩⟩
    have hblocks : s'.blocks = s.blocks := funext fun c => hc.blocks c (.inl le_rfl)
    obtain ⟨s'', hrun, hi, hb, hfrees⟩ := turncRecur_top s' h hz hblocks (hc.used h hvalid le_rfl hz)
      fun i hi c hcmem => by
        obtain ⟨hne, slot, hslot, hroot, rfl⟩ := (hmem c).mp (.inr ⟨i, hi, hcmem⟩)
        exact hc.used h hslot hroot.ge hne
    rw [hrun]
    refine ⟨_, rfl, hc.clear hfrees hi (fun c hcne => ?_) hmem⟩
    have htop : c ≠ s.ptr (ip, .root (NDIRECT + 1)) := by
      rcases hcne with hn | rfl | hcne
      · exact absurd hn (by decide)
      · exact fun heq => hz heq.symm
      · exact hcne
    rw [hb c htop, hblocks]

end

section

variable {s s' : State} {first ip : ℕ}

/-- All pointers of the inode have been cleared. -/
theorem Cut.ptr_self (hc : Cut s s' ip TOTBUF) {slot : Bmap.Slot} (hvalid : slot.Valid) : s'.ptr (ip, slot) = 0 := by
  induction slot using slot_induction with
  | hroot i => exact (hc.addrs i).trans (if_pos hvalid)
  | hentry table idx slot he ih =>
    rw [ptr_entry he, ih (entry_table_valid he hvalid)]
    rfl

/-- The one table that has been written belongs to no other place. -/
theorem Cut.blocks_ptr (hc : Cut s s' ip TOTBUF) (h : s.Sound first) {o : Owner} (ho : o.2.Valid) (hip : o.1 ≠ ip)
    (hne : s.ptr o ≠ 0) : s'.blocks (s.ptr o) = s.blocks (s.ptr o) := by
  refine hc.blocks _ (.inr (.inr fun heq => hip ?_))
  exact congrArg Prod.fst (h.owned.inj o ho (ip, .root (NDIRECT + 1)) (show NDIRECT + 1 < TOTBUF by decide) hne heq)

theorem Cut.ptr_other (hc : Cut s s' ip TOTBUF) (h : s.Sound first) {ip' : ℕ} (hip : ip' ≠ ip) {slot : Bmap.Slot}
    (hvalid : slot.Valid) : s'.ptr (ip', slot) = s.ptr (ip', slot) := by
  refine ptr_congr (congrArg Dinode.addrs (hc.other ip' hip)) (fun table idx slot he hvalid => ?_) hvalid
  by_cases hz : s.ptr (ip', table) = 0
  · rw [hz]
    rfl
  · exact word_congr (hc.blocks_ptr h (o := (ip', table)) (entry_table_valid he hvalid) hip hz) idx

/-- **`itrunc` frees the blocks of a file**, each of them once and no others: it never finds a block free
    already. No other file changes. -/
theorem itrunc_spec (h : s.Sound first) (ip : ℕ) :
    ∃ s', s.itrunc ip = .ok s' ∧ s'.Sound first ∧ (s'.inodes ip).size = 0 ∧
      (s'.inodes ip).type = (s.inodes ip).type ∧ (∀ slot : Bmap.Slot, slot.Valid → s'.ptr (ip, slot) = 0) ∧
      (∀ c, s'.used c = true ↔
        s.used c = true ∧ ¬ (c ≠ 0 ∧ ∃ slot : Bmap.Slot, slot.Valid ∧ s.ptr (ip, slot) = c)) ∧
      ∀ ip', ip' ≠ ip → s'.inodes ip' = s.inodes ip' ∧ s'.content ip' = s.content ip' ∧
        ∀ slot : Bmap.Slot, slot.Valid → s'.ptr (ip', slot) = s.ptr (ip', slot) := by
  obtain ⟨s₁, hdirect, hc₁⟩ := itrunc_direct h ip (le_refl NDIRECT)
  obtain ⟨s₂, hsingle, hc₂⟩ := hc₁.layer (k := 0) h (by decide)
  obtain ⟨s₃, hdouble, hc₃⟩ := hc₂.layer (k := 1) h (by decide)
  replace hc₃ : Cut s s₃ ip TOTBUF := hc₃
  have hrun : s.itrunc ip = .ok (s₃.setSize ip 0) := by
    rw [State.itrunc, hdirect]
    simp only [bind, Except.bind, show List.range INDIR_LAYERS = [0, 1] from rfl, List.foldlM_cons, List.foldlM_nil]
    rw [hsingle]
    dsimp only
    rw [hdouble]
    rfl
  have hptr : ∀ o : Owner, o.2.Valid → s₃.ptr o = if o.1 = ip then 0 else s.ptr o := by
    rintro ⟨ip', slot⟩ hvalid
    split
    · next hip =>
      obtain rfl : ip' = ip := hip
      exact hc₃.ptr_self hvalid
    · next hip => exact hc₃.ptr_other h hip hvalid
  have hused : ∀ c, s₃.used c = true ↔
      s.used c = true ∧ ¬ (c ≠ 0 ∧ ∃ slot : Bmap.Slot, slot.Valid ∧ s.ptr (ip, slot) = c) := by
    intro c
    rw [hc₃.frees.used, behind, Set.mem_ofPred_eq]
    refine and_congr_right fun _ => not_congr (and_congr_right fun _ => exists_congr fun slot => ?_)
    exact and_congr_right fun hvalid => and_iff_right (rootOf_lt hvalid)
  have harea : s₃.area first = s.area first := by
    unfold area
    rw [hc₃.frees.size]
  have hother : ∀ ip', ip' ≠ ip → (s₃.setSize ip 0).inodes ip' = s.inodes ip' := fun ip' hip => by
    rw [← hc₃.other ip' hip]
    exact Function.update_of_ne hip _ _
  have hsound : (s₃.setSize ip 0).Sound first := by
    refine ⟨h.first_pos, hc₃.frees.size ▸ h.size_lt, fun b hb => ?_, fun i => ?_, ?_, fun ip' bn hbn => ?_,
      fun ip' => ?_, fun ip' hty i hi => ?_⟩
    · refine (hused b).mpr ⟨h.used_meta b hb, ?_⟩
      rintro ⟨hne, slot, hvalid, rfl⟩
      have hge := (h.owned.mem_area (ip, slot) hvalid hne).1
      omega
    · change (s₃.blocks 0).word i = 0
      rw [hc₃.blocks 0 (.inr (.inl rfl))]
      exact h.boot i
    · rw [setSize_ptr, show (s₃.setSize ip 0).area first = s.area first from harea]
      refine h.owned.release (T := {o | o.1 = ip}) (fun o ho hT => ?_) (fun o ho hT => ?_) fun b hb => ?_
      · exact (hptr o ho).trans (if_pos hT)
      · exact (hptr o ho).trans (if_neg hT)
      · refine (hused b).trans (and_congr_right fun _ => ?_)
        constructor
        · rintro hnot ⟨ip', slot⟩ hvalid (rfl : ip' = ip) heq
          exact hnot ⟨h.area_ne_zero hb, slot, hvalid, heq⟩
        · rintro hall ⟨-, slot, hvalid, heq⟩
          exact hall (ip, slot) hvalid rfl heq
    · rw [setSize_size] at hbn
      split at hbn
      · exact absurd hbn (Nat.not_lt_zero _)
      · next hip =>
        rw [hc₃.other ip' hip] at hbn
        rw [setSize_ptr, hptr _ (h.slotOf_data hbn).valid, if_neg hip]
        exact h.mapped ip' bn hbn
    · rw [setSize_size]
      split
      · exact Nat.zero_le _
      · next hip =>
        rw [hc₃.other ip' hip]
        exact h.size_le ip'
    · rw [setSize_addrs]
      by_cases hip : ip' = ip
      · subst hip
        exact (hc₃.addrs i).trans (if_pos hi)
      · rw [hother ip' hip] at hty
        rw [hc₃.other ip' hip]
        exact h.free ip' hty i hi
  refine ⟨_, hrun, hsound, ?_, ?_, fun slot hvalid => ?_, hused, fun ip' hip => ⟨hother ip' hip, ?_, fun slot hvalid => ?_⟩⟩
  · rw [setSize_size, if_pos rfl]
  · rw [setSize_type, hc₃.type]
  · rw [setSize_ptr, hptr _ hvalid, if_pos rfl]
  · have hsize : ((s₃.setSize ip 0).inodes ip').size = (s.inodes ip').size := by rw [hother ip' hip]
    refine content_congr hsize fun i hi => ?_
    have hdata : IsData (slotOf (i / Fs.BSIZE)) := h.slotOf_data ((Nat.div_mul_le_self i Fs.BSIZE).trans_lt hi)
    rw [setSize_byte]
    unfold State.byte State.data
    rw [hptr _ hdata.valid, if_neg hip]
    split
    · rfl
    · next hne => rw [hc₃.blocks_ptr h (o := (ip', slotOf (i / Fs.BSIZE))) hdata.valid hip hne]
  · rw [setSize_ptr, hptr _ hvalid, if_neg hip]

end

/-! ## Runs -/

section

variable {s : State} {first ip : ℕ}

/-- An inode is written that keeps its pointers. -/
theorem setInode_sound (h : s.Sound first) {d : Dinode} (haddrs : ∀ i < TOTBUF, d.addrs i = (s.inodes ip).addrs i)
    (hsize : d.size = 0) (hfree : d.type = 0 → ∀ i < TOTBUF, (s.inodes ip).addrs i = 0) :
    (s.setInode ip d).Sound first := by
  have hsame : ∀ ip', ip' ≠ ip → (s.setInode ip d).inodes ip' = s.inodes ip' := fun ip' hip =>
    Function.update_of_ne hip _ _
  have hself : (s.setInode ip d).inodes ip = d := Function.update_self ..
  have hroot : ∀ ip' i, i < TOTBUF → ((s.setInode ip d).inodes ip').addrs i = (s.inodes ip').addrs i := by
    intro ip' i hi
    by_cases hip : ip' = ip
    · subst hip
      rw [hself, haddrs i hi]
    · rw [hsame ip' hip]
  have hptr : ∀ o ∈ owners, (s.setInode ip d).ptr o = s.ptr o := by
    rintro ⟨ip', slot⟩ (hvalid : slot.Valid)
    induction slot using slot_induction with
    | hroot i => exact hroot ip' i hvalid
    | hentry table idx slot he ih =>
      rw [ptr_entry he, ptr_entry he, ih (entry_table_valid he hvalid)]
      rfl
  refine ⟨h.first_pos, h.size_lt, h.used_meta, h.boot, ?_, fun ip' bn hbn => ?_, fun ip' => ?_, fun ip' hty i hi => ?_⟩
  · exact h.owned.release (T := ∅) (fun _ _ hi => hi.elim) (fun o ho _ => hptr o ho)
      fun b _ => ⟨fun hb => ⟨hb, fun _ _ hi => hi.elim⟩, fun hb => hb.1⟩
  · by_cases hip : ip' = ip
    · subst hip
      rw [hself, hsize] at hbn
      exact absurd hbn (Nat.not_lt_zero _)
    · rw [hsame ip' hip] at hbn
      rw [hptr (ip', slotOf bn) (h.slotOf_data hbn).valid]
      exact h.mapped ip' bn hbn
  · by_cases hip : ip' = ip
    · subst hip
      rw [hself, hsize]
      exact Nat.zero_le _
    · rw [hsame ip' hip]
      exact h.size_le ip'
  · rw [hroot ip' i hi]
    by_cases hip : ip' = ip
    · subst hip
      rw [hself] at hty
      exact hfree hty i hi
    · rw [hsame ip' hip] at hty
      exact h.free ip' hty i hi

theorem ialloc_sound (h : s.Sound first) (type : ℕ) : (s.ialloc type).2.Sound first := by
  unfold State.ialloc
  cases hfind : (List.range' 1 (s.ninodes - 1)).find? fun inum => (s.inodes inum).type = 0 with
  | none => exact h
  | some inum =>
    have hty : (s.inodes inum).type = 0 := by simpa using List.find?_some hfind
    exact setInode_sound h (fun i hi => (h.free inum hty i hi).symm) rfl fun _ => h.free inum hty

theorem ifree_sound (h : s.Sound first) (ip : ℕ) : ∃ s', s.ifree ip = .ok s' ∧ s'.Sound first := by
  obtain ⟨s₁, hrun, hsound, hsize, -, hptr, -⟩ := itrunc_spec h ip
  refine ⟨s₁.setInode ip { s₁.inodes ip with type := 0 }, by rw [State.ifree, hrun]; rfl,
    setInode_sound hsound (fun _ _ => rfl) hsize fun _ i hi => ?_⟩
  exact hptr (.root i) hi

/-- **One call** keeps the disk sound, or it panics because the inode is free. -/
theorem exec_sound (h : s.Sound first) (op : Op) :
    (∃ s', s.exec op = .ok s' ∧ s'.Sound first) ∨ s.exec op = .error "ilock: no type" := by
  have hlock : ∀ (ip : ℕ) (f : Except String State), ((s.inodes ip).type ≠ 0 → ∃ s', f = .ok s' ∧ s'.Sound first) →
      (∃ s', (s.ilock ip >>= fun _ => f) = .ok s' ∧ s'.Sound first) ∨
        (s.ilock ip >>= fun _ => f) = .error "ilock: no type" := by
    intro ip f hf
    unfold State.ilock
    by_cases hty : (s.inodes ip).type = 0
    · rw [if_pos hty]
      exact .inr rfl
    · rw [if_neg hty]
      exact .inl (hf hty)
  cases op with
  | ialloc type => exact .inl ⟨_, rfl, ialloc_sound h type⟩
  | ifree ip => exact hlock ip _ fun _ => ifree_sound h ip
  | itrunc ip =>
    refine hlock ip _ fun _ => ?_
    obtain ⟨s', hrun, hsound, -⟩ := itrunc_spec h ip
    exact ⟨s', hrun, hsound⟩
  | readi ip off n room =>
    refine hlock ip _ fun _ => ⟨s, ?_, h⟩
    rw [readi_content h]
    split <;> rfl
  | writei ip src off n =>
    refine hlock ip _ fun hty => ?_
    rcases writei_spec h hty src off n with ⟨-, hrun⟩ | ⟨-, tot, s₁, -, s', hrun, hsound, -⟩
    · exact ⟨s, by rw [hrun]; rfl, h⟩
    · exact ⟨s', by rw [hrun]; rfl, hsound⟩

end

/-- A disk whose blocks belong to files as they should -/
structure Image where
  state : State
  first : ℕ
  sound : state.Sound first

/-- **Blocks are neither lost nor shared, in any run.** After any calls a block of the area is marked exactly if
    it belongs to one place of one file. The calls do not panic, be it because a block to be freed is
    free already or because `bmap` runs out of layers, but for a caller that locks a free inode. -/
theorem run_sound (img : Image) (ops : List Op) :
    (∃ s', ops.foldlM State.exec img.state = .ok s' ∧ s'.Sound img.first) ∨
      ops.foldlM State.exec img.state = .error "ilock: no type" := by
  obtain ⟨s, first, h⟩ := img
  dsimp only
  induction ops generalizing s with
  | nil => exact .inl ⟨s, rfl, h⟩
  | cons op ops ih =>
    rw [List.foldlM_cons]
    rcases exec_sound h op with ⟨s', hrun, hsound⟩ | hrun
    · rw [hrun]
      exact ih s' hsound
    · rw [hrun]
      exact .inr rfl

/-- What `readi` copies of a content, and its result -/
def readResult (content : List UInt8) (off n : UInt32) (room : ℕ) : ℤ × List UInt8 :=
  if content.length < off.toNat ∨ off + n < off then (0, [])
  else
    let bytes := (content.drop off.toNat).take n.toNat
    (if bytes.length ≤ room then bytes.length else -1, bytes.take room)

theorem readi_eq {s : State} {first : ℕ} (h : s.Sound first) (ip : ℕ) (off n : UInt32) (room : ℕ) :
    s.readi ip off n room =
      .ok ((readResult (s.content ip) off n room).1, (readResult (s.content ip) off n room).2, s) := by
  rw [readi_content h, readResult, content_length]
  split <;> rfl

/-- **Truncating gives back what a file has, and nothing else.** Exactly the blocks that its pointers lead to,
    tables among them, become free; all its pointers are null; every other file is read as before. -/
theorem itrunc_frees (img : Image) (ip : ℕ) :
    ∃ s', img.state.itrunc ip = .ok s' ∧
      (∀ c, s'.used c = true ↔ img.state.used c = true ∧
        ¬ (c ≠ 0 ∧ ∃ slot : Bmap.Slot, slot.Valid ∧ img.state.ptr (ip, slot) = c)) ∧
      (∀ i < TOTBUF, (s'.inodes ip).addrs i = 0) ∧ s'.content ip = [] ∧
      ∀ ip', ip' ≠ ip → ∀ off n room, s'.readi ip' off n room =
        .ok ((readResult (img.state.content ip') off n room).1, (readResult (img.state.content ip') off n room).2, s') := by
  obtain ⟨s', hrun, hsound, hsize, -, hptr, hused, hother⟩ := itrunc_spec img.sound ip
  refine ⟨s', hrun, hused, fun i hi => hptr (.root i) hi, ?_, fun ip' hip off n room => ?_⟩
  · rw [State.content, hsize]
    rfl
  · rw [readi_eq hsound, (hother ip' hip).2.1]

end Xv6.Kernel.BlockLayer
