import Xv6.Kernel.Bmap

/-!
# The Blocks of a Write

`filewrite` writes a file in chunks, each in a transaction of its own, so that a chunk does not change more
blocks than a transaction has reserved in the log.

A chunk covers four blocks at most. It changes these, up to three tables, both blocks of the bitmap and the
block of the inode. Where `bmap` takes the boot block for a table, this block comes on top.

- `window`: the pointers on the way to the blocks of a chunk;
- `writeBlocks_spec`: the blocks that the loop of `writei` changes;
- `chunk_fits`: a chunk for which no table of the second layer is missing changes MAXOPBLOCKS blocks at most.
-/

namespace Xv6.Kernel.Bmap

/-! ## Writing -/

def BSIZE : ℕ := 4096
def MAXOPBLOCKS : ℕ := 10
def SWAP_SPACE_BLOCKS : ℕ := 1024
def FSSIZE : ℕ := 40000 + SWAP_SPACE_BLOCKS
def MAXFILE : ℕ := NDIRECT + NINDIRECT + 10 * NINDIRECT

/-- `IPB`, for a `struct dinode` of 64 bytes -/
def IPB : ℕ := BSIZE / 64

/-- `max` in `filewrite` -/
def maxChunk : ℕ := (MAXOPBLOCKS - 1 - 1 - 2) / 2 * BSIZE

/-- An inode that is locked, with the blocks of its file -/
structure Inode where
  tree : State
  inum : ℕ
  size : ℕ
  /-- `sb.inodestart` -/
  inodestart : ℕ

/-- `IBLOCK(ip->inum, sb)` -/
def Inode.iblock (ip : Inode) : ℕ := ip.inum / IPB + ip.inodestart

/-- `iupdate(ip)` -/
def Inode.iupdate (ip : Inode) : Inode := { ip with tree := ip.tree.addLog (.logWrite ip.iblock) }

/-- The loop of `writei`, with the bytes that are left; the result is where it ends. Each round writes a byte
    at least. `copyin` tells for which offsets `either_copyin` succeeds. The bytes in the blocks, which `bmap`
    does not look at, are left out. -/
def writeBlocks (copyin : ℕ → Bool) : ℕ → State → ℕ → ℕ → Except String (ℕ × State)
  | 0, s, off, _ => .ok (off, s)
  | fuel + 1, s, off, rest =>
    if rest = 0 then .ok (off, s)
    else
      match s.bmap (off / BSIZE) with
      | .error e => .error e
      | .ok (addr, s) =>
        if addr = 0 then .ok (off, s)
        else if copyin off then
          let m := min rest (BSIZE - off % BSIZE)
          writeBlocks copyin fuel (s.addLog (.logWrite addr)) (off + m) (rest - m)
        else .ok (off, s)

/-- `writei(ip, user_src, src, off, n)` -/
def writei (copyin : ℕ → Bool) (ip : Inode) (off n : ℕ) : Except String (ℤ × Inode) :=
  if ip.size < off ∨ (off + n) % 2 ^ 32 < off then .ok (-1, ip)
  else if MAXFILE * BSIZE < (off + n) % 2 ^ 32 then .ok (-1, ip)
  else
    match writeBlocks copyin n ip.tree off n with
    | .error e => .error e
    | .ok (off', s) =>
      let ip := { ip with tree := s, size := if ip.size < off' then off' else ip.size }
      .ok (off' - off, ip.iupdate)

/-- The block of a `log_write` -/
def Event.written : Event → Option ℕ
  | .logWrite b => some b
  | _ => none

/-- The blocks that have been written to the log -/
def State.logged (s : State) : Finset ℕ := (s.log.filterMap Event.written).toFinset

/-- An inode of an image by `mkfs`, at the beginning of a transaction -/
structure MkfsInode where
  ip : Inode
  consistent : ip.tree.Consistent
  log : ip.tree.log = []
  size : ip.tree.size = FSSIZE

/-- **A chunk fits**: `writei` does not panic, and changes not more blocks than a transaction has reserved. -/
def Fits (r : Except String (ℤ × Inode)) : Prop :=
  ∃ tot ip, r = .ok (tot, ip) ∧ ip.tree.logged.card ≤ MAXOPBLOCKS

/-- In a round of the loop of `writei`, `balloc` finds no block for a table of the second layer. -/
def MissesLeaf (copyin : ℕ → Bool) : ℕ → State → ℕ → ℕ → Prop
  | 0, _, _, _ => False
  | fuel + 1, s, off, rest =>
    rest ≠ 0 ∧ (LeafFails s (off / BSIZE) ∨
      ∃ addr s', s.bmap (off / BSIZE) = .ok (addr, s') ∧ addr ≠ 0 ∧ copyin off ∧
        MissesLeaf copyin fuel (s'.addLog (.logWrite addr)) (off + min rest (BSIZE - off % BSIZE))
          (rest - min rest (BSIZE - off % BSIZE)))

theorem mem_logged {s : State} {b : ℕ} : b ∈ s.logged ↔ .logWrite b ∈ s.log := by
  unfold State.logged
  rw [List.mem_toFinset, List.mem_filterMap]
  constructor
  · rintro ⟨e, he, hb⟩
    cases e <;> cases hb
    exact he
  · exact fun h => ⟨_, h, rfl⟩

/-! ## The pointers of a chunk -/

/-- The pointers on the way to four blocks in a row -/
def window (k : ℕ) : Finset Slot := (Finset.Icc k (k + 3)).biUnion slotPath

/-- A path goes over the tables of its layer. -/
theorem mem_slotPath {bn : ℕ} {slot : Slot} (h : slot ∈ slotPath bn) :
    slot = slotOf bn ∨ bn < NDIRECT + NINDIRECT ∧ slot = .root NDIRECT ∨
      NDIRECT + NINDIRECT ≤ bn ∧
        (slot = .root (NDIRECT + 1) ∨ slot = .leaf ((bn - NDIRECT - NINDIRECT) / NINDIRECT)) := by
  unfold slotPath at h
  unfold slotOf
  split at h
  · next hdirect => exact .inl (by rw [if_pos hdirect]; exact Finset.mem_singleton.1 h)
  · next hdirect =>
    rw [if_neg hdirect]
    split at h
    · next hsingle =>
      rw [if_pos hsingle]
      simp only [Finset.mem_insert, Finset.mem_singleton] at h
      rcases h with h | h
      · exact .inr (.inl ⟨by omega, h⟩)
      · exact .inl h
    · next hsingle =>
      rw [if_neg hsingle]
      simp only [Finset.mem_insert, Finset.mem_singleton] at h
      rcases h with h | h | h
      · exact .inr (.inr ⟨by omega, .inl h⟩)
      · exact .inr (.inr ⟨by omega, .inr h⟩)
      · exact .inl h

theorem slotOf_mem_slotPath (bn : ℕ) : slotOf bn ∈ slotPath bn := by
  unfold slotOf slotPath
  split
  · exact Finset.mem_singleton_self _
  · split <;> simp

/-- The tables over four blocks in a row -/
def windowTables (k : ℕ) : Finset Slot :=
  {if k < NDIRECT + NINDIRECT then .root NDIRECT else .leaf ((k - NDIRECT - NINDIRECT) / NINDIRECT),
    .root (NDIRECT + 1), .leaf ((k + 3 - NDIRECT - NINDIRECT) / NINDIRECT)}

/-- The tables over four blocks in a row are three at most: where the blocks reach into the second layer, they
    are in the first of its lower tables. -/
theorem window_subset (k : ℕ) :
    window k ⊆ {slotOf k, slotOf (k + 1), slotOf (k + 2), slotOf (k + 3)} ∪ windowTables k := by
  intro slot hslot
  obtain ⟨bn, hbn, hslot⟩ := Finset.mem_biUnion.1 hslot
  rw [Finset.mem_Icc] at hbn
  rw [Finset.mem_union]
  rcases mem_slotPath hslot with h | ⟨hlt, h⟩ | ⟨hge, h | h⟩
  · refine .inl ?_
    have : bn = k ∨ bn = k + 1 ∨ bn = k + 2 ∨ bn = k + 3 := by omega
    rcases this with rfl | rfl | rfl | rfl <;> simp [h]
  · exact .inr (by simp [windowTables, h, Nat.lt_of_le_of_lt hbn.1 hlt])
  · exact .inr (by simp [windowTables, h])
  · have hleaf : NDIRECT + NINDIRECT ≤ k ∧
        (bn - NDIRECT - NINDIRECT) / NINDIRECT = (k - NDIRECT - NINDIRECT) / NINDIRECT ∨
        (bn - NDIRECT - NINDIRECT) / NINDIRECT = (k + 3 - NDIRECT - NINDIRECT) / NINDIRECT := by
      have h₁ : NINDIRECT = 1024 := rfl
      have h₂ : NDIRECT = 11 := rfl
      rw [h₁, h₂] at hge ⊢
      omega
    refine .inr ?_
    rw [h]
    rcases hleaf with ⟨hk, hleaf⟩ | hleaf
    · simp [windowTables, hleaf, Nat.not_lt.2 hk]
    · simp [windowTables, hleaf]

/-- Seven pointers lead to four blocks in a row. -/
theorem window_card (k : ℕ) : (window k).card ≤ 7 :=
  calc (window k).card
    _ ≤ _ := Finset.card_le_card (window_subset k)
    _ ≤ _ := Finset.card_union_le _ _
    _ ≤ 4 + 3 := Nat.add_le_add Finset.card_le_four Finset.card_le_three

/-! ## The loop -/

/-- Between the rounds of the loop: what has been changed are blocks of the bitmap, and blocks that pointers
    of the window lead to. -/
structure Round (k : ℕ) (s : State) : Prop where
  consistent : s.Consistent
  size : s.size = FSSIZE
  written : ∀ b, .logWrite b ∈ s.log → s.Written (window k) b

/-- **Round**: looking up a block of the window, and writing it -/
theorem Round.block {k bn addr : ℕ} {s s' : State} (h : Round k s) (hbn : k ≤ bn ∧ bn ≤ k + 3)
    (hstep : Step (slotPath bn) s s' (slotOf bn) addr) :
    Round k s' ∧ (addr ≠ 0 → Round k (s'.addLog (.logWrite addr))) := by
  have hsub : slotPath bn ⊆ window k := Finset.subset_biUnion_of_mem slotPath (Finset.mem_Icc.2 hbn)
  obtain ⟨evs, hlog, -, -, -, hwrite⟩ := hstep.log
  have hround : Round k s' := by
    refine ⟨hstep.consistent, hstep.size.trans h.size, fun b hb => ?_⟩
    rw [hlog, List.mem_append] at hb
    rcases hb with hb | hb
    · exact (h.written b hb).mono hstep.ext hstep.size hstep.bitmap (Finset.Subset.refl _)
    · exact (hwrite b hb).mono (fun _ _ => rfl) rfl rfl hsub
  refine ⟨hround, fun haddr => ?_⟩
  have hext : Extends s' (s'.addLog (.logWrite addr)) := fun slot _ => ptr_congr rfl rfl slot
  refine ⟨⟨hround.consistent.boot, hround.consistent.ptr, hround.consistent.bitmap⟩, hround.size,
    fun b hb => State.Written.mono (s := s') hext rfl rfl (Finset.Subset.refl _) ?_⟩
  rcases List.mem_append.1 hb with hb | hb
  · exact hround.written b hb
  · rw [Event.logWrite.inj (List.mem_singleton.1 hb)]
    exact .inr ⟨haddr, slotOf bn, hsub (slotOf_mem_slotPath bn), hstep.found haddr⟩

/-- What the loop of `writei` changes, in a chunk for which no table of the second layer is missing -/
theorem writeBlocks_spec {copyin : ℕ → Bool} {k : ℕ} (fuel : ℕ) {s : State} {off rest : ℕ}
    (h : Round k s) (hlo : k * BSIZE ≤ off) (hhi : off + rest ≤ (k + 4) * BSIZE)
    (hmax : off + rest ≤ MAXFILE * BSIZE) (hleaf : ¬ MissesLeaf copyin fuel s off rest) :
    ∃ off' s', writeBlocks copyin fuel s off rest = .ok (off', s') ∧ Round k s' := by
  -- Induction on the turns. Four blocks are touched at most, since the chunk starts in block `k`.
  induction fuel generalizing s off rest with
  | zero => exact ⟨off, s, rfl, h⟩
  | succ fuel ih =>
    unfold writeBlocks
    unfold MissesLeaf at hleaf
    by_cases hrest : rest = 0
    · exact ⟨off, s, if_pos hrest, h⟩
    rw [if_neg hrest]
    -- The block of this turn is one of the four, and not beyond the largest file.
    have hbn : k ≤ off / BSIZE ∧ off / BSIZE ≤ k + 3 ∧ off / BSIZE < MAXFILE := by
      have hB : BSIZE = 4096 := rfl
      rw [hB] at hlo hhi hmax ⊢
      omega
    obtain ⟨⟨addr, s₁⟩, hbmap, hstep⟩ := bmap_step h.consistent
      (Nat.lt_of_lt_of_le hbn.2.2 (by decide)) fun hf => hleaf ⟨hrest, .inl hf⟩
    obtain ⟨hround, hwritten⟩ := h.block ⟨hbn.1, hbn.2.1⟩ hstep
    rw [hbmap]
    dsimp only
    -- The disk is full, or the block is there.
    split
    · exact ⟨off, s₁, rfl, hround⟩
    · next haddr =>
      -- The copy fails, or the loop goes on behind it.
      split
      · next hcopy =>
        have hm : min rest (BSIZE - off % BSIZE) ≤ rest := Nat.min_le_left _ _
        exact ih (hwritten haddr) (by omega) (by omega) (by omega) fun hf =>
          hleaf ⟨hrest, .inr ⟨addr, s₁, hbmap, haddr, hcopy, hf⟩⟩
      · exact ⟨off, s₁, rfl, hround⟩

/-- The blocks of a round are nine at most: two of the bitmap, and seven that the pointers lead to. -/
theorem Round.logged_subset {k : ℕ} {s : State} (h : Round k s) :
    s.logged ⊆ {s.bmapstart, s.bmapstart + 1} ∪ (window k).image s.ptr := by
  intro b hb
  rw [Finset.mem_union]
  rcases h.written b (mem_logged.1 hb) with ⟨c, hc, hb⟩ | ⟨-, slot, hslot, hb⟩
  · refine .inl ?_
    rw [h.size] at hc
    have hmap : b = s.bmapstart ∨ b = s.bmapstart + 1 := by
      unfold State.bblock BPB at hb
      unfold FSSIZE SWAP_SPACE_BLOCKS at hc
      omega
    rcases hmap with hb | hb <;> simp [hb]
  · exact .inr (Finset.mem_image.2 ⟨slot, hslot, hb⟩)

/-- With the block of the inode the blocks are ten. -/
theorem Round.iupdate_card {k : ℕ} {ip : Inode} (h : Round k ip.tree) :
    ip.iupdate.tree.logged.card ≤ MAXOPBLOCKS := by
  have hsub : ip.iupdate.tree.logged ⊆ insert ip.iblock ip.tree.logged := by
    intro b hb
    rw [Finset.mem_insert]
    rcases List.mem_append.1 (mem_logged.1 hb) with hb | hb
    · exact .inr (mem_logged.2 hb)
    · exact .inl (Event.logWrite.inj (List.mem_singleton.1 hb))
  calc ip.iupdate.tree.logged.card
    _ ≤ (insert ip.iblock ip.tree.logged).card := Finset.card_le_card hsub
    _ ≤ ip.tree.logged.card + 1 := Finset.card_insert_le _ _
    _ ≤ 2 + 7 + 1 := by
      refine Nat.add_le_add_right ((Finset.card_le_card h.logged_subset).trans ?_) 1
      refine (Finset.card_union_le _ _).trans (Nat.add_le_add Finset.card_le_two ?_)
      exact Finset.card_image_le.trans (window_card k)

/-! ## The chunks -/

/-- **A chunk fits into its reservation**, wherever it begins and whatever is allocated for it, unless a table
    of the second layer is missing in it. -/
theorem chunk_fits (f : MkfsInode) (copyin : ℕ → Bool) (off n : ℕ) (hn : n ≤ maxChunk)
    (hleaf : ¬ MissesLeaf copyin n f.ip.tree off n) : Fits (writei copyin f.ip off n) := by
  have hstart : Round (off / BSIZE) f.ip.tree :=
    ⟨f.consistent, f.size, fun b hb => by rw [f.log] at hb; cases hb⟩
  have hnone : f.ip.tree.logged.card ≤ MAXOPBLOCKS := by
    unfold State.logged
    rw [f.log]
    exact Nat.zero_le _
  unfold writei
  split
  · exact ⟨_, _, rfl, hnone⟩
  · split
    · exact ⟨_, _, rfl, hnone⟩
    · next hover hmax =>
      -- The sum has not wrapped around.
      have hsum : off + n ≤ MAXFILE * BSIZE := by
        have hM : MAXFILE * BSIZE = 46182400 := rfl
        have hC : maxChunk = 12288 := rfl
        rw [hM] at hmax ⊢
        rw [hC] at hn
        omega
      have hB : BSIZE = 4096 := rfl
      have hC : maxChunk = 12288 := rfl
      obtain ⟨off', s', hr, hround⟩ := writeBlocks_spec n hstart (Nat.div_mul_le_self _ _)
        (by rw [hB]; omega) hsum hleaf
      rw [hr]
      exact ⟨_, _, rfl, Round.iupdate_card hround⟩

/-- No table of the second layer is looked up in the first one. -/
theorem not_missesLeaf {copyin : ℕ → Bool} (fuel : ℕ) {s : State} {off rest : ℕ}
    (h : off + rest ≤ (NDIRECT + NINDIRECT) * BSIZE) : ¬ MissesLeaf copyin fuel s off rest := by
  induction fuel generalizing s off rest with
  | zero => exact id
  | succ fuel ih =>
    rintro ⟨hrest, hf | ⟨addr, s', -, -, -, hf⟩⟩
    · have hbn : off / BSIZE < NDIRECT + NINDIRECT := by
        rw [Nat.div_lt_iff_lt_mul (by decide)]
        omega
      exact Nat.not_le.2 hbn hf.1
    · exact ih (by omega) hf

/-- The first file of an image, while it is empty -/
def emptyFile : MkfsInode where
  ip :=
    { tree :=
        { size := FSSIZE
          bmapstart := 36
          addrs := fun _ => 0
          disk := fun _ _ => 0
          used := fun b => b < 1062
          pick := fun n => 1062 + n
          calls := 0
          log := [] }
      inum := 2
      size := 0
      inodestart := 32 }
  consistent := by
    refine ⟨rfl, fun slot => ?_, by decide⟩
    cases slot <;> simp [State.ptr, State.word]
  log := rfl
  size := rfl

/-- Three blocks are written to it. -/
theorem emptyFile_fits : Fits (writei (fun _ => true) emptyFile.ip 0 maxChunk) :=
  chunk_fits emptyFile _ 0 maxChunk (le_refl _) (not_missesLeaf _ (by decide))

theorem word_lt {s : State} {m : ℕ} (h : ∀ b j, s.disk b j < m) (b j : ℕ) : s.word b j < m := by
  unfold State.word
  split
  · exact Nat.zero_lt_of_lt (h 0 0)
  · exact h b j

/-- A file that ends behind the first byte of the last block but one of a lower table. The disk is full, but
    for what other processes free in between. -/
def longFile : MkfsInode where
  ip :=
    { tree :=
        { size := FSSIZE
          bmapstart := 36
          addrs := fun i => if i < TOTBUF then 2000 + i else 0
          disk := fun b j =>
            if b = 2011 then if j < NINDIRECT then 3000 + j else 0
            else if b = 2012 then if j = 0 then 2013 else 0
            else if b = 2013 then if j < 1023 then 5000 + j else 0
            else 0
          used := fun b => b < 10000
          pick := fun n => if n = 1 then 1062 else if n = 2 then 40000 else 20000 + n
          calls := 0
          log := [] }
      inum := 2
      size := (NDIRECT + NINDIRECT + 1022) * BSIZE + 1
      inodestart := 32 }
  consistent := by
    have hword : ∀ b j, (if b = 2011 then if j < NINDIRECT then 3000 + j else 0
        else if b = 2012 then if j = 0 then 2013 else 0
        else if b = 2013 then if j < 1023 then 5000 + j else 0
        else 0) < 10000 := by
      intro b j
      have hN : NINDIRECT = 1024 := rfl
      split_ifs <;> omega
    refine ⟨rfl, fun slot => decide_eq_true ?_, by decide⟩
    cases slot with
    | root i =>
      have hT : TOTBUF = 13 := rfl
      simp only [State.ptr]
      split <;> omega
    | single j => exact word_lt hword _ _
    | leaf i => exact word_lt hword _ _
    | double i j => exact word_lt hword _ _
  log := rfl
  size := rfl

/-- Four data blocks, the upper table, both lower tables, both blocks of the bitmap, the block of the inode,
    and the boot block are changed. -/
theorem longFile_overflows :
    ¬ Fits (writei (fun _ => true) longFile.ip longFile.ip.size maxChunk) := by
  have hrun : (writei (fun _ => true) longFile.ip longFile.ip.size maxChunk).toOption.map
      (fun r => r.2.tree.logged) = some {6022, 20000, 40000, 20004, 2012, 2013, 20003, 36, 37, 32, 0} := by
    decide +kernel
  rintro ⟨tot, ip, hr, hcard⟩
  rw [hr] at hrun
  rw [show ip.tree.logged = _ from Option.some.inj hrun] at hcard
  exact absurd hcard (by decide)

end Xv6.Kernel.Bmap
