import Xv6.Mkfs.Iappend

/-!
# Reading the Image

The kernel reads the files of an image with `bmap`, which knows tables of two layers. `mkfs` keeps one
table for a file.

Beyond this table `iappend` does not stop: the limit that it checks is the one of the kernel.

- `ilock`, `readi`: the kernel, on an image;
- `readBlocks_spec`: what is read from a file that has been built;
- `agree_iff`: the calls of `iappend` after which the kernel finds what has been appended.
-/

namespace Xv6.Mkfs

open Xv6.Lib Xv6.Kernel.Bmap

/-! ## The kernel -/

/-- `bp->data[bi/8] & m` in `balloc`: the block is not free. -/
def marked (disk : ℕ → ByteBlock) (b : ℕ) : Bool :=
  disk (b / BPB + bmapstart) (b % BPB / 8) &&& 1 <<< UInt8.ofNat (b % BPB % 8) ≠ 0

/-- `ilock(ip)`: an inode in memory. What `balloc` comes upon is arbitrary. -/
def ilock (disk : ℕ → ByteBlock) (pick : ℕ → ℕ) (inum : ℕ) : Kernel.Bmap.State where
  size := FSSIZE
  bmapstart := bmapstart
  addrs := (dinodeAt disk inum).addrs
  disk b := (disk b).word
  used := marked disk
  pick := pick
  calls := 0
  log := []

/-- A byte of a block, which is there by words -/
def byte (s : Kernel.Bmap.State) (b j : ℕ) : UInt8 := UInt8.ofNat (s.disk b (j / 4) / 256 ^ (j % 4))

/-- The loop of `readi`, with the bytes that are left. Each round reads a byte at least. -/
def readBlocks : ℕ → Kernel.Bmap.State → ℕ → ℕ → Except String (List UInt8)
  | 0, _, _, _ => .ok []
  | fuel + 1, s, off, rest =>
    if rest = 0 then .ok []
    else
      match s.bmap (off / BSIZE) with
      | .error e => .error e
      | .ok (addr, s) =>
        if addr = 0 then .ok []
        else
          let m := min rest (BSIZE - off % BSIZE)
          match readBlocks fuel s (off + m) (rest - m) with
          | .error e => .error e
          | .ok bytes => .ok ((List.range m).map (fun j => byte s addr (off % BSIZE + j)) ++ bytes)

/-- `readi(ip, user_dst, dst, off, n)`, for an inode with this size -/
def readi (s : Kernel.Bmap.State) (size off n : ℕ) : Except String (List UInt8) :=
  if size < off ∨ (off + n) % 2 ^ 32 < off then .ok []
  else
    let n := if size < (off + n) % 2 ^ 32 then size - off else n
    readBlocks n s off n

/-- **The kernel agrees with `mkfs`** on an image: it reads what has been appended, and the blocks of different
    files are different and marked. -/
structure Agrees (calls : List (Fin NINODES × List UInt8)) (s : State) : Prop where
  read : ∀ (inum : Fin NINODES) pick off n, off + n < 2 ^ 32 →
    readi (ilock s.disk pick inum) (dinodeAt s.disk inum).size off n =
      .ok (((written calls inum).drop off).take n)
  distinct : ∀ (inum inum' : Fin NINODES) pick (slot slot' : Slot), inum ≠ inum' → slot.Valid → slot'.Valid →
    (ilock s.disk pick inum).ptr slot ≠ 0 →
      (ilock s.disk pick inum).ptr slot ≠ (ilock s.disk pick inum').ptr slot'
  marked : ∀ (inum : Fin NINODES) pick (slot : Slot), slot.Valid → (ilock s.disk pick inum).ptr slot ≠ 0 →
    marked s.disk ((ilock s.disk pick inum).ptr slot) = true

/-! ## The bitmap -/

theorem bit_ne_zero (i : ℕ) : (1 : UInt8) <<< UInt8.ofNat (i % 8) ≠ 0 := by
  have h : ∀ j < 8, (1 : UInt8) <<< UInt8.ofNat j ≠ 0 := by decide
  exact h _ (Nat.mod_lt _ (by decide))

/-- The bits stay that have been set. -/
theorem or_and_ne_zero {a m : UInt8} (b : UInt8) (h : a &&& m ≠ 0) : (a ||| b) &&& m ≠ 0 := by
  have hdist : (a ||| b) &&& m = a &&& m ||| b &&& m := UInt8.toBitVec_inj.1 BitVec.and_or_distrib_right
  rw [hdist]
  exact fun hz => h (UInt8.or_eq_zero_iff.1 hz).1

theorem bitmap_set {used i : ℕ} (h : i < used) :
    bitmap used (i / 8) &&& 1 <<< UInt8.ofNat (i % 8) ≠ 0 := by
  induction used with
  | zero => exact absurd h (Nat.not_lt_zero i)
  | succ n ih =>
    unfold bitmap
    rw [Function.update_apply]
    rcases Nat.lt_or_ge i n with hlt | hge
    · split
      · next hbyte =>
        rw [← hbyte]
        exact or_and_ne_zero _ (ih hlt)
      · exact ih hlt
    · obtain rfl : i = n := Nat.le_antisymm (Nat.lt_succ_iff.1 h) hge
      rw [if_pos rfl, UInt8.or_comm]
      refine or_and_ne_zero _ ?_
      rw [UInt8.and_self]
      exact bit_ne_zero i

/-- The blocks that have been taken are marked. -/
theorem marked_of_lt {s : State} (hused : s.freeblock < BSIZE * 8) {b : ℕ} (hb : b < s.freeblock) :
    marked (s.wsect bmapstart (bitmap s.freeblock)).disk b = true := by
  have hlt : b < BPB := Nat.lt_trans hb hused
  refine decide_eq_true ?_
  rw [Nat.div_eq_of_lt hlt, Nat.mod_eq_of_lt hlt, Nat.zero_add]
  unfold State.wsect
  dsimp only
  rw [Function.update_self]
  exact bitmap_set hb

/-- Writing the bitmap leaves the files alone. -/
theorem Built.bitmap {s : State} {data : Fin NINODES → List UInt8} (h : Built s data) (buf : ByteBlock) :
    Built (s.wsect bmapstart buf) data := by
  have hdin : ∀ i : Fin NINODES, dinodeAt (s.wsect bmapstart buf).disk i = dinodeAt s.disk i := by
    intro i
    unfold dinodeAt State.wsect
    dsimp only
    rw [Function.update_of_ne (Nat.ne_of_lt (IBLOCK_lt i))]
  refine ⟨?_, fun i => by rw [hdin]; exact h.size i⟩
  refine h.files.congr rfl (fun b hb => ?_) (fun i => by rw [hdin]) (fun i => ?_)
  · exact Function.update_of_ne (Nat.ne_of_gt (Nat.lt_of_lt_of_le bmapstart_lt hb)) _ _
  · rw [hdin]
    exact h.files.sound i

/-! ## Reading -/

/-- The pointer to a block that is there is found without allocating. -/
theorem bmap_found {s : Kernel.Bmap.State} {bn : ℕ} (hbn : bn < LIMIT) (hne : s.ptr (slotOf bn) ≠ 0) :
    ∃ s', s.bmap bn = .ok (s.ptr (slotOf bn), s') ∧ s'.addrs = s.addrs ∧ s'.disk = s.disk := by
  rcases Nat.lt_or_ge bn NDIRECT with hdirect | hdirect
  · rw [slotOf_direct hdirect] at hne ⊢
    exact ⟨s, (bmap_direct hdirect).trans (congrArg Except.ok (if_neg hne)), rfl, rfl⟩
  · rw [slotOf_single hdirect hbn] at hne ⊢
    have htable : s.addrs NDIRECT ≠ 0 := fun h => hne (if_pos h)
    have hptr : s.ptr (.single (bn - NDIRECT)) = s.disk (s.addrs NDIRECT) (bn - NDIRECT) := if_neg htable
    have hroot : s.root NDIRECT = (s.addrs NDIRECT, s) := if_neg htable
    rw [hptr] at hne ⊢
    refine ⟨s.addLog (.table (s.addrs NDIRECT)), ?_, rfl, rfl⟩
    rw [bmap_single hdirect hbn, hroot, if_neg htable]
    exact congrArg Except.ok (if_neg hne)

/-- The kernel and `mkfs` mean the same by a block of a file. -/
theorem ptr_slotOf {disk : ℕ → ByteBlock} {din : Dinode} {s : Kernel.Bmap.State} (haddrs : s.addrs = din.addrs)
    (hdisk : s.disk = fun b => (disk b).word) {bn : ℕ} (hbn : bn < LIMIT) :
    s.ptr (slotOf bn) = place disk din (.block bn) := by
  rcases Nat.lt_or_ge bn NDIRECT with hdirect | hdirect
  · rw [slotOf_direct hdirect]
    simp only [Kernel.Bmap.State.ptr, place, haddrs, hdirect, if_true]
  · rw [slotOf_single hdirect hbn]
    simp only [Kernel.Bmap.State.ptr, Kernel.Bmap.State.word, place, haddrs, hdisk, Nat.not_lt.2 hdirect,
      if_false]

theorem byte_eq {disk : ℕ → ByteBlock} {s : Kernel.Bmap.State} (hdisk : s.disk = fun b => (disk b).word)
    (b j : ℕ) : byte s b j = disk b j := by
  have h := congrFun (ByteBlock.setWord_word (disk b) (j / 4)) j
  unfold ByteBlock.setWord at h
  rw [if_pos rfl] at h
  unfold byte
  rw [hdisk]
  exact h

/-- **The loop of `readi`** reads what has been appended. -/
theorem readBlocks_spec {disk : ℕ → ByteBlock} {pl : Fin NINODES → Piece → ℕ} {free : ℕ}
    {data : Fin NINODES → List UInt8} (h : Laid pl disk free data) (inum : Fin NINODES) {din : Dinode}
    (hpl : pl inum = place disk din) (fuel : ℕ) {s : Kernel.Bmap.State} (haddrs : s.addrs = din.addrs)
    (hdisk : s.disk = fun b => (disk b).word) {off rest : ℕ} (hlen : off + rest ≤ (data inum).length)
    (hfuel : rest ≤ fuel) :
    readBlocks fuel s off rest = .ok (((data inum).drop off).take rest) := by
  induction fuel generalizing s off rest with
  | zero =>
    obtain rfl := Nat.le_zero.1 hfuel
    rw [List.take_zero]
    rfl
  | succ fuel ih =>
    unfold readBlocks
    rcases Nat.eq_zero_or_pos rest with rfl | hpos
    · rw [if_pos rfl, List.take_zero]
    have hB : BSIZE = 4096 := rfl
    have hvalid := h.valid (i := inum) (k := off) (by omega)
    have hptr := ptr_slotOf haddrs hdisk hvalid
    have hne := (h.content inum off (by omega)).1
    rw [hpl, ← hptr] at hne
    obtain ⟨s', hbmap, haddrs', hdisk'⟩ := bmap_found hvalid hne
    rw [if_neg (Nat.ne_of_gt hpos), hbmap]
    dsimp only
    rw [if_neg hne]
    generalize hm : min rest (BSIZE - off % BSIZE) = m
    have hmB : 0 < m ∧ m ≤ rest ∧ off % BSIZE + m ≤ BSIZE := by
      rw [hB] at hm ⊢
      omega
    rw [ih (haddrs'.trans haddrs) (hdisk'.trans hdisk) (by omega) (by omega)]
    dsimp only
    congr 1
    -- The bytes of this round, then those of the rounds that follow
    have hsplit : ((data inum).drop off).take rest =
        ((data inum).drop off).take m ++ ((data inum).drop (off + m)).take (rest - m) := by
      rw [← List.drop_drop, ← List.take_add, Nat.add_sub_cancel' hmB.2.1]
    rw [hsplit]
    congr 1
    refine List.ext_getElem ?_ fun j hj hj' => ?_
    · simp only [List.length_map, List.length_range, List.length_take, List.length_drop]
      omega
    · simp only [List.length_map, List.length_range] at hj
      obtain ⟨hdiv, hmod⟩ : (off + j) / BSIZE = off / BSIZE ∧ (off + j) % BSIZE = off % BSIZE + j := by
        rw [hB] at hmB ⊢
        omega
      have hbyte := (h.content inum (off + j) (by omega)).2
      rw [hdiv, hmod, hpl, ← hptr] at hbyte
      rw [List.getElem_map, List.getElem_range, byte_eq (hdisk'.trans hdisk), hbyte, List.getElem_take, List.getElem_drop]

/-! ## The images -/

/-- What has been built is read. -/
theorem Built.readi {s : State} {data : Fin NINODES → List UInt8} (h : Built s data) (inum : Fin NINODES)
    (pick : ℕ → ℕ) {off n : ℕ} (hn : off + n < 2 ^ 32) :
    readi (ilock s.disk pick inum) (dinodeAt s.disk inum).size off n =
      .ok (((data inum).drop off).take n) := by
  rw [h.size inum]
  unfold Mkfs.readi
  rw [Nat.mod_eq_of_lt hn]
  split
  · next hout =>
    rw [List.drop_eq_nil_of_le (by omega), List.take_nil]
  · next hin =>
    dsimp only
    split
    · next hlong =>
      rw [readBlocks_spec h.files.laid inum rfl _ rfl rfl (by omega) (le_refl _),
        List.take_of_length_le (by rw [List.length_drop]), List.take_of_length_le]
      rw [List.length_drop]
      omega
    · exact readBlocks_spec h.files.laid inum rfl _ rfl rfl (by omega) (le_refl _)

/-- A block that the kernel finds is a piece of the file. -/
theorem Built.piece {s : State} {data : Fin NINODES → List UInt8} (h : Built s data) (inum : Fin NINODES)
    (pick : ℕ → ℕ) {slot : Slot} (hvalid : slot.Valid) (hne : (ilock s.disk pick inum).ptr slot ≠ 0) :
    ∃ c : Piece, c.Valid ∧ (ilock s.disk pick inum).ptr slot = place s.disk (dinodeAt s.disk inum) c := by
  have hdouble : (ilock s.disk pick inum).addrs (NDIRECT + 1) = 0 := (h.files.sound inum).double
  have hleaf : ∀ i, (ilock s.disk pick inum).word ((ilock s.disk pick inum).addrs (NDIRECT + 1)) i = 0 :=
    fun i => if_pos hdouble
  cases slot with
  | root i =>
    rcases Nat.lt_trichotomy i NDIRECT with hi | rfl | hi
    · exact ⟨.block i, Nat.lt_of_lt_of_le hi (by decide), (if_pos hi).symm⟩
    · exact ⟨.indirect, trivial, rfl⟩
    · have htop : i = NDIRECT + 1 := by
        have hT : TOTBUF = NDIRECT + 2 := rfl
        unfold Slot.Valid at hvalid
        omega
      rw [htop] at hne
      exact absurd hdouble hne
  | single j =>
    have hlt : NDIRECT + j < LIMIT := Nat.add_lt_add_left hvalid NDIRECT
    refine ⟨.block (NDIRECT + j), hlt, ?_⟩
    rw [← ptr_slotOf (s := ilock s.disk pick inum) rfl rfl hlt, slotOf_single (Nat.le_add_right _ _) hlt,
      Nat.add_sub_cancel_left]
  | leaf i => exact absurd (hleaf i) hne
  | double i j =>
    have hdata : (ilock s.disk pick inum).ptr (.double i j) = 0 := if_pos (hleaf i)
    exact absurd hdata hne

/-- What has been built, with the bitmap, is what the kernel finds. -/
theorem Built.agrees {calls : List (Fin NINODES × List UInt8)} {s : State} (h : Built s (written calls))
    (hused : s.freeblock < BSIZE * 8) : Agrees calls (s.wsect bmapstart (Mkfs.bitmap s.freeblock)) := by
  have hb := h.bitmap (Mkfs.bitmap s.freeblock)
  refine ⟨fun inum pick off n hn => hb.readi inum pick hn, ?_, ?_⟩
  · intro inum inum' pick slot slot' hinum hvalid hvalid' hne heq
    obtain ⟨c, hc, hplace⟩ := hb.piece inum pick hvalid hne
    obtain ⟨c', hc', hplace'⟩ := hb.piece inum' pick hvalid' (heq ▸ hne)
    rw [hplace] at hne heq
    exact hinum (hb.files.laid.inj inum c inum' c' hc hc' hne (heq.trans hplace')).1
  · intro inum pick slot hvalid hne
    obtain ⟨c, hc, hplace⟩ := hb.piece inum pick hvalid hne
    rw [hplace] at hne ⊢
    exact marked_of_lt hused (hb.files.laid.range inum c hc hne).2

/-- **The kernel reads what `mkfs` writes** if and only if no file needs more than the one table, and the blocks
    in use are in reach of the one block of the bitmap. -/
theorem agree_iff (f : Formatted) (calls : List (Fin NINODES × List UInt8)) :
    (∃ s, build f.state calls = .ok s ∧ Agrees calls s) ↔
      (∀ inum, (written calls inum).length ≤ (NDIRECT + NINDIRECT) * BSIZE) ∧
        nmeta + ∑ inum, (nblocks (written calls inum).length +
          if NDIRECT < nblocks (written calls inum).length then 1 else 0) < BSIZE * 8 := by
  obtain ⟨hgood, hbad⟩ := build_spec calls f.built
  simp only [List.nil_append] at hgood hbad
  by_cases hfits : ∀ inum, (written calls inum).length ≤ (NDIRECT + NINDIRECT) * BSIZE
  · rw [and_iff_right hfits]
    obtain ⟨s, hr, hbuilt⟩ := hgood hfits
    have hfree := hbuilt.files.free
    simp only [card_pieces] at hfree
    rw [hr, ← hfree]
    unfold balloc
    split
    · next hused => exact iff_of_true ⟨_, rfl, hbuilt.agrees hused⟩ hused
    · next hused =>
      refine iff_of_false (fun ⟨s', hs', _⟩ => ?_) hused
      cases hs'
  · refine iff_of_false (fun ⟨s, hs, _⟩ => ?_) fun h => hfits h.1
    obtain ⟨inum, hlong⟩ := not_forall.1 hfits
    obtain ⟨e, he⟩ := hbad ⟨inum, Nat.lt_of_not_le hlong⟩
    rw [he] at hs
    cases hs

theorem dinodeAt_zero {disk : ℕ → ByteBlock} {inum : ℕ} (h : disk (IBLOCK inum) = ByteBlock.zero) (w : ℕ) :
    dinodeAt disk inum w = 0 := by
  unfold dinodeAt
  rw [h, ByteBlock.word_zero, ite_self]

theorem IBLOCK_ne_one (inum : ℕ) : IBLOCK inum ≠ 1 :=
  Nat.ne_of_gt (Nat.lt_of_lt_of_le (by decide : 1 < inodestart) (Nat.le_add_left _ _))

/-- `ialloc(type)`, for the inode that is next -/
def State.ialloc (s : State) (inum : Fin NINODES) (type : UInt16) : State :=
  s.winode inum fun w => if w = 0 then type.toNat else if w = 1 then 2 ^ 16 else 0

theorem dinodeAt_ialloc (s : State) (inum inum' : Fin NINODES) (type : UInt16) :
    dinodeAt (s.ialloc inum type).disk inum' = if inum' = inum then
      (fun w => if w = 0 then type.toNat else if w = 1 then 2 ^ 16 else 0) else dinodeAt s.disk inum' := by
  have htype := type.toNat_lt
  refine dinodeAt_winode s inum inum' (fun w hw => ?_) (fun w hw => ?_)
  · split_ifs <;> omega
  · have hW : DINODE_WORDS = 16 := rfl
    rw [if_neg (by omega), if_neg (by omega)]

/-- The bytes of equal calls -/
theorem length_written_replicate (k : ℕ) (inum inum' : Fin NINODES) (p : List UInt8) :
    (written (List.replicate k (inum, p)) inum').length = if inum' = inum then k * p.length else 0 := by
  induction k with
  | zero =>
    rw [Nat.zero_mul, ite_self]
    rfl
  | succ k ih =>
    rw [List.replicate_succ, written_cons]
    split
    · next h =>
      rw [if_pos h] at ih
      rw [List.length_append, ih, Nat.add_comm, Nat.succ_mul]
    · next h => rwa [if_neg h] at ih

/-- `struct superblock` -/
def superblock : ByteBlock :=
  setWords ByteBlock.zero 0 (fun w => [0x10203040, FSSIZE, FSSIZE - nmeta, NINODES, nlog, 2, inodestart,
    bmapstart, bmapstart + nbitmap].getD w 0) 9

/-- The image after the super block has been written -/
def format : Formatted where
  state := { disk := Function.update (fun _ => ByteBlock.zero) 1 superblock, freeblock := nmeta }
  size inum := dinodeAt_zero (Function.update_of_ne (IBLOCK_ne_one inum) superblock _) 2
  addrs inum k := dinodeAt_zero (Function.update_of_ne (IBLOCK_ne_one inum) superblock _) (3 + k)
  zero b hb := by
    have hne : b ≠ 1 := Nat.ne_of_gt (Nat.lt_of_lt_of_le (by decide) hb)
    change Function.update (fun _ => ByteBlock.zero) 1 superblock b = ByteBlock.zero
    rw [Function.update_of_ne hne]
  free := rfl

/-- The inodes stay empty. -/
def Formatted.ialloc (f : Formatted) (inum : Fin NINODES) (type : UInt16) : Formatted where
  state := f.state.ialloc inum type
  size inum' := by
    rw [show (f.state.ialloc inum type).rinode inum' = _ from dinodeAt_ialloc f.state inum inum' type]
    split
    · rfl
    · exact f.size inum'
  addrs inum' k := by
    rw [show (f.state.ialloc inum type).rinode inum' = _ from dinodeAt_ialloc f.state inum inum' type]
    split
    · unfold Dinode.addrs
      dsimp only
      rw [if_neg (by omega), if_neg (by omega)]
    · exact f.addrs inum' k
  zero b hb := by
    rw [← f.zero b hb]
    exact Function.update_of_ne
      (Nat.ne_of_gt (Nat.lt_of_lt_of_le ((IBLOCK_lt inum).trans bmapstart_lt) hb)) _ _
  free := f.free

/-- The inode of the file below -/
def file : Fin NINODES := ⟨2, by decide⟩

/-- An image with the root directory and one file -/
def oneFile : Formatted := (format.ialloc ⟨1, by decide⟩ 1).ialloc file 2

/-- One block more than the table has entries for is appended to the file. -/
def longCalls : List (Fin NINODES × List UInt8) :=
  List.replicate (LIMIT + 1) (file, List.replicate BSIZE 0)

theorem length_longCalls (inum : Fin NINODES) :
    (written longCalls inum).length = if inum = file then (LIMIT + 1) * BSIZE else 0 := by
  unfold longCalls
  rw [length_written_replicate, List.length_replicate]

/-- The kernel takes files of this length, but the image is not built. -/
theorem longCalls_fail :
    (∀ inum, (written longCalls inum).length ≤ MAXFILE * BSIZE) ∧
      ¬ ∃ s, build oneFile.state longCalls = .ok s ∧ Agrees longCalls s := by
  refine ⟨fun inum => ?_, fun ⟨s, hs, _⟩ => ?_⟩
  · rw [length_longCalls]
    split
    · decide
    · exact Nat.zero_le _
  · have hlong : LIMIT * BSIZE < ([] ++ written longCalls file).length := by
      rw [List.nil_append, length_longCalls, if_pos rfl]
      decide
    obtain ⟨e, he⟩ := (build_spec longCalls oneFile.built).2 ⟨file, hlong⟩
    rw [he] at hs
    cases hs

end Xv6.Mkfs
