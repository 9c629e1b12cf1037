import Mathlib
import Xv6.Kernel.WriteChunk
import Xv6.Kernel.Inode
import Xv6.Lib.ByteBlock
import Xv6.Lib.Ownership

/-!
# Blocks and Files

The block layer of `fs.c` with all its files: the map of free blocks, the tables that lead from an inode
to its blocks, and what is read and written through them. Calls follow one another; the buffer cache and
the log are not seen.

- `Sound`: every block in use belongs to one place of one file;
- `bmap_grows`: what `bmap` does to the tables and the map;
- `writei_content`, `readi_content`: what is written and read, as bytes of the file.
-/

namespace Xv6.Kernel.BlockLayer

open Xv6.Lib
open Xv6.Kernel.Bmap (slotOf slotPath NDIRECT NINDIRECT INDIR_LAYERS TOTBUF MAXBN Entry)
open Xv6.Kernel.Fs (MAXFILE)

/-! ## The disk -/

/-- `struct dinode`; type 0 is that of a free inode. -/
structure Dinode where
  type : ℕ
  size : ℕ
  addrs : ℕ → ℕ

structure State where
  /-- `sb.size` -/
  size : ℕ
  /-- `sb.ninodes` -/
  ninodes : ℕ
  /-- The bits of the map of blocks -/
  used : ℕ → Bool
  blocks : ℕ → ByteBlock
  inodes : ℕ → Dinode

namespace State

variable (s : State)

/-- Change an inode. -/
def setInode (ip : ℕ) (d : Dinode) : State := { s with inodes := Function.update s.inodes ip d }

def setAddr (ip i v : ℕ) : State :=
  s.setInode ip { s.inodes ip with addrs := Function.update (s.inodes ip).addrs i v }

def setSize (ip size : ℕ) : State := s.setInode ip { s.inodes ip with size := size }

/-- `a[i] = v` in the block `b` -/
def setWord (b i v : ℕ) : State := { s with blocks := Function.update s.blocks b ((s.blocks b).setWord i v) }

/-- Bytes that are copied into the block `b` -/
def blit (b off : ℕ) (src : List UInt8) : State :=
  { s with blocks := Function.update s.blocks b ((s.blocks b).blit off src.length fun j => src.getD j 0) }

/-- The block is marked and set to zero. -/
def allocated (b : ℕ) : State :=
  { s with used := Function.update s.used b true, blocks := Function.update s.blocks b ByteBlock.zero }

/-- `balloc(dev)` -/
def balloc : ℕ × State :=
  match (List.range s.size).find? fun b => !s.used b with
  | none => (0, s)
  | some b => (b, s.allocated b)

/-- `bfree(dev, b)` -/
def bfree (b : ℕ) : Except String State :=
  if s.used b then .ok { s with used := Function.update s.used b false }
  else .error "freeing free block"

/-! ### `bmap` -/

/-- `ip->addrs[i]`, which is allocated if it is 0 -/
def root (ip i : ℕ) : ℕ × State :=
  if (s.inodes ip).addrs i = 0 then
    let (b, s) := s.balloc
    if b = 0 then (0, s) else (b, s.setAddr ip i b)
  else ((s.inodes ip).addrs i, s)

/-- One round of the inner loop: the entry of the table `addr`, which is allocated if it is 0 -/
def entry (addr idx : ℕ) : ℕ × State :=
  if (s.blocks addr).word idx = 0 then
    let (b, s) := s.balloc
    if b ≠ 0 then (b, s.setWord addr idx b) else (0, s)
  else ((s.blocks addr).word idx, s)

/-- The inner loop, this many rounds of it -/
def walk : ℕ → State → ℕ → ℕ → ℕ → ℕ × State
  | 0, s, _, _, addr => (addr, s)
  | j + 1, s, bn, prevBase, addr =>
    let (addr, s) := s.entry addr (bn / prevBase)
    walk j s (bn % prevBase) (prevBase / NINDIRECT) addr

/-- The outer loop, this many rounds of it -/
def layers (s : State) (ip : ℕ) : ℕ → ℕ → ℕ → ℕ → ℕ → Except String (ℕ × State)
  | 0, _, _, _, _ => .error "bmap: out of range"
  | k + 1, inLayer, base, prevBase, bn =>
    if bn < base then
      let (addr, s) := s.root ip (NDIRECT + inLayer)
      if addr = 0 then .ok (0, s) else .ok (s.walk (inLayer + 1) bn prevBase addr)
    else layers s ip k (inLayer + 1) (base * NINDIRECT) base (bn - base)

/-- `bmap(ip, bn)` -/
def bmap (ip bn : ℕ) : Except String (ℕ × State) :=
  if bn < NDIRECT then .ok (s.root ip bn)
  else s.layers ip INDIR_LAYERS 0 NINDIRECT 1 (bn - NDIRECT)

/-! ### Reading and writing -/

/-- The loop of `readi`: whether it came to its end, and the bytes that were copied. Of the destination,
    `room` bytes can be written. -/
def readLoop (ip : ℕ) : ℕ → State → ℕ → ℕ → ℕ → Except String (Bool × List UInt8 × State)
  | 0, s, _, _, _ => .ok (true, [], s)
  | fuel + 1, s, off, rest, room =>
    if rest = 0 then .ok (true, [], s)
    else do
      let (addr, s) ← s.bmap ip (off / Fs.BSIZE)
      if addr = 0 then return (true, [], s)
      let m := min rest (Fs.BSIZE - off % Fs.BSIZE)
      let bytes := (List.range m).map fun j => s.blocks addr (off % Fs.BSIZE + j)
      if room < m then return (false, bytes.take room, s)
      let (done, more, s) ← readLoop ip fuel s (off + m) (rest - m) (room - m)
      return (done, bytes ++ more, s)

/-- `readi(ip, user_dst, dst, off, n)`: its result, and the bytes that were copied -/
def readi (ip : ℕ) (off n : UInt32) (room : ℕ) : Except String (ℤ × List UInt8 × State) :=
  if (s.inodes ip).size < off.toNat ∨ off + n < off then .ok (0, [], s)
  else do
    let n := if (s.inodes ip).size < (off + n).toNat then (s.inodes ip).size - off.toNat else n.toNat
    let (done, bytes, s) ← readLoop ip n s off.toNat n room
    return (if done then bytes.length else -1, bytes, s)

/-- The loop of `writei`, with the bytes that can still be read from the source: where it ends -/
def writeLoop (ip : ℕ) : ℕ → State → ℕ → ℕ → List UInt8 → Except String (ℕ × State)
  | 0, s, off, _, _ => .ok (off, s)
  | fuel + 1, s, off, rest, src =>
    if rest = 0 then .ok (off, s)
    else do
      let (addr, s) ← s.bmap ip (off / Fs.BSIZE)
      if addr = 0 then return (off, s)
      let m := min rest (Fs.BSIZE - off % Fs.BSIZE)
      -- `either_copyin` copies what it can, also where it fails
      let s := s.blit addr (off % Fs.BSIZE) (src.take m)
      if src.length < m then return (off, s)
      writeLoop ip fuel s (off + m) (rest - m) (src.drop m)

/-- `writei(ip, user_src, src, off, n)` -/
def writei (ip : ℕ) (src : List UInt8) (off n : UInt32) : Except String (ℤ × State) :=
  if (s.inodes ip).size < off.toNat ∨ off + n < off then .ok (-1, s)
  else if MAXFILE * Fs.BSIZE < (off + n).toNat then .ok (-1, s)
  else do
    let (off', s) ← writeLoop ip n.toNat s off.toNat n.toNat src
    return (off' - off.toNat, if (s.inodes ip).size < off' then s.setSize ip off' else s)

/-! ### Truncating -/

/-- The loop of `turnc_recur` over the entries of the table `addr`. What an entry leads to is freed by
    `drop`. -/
def turncEntries (addr : ℕ) (drop : State → ℕ → Except String State) : Except String State :=
  (List.range NINDIRECT).foldlM (fun (s : State) j => if (s.blocks addr).word j = 0 then .ok s else drop s j) s

/-- `turnc_recur(dev, addr, layer)`, but for `*addr = 0`, which is left to the caller -/
def turncRecur : ℕ → State → ℕ → Except String State
  | 0, s, addr => do
    let s ← s.turncEntries addr fun s j => s.bfree ((s.blocks addr).word j)
    s.bfree addr
  | layer + 1, s, addr => do
    let s ← s.turncEntries addr fun s j => do
      let s ← turncRecur layer s ((s.blocks addr).word j)
      return s.setWord addr j 0
    s.bfree addr

/-- One round of the loop of `itrunc` over the direct blocks -/
def truncDirect (ip : ℕ) (s : State) (i : ℕ) : Except String State :=
  if (s.inodes ip).addrs i = 0 then .ok s
  else do
    let s ← s.bfree ((s.inodes ip).addrs i)
    return s.setAddr ip i 0

/-- One round of the loop of `itrunc` over the layers of tables -/
def truncLayer (ip : ℕ) (s : State) (inLayer : ℕ) : Except String State :=
  if (s.inodes ip).addrs (NDIRECT + inLayer) = 0 then .ok s
  else do
    let s ← turncRecur inLayer s ((s.inodes ip).addrs (NDIRECT + inLayer))
    return s.setAddr ip (NDIRECT + inLayer) 0

/-- `itrunc(ip)` -/
def itrunc (ip : ℕ) : Except String State := do
  let s ← (List.range NDIRECT).foldlM (truncDirect ip) s
  let s ← (List.range INDIR_LAYERS).foldlM (truncLayer ip) s
  return s.setSize ip 0

/-! ### Inodes -/

/-- `ialloc(dev, type)`: the number of the inode, 0 where there is none -/
def ialloc (type : ℕ) : ℕ × State :=
  match (List.range' 1 (s.ninodes - 1)).find? fun inum => (s.inodes inum).type = 0 with
  | none => (0, s)
  | some inum => (inum, s.setInode inum ⟨type, 0, fun _ => 0⟩)

/-- The branch of `iput` that frees an inode -/
def ifree (ip : ℕ) : Except String State := do
  let s ← s.itrunc ip
  return s.setInode ip { s.inodes ip with type := 0 }

/-- A call of the inode layer -/
inductive Op where
  | ialloc (type : ℕ)
  | ifree (ip : ℕ)
  | itrunc (ip : ℕ)
  | readi (ip : ℕ) (off n : UInt32) (room : ℕ)
  | writei (ip : ℕ) (src : List UInt8) (off n : UInt32)

/-- `ilock(ip)`, which panics where the inode is free -/
def ilock (ip : ℕ) : Except String Unit :=
  if (s.inodes ip).type = 0 then .error "ilock: no type" else .ok ()

/-- A call, whose caller has locked the inode -/
def exec (s : State) : Op → Except String State
  | .ialloc type => .ok (s.ialloc type).2
  | .ifree ip => do
    s.ilock ip
    s.ifree ip
  | .itrunc ip => do
    s.ilock ip
    s.itrunc ip
  | .readi ip off n room => do
    s.ilock ip
    let (_, _, s) ← s.readi ip off n room
    return s
  | .writei ip src off n => do
    s.ilock ip
    let (_, s) ← s.writei ip src off n
    return s

/-! ## Pointers and their owners -/

/-- The entry of a table, 0 where there is no table -/
def word (b i : ℕ) : ℕ := if b = 0 then 0 else (s.blocks b).word i

/-- A pointer of a file: the number of an inode, and which of its pointers -/
abbrev Owner := ℕ × Bmap.Slot

/-- What a pointer is -/
def ptr : Owner → ℕ
  | (ip, .root i) => (s.inodes ip).addrs i
  | (ip, .single j) => s.word ((s.inodes ip).addrs NDIRECT) j
  | (ip, .leaf i) => s.word ((s.inodes ip).addrs (NDIRECT + 1)) i
  | (ip, .double i j) => s.word (s.word ((s.inodes ip).addrs (NDIRECT + 1)) i) j

/-- The pointers that are elements of their arrays -/
def owners : Set Owner := {o | o.2.Valid}

/-- The pointer leads to data, and not to a table. -/
def IsData : Bmap.Slot → Prop
  | .root i => i < NDIRECT
  | .single j => j < NINDIRECT
  | .leaf _ => False
  | .double i j => i < NINDIRECT ∧ j < NINDIRECT

theorem IsData.valid {slot : Bmap.Slot} (h : IsData slot) : slot.Valid := by
  cases slot with
  | root i => exact Nat.lt_of_lt_of_le h (by decide)
  | single j => exact h
  | leaf i => exact h.elim
  | double i j => exact h

/-- The block that a pointer leads to; where there is none, zeros are read. -/
def data (o : Owner) : ByteBlock := if s.ptr o = 0 then ByteBlock.zero else s.blocks (s.ptr o)

/-- The blocks that `balloc` gives to files; those before `first` are the boot block, the log, the inodes,
    the map and the space for swapping. -/
def area (first : ℕ) : Set ℕ := {b | first ≤ b ∧ b < s.size}

/-- **The disk is sound**: a block of the area is marked exactly if it belongs to one place of one file,
    there is a block for every byte of a file, and a free inode has none. -/
structure Sound (first : ℕ) : Prop where
  first_pos : 0 < first
  size_lt : s.size < 2 ^ 32
  used_meta : ∀ b < first, s.used b = true
  boot : ∀ i, (s.blocks 0).word i = 0
  owned : Owned owners (s.area first) s.ptr s.used
  mapped : ∀ ip bn, bn * Fs.BSIZE < (s.inodes ip).size → s.ptr (ip, slotOf bn) ≠ 0
  size_le : ∀ ip, (s.inodes ip).size ≤ MAXFILE * Fs.BSIZE
  free : ∀ ip, (s.inodes ip).type = 0 → ∀ i < TOTBUF, (s.inodes ip).addrs i = 0

/-- The blocks that are free -/
def freeCount : ℕ := ((Finset.range s.size).filter fun b => s.used b = false).card

/-- The pointers of the path that are null -/
def missing (ip : ℕ) (path : Finset Bmap.Slot) : Finset Bmap.Slot := path.filter fun slot => s.ptr (ip, slot) = 0

end State

open State

/-! ### Tables and their entries -/

theorem entry_slot_unique {table slot slot' : Bmap.Slot} {idx : ℕ} (h : Entry table idx slot)
    (h' : Entry table idx slot') : slot = slot' := by
  cases h <;> cases h' <;> rfl

theorem entry_table_unique {table table' slot : Bmap.Slot} {idx idx' : ℕ} (h : Entry table idx slot)
    (h' : Entry table' idx' slot) : table = table' ∧ idx = idx' := by
  cases h <;> cases h' <;> exact ⟨rfl, rfl⟩

theorem entry_table_valid {table slot : Bmap.Slot} {idx : ℕ} (h : Entry table idx slot) (hvalid : slot.Valid) :
    table.Valid := by
  cases h with
  | single j => exact show NDIRECT < TOTBUF by decide
  | leaf i => exact show NDIRECT + 1 < TOTBUF by decide
  | double i j => exact hvalid.1

theorem entry_table_not_data {table slot : Bmap.Slot} {idx : ℕ} (h : Entry table idx slot) : ¬ IsData table := by
  cases h with
  | single j => exact show ¬ NDIRECT < NDIRECT by decide
  | leaf i => exact show ¬ NDIRECT + 1 < NDIRECT by decide
  | double i j => exact id

theorem entry_ne {table slot : Bmap.Slot} {idx : ℕ} (h : Entry table idx slot) : slot ≠ table := by
  cases h <;> nofun

/-- From the pointers in the inode on, table after table -/
theorem slot_induction {P : Bmap.Slot → Prop} (hroot : ∀ i, P (.root i))
    (hentry : ∀ table idx slot, Entry table idx slot → P table → P slot) (slot : Bmap.Slot) : P slot := by
  cases slot with
  | root i => exact hroot i
  | single j => exact hentry _ _ _ (.single j) (hroot _)
  | leaf i => exact hentry _ _ _ (.leaf i) (hroot _)
  | double i j => exact hentry _ _ _ (.double i j) (hentry _ _ _ (.leaf i) (hroot _))

theorem ptr_entry {table slot : Bmap.Slot} {idx : ℕ} (h : Entry table idx slot) (s : State) (ip : ℕ) :
    s.ptr (ip, slot) = s.word (s.ptr (ip, table)) idx := by
  cases h <;> rfl

section

variable {s s' : State} {first : ℕ}

/-- Pointers are the same where the inode and the tables are. -/
theorem ptr_congr {ip : ℕ} (haddrs : (s'.inodes ip).addrs = (s.inodes ip).addrs)
    (hword : ∀ table idx slot, Entry table idx slot → slot.Valid →
      s'.word (s.ptr (ip, table)) idx = s.word (s.ptr (ip, table)) idx)
    {slot : Bmap.Slot} (hvalid : slot.Valid) : s'.ptr (ip, slot) = s.ptr (ip, slot) := by
  induction slot using slot_induction with
  | hroot i => exact congrFun haddrs i
  | hentry table idx slot hentry ih =>
    rw [ptr_entry hentry, ptr_entry hentry, ih (entry_table_valid hentry hvalid)]
    exact hword table idx slot hentry hvalid

/-- **A new block is attached**: the pointer is set, and there is nothing else behind it. -/
theorem ptr_attach {o : Owner} {b : ℕ} (hnull : s.ptr o = 0)
    (hroot : ∀ ip i, (s'.inodes ip).addrs i = if (ip, .root i) = o then b else (s.inodes ip).addrs i)
    (hword : ∀ ip table idx slot, Entry table idx slot → slot.Valid →
      s'.word (s.ptr (ip, table)) idx = if (ip, slot) = o then b else s.word (s.ptr (ip, table)) idx)
    (hnew : ∀ idx, s'.word b idx = 0) {o' : Owner} (hvalid : o'.2.Valid) :
    s'.ptr o' = if o' = o then b else s.ptr o' := by
  obtain ⟨ip, slot⟩ := o'
  induction slot using slot_induction with
  | hroot i => exact hroot ip i
  | hentry table idx slot hentry ih =>
    rw [ptr_entry hentry, ptr_entry hentry, ih (entry_table_valid hentry hvalid)]
    split
    · next heq =>
      -- the table is the new block
      have hne : (ip, slot) ≠ o := fun h => entry_ne hentry (congrArg Prod.snd (h.trans heq.symm))
      rw [hnew, if_neg hne, heq, hnull]
      rfl
    · exact hword ip table idx slot hentry hvalid

end

/-! ## `balloc` -/

section

variable {s : State} {first : ℕ}

theorem State.Sound.area_ne_zero (h : s.Sound first) {b : ℕ} (hb : b ∈ s.area first) : b ≠ 0 := h.owned.ne_zero hb

/-- The place of a block with a number is one for data. -/
theorem slotOf_data {bn : ℕ} (h : bn < MAXBN) : IsData (slotOf bn) := by
  unfold slotOf
  split
  · assumption
  next hdirect =>
  split
  · assumption
  next hsingle =>
  refine ⟨?_, Nat.mod_lt _ (by decide)⟩
  rw [Nat.div_lt_iff_lt_mul (by decide)]
  unfold MAXBN at h
  omega

theorem State.Sound.slotOf_data (h : s.Sound first) {ip bn : ℕ} (hbn : bn * Fs.BSIZE < (s.inodes ip).size) :
    IsData (slotOf bn) := by
  refine BlockLayer.slotOf_data ?_
  have hle := h.size_le ip
  have hmax : MAXFILE ≤ MAXBN := by decide
  unfold Fs.BSIZE at *
  omega

theorem balloc_spec (h : s.Sound first) :
    s.balloc = (0, s) ∧ s.freeCount = 0 ∨
      ∃ b, b ∈ s.area first ∧ s.used b = false ∧ s.balloc = (b, s.allocated b) := by
  unfold State.balloc
  cases hfind : (List.range s.size).find? fun b => !s.used b with
  | none =>
    refine .inl ⟨rfl, Finset.card_eq_zero.mpr (Finset.filter_eq_empty_iff.mpr fun b hb => ?_)⟩
    have hused := List.find?_eq_none.mp hfind b (List.mem_range.mpr (Finset.mem_range.mp hb))
    simpa using hused
  | some b =>
    have hlt : b < s.size := List.mem_range.mp (List.mem_of_find?_eq_some hfind)
    have hfree : s.used b = false := by simpa using List.find?_some hfind
    refine .inr ⟨b, ⟨?_, hlt⟩, hfree, rfl⟩
    by_contra hmeta
    rw [h.used_meta b (by omega)] at hfree
    cases hfree

/-- One block fewer is free. -/
theorem freeCount_allocated {b : ℕ} (hb : b ∈ s.area first) (hfree : s.used b = false) :
    (s.allocated b).freeCount + 1 = s.freeCount := by
  have hset : ((Finset.range s.size).filter fun c => (s.allocated b).used c = false) =
      ((Finset.range s.size).filter fun c => s.used c = false).erase b := by
    ext c
    simp only [allocated, Finset.mem_filter, Finset.mem_erase, Function.update_apply]
    by_cases hcb : c = b <;> simp [hcb]
  unfold freeCount
  rw [show (s.allocated b).size = s.size from rfl, hset]
  exact Finset.card_erase_add_one (Finset.mem_filter.mpr ⟨Finset.mem_range.mpr hb.2, hfree⟩)

/-- A block that a pointer leads to is not new. -/
theorem State.Sound.ptr_ne (h : s.Sound first) {o : Owner} (ho : o.2.Valid) {b : ℕ} (hb : b ∈ s.area first)
    (hfree : s.used b = false) : s.ptr o ≠ b :=
  h.owned.ptr_ne ho hb hfree

end

/-! ## The growth of a file -/

/-- Null pointers of a path are set, and no other pointer of any file changes. Each pointer that is set costs
    one free block. -/
structure Extends (first : ℕ) (s s' : State) (ip : ℕ) (path : Finset Bmap.Slot) : Prop where
  sound : s'.Sound first
  keep : ∀ o ∈ owners, s.ptr o ≠ 0 → s'.ptr o = s.ptr o
  same : ∀ o ∈ owners, o.1 ≠ ip ∨ o.2 ∉ path → s'.ptr o = s.ptr o
  inode : ∀ ip', (s'.inodes ip').size = (s.inodes ip').size ∧ (s'.inodes ip').type = (s.inodes ip').type
  count : s'.freeCount + (s.missing ip path).card = s.freeCount + (s'.missing ip path).card

/-- Nothing else changes: what is read through a pointer that is set now has been zero before. -/
structure Grows (first : ℕ) (s s' : State) (ip : ℕ) (path : Finset Bmap.Slot) : Prop extends
    Extends first s s' ip path where
  data : ∀ ip' slot, IsData slot → s'.data (ip', slot) = s.data (ip', slot)

section

variable {first ip : ℕ} {s s₁ s₂ : State} {path larger : Finset Bmap.Slot}

theorem Extends.refl (h : s.Sound first) : Extends first s s ip path :=
  ⟨h, fun _ _ _ => rfl, fun _ _ _ => rfl, fun _ => ⟨rfl, rfl⟩, rfl⟩

theorem Extends.trans (h₁ : Extends first s s₁ ip path) (h₂ : Extends first s₁ s₂ ip path) :
    Extends first s s₂ ip path := by
  refine ⟨h₂.sound, fun o ho hne => ?_, fun o ho hout => ?_, fun ip' => ?_, ?_⟩
  · have hkeep := h₁.keep o ho hne
    rw [h₂.keep o ho (hkeep ▸ hne), hkeep]
  · rw [h₂.same o ho hout, h₁.same o ho hout]
  · rw [(h₂.inode ip').1, (h₂.inode ip').2]
    exact h₁.inode ip'
  · have hc₁ := h₁.count
    have hc₂ := h₂.count
    omega

/-- Pointers off the path do not change, so a longer path may be looked at. -/
theorem Extends.mono (h : Extends first s s₁ ip path) (hsub : path ⊆ larger) (hvalid : ∀ slot ∈ larger, slot.Valid) :
    Extends first s s₁ ip larger := by
  refine ⟨h.sound, h.keep, fun o ho hout => h.same o ho (hout.imp_right fun hn hm => hn (hsub hm)), h.inode, ?_⟩
  have hsplit : ∀ t : State, (t.missing ip larger).card =
      (t.missing ip path).card + ((larger \ path).filter fun slot => t.ptr (ip, slot) = 0).card := by
    intro t
    rw [← Finset.card_union_of_disjoint]
    · unfold missing
      rw [← Finset.filter_union, Finset.union_sdiff_of_subset hsub]
    · exact Finset.disjoint_filter_filter Finset.disjoint_sdiff
  have hout : ((larger \ path).filter fun slot => s₁.ptr (ip, slot) = 0) =
      (larger \ path).filter fun slot => s.ptr (ip, slot) = 0 := by
    refine Finset.filter_congr fun slot hslot => ?_
    obtain ⟨hin, hnot⟩ := Finset.mem_sdiff.mp hslot
    rw [h.same (ip, slot) (hvalid slot hin) (.inr hnot)]
  have hcount := h.count
  rw [hsplit s, hsplit s₁, hout]
  omega

theorem Extends.type_ne (h : Extends first s s₁ ip path) (htype : (s.inodes ip).type ≠ 0) :
    (s₁.inodes ip).type ≠ 0 := by
  rw [(h.inode ip).2]
  exact htype

theorem Grows.refl (h : s.Sound first) : Grows first s s ip path := ⟨.refl h, fun _ _ _ => rfl⟩

theorem Grows.trans (h₁ : Grows first s s₁ ip path) (h₂ : Grows first s₁ s₂ ip path) : Grows first s s₂ ip path :=
  ⟨h₁.toExtends.trans h₂.toExtends, fun ip' slot hdata => by rw [h₂.data ip' slot hdata, h₁.data ip' slot hdata]⟩

/-- **One block is attached.** -/
theorem Grows.attach (h : s.Sound first) (hpath : ∀ slot ∈ path, slot.Valid) {slot : Bmap.Slot} (hslot : slot ∈ path)
    (htype : (s.inodes ip).type ≠ 0) (hnull : s.ptr (ip, slot) = 0) {b : ℕ} (hb : b ∈ s.area first)
    (hfree : s.used b = false) {s' : State} (hsize : s'.size = s.size)
    (hused : s'.used = Function.update s.used b true)
    (hptr : ∀ o ∈ owners, s'.ptr o = if o = (ip, slot) then b else s.ptr o)
    (hnew : IsData slot → s'.blocks b = ByteBlock.zero)
    (hblocks : ∀ ip' slot', IsData slot' → s'.blocks (s.ptr (ip', slot')) = s.blocks (s.ptr (ip', slot')))
    (hboot : ∀ i, (s'.blocks 0).word i = 0)
    (hinode : ∀ ip', (s'.inodes ip').size = (s.inodes ip').size ∧ (s'.inodes ip').type = (s.inodes ip').type) :
    Grows first s s' ip path := by
  have hvalid := hpath slot hslot
  have hother : ∀ o ∈ owners, o ≠ (ip, slot) → s'.ptr o = s.ptr o := fun o ho hne => by rw [hptr o ho, if_neg hne]
  have hself : s'.ptr (ip, slot) = b := by rw [hptr _ hvalid, if_pos rfl]
  have hkeep : ∀ o ∈ owners, s.ptr o ≠ 0 → s'.ptr o = s.ptr o := by
    intro o ho hne
    refine hother o ho ?_
    rintro rfl
    exact hne hnull
  refine ⟨⟨⟨h.first_pos, hsize ▸ h.size_lt, fun c hc => ?_, hboot, ?_, fun ip' bn hbn => ?_, fun ip' => ?_,
    fun ip' hty i hi => ?_⟩, hkeep, fun o ho hout => hother o ho ?_, hinode, ?_⟩, fun ip' slot' hdata => ?_⟩
  · rw [hused, Function.update_apply]
    split
    · rfl
    · exact h.used_meta c hc
  · have harea : s'.area first = s.area first := by unfold area; rw [hsize]
    rw [harea]
    refine h.owned.attach (i := (ip, slot)) hvalid hnull hb hfree hself hother fun c _ => ?_
    rw [hused, Function.update_apply]
    by_cases hcb : c = b <;> simp [hcb]
  · rw [(hinode ip').1] at hbn
    have hne := h.mapped ip' bn hbn
    rw [hkeep _ (h.slotOf_data hbn).valid hne]
    exact hne
  · rw [(hinode ip').1]
    exact h.size_le ip'
  · rw [(hinode ip').2] at hty
    have hroot : (ip', Bmap.Slot.root i) ∈ owners := hi
    have hne : (ip', Bmap.Slot.root i) ≠ (ip, slot) := by
      intro heq
      obtain rfl : ip' = ip := congrArg Prod.fst heq
      exact htype hty
    exact (hother _ hroot hne).trans (h.free ip' hty i hi)
  · rintro rfl
    exact hout.elim (fun hne => hne rfl) fun hnot => hnot hslot
  · have hcount := freeCount_allocated hb hfree
    have hfc : s'.freeCount = (s.allocated b).freeCount := by
      unfold freeCount
      rw [hused, hsize]
      rfl
    have hmissing : s'.missing ip path = (s.missing ip path).erase slot := by
      ext x
      simp only [missing, Finset.mem_filter, Finset.mem_erase]
      by_cases hx : x = slot
      · subst hx
        simp [hself, h.area_ne_zero hb]
      · refine ⟨fun ⟨hmem, hz⟩ => ⟨hx, hmem, ?_⟩, fun ⟨_, hmem, hz⟩ => ⟨hmem, ?_⟩⟩
        · rwa [hother (ip, x) (hpath x hmem) (by simpa using hx)] at hz
        · rwa [hother (ip, x) (hpath x hmem) (by simpa using hx)]
    rw [hfc, hmissing]
    have hmem : slot ∈ s.missing ip path := Finset.mem_filter.mpr ⟨hslot, hnull⟩
    have herase := Finset.card_erase_add_one hmem
    omega
  · by_cases heq : (ip', slot') = (ip, slot)
    · cases heq
      unfold State.data
      rw [hself, if_neg (h.area_ne_zero hb), hnew hdata, if_pos hnull]
    · unfold State.data
      rw [hother _ hdata.valid heq, hblocks ip' slot' hdata]

end


/-! ### Looking up a pointer -/

section

variable {s : State} {first ip : ℕ} {path : Finset Bmap.Slot}

@[simp] theorem allocated_inodes (s : State) (b : ℕ) : (s.allocated b).inodes = s.inodes := rfl

theorem allocated_blocks_of_ne {b c : ℕ} (h : c ≠ b) : (s.allocated b).blocks c = s.blocks c :=
  Function.update_of_ne h _ _

theorem allocated_blocks_self (s : State) (b : ℕ) : (s.allocated b).blocks b = ByteBlock.zero :=
  Function.update_self ..

theorem word_congr {s s' : State} {b : ℕ} (h : s'.blocks b = s.blocks b) (i : ℕ) : s'.word b i = s.word b i := by
  unfold State.word
  rw [h]

theorem word_zero {s : State} {b : ℕ} (h : s.blocks b = ByteBlock.zero) (i : ℕ) : s.word b i = 0 := by
  unfold State.word
  rw [h, ByteBlock.word_zero, ite_self]

theorem setAddr_addrs (s : State) (ip i v ip' i' : ℕ) :
    ((s.setAddr ip i v).inodes ip').addrs i' = if ip' = ip ∧ i' = i then v else (s.inodes ip').addrs i' := by
  unfold setAddr setInode
  by_cases hip : ip' = ip
  · subst hip
    by_cases hi : i' = i <;> simp [hi]
  · simp [hip, Function.update_of_ne]

theorem setAddr_same (s : State) (ip i v ip' : ℕ) : ((s.setAddr ip i v).inodes ip').size = (s.inodes ip').size ∧
    ((s.setAddr ip i v).inodes ip').type = (s.inodes ip').type := by
  unfold setAddr setInode
  by_cases hip : ip' = ip
  · subst hip
    simp
  · simp [hip, Function.update_of_ne]

/-- A pointer that has been looked up; it is 0 only where no block is free. -/
structure Found (first : ℕ) (s : State) (ip : ℕ) (path : Finset Bmap.Slot) (slot : Bmap.Slot) (r : ℕ × State) :
    Prop where
  grows : Grows first s r.2 ip path
  ptr : r.2.ptr (ip, slot) = r.1
  full : r.1 = 0 → r.2.freeCount = 0

theorem root_found (h : s.Sound first) (htype : (s.inodes ip).type ≠ 0) (hpath : ∀ slot ∈ path, slot.Valid) {i : ℕ}
    (hi : .root i ∈ path) : Found first s ip path (.root i) (s.root ip i) := by
  unfold State.root
  split
  · next hnull =>
    replace hnull : s.ptr (ip, .root i) = 0 := hnull
    rcases balloc_spec h with ⟨hballoc, hfull⟩ | ⟨b, hb, hfree, hballoc⟩
    · rw [hballoc]
      exact ⟨.refl h, hnull, fun _ => hfull⟩
    have hb0 := h.area_ne_zero hb
    rw [hballoc]
    dsimp only
    rw [if_neg hb0]
    have hptr : ∀ o ∈ owners, ((s.allocated b).setAddr ip i b).ptr o = if o = (ip, .root i) then b else s.ptr o := by
      intro o ho
      refine ptr_attach hnull (fun ip' i' => ?_) (fun ip' table idx slot hentry hvalid => ?_) (fun idx => ?_) ho
      · rw [setAddr_addrs, allocated_inodes]
        simp
      · have hslot : (ip', slot) ≠ (ip, .root i) := by
          rintro heq
          cases congrArg Prod.snd heq
          cases hentry
        rw [if_neg hslot]
        exact word_congr (allocated_blocks_of_ne
          (h.ptr_ne (o := (ip', table)) (entry_table_valid hentry hvalid) hb hfree)) idx
      · exact word_zero (allocated_blocks_self s b) idx
    refine ⟨Grows.attach h hpath hi htype hnull hb hfree rfl rfl hptr (fun _ => allocated_blocks_self s b)
      (fun ip' slot' hdata => allocated_blocks_of_ne (h.ptr_ne (o := (ip', slot')) hdata.valid hb hfree))
      (fun k => ?_) fun ip' => setAddr_same (s.allocated b) ip i b ip', ?_, fun hz => absurd hz hb0⟩
    · change ((s.allocated b).blocks 0).word k = 0
      rw [allocated_blocks_of_ne hb0.symm]
      exact h.boot k
    · exact (hptr _ (hpath _ hi)).trans (if_pos rfl)
  · next hne => exact ⟨.refl h, rfl, fun hz => absurd hz hne⟩

theorem setWord_blocks_of_ne {t c : ℕ} (h : c ≠ t) (s : State) (idx v : ℕ) :
    (s.setWord t idx v).blocks c = s.blocks c := Function.update_of_ne h _ _

theorem entry_found (h : s.Sound first) (htype : (s.inodes ip).type ≠ 0) (hpath : ∀ slot ∈ path, slot.Valid)
    {table slot : Bmap.Slot} {idx : ℕ} (he : Entry table idx slot) (hslot : slot ∈ path) (ht : s.ptr (ip, table) ≠ 0) :
    Found first s ip path slot (s.entry (s.ptr (ip, table)) idx) := by
  have hvalid := hpath slot hslot
  have htable : (ip, table) ∈ owners := entry_table_valid he hvalid
  have hword : s.ptr (ip, slot) = (s.blocks (s.ptr (ip, table))).word idx := by
    rw [ptr_entry he]
    exact if_neg ht
  generalize htab : s.ptr (ip, table) = t at ht hword
  unfold State.entry
  split
  · next hnull =>
    rcases balloc_spec h with ⟨hballoc, hfull⟩ | ⟨b, hb, hfree, hballoc⟩
    · rw [hballoc]
      exact ⟨.refl h, hword.trans hnull, fun _ => hfull⟩
    have hb0 := h.area_ne_zero hb
    have htb : t ≠ b := htab ▸ h.ptr_ne htable hb hfree
    rw [hballoc]
    dsimp only
    rw [if_pos hb0]
    have hblocks : ∀ c, c ≠ b → c ≠ t → ((s.allocated b).setWord t idx b).blocks c = s.blocks c := fun c hcb hct => by
      rw [setWord_blocks_of_ne hct, allocated_blocks_of_ne hcb]
    have hnew : ((s.allocated b).setWord t idx b).blocks b = ByteBlock.zero := by
      rw [setWord_blocks_of_ne htb.symm, allocated_blocks_self]
    have hptr : ∀ o ∈ owners, ((s.allocated b).setWord t idx b).ptr o = if o = (ip, slot) then b else s.ptr o := by
      intro o ho
      refine ptr_attach (hword.trans hnull) (fun ip' i' => ?_) (fun ip' table' idx' slot' hentry hvalid' => ?_)
        (fun k => word_zero hnew k) ho
      · have hne : (ip', Bmap.Slot.root i') ≠ (ip, slot) := by
          intro heq
          cases congrArg Prod.snd heq
          cases he
        rw [if_neg hne]
        rfl
      · have htable' : (ip', table') ∈ owners := entry_table_valid hentry hvalid'
        by_cases htt : s.ptr (ip', table') = t
        · -- the same table
          obtain ⟨rfl, rfl⟩ := Prod.mk.inj (h.owned.inj _ htable' _ htable (htt ▸ ht) (htt.trans htab.symm))
          rw [htt]
          unfold State.word
          rw [if_neg ht, if_neg ht, State.setWord]
          dsimp only
          rw [Function.update_self, allocated_blocks_of_ne htb]
          by_cases hidx : idx' = idx
          · subst hidx
            rw [entry_slot_unique hentry he, if_pos rfl, ByteBlock.word_setWord_self]
            exact hb.2.trans h.size_lt
          · have hne : (ip', slot') ≠ (ip', slot) := by
              intro heq
              cases congrArg Prod.snd heq
              exact hidx (entry_table_unique hentry he).2
            rw [if_neg hne, ByteBlock.word_setWord_of_ne _ _ hidx]
        · have hne : (ip', slot') ≠ (ip, slot) := by
            intro heq
            cases heq
            rw [(entry_table_unique hentry he).1] at htt
            exact htt htab
          rw [if_neg hne]
          exact word_congr (hblocks _ (h.ptr_ne htable' hb hfree) htt) idx'
    refine ⟨Grows.attach h hpath hslot htype (hword.trans hnull) hb hfree rfl rfl hptr (fun _ => hnew)
      (fun ip' slot' hdata => hblocks _ (h.ptr_ne (o := (ip', slot')) hdata.valid hb hfree) fun hpt => ?_)
      (fun k => ?_) fun _ => ⟨rfl, rfl⟩, ?_, fun hz => absurd hz hb0⟩
    · -- a table is not a block of data
      cases h.owned.inj (ip', slot') hdata.valid _ htable (hpt ▸ ht) (hpt.trans htab.symm)
      exact entry_table_not_data he hdata
    · rw [hblocks 0 hb0.symm ht.symm]
      exact h.boot k
    · exact (hptr _ hvalid).trans (if_pos rfl)
  · next hne => exact ⟨.refl h, hword, fun hz => absurd hz hne⟩

end

/-! ### `bmap` -/

section

variable {s : State} {first ip bn : ℕ}

theorem bmap_direct (h : bn < NDIRECT) : s.bmap ip bn = .ok (s.root ip bn) := if_pos h

/-- The block is in the first layer. -/
theorem bmap_single (h : NDIRECT ≤ bn) (h' : bn < NDIRECT + NINDIRECT) :
    s.bmap ip bn = .ok (if (s.root ip NDIRECT).1 = 0 then (0, (s.root ip NDIRECT).2)
      else (s.root ip NDIRECT).2.entry (s.root ip NDIRECT).1 (bn - NDIRECT)) := by
  unfold State.bmap
  rw [if_neg (by omega)]
  change State.layers s ip (1 + 1) 0 NINDIRECT 1 (bn - NDIRECT) = _
  unfold State.layers
  rw [if_pos (by omega)]
  simp only [State.walk, Nat.add_zero, Nat.div_one]
  split <;> rfl

/-- The block is in the second layer. -/
theorem bmap_double (h : NDIRECT + NINDIRECT ≤ bn) (h' : bn < MAXBN) :
    s.bmap ip bn = .ok (if (s.root ip (NDIRECT + 1)).1 = 0 then (0, (s.root ip (NDIRECT + 1)).2)
      else
        let leaf := (s.root ip (NDIRECT + 1)).2.entry (s.root ip (NDIRECT + 1)).1
          ((bn - NDIRECT - NINDIRECT) / NINDIRECT)
        leaf.2.entry leaf.1 ((bn - NDIRECT - NINDIRECT) % NINDIRECT)) := by
  have hrange : bn - NDIRECT - NINDIRECT < NINDIRECT * NINDIRECT := by
    unfold MAXBN at h'
    omega
  unfold State.bmap
  rw [if_neg (by omega)]
  change State.layers s ip (1 + 1) 0 NINDIRECT 1 (bn - NDIRECT) = _
  unfold State.layers
  rw [if_neg (by omega)]
  unfold State.layers
  rw [if_pos hrange]
  have hbase : NINDIRECT / NINDIRECT = 1 := rfl
  simp only [State.walk, Nat.zero_add, hbase, Nat.div_one]
  split <;> rfl

variable {path : Finset Bmap.Slot} {slot slot' : Bmap.Slot}

/-- Nothing else is looked up where a table is not found. -/
theorem Found.stop {s' : State} {idx : ℕ} (h : Found first s ip path slot (0, s')) (he : Entry slot idx slot') :
    Found first s ip path slot' (0, s') := by
  refine ⟨h.grows, ?_, h.full⟩
  rw [ptr_entry he, h.ptr]
  rfl

theorem Found.trans {r r' : ℕ × State} (h : Found first s ip path slot r) (h' : Found first r.2 ip path slot' r') :
    Found first s ip path slot' r' :=
  ⟨h.grows.trans h'.grows, h'.ptr, h'.full⟩

/-- Where no block is free and there is no table, nothing is found: the boot block, which is taken for a table
    then, is empty. -/
theorem entry_boot (h : s.Sound first) (hfull : s.freeCount = 0) (idx : ℕ) : s.entry 0 idx = (0, s) := by
  unfold State.entry
  rw [if_pos (h.boot idx)]
  rcases balloc_spec h with ⟨hballoc, -⟩ | ⟨b, hb, hfree, -⟩
  · rw [hballoc]
    rfl
  · have hmem : b ∈ (Finset.range s.size).filter fun c => s.used c = false :=
      Finset.mem_filter.mpr ⟨Finset.mem_range.mpr hb.2, hfree⟩
    rw [Finset.card_eq_zero.mp hfull] at hmem
    exact absurd hmem (Finset.notMem_empty _)

theorem slotPath_valid (h : bn < MAXBN) : ∀ slot ∈ slotPath bn, slot.Valid := by
  intro slot hslot
  unfold slotPath at hslot
  split at hslot
  · next hdirect =>
    rw [Finset.mem_singleton.mp hslot]
    exact Nat.lt_of_lt_of_le hdirect (by decide)
  split at hslot
  · next hdirect hsingle =>
    rcases Finset.mem_insert.mp hslot with rfl | hslot
    · exact show NDIRECT < TOTBUF by decide
    · rw [Finset.mem_singleton.mp hslot]
      exact hsingle
  · have hrange : (bn - NDIRECT - NINDIRECT) / NINDIRECT < NINDIRECT := by
      rw [Nat.div_lt_iff_lt_mul (by decide)]
      unfold MAXBN at h
      omega
    rcases Finset.mem_insert.mp hslot with rfl | hslot
    · exact show NDIRECT + 1 < TOTBUF by decide
    rcases Finset.mem_insert.mp hslot with rfl | hslot
    · exact hrange
    · rw [Finset.mem_singleton.mp hslot]
      exact ⟨hrange, Nat.mod_lt _ (by decide)⟩

/-- **`bmap`** looks up the pointer to the block, and allocates what is missing on the way to it. It fails only
    where no block is free. -/
theorem bmap_grows (h : s.Sound first) (htype : (s.inodes ip).type ≠ 0) (hbn : bn < MAXBN) :
    ∃ r, s.bmap ip bn = .ok r ∧ Found first s ip (slotPath bn) (slotOf bn) r := by
  have hpath := slotPath_valid hbn
  -- the three kinds of places, with one table, two tables or none on the way
  rcases Nat.lt_or_ge bn NDIRECT with hdirect | hdirect
  · refine ⟨_, bmap_direct hdirect, ?_⟩
    rw [Bmap.slotOf_direct hdirect]
    exact root_found h htype hpath (by simp [slotPath, hdirect])
  rcases Nat.lt_or_ge bn (NDIRECT + NINDIRECT) with hsingle | hdouble
  · have heq : slotPath bn = {.root NDIRECT, .single (bn - NDIRECT)} := by
      unfold slotPath
      rw [if_neg (by omega), if_pos (by omega)]
    have htable : Found first s ip (slotPath bn) (.root NDIRECT) (s.root ip NDIRECT) :=
      root_found h htype hpath (by simp [heq])
    refine ⟨_, bmap_single hdirect hsingle, ?_⟩
    rw [Bmap.slotOf_single hdirect hsingle]
    generalize s.root ip NDIRECT = r at htable
    obtain ⟨table, s₁⟩ := r
    dsimp only at htable ⊢
    split
    · next hz => exact (hz ▸ htable).stop (.single _)
    · next hne =>
      have hptr := htable.ptr
      dsimp only at hptr
      rw [← hptr]
      exact htable.trans (entry_found htable.grows.sound (htable.grows.type_ne htype) hpath (.single _)
        (by simp [heq]) (hptr ▸ hne))
  · have heq : slotPath bn = {.root (NDIRECT + 1), .leaf ((bn - NDIRECT - NINDIRECT) / NINDIRECT),
        .double ((bn - NDIRECT - NINDIRECT) / NINDIRECT) ((bn - NDIRECT - NINDIRECT) % NINDIRECT)} := by
      unfold slotPath
      rw [if_neg (by omega), if_neg (by omega)]
    have htop : Found first s ip (slotPath bn) (.root (NDIRECT + 1)) (s.root ip (NDIRECT + 1)) :=
      root_found h htype hpath (by simp [heq])
    refine ⟨_, bmap_double hdouble hbn, ?_⟩
    rw [Bmap.slotOf_double hdouble]
    generalize s.root ip (NDIRECT + 1) = r at htop
    obtain ⟨top, s₁⟩ := r
    dsimp only at htop ⊢
    split
    · next hz => exact ((hz ▸ htop).stop (.leaf _)).stop (.double _ _)
    · next hne =>
      have hptr := htop.ptr
      dsimp only at hptr
      have hleaf := htop.trans (entry_found htop.grows.sound (htop.grows.type_ne htype) hpath
        (.leaf ((bn - NDIRECT - NINDIRECT) / NINDIRECT)) (by simp [heq]) (hptr ▸ hne))
      rw [hptr] at hleaf
      generalize s₁.entry top ((bn - NDIRECT - NINDIRECT) / NINDIRECT) = r at hleaf
      obtain ⟨leaf, s₂⟩ := r
      dsimp only at hleaf ⊢
      by_cases hleafNull : leaf = 0
      · subst hleafNull
        rw [entry_boot hleaf.grows.sound (hleaf.full rfl)]
        exact hleaf.stop (.double _ _)
      · have hptr' := hleaf.ptr
        dsimp only at hptr'
        rw [← hptr']
        exact hleaf.trans (entry_found hleaf.grows.sound (hleaf.grows.type_ne htype) hpath (.double _ _)
          (by simp [heq]) (hptr' ▸ hleafNull))

end

/-! ## Writing -/

/-- The number of the block that a pointer to data leads to -/
def blockOf : Bmap.Slot → ℕ
  | .root i => i
  | .single j => NDIRECT + j
  | .leaf _ => 0
  | .double i j => NDIRECT + NINDIRECT + i * NINDIRECT + j

theorem blockOf_slotOf (bn : ℕ) : blockOf (slotOf bn) = bn := by
  unfold slotOf
  split
  · rfl
  split
  · change NDIRECT + (bn - NDIRECT) = bn
    omega
  · have hmod := Nat.div_add_mod (bn - NDIRECT - NINDIRECT) NINDIRECT
    change NDIRECT + NINDIRECT + (bn - NDIRECT - NINDIRECT) / NINDIRECT * NINDIRECT +
      (bn - NDIRECT - NINDIRECT) % NINDIRECT = bn
    rw [Nat.mul_comm] at hmod
    omega

theorem slotOf_inj {bn bn' : ℕ} (h : slotOf bn = slotOf bn') : bn = bn' := by
  rw [← blockOf_slotOf bn, h, blockOf_slotOf]

/-- The byte of a file at an offset -/
def State.byte (s : State) (ip i : ℕ) : UInt8 := s.data (ip, slotOf (i / Fs.BSIZE)) (i % Fs.BSIZE)

/-- The pointers on the ways to these bytes -/
def span (off stop : ℕ) : Finset Bmap.Slot := (Finset.Ico off stop).biUnion fun i => slotPath (i / Fs.BSIZE)

section

variable {s s' : State} {first ip : ℕ}

theorem Grows.byte {path : Finset Bmap.Slot} (h : Grows first s s' ip path) (ip' : ℕ) {i : ℕ} (hi : i / Fs.BSIZE < MAXBN) :
    s'.byte ip' i = s.byte ip' i := by
  unfold State.byte
  rw [h.data ip' _ (slotOf_data hi)]

/-- **Bytes are copied into a block of data**: no pointer changes, and no other block. -/
theorem blit_extends (h : s.Sound first) {slot : Bmap.Slot} (hdata : IsData slot) {a : ℕ} (ha : s.ptr (ip, slot) = a)
    (hne : a ≠ 0) (off : ℕ) (src : List UInt8) (ip' : ℕ) {path : Finset Bmap.Slot}
    (hpath : ∀ slot ∈ path, slot.Valid) :
    Extends first s (s.blit a off src) ip' path ∧
      ∀ o : Owner, IsData o.2 → (s.blit a off src).data o =
        if o = (ip, slot) then (s.data o).blit off src.length (fun j => src.getD j 0) else s.data o := by
  have hblocks : ∀ c, c ≠ a → (s.blit a off src).blocks c = s.blocks c := fun c hc => Function.update_of_ne hc _ _
  have hptr : ∀ o ∈ owners, (s.blit a off src).ptr o = s.ptr o := by
    rintro ⟨ip', slot'⟩ (ho : slot'.Valid)
    have haddrs : ((s.blit a off src).inodes ip').addrs = (s.inodes ip').addrs := rfl
    refine ptr_congr haddrs (fun table idx slot' hentry hvalid => ?_) ho
    by_cases hz : s.ptr (ip', table) = 0
    · rw [hz]
      rfl
    refine word_congr (hblocks _ fun hta => ?_) idx
    -- a table is not a block of data
    cases h.owned.inj (ip', table) (entry_table_valid hentry hvalid) (ip, slot) hdata.valid hz (hta.trans ha.symm)
    exact entry_table_not_data hentry hdata
  have hmissing : (s.blit a off src).missing ip' path = s.missing ip' path :=
    Finset.filter_congr fun slot' hslot' => by rw [hptr (ip', slot') (hpath slot' hslot')]
  refine ⟨⟨⟨h.first_pos, h.size_lt, h.used_meta, fun i => ?_, ?_, fun ip' bn hbn => ?_, h.size_le, h.free⟩,
    fun o ho _ => hptr o ho, fun o ho _ => hptr o ho, fun _ => ⟨rfl, rfl⟩, ?_⟩, fun o ho => ?_⟩
  · rw [hblocks 0 hne.symm]
    exact h.boot i
  · exact h.owned.release (T := ∅) (fun _ _ hi => hi.elim) (fun o ho _ => hptr o ho)
      fun b _ => ⟨fun hb => ⟨hb, fun _ _ hi => hi.elim⟩, fun hb => hb.1⟩
  · rw [hptr _ (h.slotOf_data hbn).valid]
    exact h.mapped ip' bn hbn
  · rw [hmissing]
    rfl
  · unfold State.data
    rw [hptr o ho.valid]
    split
    · next hoz =>
      rw [if_neg]
      rintro rfl
      exact hne (ha.symm.trans hoz)
    next hoz =>
    by_cases heq : o = (ip, slot)
    · rw [if_pos heq, heq, ha]
      exact Function.update_self ..
    · rw [if_neg heq]
      refine hblocks _ fun hoa => heq ?_
      exact h.owned.inj o ho.valid (ip, slot) hdata.valid hoz (hoa.trans ha.symm)

end

section

variable {s : State} {first ip : ℕ}

theorem blit_byte (h : s.Sound first) {off a : ℕ} (hoff : off / Fs.BSIZE < MAXBN)
    (ha : s.ptr (ip, slotOf (off / Fs.BSIZE)) = a) (hne : a ≠ 0) {src : List UInt8}
    (hlen : off % Fs.BSIZE + src.length ≤ Fs.BSIZE) (ip' : ℕ) {i : ℕ} (hi : i / Fs.BSIZE < MAXBN) :
    (s.blit a (off % Fs.BSIZE) src).byte ip' i =
      if ip' = ip ∧ off ≤ i ∧ i < off + src.length then src.getD (i - off) 0 else s.byte ip' i := by
  have hbs : 0 < Fs.BSIZE := by decide
  have hdi := Nat.div_add_mod i Fs.BSIZE
  have hdo := Nat.div_add_mod off Fs.BSIZE
  have hmi := Nat.mod_lt i hbs
  have hmo := Nat.mod_lt off hbs
  obtain ⟨-, hdata⟩ := blit_extends h (slotOf_data hoff) ha hne (off % Fs.BSIZE) src ip
    fun slot (hslot : slot ∈ (∅ : Finset Bmap.Slot)) => absurd hslot (Finset.notMem_empty _)
  unfold State.byte
  rw [hdata (ip', slotOf (i / Fs.BSIZE)) (slotOf_data hi)]
  by_cases hblk : ip' = ip ∧ i / Fs.BSIZE = off / Fs.BSIZE
  · obtain ⟨rfl, hblk⟩ := hblk
    rw [hblk, if_pos rfl, ByteBlock.blit]
    rw [hblk] at hdi
    by_cases hin : off % Fs.BSIZE ≤ i % Fs.BSIZE ∧ i % Fs.BSIZE < off % Fs.BSIZE + src.length
    · rw [if_pos hin, if_pos ⟨rfl, by omega, by omega⟩, show i % Fs.BSIZE - off % Fs.BSIZE = i - off by omega]
    · rw [if_neg hin, if_neg (by omega)]
  · have hslot : (ip', slotOf (i / Fs.BSIZE)) ≠ (ip, slotOf (off / Fs.BSIZE)) := by
      intro heq
      obtain ⟨hip, hs⟩ := Prod.mk.inj heq
      exact hblk ⟨hip, slotOf_inj hs⟩
    rw [if_neg hslot, if_neg]
    rintro ⟨hip, hle, hlt⟩
    refine hblk ⟨hip, ?_⟩
    -- the bytes stay in the block
    have hge : off / Fs.BSIZE ≤ i / Fs.BSIZE := Nat.div_le_div_right hle
    have hlt' : i < (off / Fs.BSIZE + 1) * Fs.BSIZE := by
      rw [Nat.add_mul, Nat.mul_comm, Nat.one_mul]
      omega
    have := (Nat.div_lt_iff_lt_mul hbs).mpr hlt'
    omega

end

/-! ### The loop of `writei` -/

theorem div_lt_maxbn {i : ℕ} (h : i < MAXFILE * Fs.BSIZE) : i / Fs.BSIZE < MAXBN := by
  have hlt : i / Fs.BSIZE < MAXFILE := (Nat.div_lt_iff_lt_mul (by decide)).mpr h
  have hmax : MAXFILE ≤ MAXBN := by decide
  omega

theorem span_valid (off : ℕ) {stop : ℕ} (h : stop ≤ MAXFILE * Fs.BSIZE) : ∀ slot ∈ span off stop, slot.Valid := by
  intro slot hslot
  obtain ⟨i, hi, hslot⟩ := Finset.mem_biUnion.mp hslot
  exact slotPath_valid (div_lt_maxbn ((Finset.mem_Ico.mp hi).2.trans_le h)) slot hslot

theorem slotPath_subset_span {off stop : ℕ} (h : off < stop) : slotPath (off / Fs.BSIZE) ⊆ span off stop :=
  Finset.subset_biUnion_of_mem (fun i => slotPath (i / Fs.BSIZE)) (Finset.mem_Ico.mpr ⟨le_rfl, h⟩)

theorem span_subset {off off' stop : ℕ} (h : off ≤ off') : span off' stop ⊆ span off stop :=
  Finset.biUnion_subset_biUnion_of_subset_left _ (Finset.Ico_subset_Ico_left h)

/-- What has been written from `off` on, when it ends at `off'` and should end at `stop`. -/
structure Written (first : ℕ) (s s' : State) (ip off off' stop : ℕ) (src : List UInt8) : Prop where
  tables : Extends first s s' ip (span off stop)
  le : off ≤ off'
  le_stop : off' ≤ stop
  le_src : off' ≤ off + src.length
  byte : ∀ i, off ≤ i → i < off' → s'.byte ip i = src.getD (i - off) 0
  same : ∀ ip' i, i / Fs.BSIZE < MAXBN → ip' ≠ ip ∨ i < off ∨ stop ≤ i → s'.byte ip' i = s.byte ip' i
  rest : stop ≤ off + src.length → ∀ i, i / Fs.BSIZE < MAXBN → off' ≤ i → s'.byte ip i = s.byte ip i
  mapped : ∀ i, off ≤ i → i < off' → s'.ptr (ip, slotOf (i / Fs.BSIZE)) ≠ 0
  full : off' < stop → stop ≤ off + src.length → s'.freeCount = 0 ∧ s'.ptr (ip, slotOf (off' / Fs.BSIZE)) = 0

theorem writeLoop_spec {first ip : ℕ} (fuel : ℕ) {s : State} (h : s.Sound first) (htype : (s.inodes ip).type ≠ 0)
    {off rest : ℕ} (src : List UInt8) (hfuel : rest ≤ fuel) (hmax : off + rest ≤ MAXFILE * Fs.BSIZE) :
    ∃ off' s', writeLoop ip fuel s off rest src = .ok (off', s') ∧
      Written first s s' ip off off' (off + rest) src := by
  induction fuel generalizing s off rest src with
  | zero =>
    obtain rfl : rest = 0 := Nat.le_zero.mp hfuel
    refine ⟨off, s, rfl, .refl h, le_rfl, le_rfl, Nat.le_add_right _ _, fun i hi hi' => ?_, fun _ _ _ _ => rfl,
      fun _ _ _ _ => rfl, fun i hi hi' => ?_, fun hlt => absurd hlt (lt_irrefl _)⟩
    · omega
    · omega
  | succ fuel ih =>
    rw [writeLoop]
    by_cases hrest : rest = 0
    · subst hrest
      rw [if_pos rfl]
      refine ⟨off, s, rfl, .refl h, le_rfl, le_rfl, Nat.le_add_right _ _, fun i hi hi' => ?_, fun _ _ _ _ => rfl,
        fun _ _ _ _ => rfl, fun i hi hi' => ?_, fun hlt => absurd hlt (lt_irrefl _)⟩
      · omega
      · omega
    rw [if_neg hrest]
    have hoff : off / Fs.BSIZE < MAXBN := div_lt_maxbn (by omega)
    have hspan := span_valid off hmax
    obtain ⟨⟨addr, s₁⟩, hbmap, hfound⟩ := bmap_grows h htype hoff
    rw [hbmap]
    dsimp only [bind, Except.bind]
    have hgrow := hfound.grows.toExtends.mono (slotPath_subset_span (by omega : off < off + rest)) hspan
    have hbyte : ∀ ip' i, i / Fs.BSIZE < MAXBN → s₁.byte ip' i = s.byte ip' i := fun ip' i hi =>
      hfound.grows.byte ip' hi
    split
    · next hz =>
      -- no block is free
      refine ⟨off, s₁, rfl, hgrow, le_rfl, Nat.le_add_right _ _, Nat.le_add_right _ _, fun i hi hi' => ?_,
        fun ip' i hi _ => hbyte ip' i hi, fun _ i hi _ => hbyte ip i hi, fun i hi hi' => ?_,
        fun _ _ => ⟨hfound.full hz, hfound.ptr.trans hz⟩⟩
      · omega
      · omega
    next hne =>
    generalize hm : min rest (Fs.BSIZE - off % Fs.BSIZE) = m
    have hmod := Nat.mod_lt off (show 0 < Fs.BSIZE by decide)
    have hmpos : 0 < m := by omega
    have hlen : off % Fs.BSIZE + (src.take m).length ≤ Fs.BSIZE := by
      rw [List.length_take]
      omega
    obtain ⟨hblit, -⟩ := blit_extends hfound.grows.sound (slotOf_data hoff) hfound.ptr hne (off % Fs.BSIZE)
      (src.take m) ip hspan
    have hcopy := fun ip' i hi => blit_byte hfound.grows.sound hoff hfound.ptr hne hlen ip' (i := i) hi
    rw [List.length_take] at hcopy
    split
    · next hshort =>
      -- the source cannot be read as far as needed
      refine ⟨off, _, rfl, hgrow.trans hblit, le_rfl, Nat.le_add_right _ _, Nat.le_add_right _ _,
        fun i hi hi' => ?_, fun ip' i hi hout => ?_, fun hsrc => ?_, fun i hi hi' => ?_, fun _ hsrc => ?_⟩
      · omega
      · rw [hcopy ip' i hi, if_neg (by omega), hbyte ip' i hi]
      · omega
      · omega
      · omega
    next hlong =>
    have htype₂ := (hgrow.trans hblit).type_ne htype
    obtain ⟨off', s', hrun, hw⟩ := ih hblit.sound htype₂ (src.drop m)
      (show rest - m ≤ fuel by omega) (show off + m + (rest - m) ≤ MAXFILE * Fs.BSIZE by omega)
    have hstop : off + m + (rest - m) = off + rest := by omega
    rw [hstop] at hw
    have hle := hw.le
    have hleSrc := hw.le_src
    rw [List.length_drop] at hleSrc
    refine ⟨off', s', hrun, (hgrow.trans hblit).trans
      (hw.tables.mono (span_subset (Nat.le_add_right _ _)) hspan), by omega, hw.le_stop, by omega,
      fun i hi hi' => ?_, fun ip' i hi hout => ?_, fun hsrc i hi hi' => ?_, fun i hi hi' => ?_, fun hlt hsrc => ?_⟩
    · have hmaxi := hw.le_stop
      have hin : i / Fs.BSIZE < MAXBN := div_lt_maxbn (by omega)
      by_cases him : i < off + m
      · rw [hw.same ip i hin (.inr (.inl him)), hcopy ip i hin, if_pos ⟨rfl, hi, by omega⟩,
          List.getD_eq_getElem?_getD, List.getElem?_take, if_pos (by omega), ← List.getD_eq_getElem?_getD]
      · rw [hw.byte i (by omega) hi', List.getD_eq_getElem?_getD, List.getElem?_drop,
          show m + (i - (off + m)) = i - off by omega, ← List.getD_eq_getElem?_getD]
    · rw [hw.same ip' i hi (by omega), hcopy ip' i hi, if_neg (by omega), hbyte ip' i hi]
    · rw [hw.rest (by rw [List.length_drop]; omega) i hi hi', hcopy ip i hi, if_neg (by omega), hbyte ip i hi]
    · by_cases him : i < off + m
      · have hblk : i / Fs.BSIZE = off / Fs.BSIZE := by
          have hbs : 0 < Fs.BSIZE := by decide
          have hdo := Nat.div_add_mod off Fs.BSIZE
          refine Nat.div_eq_of_lt_le ?_ ?_
          · rw [Nat.mul_comm]
            omega
          · rw [Nat.add_mul, Nat.mul_comm, Nat.one_mul]
            omega
        have hptr := hfound.ptr
        have hkeep := hblit.keep (ip, slotOf (off / Fs.BSIZE)) (slotOf_data hoff).valid (hptr ▸ hne)
        rw [hblk, hw.tables.keep _ (slotOf_data hoff).valid (by rw [hkeep, hptr]; exact hne), hkeep, hptr]
        exact hne
      · exact hw.mapped i (by omega) hi'
    · exact hw.full hlt (by rw [List.length_drop]; omega)

/-! ### `writei` -/

/-- The content of a file -/
def State.content (s : State) (ip : ℕ) : List UInt8 := (List.range (s.inodes ip).size).map (s.byte ip)

theorem content_length (s : State) (ip : ℕ) : (s.content ip).length = (s.inodes ip).size := by
  rw [State.content, List.length_map, List.length_range]

theorem content_getElem? (s : State) (ip : ℕ) {i : ℕ} (hi : i < (s.inodes ip).size) :
    (s.content ip)[i]? = some (s.byte ip i) := by
  rw [State.content, List.getElem?_map, List.getElem?_range hi, Option.map_some]

/-- The bytes of a file are those of its content. -/
theorem content_congr {s s' : State} {ip : ℕ} (hsize : (s'.inodes ip).size = (s.inodes ip).size)
    (hbyte : ∀ i < (s.inodes ip).size, s'.byte ip i = s.byte ip i) : s'.content ip = s.content ip := by
  unfold State.content
  rw [hsize]
  exact List.map_congr_left fun i hi => hbyte i (List.mem_range.mp hi)

section

variable {s : State} {first ip : ℕ}

theorem setSize_addrs (s : State) (ip size ip' : ℕ) :
    ((s.setSize ip size).inodes ip').addrs = (s.inodes ip').addrs := by
  by_cases hip : ip' = ip
  · subst hip
    simp [setSize, setInode]
  · simp [setSize, setInode, hip, Function.update_of_ne]

theorem setSize_size (s : State) (ip size ip' : ℕ) :
    ((s.setSize ip size).inodes ip').size = if ip' = ip then size else (s.inodes ip').size := by
  by_cases hip : ip' = ip
  · subst hip
    simp [setSize, setInode]
  · simp [setSize, setInode, hip, Function.update_of_ne]

theorem setSize_type (s : State) (ip size ip' : ℕ) :
    ((s.setSize ip size).inodes ip').type = (s.inodes ip').type := by
  by_cases hip : ip' = ip
  · subst hip
    simp [setSize, setInode]
  · simp [setSize, setInode, hip, Function.update_of_ne]

theorem setSize_ptr (s : State) (ip size : ℕ) : (s.setSize ip size).ptr = s.ptr := by
  funext ⟨ip', slot⟩
  cases slot <;> simp [State.ptr, setSize_addrs] <;> rfl

theorem setSize_byte (s : State) (ip size ip' i : ℕ) : (s.setSize ip size).byte ip' i = s.byte ip' i := by
  unfold State.byte State.data
  rw [setSize_ptr]
  rfl

/-- A file has another length: there is a block for every byte of it. -/
theorem setSize_sound (h : s.Sound first) {size : ℕ} (hmax : size ≤ MAXFILE * Fs.BSIZE)
    (hmapped : ∀ bn, bn * Fs.BSIZE < size → s.ptr (ip, slotOf bn) ≠ 0) : (s.setSize ip size).Sound first := by
  refine ⟨h.first_pos, h.size_lt, h.used_meta, h.boot, (setSize_ptr s ip size).symm ▸ h.owned,
    fun ip' bn hbn => ?_, fun ip' => ?_, fun ip' hty => ?_⟩
  · rw [setSize_size] at hbn
    rw [setSize_ptr]
    split at hbn
    · next hip =>
      rw [hip]
      exact hmapped bn hbn
    · exact h.mapped ip' bn hbn
  · rw [setSize_size]
    split
    · exact hmax
    · exact h.size_le ip'
  · rw [setSize_type] at hty
    rw [setSize_addrs]
    exact h.free ip' hty

/-- On the way to a block no table is missing. -/
theorem slotPath_ptr {bn : ℕ} (h : s.ptr (ip, slotOf bn) ≠ 0) : ∀ slot ∈ slotPath bn, s.ptr (ip, slot) ≠ 0 := by
  have htable : ∀ table idx slot, Entry table idx slot → s.ptr (ip, slot) ≠ 0 → s.ptr (ip, table) ≠ 0 := by
    intro table idx slot he hne hz
    rw [ptr_entry he, hz] at hne
    exact hne rfl
  intro slot hslot
  unfold slotPath at hslot
  split at hslot
  · next hdirect =>
    rw [Finset.mem_singleton.mp hslot, ← Bmap.slotOf_direct hdirect]
    exact h
  next hdirect =>
  split at hslot
  · next hsingle =>
    rw [Bmap.slotOf_single (by omega) (by omega)] at h
    rcases Finset.mem_insert.mp hslot with rfl | hslot
    · exact htable _ _ _ (.single _) h
    · rw [Finset.mem_singleton.mp hslot]
      exact h
  · next hsingle =>
    rw [Bmap.slotOf_double (by omega)] at h
    have hleaf := htable _ _ _ (.double _ _) h
    rcases Finset.mem_insert.mp hslot with rfl | hslot
    · exact htable _ _ _ (.leaf _) hleaf
    rcases Finset.mem_insert.mp hslot with rfl | hslot
    · exact hleaf
    · rw [Finset.mem_singleton.mp hslot]
      exact h

/-- Every way to the bytes that have been written is there. -/
theorem Written.missing {s' : State} {off stop : ℕ} {src : List UInt8}
    (hw : Written first s s' ip off stop stop src) : (s'.missing ip (span off stop)) = ∅ := by
  refine Finset.filter_eq_empty_iff.mpr fun slot hslot => ?_
  obtain ⟨i, hi, hslot⟩ := Finset.mem_biUnion.mp hslot
  obtain ⟨hge, hlt⟩ := Finset.mem_Ico.mp hi
  exact slotPath_ptr (hw.mapped i hge hlt) slot hslot

/-- The ranges that `writei` takes -/
def Accepts (s : State) (ip : ℕ) (off n : UInt32) : Prop :=
  off.toNat ≤ (s.inodes ip).size ∧ off.toNat + n.toNat ≤ MAXFILE * Fs.BSIZE

theorem add_toNat {off n : UInt32} (h : ¬ off + n < off) : (off + n).toNat = off.toNat + n.toNat := by
  rw [UInt32.lt_iff_toNat_lt] at h
  have hadd := UInt32.toNat_add off n
  have hoff := off.toNat_lt
  have hn := n.toNat_lt
  omega

/-- **`writei`** returns -1 and does nothing, or it writes a part of the bytes, one after the other. -/
theorem writei_spec (h : s.Sound first) (htype : (s.inodes ip).type ≠ 0) (src : List UInt8) (off n : UInt32) :
    ¬ Accepts s ip off n ∧ s.writei ip src off n = .ok (-1, s) ∨
      Accepts s ip off n ∧ ∃ tot s₁, Written first s s₁ ip off.toNat (off.toNat + tot) (off.toNat + n.toNat) src ∧
        ∃ s', s.writei ip src off n = .ok ((tot : ℤ), s') ∧ s'.Sound first ∧ s'.ptr = s₁.ptr ∧
          s'.freeCount = s₁.freeCount ∧
          (∀ ip' i, s'.byte ip' i = s₁.byte ip' i) ∧ (∀ ip', (s'.inodes ip').type = (s.inodes ip').type) ∧
          ∀ ip', (s'.inodes ip').size =
            if ip' = ip then max (s.inodes ip).size (off.toNat + tot) else (s.inodes ip').size := by
  unfold State.writei
  split
  · next hbad =>
    refine .inl ⟨fun hacc => ?_, rfl⟩
    obtain ⟨hoff, hmax⟩ := hacc
    rcases hbad with hbad | hbad
    · omega
    · rw [UInt32.lt_iff_toNat_lt, UInt32.toNat_add] at hbad
      have hlimit : MAXFILE * Fs.BSIZE < 2 ^ 32 := by decide
      rw [Nat.mod_eq_of_lt (by omega)] at hbad
      omega
  next hgood =>
  rw [not_or] at hgood
  have hadd := add_toNat hgood.2
  split
  · next hbad =>
    refine .inl ⟨fun hacc => ?_, rfl⟩
    have hmax := hacc.2
    omega
  next hmax =>
  have hacc : Accepts s ip off n := ⟨by omega, by omega⟩
  obtain ⟨off', s₁, hrun, hw⟩ := writeLoop_spec n.toNat h htype src le_rfl hacc.2
  obtain ⟨tot, rfl⟩ : ∃ tot, off' = off.toNat + tot := ⟨off' - off.toNat, by have := hw.le; omega⟩
  refine .inr ⟨hacc, tot, s₁, hw, ?_⟩
  rw [hrun]
  dsimp only [bind, Except.bind]
  rw [show ((off.toNat + tot : ℕ) : ℤ) - (off.toNat : ℤ) = tot by omega]
  have hinode := hw.tables.inode
  have hstop := hw.le_stop
  split
  · next hlonger =>
    refine ⟨_, rfl, setSize_sound hw.tables.sound (by omega) fun bn hbn => ?_, setSize_ptr _ _ _, rfl,
      setSize_byte _ _ _, fun ip' => ?_, fun ip' => ?_⟩
    · -- the block belonged to the file before, or a byte of it has been written
      rcases Nat.lt_or_ge (bn * Fs.BSIZE) (s.inodes ip).size with hold | hnew
      · have hne := h.mapped ip bn hold
        rw [hw.tables.keep _ (h.slotOf_data hold).valid hne]
        exact hne
      · have hmapped := hw.mapped (bn * Fs.BSIZE) (by omega) hbn
        rwa [Nat.mul_div_cancel _ (by decide)] at hmapped
    · rw [setSize_type]
      exact (hinode ip').2
    · rw [setSize_size, (hinode ip').1]
      split
      · rw [(hinode ip).1] at hlonger
        omega
      · rfl
  · next hshorter =>
    refine ⟨s₁, rfl, hw.tables.sound, rfl, rfl, fun _ _ => rfl, fun ip' => (hinode ip').2, fun ip' => ?_⟩
    rw [(hinode ip').1]
    rw [(hinode ip).1] at hshorter
    split
    · next hip =>
      rw [hip]
      omega
    · rfl

end

/-! ## Reading -/

section

variable {s : State} {first ip : ℕ}

theorem root_of_ne {i : ℕ} (h : (s.inodes ip).addrs i ≠ 0) : s.root ip i = ((s.inodes ip).addrs i, s) := if_neg h

theorem entry_of_ne {t idx : ℕ} (h : s.word t idx ≠ 0) : s.entry t idx = (s.word t idx, s) := by
  have ht : t ≠ 0 := by
    rintro rfl
    exact h rfl
  have hword : s.word t idx = (s.blocks t).word idx := if_neg ht
  rw [hword] at h ⊢
  exact if_neg h

/-- A block that is there is found, and nothing is allocated. -/
theorem bmap_mapped {bn : ℕ} (hbn : bn < MAXBN) (h : s.ptr (ip, slotOf bn) ≠ 0) :
    s.bmap ip bn = .ok (s.ptr (ip, slotOf bn), s) := by
  rcases Nat.lt_or_ge bn NDIRECT with hdirect | hdirect
  · rw [Bmap.slotOf_direct hdirect] at h ⊢
    rw [bmap_direct hdirect, root_of_ne h]
    rfl
  rcases Nat.lt_or_ge bn (NDIRECT + NINDIRECT) with hsingle | hdouble
  · rw [Bmap.slotOf_single hdirect hsingle] at h ⊢
    have htable : (s.inodes ip).addrs NDIRECT ≠ 0 := by
      intro hz
      rw [ptr_entry (.single _)] at h
      exact h (by rw [show s.ptr (ip, .root NDIRECT) = 0 from hz]; rfl)
    rw [bmap_single hdirect hsingle, root_of_ne htable, if_neg htable]
    exact congrArg Except.ok (entry_of_ne h)
  · rw [Bmap.slotOf_double hdouble] at h ⊢
    have hleaf : s.ptr (ip, .leaf ((bn - NDIRECT - NINDIRECT) / NINDIRECT)) ≠ 0 := by
      intro hz
      rw [ptr_entry (.double _ _), hz] at h
      exact h rfl
    have htop : (s.inodes ip).addrs (NDIRECT + 1) ≠ 0 := by
      intro hz
      rw [ptr_entry (.leaf _)] at hleaf
      exact hleaf (by rw [show s.ptr (ip, .root (NDIRECT + 1)) = 0 from hz]; rfl)
    rw [bmap_double hdouble hbn, root_of_ne htop, if_neg htop]
    dsimp only
    rw [show s.entry _ _ = _ from entry_of_ne hleaf]
    exact congrArg Except.ok (entry_of_ne h)

/-- The loop of `readi` copies the bytes of the file, as long as there is room for them. -/
theorem readLoop_eq (h : s.Sound first) (fuel : ℕ) {off rest : ℕ} (room : ℕ) (hfuel : rest ≤ fuel)
    (hsize : off + rest ≤ (s.inodes ip).size) :
    s.readLoop ip fuel off rest room =
      .ok (decide (rest ≤ room), (((s.content ip).drop off).take rest).take room, s) := by
  induction fuel generalizing off rest room with
  | zero =>
    obtain rfl : rest = 0 := Nat.le_zero.mp hfuel
    simp [readLoop]
  | succ fuel ih =>
    rw [readLoop]
    by_cases hrest : rest = 0
    · subst hrest
      simp
    rw [if_neg hrest]
    have hle := h.size_le ip
    have hdiv : off / Fs.BSIZE < MAXBN := div_lt_maxbn (by omega)
    have hptr : s.ptr (ip, slotOf (off / Fs.BSIZE)) ≠ 0 :=
      h.mapped ip _ ((Nat.div_mul_le_self off Fs.BSIZE).trans_lt (by omega))
    rw [bmap_mapped hdiv hptr]
    dsimp only [bind, Except.bind]
    rw [if_neg hptr]
    generalize hm : min rest (Fs.BSIZE - off % Fs.BSIZE) = m
    have hbs : 0 < Fs.BSIZE := by decide
    have hmod := Nat.mod_lt off hbs
    have hdo := Nat.div_add_mod off Fs.BSIZE
    -- a round copies the next bytes of the file
    have hbytes : (List.range m).map (fun j => s.blocks (s.ptr (ip, slotOf (off / Fs.BSIZE))) (off % Fs.BSIZE + j)) =
        ((s.content ip).drop off).take m := by
      refine List.ext_getElem? fun j => ?_
      rw [List.getElem?_take, List.getElem?_map, List.getElem?_drop]
      split
      · next hj =>
        have hblk : (off + j) / Fs.BSIZE = off / Fs.BSIZE := by
          refine Nat.div_eq_of_lt_le ?_ ?_
          · rw [Nat.mul_comm]
            omega
          · rw [Nat.add_mul, Nat.mul_comm, Nat.one_mul]
            omega
        have hmodj : (off + j) % Fs.BSIZE = off % Fs.BSIZE + j := by
          have hdj := Nat.div_add_mod (off + j) Fs.BSIZE
          rw [hblk] at hdj
          omega
        rw [List.getElem?_range hj, content_getElem? s ip (by omega), Option.map_some, State.byte, hblk, hmodj,
          State.data, if_neg hptr]
      · next hj => rw [List.getElem?_eq_none (by rw [List.length_range]; omega)]; rfl
    rw [hbytes]
    split
    · next hroom =>
      rw [List.take_take, List.take_take, Nat.min_eq_left (by omega), Nat.min_eq_left (by omega),
        decide_eq_false (by omega)]
      rfl
    next hroom =>
    rw [ih (room - m) (by omega) (by omega)]
    dsimp only
    have hsplit : (((s.content ip).drop off).take rest).take room =
        ((s.content ip).drop off).take m ++
          (((s.content ip).drop (off + m)).take (rest - m)).take (room - m) := by
      rw [← List.drop_drop, List.take_take, List.take_take,
        show min room rest = m + min (room - m) (rest - m) by omega, List.take_add]
    rw [hsplit, show decide (rest - m ≤ room - m) = decide (rest ≤ room) by
      rw [decide_eq_decide]; omega]
    rfl

/-- **A file is an array of bytes, for reading.** `readi` copies the bytes of the range that are in the file,
    allocates nothing, and fails only where the destination has no room for them. -/
theorem readi_content (h : s.Sound first) (ip : ℕ) (off n : UInt32) (room : ℕ) :
    s.readi ip off n room =
      if (s.inodes ip).size < off.toNat ∨ off + n < off then .ok (0, [], s)
      else
        let bytes := ((s.content ip).drop off.toNat).take n.toNat
        .ok (if bytes.length ≤ room then (bytes.length : ℤ) else -1, bytes.take room, s) := by
  unfold State.readi
  split
  · rfl
  next hgood =>
  rw [not_or] at hgood
  have hadd := add_toNat hgood.2
  generalize hk : (if (s.inodes ip).size < (off + n).toNat then (s.inodes ip).size - off.toNat else n.toNat) = k
  have hkmin : k = min n.toNat ((s.inodes ip).size - off.toNat) := by
    rw [← hk]
    split <;> omega
  have hbytes : ((s.content ip).drop off.toNat).take n.toNat = ((s.content ip).drop off.toNat).take k := by
    rw [hkmin, List.take_eq_take_iff, List.length_drop, content_length]
    omega
  have hlen : (((s.content ip).drop off.toNat).take k).length = k := by
    rw [List.length_take, List.length_drop, content_length]
    omega
  rw [hbytes]
  dsimp only
  rw [hlen, readLoop_eq h k room le_rfl (by omega)]
  dsimp only [bind, Except.bind]
  by_cases hroom : k ≤ room
  · rw [List.take_of_length_le (by omega), decide_eq_true hroom, if_pos rfl, if_pos hroom, hlen]
    rfl
  · rw [decide_eq_false hroom, if_neg (by decide), if_neg hroom]
    rfl

end

end Xv6.Kernel.BlockLayer
