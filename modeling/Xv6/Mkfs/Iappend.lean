import Xv6.Kernel.WriteChunk
import Xv6.Lib.ByteBlock

/-!
# Building an Image

`mkfs` fills the inodes of an image. It takes the blocks in turn, and writes the bitmap when it is done.

- `State`, `iappend`, `balloc`: the program, on an image that is a sequence of sectors;
- `Laid`: where the pieces of the files are, and what is in them;
- `appendBlocks_spec`: what the loop of `iappend` does, in a file that stays in the range of the table
  that the program keeps, and that it does nothing beyond.
-/

namespace Xv6.Mkfs

open Xv6.Lib Xv6.Kernel.Bmap

/-! ## The program -/

def NINODES : ℕ := 200
def nbitmap : ℕ := FSSIZE / (BSIZE * 8) + 1
def ninodeblocks : ℕ := NINODES / IPB + 1
def nlog : ℕ := MAXOPBLOCKS * 3
def nswapblocks : ℕ := SWAP_SPACE_BLOCKS
def nmeta : ℕ := 2 + nlog + ninodeblocks + nbitmap + nswapblocks

/-- `sb.inodestart` -/
def inodestart : ℕ := 2 + nlog

/-- `sb.bmapstart` -/
def bmapstart : ℕ := 2 + nlog + ninodeblocks

/-- `IBLOCK(inum, sb)` -/
def IBLOCK (inum : ℕ) : ℕ := inum / IPB + inodestart

/-- The image, and the counter of blocks -/
structure State where
  /-- The sectors of `fsfd` -/
  disk : ℕ → ByteBlock
  freeblock : ℕ

def State.wsect (s : State) (sec : ℕ) (buf : ByteBlock) : State :=
  { s with disk := Function.update s.disk sec buf }

/-- `freeblock++` -/
def State.advance (s : State) : State := { s with freeblock := s.freeblock + 1 }

/-- A `struct dinode` by words: two for `type`, `major`, `minor` and `nlink`, then `size` and `addrs` -/
abbrev Dinode : Type := ℕ → ℕ

def Dinode.size (din : Dinode) : ℕ := din 2
def Dinode.addrs (din : Dinode) (k : ℕ) : ℕ := din (3 + k)
def Dinode.setSize (din : Dinode) (v : ℕ) : Dinode := Function.update din 2 v
def Dinode.setAddr (din : Dinode) (k v : ℕ) : Dinode := Function.update din (3 + k) v

/-- The words of a `struct dinode` -/
def DINODE_WORDS : ℕ := 3 + TOTBUF

/-- The dinode with a number, in an image -/
def dinodeAt (disk : ℕ → ByteBlock) (inum : ℕ) : Dinode := fun w =>
  if w < DINODE_WORDS then (disk (IBLOCK inum)).word (inum % IPB * DINODE_WORDS + w) else 0

def State.rinode (s : State) (inum : ℕ) : Dinode := dinodeAt s.disk inum

/-- The words from `base` on are overwritten, `n` of them. -/
def setWords (buf : ByteBlock) (base : ℕ) (v : ℕ → ℕ) : ℕ → ByteBlock
  | 0 => buf
  | n + 1 => (setWords buf base v n).setWord (base + n) (v n)

def State.winode (s : State) (inum : ℕ) (din : Dinode) : State :=
  s.wsect (IBLOCK inum)
    (setWords (s.disk (IBLOCK inum)) (inum % IPB * DINODE_WORDS) din DINODE_WORDS)

/-- `din.addrs[k]` gets a block, if it has none. -/
def State.root (s : State) (din : Dinode) (k : ℕ) : State × Dinode :=
  if din.addrs k = 0 then (s.advance, din.setAddr k s.freeblock) else (s, din)

/-- The first part of the loop of `iappend`: the block with the number `fbn`. There are `NINDIRECT` words in
    `indirect[]`, and nothing is defined beyond. -/
def State.block (s : State) (din : Dinode) (fbn : ℕ) : Except String (ℕ × State × Dinode) :=
  if fbn < NDIRECT then
    let (s, din) := s.root din fbn
    .ok (din.addrs fbn, s, din)
  else
    let (s, din) := s.root din NDIRECT
    let table := din.addrs NDIRECT
    let indirect := s.disk table
    if fbn - NDIRECT < NINDIRECT then
      if indirect.word (fbn - NDIRECT) = 0 then
        let indirect := indirect.setWord (fbn - NDIRECT) s.freeblock
        .ok (indirect.word (fbn - NDIRECT), s.advance.wsect table indirect, din)
      else .ok (indirect.word (fbn - NDIRECT), s, din)
    else .error "indirect[]"

/-- The loop of `iappend`. Each round takes a byte at least. -/
def appendBlocks : ℕ → State → Dinode → ℕ → List UInt8 → Except String (ℕ × State × Dinode)
  | 0, s, din, off, _ => .ok (off, s, din)
  | fuel + 1, s, din, off, p =>
    if p = [] then .ok (off, s, din)
    else
      let fbn := off / BSIZE
      if fbn < MAXFILE then
        match s.block din fbn with
        | .error e => .error e
        | .ok (x, s, din) =>
          let n1 := min p.length ((fbn + 1) * BSIZE - off)
          appendBlocks fuel (s.wsect x ((s.disk x).blit (off - fbn * BSIZE) n1 (p.getD · 0))) din (off + n1)
            (p.drop n1)
      else .error "fbn < MAXFILE"

def iappend (s : State) (inum : ℕ) (p : List UInt8) : Except String State :=
  let din := s.rinode inum
  match appendBlocks p.length s din din.size p with
  | .error e => .error e
  | .ok (off, s, din) => .ok (s.winode inum (din.setSize off))

/-- The first bits are set, `used` of them. -/
def bitmap : ℕ → ByteBlock
  | 0 => ByteBlock.zero
  | i + 1 => Function.update (bitmap i) (i / 8) (bitmap i (i / 8) ||| 1 <<< UInt8.ofNat (i % 8))

/-- `balloc(freeblock)` -/
def balloc (s : State) : Except String State :=
  if s.freeblock < BSIZE * 8 then .ok (s.wsect bmapstart (bitmap s.freeblock))
  else .error "used < BSIZE*8"

/-- Calls of `iappend`, and `balloc` at the end -/
def build (s : State) : List (Fin NINODES × List UInt8) → Except String State
  | [] => balloc s
  | (inum, p) :: calls =>
    match iappend s inum p with
    | .error e => .error e
    | .ok s => build s calls

/-! ## The image before -/

/-- An image before the calls of `iappend`: the inodes are empty, and no blocks are in use. -/
structure Formatted where
  state : State
  size : ∀ inum : Fin NINODES, (state.rinode inum).size = 0
  addrs : ∀ (inum : Fin NINODES) k, (state.rinode inum).addrs k = 0
  zero : ∀ b, nmeta ≤ b → state.disk b = ByteBlock.zero
  free : state.freeblock = nmeta

/-! ## Words -/

theorem word_setWords (buf : ByteBlock) (base : ℕ) {v : ℕ → ℕ} (n : ℕ) (hv : ∀ i < n, v i < 2 ^ 32)
    (k : ℕ) : (setWords buf base v n).word k =
      if base ≤ k ∧ k < base + n then v (k - base) else buf.word k := by
  induction n with
  | zero => exact (if_neg (by omega)).symm
  | succ n ih =>
    unfold setWords
    rcases eq_or_ne k (base + n) with rfl | hk
    · rw [ByteBlock.word_setWord_self _ _ (hv n (Nat.lt_succ_self n)), if_pos (by omega),
        Nat.add_sub_cancel_left]
    · rw [ByteBlock.word_setWord_of_ne _ _ hk, ih fun i hi => hv i (Nat.lt_succ_of_lt hi)]
      exact if_congr (by omega) rfl rfl

/-- The inode blocks are before the bitmap. -/
theorem IBLOCK_lt (inum : Fin NINODES) : IBLOCK inum < bmapstart := by
  have h : inum.val < 200 := inum.isLt
  have hI : IPB = 64 := by decide
  have hB : bmapstart = 2 + nlog + 4 := by decide
  unfold IBLOCK inodestart
  rw [hI, hB]
  omega

theorem bmapstart_lt : bmapstart < nmeta := by decide

/-- What is written into an inode is read from it, and the others keep what they have. -/
theorem dinodeAt_winode (s : State) (inum inum' : Fin NINODES) {din : Dinode}
    (hdin : ∀ w < DINODE_WORDS, din w < 2 ^ 32) (hout : ∀ w, DINODE_WORDS ≤ w → din w = 0) :
    dinodeAt (s.winode inum din).disk inum' = if inum' = inum then din else dinodeAt s.disk inum' := by
  have hD : DINODE_WORDS = 16 := rfl
  have hI : IPB = 64 := by decide
  funext w
  unfold dinodeAt
  by_cases hw : w < DINODE_WORDS
  · rw [if_pos hw]
    unfold State.winode State.wsect
    dsimp only
    by_cases hblock : IBLOCK inum' = IBLOCK inum
    · rw [hblock, Function.update_self, word_setWords _ _ _ hdin]
      by_cases hinum : inum' = inum
      · rw [hinum, if_pos (by omega), if_pos rfl, Nat.add_sub_cancel_left]
      · -- Two inodes of one block do not overlap.
        have hne : inum'.val ≠ inum.val := fun h => hinum (Fin.ext h)
        rw [if_neg hinum, if_pos hw]
        refine if_neg ?_
        unfold IBLOCK at hblock
        rw [hI] at hblock ⊢
        rw [hD] at hw ⊢
        omega
    · rw [Function.update_of_ne hblock, if_neg fun h : inum' = inum => hblock (by rw [h]), if_pos hw]
  · rw [if_neg hw]
    split
    · exact (hout w (Nat.le_of_not_lt hw)).symm
    · exact (if_neg hw).symm

/-! ## The pieces of the files -/

/-- A block that a file has got from `mkfs`: the table, or one with data -/
inductive Piece where
  | indirect
  | block (fbn : ℕ)
  deriving DecidableEq

/-- The numbers of the blocks end where the table does. -/
def LIMIT : ℕ := NDIRECT + NINDIRECT

def Piece.Valid : Piece → Prop
  | .indirect => True
  | .block fbn => fbn < LIMIT

/-- Where a piece is, 0 if it is not there -/
def place (disk : ℕ → ByteBlock) (din : Dinode) : Piece → ℕ
  | .indirect => din.addrs NDIRECT
  | .block fbn =>
    if fbn < NDIRECT then din.addrs fbn
    else if din.addrs NDIRECT = 0 then 0
    else (disk (din.addrs NDIRECT)).word (fbn - NDIRECT)

/-- The table is all that is read of the image. -/
theorem place_congr {disk disk' : ℕ → ByteBlock} {din : Dinode}
    (h : din.addrs NDIRECT ≠ 0 → disk' (din.addrs NDIRECT) = disk (din.addrs NDIRECT)) (c : Piece) :
    place disk' din c = place disk din c := by
  cases c with
  | indirect => rfl
  | block fbn =>
    by_cases ht : din.addrs NDIRECT = 0
    · simp only [place, ht, if_true]
    · simp only [place, h ht]

/-- **The files are laid out**: the pieces are at different places among the blocks that are in use, and what
    the files have got is in them. -/
structure Laid {ι : Type} (pl : ι → Piece → ℕ) (disk : ℕ → ByteBlock) (free : ℕ)
    (data : ι → List UInt8) : Prop where
  inj : ∀ i c i' c', c.Valid → c'.Valid → pl i c ≠ 0 → pl i c = pl i' c' → i = i' ∧ c = c'
  range : ∀ i c, c.Valid → pl i c ≠ 0 → nmeta ≤ pl i c ∧ pl i c < free
  zero : ∀ b, free ≤ b → disk b = ByteBlock.zero
  limit : ∀ i, (data i).length ≤ LIMIT * BSIZE
  content : ∀ i k, (h : k < (data i).length) → pl i (.block (k / BSIZE)) ≠ 0 ∧
    disk (pl i (.block (k / BSIZE))) (k % BSIZE) = (data i)[k]

namespace Laid

variable {ι : Type} {pl pl' : ι → Piece → ℕ} {disk disk' : ℕ → ByteBlock} {free : ℕ}
  {data : ι → List UInt8}

theorem valid (h : Laid pl disk free data) {i : ι} {k : ℕ} (hk : k < (data i).length) :
    k / BSIZE < LIMIT := by
  rw [Nat.div_lt_iff_lt_mul (by decide)]
  exact Nat.lt_of_lt_of_le hk (h.limit i)

/-- A piece gets the next block. The blocks with data stay as they are. -/
theorem grow (h : Laid pl disk free data) {i : ι} {c : Piece} (hfree : nmeta ≤ free) (hc : c.Valid)
    (hnull : pl i c = 0) (hnew : pl' i c = free)
    (hold : ∀ i' c', c'.Valid → (i', c') ≠ (i, c) → pl' i' c' = pl i' c')
    (hdisk : ∀ i' fbn, fbn < LIMIT → pl i' (.block fbn) ≠ 0 →
      disk' (pl i' (.block fbn)) = disk (pl i' (.block fbn)))
    (hzero : ∀ b, free < b → disk' b = disk b) : Laid pl' disk' (free + 1) data := by
  have hcases : ∀ i' c', c'.Valid → pl' i' c' = pl i' c' ∧ (i', c') ≠ (i, c) ∨
      pl' i' c' = free ∧ (i', c') = (i, c) := by
    intro i' c' hc'
    by_cases heq : (i', c') = (i, c)
    · obtain ⟨rfl, rfl⟩ := Prod.mk.inj heq
      exact .inr ⟨hnew, heq⟩
    · exact .inl ⟨hold i' c' hc' heq, heq⟩
  -- Two pieces in one place: at most one of them is new, and the old ones lie below `free`.
  refine ⟨fun i₁ c₁ i₂ c₂ hc₁ hc₂ hne heq => ?_, fun i' c' hc' hne => ?_, fun b hb => ?_, h.limit,
    fun i' k hk => ?_⟩
  · rcases hcases i₁ c₁ hc₁ with ⟨h₁, -⟩ | ⟨h₁, e₁⟩
    · rcases hcases i₂ c₂ hc₂ with ⟨h₂, -⟩ | ⟨h₂, -⟩
      · rw [h₁] at hne heq
        exact h.inj i₁ c₁ i₂ c₂ hc₁ hc₂ hne (heq.trans h₂)
      · rw [h₁] at hne heq
        have := (h.range i₁ c₁ hc₁ hne).2
        omega
    · rcases hcases i₂ c₂ hc₂ with ⟨h₂, -⟩ | ⟨h₂, e₂⟩
      · rw [heq, h₂] at hne
        have := (h.range i₂ c₂ hc₂ hne).2
        omega
      · exact Prod.mk.inj (e₁.trans e₂.symm)
  · rcases hcases i' c' hc' with ⟨h', -⟩ | ⟨h', -⟩
    · rw [h'] at hne ⊢
      have := h.range i' c' hc' hne
      omega
    · rw [h']
      omega
  · rw [hzero b hb]
    exact h.zero b (Nat.le_of_lt hb)
  -- What a file holds lies in blocks that had a place before, and these have not changed.
  · obtain ⟨hne, hbyte⟩ := h.content i' k hk
    rcases hcases i' (.block (k / BSIZE)) (h.valid hk) with ⟨h', -⟩ | ⟨-, he⟩
    · rw [h', hdisk i' _ (h.valid hk) hne]
      exact ⟨hne, hbyte⟩
    · obtain ⟨rfl, rfl⟩ := Prod.mk.inj he
      exact absurd hnull hne

/-- Bytes are written behind the end of a file, in one block. -/
theorem write [DecidableEq ι] (h : Laid pl disk free data) {i : ι} {fbn : ℕ} (hfbn : fbn < LIMIT)
    (hplace : pl i (.block fbn) ≠ 0) {src : List UInt8} {off n : ℕ} (hoff : off = (data i).length)
    (hlo : fbn * BSIZE ≤ off) (hhi : off + n ≤ (fbn + 1) * BSIZE) (hn : n ≤ src.length) :
    Laid pl (Function.update disk (pl i (.block fbn))
      ((disk (pl i (.block fbn))).blit (off - fbn * BSIZE) n (src.getD · 0))) free
      (Function.update data i (data i ++ src.take n)) := by
  have hB : BSIZE = 4096 := rfl
  -- The blocks behind `free` stay empty, and the file stays within the limit.
  refine ⟨h.inj, h.range, fun b hb => ?_, fun i' => ?_, fun i' k hk => ?_⟩
  · rw [Function.update_of_ne]
    · exact h.zero b hb
    · rintro rfl
      have := (h.range i (.block fbn) hfbn hplace).2
      omega
  · rcases eq_or_ne i' i with rfl | hi
    · rw [Function.update_self, List.length_append, List.length_take, Nat.min_eq_left hn, ← hoff]
      exact hhi.trans (Nat.mul_le_mul_right _ hfbn)
    · rw [Function.update_of_ne hi]
      exact h.limit i'
  · rcases eq_or_ne i' i with rfl | hi
    · simp only [Function.update_self, List.length_append, List.length_take] at hk ⊢
      rw [Nat.min_eq_left hn, ← hoff] at hk
      -- An old byte keeps its place: it is before the bytes written, or in another block.
      rcases Nat.lt_or_ge k off with hlt | hge
      · obtain ⟨hne, hbyte⟩ := h.content i' k (hoff ▸ hlt)
        refine ⟨hne, ?_⟩
        rw [List.getElem_append_left (hoff ▸ hlt), ← hbyte]
        rcases eq_or_ne (k / BSIZE) fbn with hk | hk
        · rw [hk, Function.update_self, ByteBlock.blit_of_not_mem]
          rw [hB] at hk hlo ⊢
          omega
        · rw [Function.update_of_ne]
          intro heq
          exact hk (Piece.block.inj
            (h.inj i' (.block (k / BSIZE)) i' (.block fbn) (h.valid (hoff ▸ hlt)) hfbn hne heq).2)
      -- A new byte lies in the block that is written.
      · have hk' : k / BSIZE = fbn := by
          rw [hB] at hlo hhi ⊢
          omega
        have hmod : k % BSIZE = k - fbn * BSIZE := by
          rw [hB] at hk' ⊢
          omega
        refine ⟨hk' ▸ hplace, ?_⟩
        rw [hk', Function.update_self, ByteBlock.blit_of_mem _ _ (by omega),
          List.getElem_append_right (hoff ▸ hge), List.getElem_take, hmod,
          List.getD_eq_getElem _ _ (by omega)]
        congr 1
        omega
    -- The blocks of other files are other blocks.
    · simp only [Function.update_of_ne hi] at hk ⊢
      obtain ⟨hne, hbyte⟩ := h.content i' k hk
      refine ⟨hne, ?_⟩
      rw [Function.update_of_ne, hbyte]
      intro heq
      exact hi (h.inj i' (.block (k / BSIZE)) i (.block fbn) (h.valid hk) hfbn hne heq).1

end Laid

/-! ## The files of an image -/

/-- A dinode by words that fit; the table of the second layer is not used. -/
structure Dinode.Sound (din : Dinode) : Prop where
  word : ∀ w < DINODE_WORDS, din w < 2 ^ 32
  out : ∀ w, DINODE_WORDS ≤ w → din w = 0
  double : din.addrs (NDIRECT + 1) = 0

/-- **The files of an image**, when the dinodes are these: each has just the pieces in `used`, and the blocks
    have been taken for them in turn. -/
structure Files (s : State) (dins : Fin NINODES → Dinode) (data : Fin NINODES → List UInt8)
    (used : Fin NINODES → Finset Piece) : Prop where
  laid : Laid (fun i => place s.disk (dins i)) s.disk s.freeblock data
  sound : ∀ i, (dins i).Sound
  valid : ∀ i, ∀ c ∈ used i, c.Valid
  present : ∀ i c, c.Valid → (place s.disk (dins i) c ≠ 0 ↔ c ∈ used i)
  free : s.freeblock = nmeta + ∑ i, (used i).card

namespace Files

variable {s s' : State} {dins : Fin NINODES → Dinode} {data : Fin NINODES → List UInt8}
  {used : Fin NINODES → Finset Piece}

theorem nmeta_le (h : Files s dins data used) : nmeta ≤ s.freeblock := h.free ▸ Nat.le_add_right _ _

/-- A file has no more pieces than the table has entries, and itself and the direct blocks. -/
theorem card_le (h : Files s dins data used) (i : Fin NINODES) : (used i).card ≤ LIMIT + 1 := by
  have hsub : used i ⊆ insert .indirect ((Finset.range LIMIT).image Piece.block) := by
    intro c hc
    have hvalid := h.valid i c hc
    cases c with
    | indirect => exact Finset.mem_insert_self _ _
    | block fbn =>
      exact Finset.mem_insert_of_mem (Finset.mem_image.2 ⟨fbn, Finset.mem_range.2 hvalid, rfl⟩)
  calc (used i).card
    _ ≤ _ := Finset.card_le_card hsub
    _ ≤ _ := Finset.card_insert_le _ _
    _ ≤ (Finset.range LIMIT).card + 1 := Nat.add_le_add_right Finset.card_image_le 1
    _ = LIMIT + 1 := by rw [Finset.card_range]

theorem free_lt (h : Files s dins data used) : s.freeblock < 2 ^ 32 := by
  have hsum : ∑ i, (used i).card ≤ NINODES * (LIMIT + 1) :=
    calc ∑ i, (used i).card
      _ ≤ ∑ _i : Fin NINODES, (LIMIT + 1) := Finset.sum_le_sum fun i _ => h.card_le i
      _ = NINODES * (LIMIT + 1) := by
        rw [Finset.sum_const, Finset.card_univ, Fintype.card_fin, Nat.nsmul_eq_mul]
  have hbound : NINODES * (LIMIT + 1) = 207200 := rfl
  have hmeta : nmeta = 1062 := by decide
  rw [h.free, hmeta]
  rw [hbound] at hsum
  omega

/-- A file gets a piece. -/
theorem grow (h : Files s dins data used) {inum : Fin NINODES} {c : Piece} {din : Dinode} (hc : c.Valid)
    (hnull : place s.disk (dins inum) c = 0) (hsound : din.Sound)
    (hfree : s'.freeblock = s.freeblock + 1) (hnew : place s'.disk din c = s.freeblock)
    (hold : ∀ c', c'.Valid → c' ≠ c → place s'.disk din c' = place s.disk (dins inum) c')
    (hother : ∀ i, i ≠ inum → ∀ c', c'.Valid → place s'.disk (dins i) c' = place s.disk (dins i) c')
    (hdisk : ∀ i fbn, fbn < LIMIT → place s.disk (dins i) (.block fbn) ≠ 0 →
      s'.disk (place s.disk (dins i) (.block fbn)) = s.disk (place s.disk (dins i) (.block fbn)))
    (hzero : ∀ b, s.freeblock < b → s'.disk b = s.disk b) :
    Files s' (Function.update dins inum din) data
      (Function.update used inum (insert c (used inum))) := by
  -- All pieces but the new one are where they were.
  have hplace : ∀ i c', c'.Valid → (i, c') ≠ (inum, c) →
      place s'.disk (Function.update dins inum din i) c' = place s.disk (dins i) c' := by
    intro i c' hc' hne
    rcases eq_or_ne i inum with rfl | hi
    · rw [Function.update_self]
      exact hold c' hc' fun h => hne (by rw [h])
    · rw [Function.update_of_ne hi]
      exact hother i hi c' hc'
  have hnew' : place s'.disk (Function.update dins inum din inum) c = s.freeblock := by
    rw [Function.update_self, hnew]
  refine ⟨hfree ▸ h.laid.grow h.nmeta_le hc hnull hnew' hplace hdisk hzero, fun i => ?_, fun i c' hc' => ?_,
    fun i c' hc' => ?_, ?_⟩
  · rcases eq_or_ne i inum with rfl | hi
    · rwa [Function.update_self]
    · rw [Function.update_of_ne hi]
      exact h.sound i
  · rcases eq_or_ne i inum with rfl | hi
    · rw [Function.update_self] at hc'
      rcases Finset.mem_insert.1 hc' with rfl | hc'
      · exact hc
      · exact h.valid i c' hc'
    · rw [Function.update_of_ne hi] at hc'
      exact h.valid i c' hc'
  · by_cases heq : (i, c') = (inum, c)
    · obtain ⟨rfl, rfl⟩ := Prod.mk.inj heq
      rw [hnew', Function.update_self]
      have hpos : s.freeblock ≠ 0 := Nat.ne_of_gt (Nat.lt_of_lt_of_le (by decide) h.nmeta_le)
      exact iff_of_true hpos (Finset.mem_insert_self _ _)
    · rw [hplace i c' hc' heq, h.present i c' hc']
      rcases eq_or_ne i inum with rfl | hi
      · rw [Function.update_self, Finset.mem_insert, or_iff_right]
        exact fun h => heq (by rw [h])
      · rw [Function.update_of_ne hi]
  · have hmem : c ∉ used inum := fun hmem => (h.present inum c hc).2 hmem hnull
    have hcard : ∀ i, (Function.update used inum (insert c (used inum)) i).card =
        (used i).card + if i = inum then 1 else 0 := by
      intro i
      rcases eq_or_ne i inum with rfl | hi
      · rw [Function.update_self, Finset.card_insert_of_notMem hmem, if_pos rfl]
      · rw [Function.update_of_ne hi, if_neg hi, Nat.add_zero]
    rw [hfree, h.free, Finset.sum_congr rfl fun i _ => hcard i, Finset.sum_add_distrib,
      Finset.sum_ite_eq' Finset.univ inum, if_pos (Finset.mem_univ _), Nat.add_assoc]

end Files

/-! ## One block -/

/-- The piece that a pointer of the inode leads to -/
def rootPiece (k : ℕ) : Piece := if k < NDIRECT then .block k else .indirect

theorem rootPiece_of_lt {k : ℕ} (h : k < NDIRECT) : rootPiece k = .block k := if_pos h

theorem rootPiece_self : rootPiece NDIRECT = .indirect := if_neg (lt_irrefl _)

theorem rootPiece_valid (k : ℕ) : (rootPiece k).Valid := by
  unfold rootPiece
  split
  · next h => exact Nat.lt_of_lt_of_le h (by decide)
  · exact trivial

theorem place_rootPiece (disk : ℕ → ByteBlock) (din : Dinode) {k : ℕ} (hk : k ≤ NDIRECT) :
    place disk din (rootPiece k) = din.addrs k := by
  unfold rootPiece
  split
  · next h => exact if_pos h
  · next h => rw [Nat.le_antisymm hk (Nat.le_of_not_lt h)]; rfl

theorem addrs_setAddr (din : Dinode) (k v j : ℕ) :
    (din.setAddr k v).addrs j = if j = k then v else din.addrs j := by
  unfold Dinode.setAddr Dinode.addrs
  rw [Function.update_apply]
  exact if_congr (by omega) rfl rfl

/-- A new block is an empty table. -/
theorem place_setAddr (disk : ℕ → ByteBlock) {din : Dinode} {k v : ℕ} (hk : k ≤ NDIRECT)
    (hnull : din.addrs k = 0) (hzero : disk v = ByteBlock.zero) (c : Piece) :
    place disk (din.setAddr k v) c = if c = rootPiece k then v else place disk din c := by
  rcases Nat.lt_or_ge k NDIRECT with h | h
  · rw [rootPiece_of_lt h]
    cases c with
    | indirect => simp [place, addrs_setAddr, Nat.ne_of_gt h]
    | block fbn =>
      rcases Nat.lt_or_ge fbn NDIRECT with hfbn | hfbn
      · simp [place, addrs_setAddr, hfbn]
      · have hne : fbn ≠ k := by omega
        simp [place, addrs_setAddr, Nat.ne_of_gt h, Nat.not_lt.2 hfbn, hne]
  · obtain rfl := Nat.le_antisymm hk h
    rw [rootPiece_self]
    cases c with
    | indirect => simp [place, addrs_setAddr]
    | block fbn =>
      rcases Nat.lt_or_ge fbn NDIRECT with hfbn | hfbn
      · simp [place, addrs_setAddr, hfbn, Nat.ne_of_lt hfbn]
      · simp [place, addrs_setAddr, Nat.not_lt.2 hfbn, hnull, hzero]

theorem Dinode.Sound.setAddr {din : Dinode} (h : din.Sound) {k v : ℕ} (hk : k ≤ NDIRECT)
    (hv : v < 2 ^ 32) : (din.setAddr k v).Sound := by
  have hW : DINODE_WORDS = 16 := rfl
  have hN : NDIRECT = 11 := rfl
  refine ⟨fun w hw => ?_, fun w hw => ?_, ?_⟩
  · unfold Dinode.setAddr
    rw [Function.update_apply]
    split
    · exact hv
    · exact h.word w hw
  · unfold Dinode.setAddr
    rw [Function.update_of_ne (by omega)]
    exact h.out w hw
  · rw [addrs_setAddr, if_neg (by omega)]
    exact h.double

namespace Files

variable {s : State} {dins : Fin NINODES → Dinode} {data : Fin NINODES → List UInt8}
  {used : Fin NINODES → Finset Piece}

/-- A pointer of the inode gets a block, if it has none. -/
theorem root (h : Files s dins data used) (inum : Fin NINODES) {k : ℕ} (hk : k ≤ NDIRECT) :
    Files (s.root (dins inum) k).1 (Function.update dins inum (s.root (dins inum) k).2) data
      (Function.update used inum (insert (rootPiece k) (used inum))) ∧
      (s.root (dins inum) k).1.disk = s.disk := by
  unfold State.root
  split
  · next hnull =>
    have hzero := h.laid.zero s.freeblock (le_refl _)
    have hplace := place_setAddr s.disk hk hnull hzero
    refine ⟨h.grow (rootPiece_valid k) ?_ ((h.sound inum).setAddr hk h.free_lt) rfl ?_ ?_
      (fun _ _ _ _ => rfl) (fun _ _ _ _ => rfl) (fun _ _ => rfl), rfl⟩
    · rw [place_rootPiece _ _ hk, hnull]
    · exact (hplace (rootPiece k)).trans (if_pos rfl)
    · exact fun c' _ hne => (hplace c').trans (if_neg hne)
  · next hne =>
    have hmem : rootPiece k ∈ used inum :=
      (h.present inum _ (rootPiece_valid k)).1 (by rwa [place_rootPiece _ _ hk])
    rw [Finset.insert_eq_of_mem hmem, Function.update_eq_self, Function.update_eq_self]
    exact ⟨h, rfl⟩

/-- An entry of the table gets a block, if it has none. -/
theorem entry (h : Files s dins data used) (inum : Fin NINODES) {j : ℕ} (hj : j < NINDIRECT)
    (htable : (dins inum).addrs NDIRECT ≠ 0)
    (hnull : (s.disk ((dins inum).addrs NDIRECT)).word j = 0) :
    Files (s.advance.wsect ((dins inum).addrs NDIRECT)
      ((s.disk ((dins inum).addrs NDIRECT)).setWord j s.freeblock)) dins data
      (Function.update used inum (insert (.block (NDIRECT + j)) (used inum))) := by
  generalize ht : (dins inum).addrs NDIRECT = t at htable hnull
  have htab : ∀ i, (dins i).addrs NDIRECT = t → place s.disk (dins i) .indirect ≠ 0 := by
    intro i hi
    rw [show place s.disk (dins i) .indirect = t from hi]
    exact htable
  have hlt : t < s.freeblock := ht ▸ (h.laid.range inum .indirect trivial (htab inum ht)).2
  -- The table belongs to no other file.
  have hown : ∀ i, (dins i).addrs NDIRECT = t → i = inum := fun i hi =>
    (h.laid.inj i .indirect inum .indirect trivial trivial (htab i hi) (hi.trans ht.symm)).1
  have hdisk : ∀ b, b ≠ t → Function.update s.disk t ((s.disk t).setWord j s.freeblock) b = s.disk b :=
    fun b hb => Function.update_of_ne hb _ _
  have hjvalid : (Piece.block (NDIRECT + j)).Valid := Nat.add_lt_add_left hj NDIRECT
  have hgrow : Files (s.advance.wsect t ((s.disk t).setWord j s.freeblock))
      (Function.update dins inum (dins inum)) data
      (Function.update used inum (insert (.block (NDIRECT + j)) (used inum))) := by
    refine h.grow hjvalid ?_ (h.sound inum) rfl ?_ ?_ ?_ ?_ ?_
    · simp [place, ht, htable, hnull]
    · simp [place, ht, htable, State.wsect, ByteBlock.word_setWord_self _ _ h.free_lt]
    · intro c' hc' hne
      cases c' with
      | indirect => rfl
      | block fbn =>
        rcases Nat.lt_or_ge fbn NDIRECT with hfbn | hfbn
        · simp [place, hfbn]
        · have hj' : fbn - NDIRECT ≠ j := by
            rintro rfl
            exact hne (by rw [Nat.add_sub_cancel' hfbn])
          simp [place, Nat.not_lt.2 hfbn, ht, htable, State.wsect, ByteBlock.word_setWord_of_ne _ _ hj']
    · intro i hi c' hc'
      cases c' with
      | indirect => rfl
      | block fbn =>
        unfold place State.wsect State.advance
        dsimp only
        rw [hdisk _ fun heq => hi (hown i heq)]
    · intro i fbn hfbn hne
      refine hdisk _ fun heq => ?_
      have := h.laid.inj i (.block fbn) inum .indirect hfbn trivial hne (heq.trans ht.symm)
      cases this.2
    · exact fun b hb => hdisk b (Nat.ne_of_gt (Nat.lt_trans hlt hb))
  rwa [Function.update_eq_self] at hgrow

/-- Bytes are written behind the end of a file. -/
theorem write (h : Files s dins data used) {inum : Fin NINODES} {fbn : ℕ} (hfbn : fbn < LIMIT)
    (hmem : .block fbn ∈ used inum) (src : List UInt8) {off n : ℕ} (hoff : off = (data inum).length)
    (hlo : fbn * BSIZE ≤ off) (hhi : off + n ≤ (fbn + 1) * BSIZE) (hn : n ≤ src.length) :
    Files (s.wsect (place s.disk (dins inum) (.block fbn))
      ((s.disk (place s.disk (dins inum) (.block fbn))).blit (off - fbn * BSIZE) n (src.getD · 0)))
      dins (Function.update data inum (data inum ++ src.take n)) used := by
  have hplace := (h.present inum (.block fbn) hfbn).2 hmem
  have hlaid := h.laid.write hfbn hplace hoff hlo hhi hn
  -- No table is overwritten.
  have htable : ∀ buf i c, place (Function.update s.disk (place s.disk (dins inum) (.block fbn)) buf) (dins i)
      c = place s.disk (dins i) c := by
    intro buf i c
    refine place_congr (fun ht => Function.update_of_ne (fun heq => ?_) _ _) c
    cases (h.laid.inj i .indirect inum (.block fbn) trivial hfbn ht heq).2
  refine ⟨?_, h.sound, h.valid, fun i c hc => ?_, h.free⟩
  · rw [show (fun i => place (s.wsect _ _).disk (dins i)) = fun i => place s.disk (dins i) from
      funext fun i => funext (htable _ i)]
    exact hlaid
  · unfold State.wsect
    dsimp only
    rw [htable]
    exact h.present i c hc

/-- The inodes are written, and their pointers stay as they are. -/
theorem congr {s' : State} {dins' : Fin NINODES → Dinode} (h : Files s dins data used)
    (hfree : s'.freeblock = s.freeblock) (hdisk : ∀ b, nmeta ≤ b → s'.disk b = s.disk b)
    (haddrs : ∀ i, (dins' i).addrs = (dins i).addrs) (hsound : ∀ i, (dins' i).Sound) :
    Files s' dins' data used := by
  have hplace : ∀ i c, place s'.disk (dins' i) c = place s.disk (dins i) c := by
    intro i c
    have htable : place s'.disk (dins i) c = place s.disk (dins i) c :=
      place_congr (fun ht => hdisk _ (h.laid.range i .indirect trivial ht).1) c
    rw [← htable]
    cases c <;> simp only [place, haddrs]
  refine ⟨?_, hsound, h.valid, fun i c hc => by rw [hplace]; exact h.present i c hc, hfree.trans h.free⟩
  rw [show (fun i => place s'.disk (dins' i)) = fun i => place s.disk (dins i) from
    funext fun i => funext (hplace i), hfree]
  refine ⟨h.laid.inj, h.laid.range, fun b hb => ?_, h.laid.limit, fun i k hk => ?_⟩
  · rw [hdisk b (h.nmeta_le.trans hb)]
    exact h.laid.zero b hb
  · obtain ⟨hne, hbyte⟩ := h.laid.content i k hk
    exact ⟨hne, by rw [hdisk _ (h.laid.range i (.block (k / BSIZE)) (h.laid.valid hk) hne).1, hbyte]⟩

end Files

/-- The pieces that a block needs -/
def need (fbn : ℕ) : Finset Piece :=
  if fbn < NDIRECT then {.block fbn} else {.block fbn, .indirect}

/-- The blocks of so many bytes -/
def nblocks (len : ℕ) : ℕ := (len + (BSIZE - 1)) / BSIZE

/-- The pieces of a file with so many bytes -/
def pieces (len : ℕ) : Finset Piece := (Finset.range (nblocks len)).biUnion need

/-- A file grows by the pieces of a block. -/
theorem pieces_grow {off n fbn : ℕ} (hn : 0 < n) (hlo : fbn * BSIZE ≤ off)
    (hhi : off + n ≤ (fbn + 1) * BSIZE) : pieces (off + n) = need fbn ∪ pieces off := by
  have hB : BSIZE = 4096 := rfl
  have hnew : nblocks (off + n) = fbn + 1 := by
    unfold nblocks
    rw [hB] at hlo hhi ⊢
    omega
  have hold : nblocks off = fbn ∨ nblocks off = fbn + 1 := by
    unfold nblocks
    rw [hB] at hlo hhi ⊢
    omega
  have hinsert : (Finset.range (fbn + 1)).biUnion need = need fbn ∪ (Finset.range fbn).biUnion need := by
    rw [Finset.range_add_one, Finset.biUnion_insert]
  unfold pieces
  rw [hnew]
  rcases hold with h | h
  · rw [h, hinsert]
  · rw [h, hinsert, ← Finset.union_assoc, Finset.union_self]

theorem mem_pieces_block {len fbn : ℕ} : .block fbn ∈ pieces len ↔ fbn < nblocks len := by
  unfold pieces
  rw [Finset.mem_biUnion]
  constructor
  · rintro ⟨k, hk, hmem⟩
    unfold need at hmem
    have : fbn = k := by split at hmem <;> simpa using hmem
    exact this ▸ Finset.mem_range.1 hk
  · refine fun h => ⟨fbn, Finset.mem_range.2 h, ?_⟩
    unfold need
    split <;> simp

theorem mem_pieces_indirect {len : ℕ} : .indirect ∈ pieces len ↔ NDIRECT < nblocks len := by
  unfold pieces
  rw [Finset.mem_biUnion]
  constructor
  · rintro ⟨k, hk, hmem⟩
    have hlt := Finset.mem_range.1 hk
    unfold need at hmem
    split at hmem
    · simp at hmem
    · omega
  · refine fun h => ⟨NDIRECT, Finset.mem_range.2 h, ?_⟩
    unfold need
    rw [if_neg (lt_irrefl _)]
    simp

/-- The pieces of a file are its blocks and, from a length on, the table. -/
theorem card_pieces (len : ℕ) :
    (pieces len).card = nblocks len + if NDIRECT < nblocks len then 1 else 0 := by
  have hpieces : pieces len = (Finset.range (nblocks len)).image Piece.block ∪
      if NDIRECT < nblocks len then {.indirect} else ∅ := by
    ext c
    cases c with
    | indirect =>
      rw [mem_pieces_indirect]
      split <;> simp [*]
    | block fbn =>
      rw [mem_pieces_block]
      split <;> simp
  have hblocks : ((Finset.range (nblocks len)).image Piece.block).card = nblocks len := by
    rw [Finset.card_image_of_injective _ fun _ _ h => Piece.block.inj h, Finset.card_range]
  rw [hpieces, Finset.card_union_of_disjoint, hblocks]
  · split <;> rfl
  · split <;> simp

/-! ## The calls -/

section Calls

variable {s : State} {dins : Fin NINODES → Dinode} {data : Fin NINODES → List UInt8}
  {used : Fin NINODES → Finset Piece}

/-- The first part of the loop, for a block that the table has an entry for -/
theorem block_spec (h : Files s dins data used) (inum : Fin NINODES) {fbn : ℕ} (hfbn : fbn < LIMIT) :
    ∃ s' din, s.block (dins inum) fbn = .ok (place s'.disk din (.block fbn), s', din) ∧
      Files s' (Function.update dins inum din) data
        (Function.update used inum (need fbn ∪ used inum)) ∧
      ∀ b < nmeta, s'.disk b = s.disk b := by
  unfold State.block need
  split
  · next hdirect =>
    obtain ⟨hroot, hdisk⟩ := h.root inum (Nat.le_of_lt hdirect)
    generalize s.root (dins inum) fbn = r at hroot hdisk
    refine ⟨r.1, r.2, ?_, ?_, fun b _ => by rw [hdisk]⟩
    · rw [place, if_pos hdirect]
    · rw [Finset.singleton_union, ← rootPiece_of_lt hdirect]
      exact hroot
  -- Behind the direct blocks the table comes first, and then its entry.
  · next hdirect =>
    have hge := Nat.le_of_not_lt hdirect
    have hidx : fbn - NDIRECT < NINDIRECT := by
      unfold LIMIT at hfbn
      omega
    obtain ⟨hroot, hdisk⟩ := h.root inum (le_refl NDIRECT)
    rw [rootPiece_self] at hroot
    generalize s.root (dins inum) NDIRECT = r at hroot hdisk
    obtain ⟨s₁, din⟩ := r
    dsimp only at hroot hdisk ⊢
    have hself : Function.update dins inum din inum = din := Function.update_self ..
    -- The table has a place by now.
    have htable : din.addrs NDIRECT ≠ 0 := by
      have hmem : .indirect ∈ Function.update used inum (insert .indirect (used inum)) inum := by
        rw [Function.update_self]
        exact Finset.mem_insert_self _ _
      have hne := (hroot.present inum .indirect trivial).2 hmem
      rwa [hself] at hne
    have hused : {.block fbn, .indirect} ∪ used inum =
        insert (.block fbn) (insert .indirect (used inum)) := by
      rw [Finset.insert_union, Finset.singleton_union]
    have hplace : place s₁.disk din (.block fbn) = (s₁.disk (din.addrs NDIRECT)).word (fbn - NDIRECT) := by
      rw [place, if_neg hdirect, if_neg htable]
    rw [if_pos hidx, hused]
    split
    -- The entry of the block is written into the table.
    · next hnull =>
      have hentry := hroot.entry inum hidx (by rwa [hself]) (by rwa [hself])
      rw [hself, Function.update_self, Function.update_idem, Nat.add_sub_cancel' hge] at hentry
      have hlow : nmeta ≤ din.addrs NDIRECT := by
        have := (hroot.laid.range inum .indirect trivial (by rwa [hself])).1
        rwa [hself] at this
      -- The table itself lies behind the blocks of the file system's own records.
      refine ⟨_, _, ?_, hentry, fun b hb => ?_⟩
      · rw [place, if_neg hdirect, if_neg htable]
        simp only [State.wsect, Function.update_self]
      · rw [← hdisk]
        exact Function.update_of_ne (Nat.ne_of_lt (Nat.lt_of_lt_of_le hb hlow)) _ _
    -- The block was there, and counted among the pieces of the file.
    · next hne =>
      refine ⟨s₁, din, by rw [hplace], ?_, fun b _ => by rw [hdisk]⟩
      have hmem : .block fbn ∈ insert .indirect (used inum) := by
        have := (hroot.present inum (.block fbn) hfbn).1 (by rwa [hself, hplace])
        rwa [Function.update_self] at this
      rw [Finset.insert_eq_of_mem hmem]
      exact hroot

/-- Nothing is appended. -/
theorem Files.append_nil (h : Files s dins data used) {inum : Fin NINODES} {off : ℕ}
    (hused : used inum = pieces off) :
    Files s (Function.update dins inum (dins inum)) (Function.update data inum (data inum ++ []))
      (Function.update used inum (pieces (off + [].length (α := UInt8)))) := by
  rw [List.append_nil, List.length_nil, Nat.add_zero, ← hused, Function.update_eq_self,
    Function.update_eq_self, Function.update_eq_self]
  exact h

/-- **The loop of `iappend`**: the bytes are appended, if the table has entries for all the blocks. -/
theorem appendBlocks_spec (fuel : ℕ) {s : State} {dins : Fin NINODES → Dinode}
    {data : Fin NINODES → List UInt8} {used : Fin NINODES → Finset Piece} (h : Files s dins data used)
    {inum : Fin NINODES} {off : ℕ} {p : List UInt8} (hoff : off = (data inum).length)
    (hused : used inum = pieces off) (hfuel : p.length ≤ fuel) :
    if off + p.length ≤ LIMIT * BSIZE then
      ∃ s' din, appendBlocks fuel s (dins inum) off p = .ok (off + p.length, s', din) ∧
        Files s' (Function.update dins inum din) (Function.update data inum (data inum ++ p))
          (Function.update used inum (pieces (off + p.length))) ∧
        ∀ b < nmeta, s'.disk b = s.disk b
    else ∃ e, appendBlocks fuel s (dins inum) off p = .error e := by
  induction fuel generalizing s dins data used off p with
  | zero =>
    obtain rfl : p = [] := List.eq_nil_of_length_eq_zero (Nat.le_zero.1 hfuel)
    rw [if_pos (hoff ▸ h.laid.limit inum)]
    exact ⟨s, dins inum, rfl, h.append_nil hused, fun b _ => rfl⟩
  | succ fuel ih =>
    unfold appendBlocks
    rcases eq_or_ne p [] with rfl | hp
    · rw [if_pos (hoff ▸ h.laid.limit inum)]
      exact ⟨s, dins inum, if_pos rfl, h.append_nil hused, fun b _ => rfl⟩
    have hpos : 0 < p.length := List.length_pos_iff.2 hp
    have hB : BSIZE = 4096 := rfl
    have hlimit : off ≤ LIMIT * BSIZE := hoff ▸ h.laid.limit inum
    rw [if_neg hp]
    dsimp only
    rcases Nat.lt_or_ge (off / BSIZE) LIMIT with hfbn | hfbn
    · -- One block is written, the rest in the rounds that follow.
      have hmax : off / BSIZE < MAXFILE := Nat.lt_of_lt_of_le hfbn (by decide)
      obtain ⟨s₁, din, hblock, hfiles, hlow⟩ := block_spec h inum hfbn
      rw [if_pos hmax, hblock]
      dsimp only
      have hlo : off / BSIZE * BSIZE ≤ off := Nat.div_mul_le_self _ _
      have hhi : off < (off / BSIZE + 1) * BSIZE := by rw [hB]; omega
      generalize off / BSIZE = fbn at hfbn hfiles hlo hhi ⊢
      generalize hn : min p.length ((fbn + 1) * BSIZE - off) = n
      have hself : Function.update dins inum din inum = din := Function.update_self ..
      have hmem : .block fbn ∈ Function.update used inum (need fbn ∪ used inum) inum := by
        rw [Function.update_self]
        refine Finset.mem_union_left _ ?_
        unfold need
        split <;> simp
      have hwrite := hfiles.write hfbn hmem p (n := n) hoff hlo (by omega) (by omega)
      rw [hself] at hwrite
      have hused' : Function.update used inum (need fbn ∪ used inum) inum = pieces (off + n) := by
        rw [Function.update_self, hused, pieces_grow (by omega) hlo (by omega)]
      have hlen : off + n = (Function.update data inum (data inum ++ p.take n) inum).length := by
        rw [Function.update_self, List.length_append, List.length_take, ← hoff, Nat.min_eq_left (by omega)]
      have hdrop : (p.drop n).length ≤ fuel := by
        rw [List.length_drop]
        omega
      have hrest := ih hwrite hlen hused' hdrop
      have hend : off + n + (p.drop n).length = off + p.length := by
        rw [List.length_drop]
        omega
      simp only [hself, Function.update_self, Function.update_idem, List.append_assoc,
        List.take_append_drop, hend] at hrest
      split
      · next hfits =>
        rw [if_pos hfits] at hrest
        obtain ⟨s', din', hr, hfiles', hlow'⟩ := hrest
        refine ⟨s', din', hr, hfiles', fun b hb => ?_⟩
        rw [hlow' b hb, ← hlow b hb]
        refine Function.update_of_ne (Nat.ne_of_lt (Nat.lt_of_lt_of_le hb ?_)) _ _
        have hplace := (hfiles.present inum (.block fbn) hfbn).2 hmem
        rw [← hself]
        exact (hfiles.laid.range inum (.block fbn) hfbn hplace).1
      · next hfits =>
        rwa [if_neg hfits] at hrest
    · -- The table has no entry for the block.
      have hfbn' : off / BSIZE = LIMIT := by
        rw [hB] at hlimit hfbn ⊢
        omega
      have hfull : ¬ off + p.length ≤ LIMIT * BSIZE := by
        rw [hB] at hlimit hfbn ⊢
        omega
      have hlt : LIMIT < MAXFILE := by decide
      rw [if_neg hfull, hfbn', if_pos hlt]
      have hblock : s.block (dins inum) LIMIT = .error "indirect[]" := rfl
      rw [hblock]
      exact ⟨_, rfl⟩

end Calls

/-! ## The image -/

/-- **What has been built**: the inodes tell where the files are, and how long they are. -/
structure Built (s : State) (data : Fin NINODES → List UInt8) : Prop where
  files : Files s (fun i => dinodeAt s.disk i) data (fun i => pieces (data i).length)
  size : ∀ i : Fin NINODES, (dinodeAt s.disk i).size = (data i).length

theorem addrs_setSize (din : Dinode) (v : ℕ) : (din.setSize v).addrs = din.addrs := by
  funext k
  unfold Dinode.setSize Dinode.addrs
  exact Function.update_of_ne (by omega) _ _

theorem Dinode.Sound.setSize {din : Dinode} (h : din.Sound) {v : ℕ} (hv : v < 2 ^ 32) :
    (din.setSize v).Sound := by
  refine ⟨fun w hw => ?_, fun w hw => ?_, by rw [addrs_setSize]; exact h.double⟩
  · unfold Dinode.setSize
    rw [Function.update_apply]
    split
    · exact hv
    · exact h.word w hw
  · unfold Dinode.setSize
    rw [Function.update_of_ne]
    · exact h.out w hw
    · have hW : DINODE_WORDS = 16 := rfl
      omega

/-- The inode is written at the end of the call. -/
theorem Built.winode {s s' : State} {data : Fin NINODES → List UInt8} {inum : Fin NINODES} {din : Dinode}
    {bytes : List UInt8} (h : Built s data) (hlow : ∀ b < nmeta, s'.disk b = s.disk b)
    (hfiles : Files s' (Function.update (fun i : Fin NINODES => dinodeAt s.disk i) inum din)
      (Function.update data inum bytes)
      (Function.update (fun i => pieces (data i).length) inum (pieces bytes.length))) :
    Built (s'.winode inum (din.setSize bytes.length)) (Function.update data inum bytes) := by
  have hself : Function.update (fun i : Fin NINODES => dinodeAt s.disk i) inum din inum = din :=
    Function.update_self ..
  have hlen : bytes.length ≤ LIMIT * BSIZE := by
    have := hfiles.laid.limit inum
    rwa [Function.update_self] at this
  have hsound : (din.setSize bytes.length).Sound := by
    have hdin := hfiles.sound inum
    rw [hself] at hdin
    exact hdin.setSize (Nat.lt_of_le_of_lt hlen (by decide))
  -- The inodes lie before the blocks of the files.
  have hmeta : ∀ i : Fin NINODES, IBLOCK i < nmeta := fun i => (IBLOCK_lt i).trans bmapstart_lt
  -- Only this inode has changed.
  have hdin : ∀ i : Fin NINODES, dinodeAt (s'.winode inum (din.setSize bytes.length)).disk i =
      if i = inum then din.setSize bytes.length else dinodeAt s.disk i := by
    intro i
    rw [dinodeAt_winode s' inum i hsound.word hsound.out]
    refine if_congr Iff.rfl rfl ?_
    unfold dinodeAt
    rw [hlow _ (hmeta i)]
  -- The pieces of the file are those of its new length.
  have hused : Function.update (fun i => pieces (data i).length) inum (pieces bytes.length) =
      fun i => pieces (Function.update data inum bytes i).length := by
    funext i
    rcases eq_or_ne i inum with rfl | hi
    · rw [Function.update_self, Function.update_self]
    · rw [Function.update_of_ne hi, Function.update_of_ne hi]
  refine ⟨?_, fun i => ?_⟩
  · rw [hused] at hfiles
    refine hfiles.congr rfl (fun b hb => ?_) (fun i => ?_) (fun i => ?_)
    · exact Function.update_of_ne (Nat.ne_of_gt (Nat.lt_of_lt_of_le (hmeta inum) hb)) _ _
    · rw [hdin]
      rcases eq_or_ne i inum with rfl | hi
      · rw [if_pos rfl, addrs_setSize, Function.update_self]
      · rw [if_neg hi, Function.update_of_ne hi]
    · rw [hdin]
      split
      · exact hsound
      · exact h.files.sound i
  · rw [hdin]
    rcases eq_or_ne i inum with rfl | hi
    · rw [if_pos rfl, Function.update_self]
      exact Function.update_self 2 _ din
    · rw [if_neg hi, Function.update_of_ne hi]
      exact h.size i

/-- **A call of `iappend`** appends its bytes, if they are in the range of the table, and else goes beyond
    the table. -/
theorem iappend_spec {s : State} {data : Fin NINODES → List UInt8} (h : Built s data) (inum : Fin NINODES)
    (p : List UInt8) :
    if (data inum ++ p).length ≤ LIMIT * BSIZE then
      ∃ s', iappend s inum p = .ok s' ∧ Built s' (Function.update data inum (data inum ++ p))
    else ∃ e, iappend s inum p = .error e := by
  have hloop := appendBlocks_spec p.length h.files (h.size inum) (by rw [h.size inum]) (le_refl _)
  have hsum : (dinodeAt s.disk inum).size + p.length = (data inum ++ p).length := by
    rw [h.size inum, List.length_append]
  rw [hsum] at hloop
  unfold iappend State.rinode
  dsimp only
  split
  · next hfits =>
    rw [if_pos hfits] at hloop
    obtain ⟨s', din, hr, hfiles, hlow⟩ := hloop
    rw [hr]
    exact ⟨_, rfl, h.winode hlow hfiles⟩
  · next hfits =>
    rw [if_neg hfits] at hloop
    obtain ⟨e, hr⟩ := hloop
    rw [hr]
    exact ⟨e, rfl⟩

/-- The bytes that calls append to a file -/
def written (calls : List (Fin NINODES × List UInt8)) (inum : Fin NINODES) : List UInt8 :=
  (calls.filter fun c => c.1 = inum).flatMap Prod.snd

theorem written_cons (inum inum' : Fin NINODES) (p : List UInt8) (calls : List (Fin NINODES × List UInt8)) :
    written ((inum, p) :: calls) inum' = if inum' = inum then p ++ written calls inum' else written calls inum' := by
  unfold written
  by_cases h : inum' = inum
  · rw [if_pos h, List.filter_cons_of_pos (by simp [h]), List.flatMap_cons]
  · rw [if_neg h, List.filter_cons_of_neg (by simpa using Ne.symm h)]

theorem update_append_written (data : Fin NINODES → List UInt8) (inum i : Fin NINODES) (p : List UInt8)
    (calls : List (Fin NINODES × List UInt8)) :
    Function.update data inum (data inum ++ p) i ++ written calls i =
      data i ++ written ((inum, p) :: calls) i := by
  rw [written_cons]
  rcases eq_or_ne i inum with rfl | hi
  · rw [Function.update_self, if_pos rfl, List.append_assoc]
  · rw [Function.update_of_ne hi, if_neg hi]

/-- **The calls of `iappend`**, up to `balloc` at the end -/
theorem build_spec (calls : List (Fin NINODES × List UInt8)) {s : State} {data : Fin NINODES → List UInt8}
    (h : Built s data) :
    ((∀ i, (data i ++ written calls i).length ≤ LIMIT * BSIZE) →
        ∃ s', build s calls = balloc s' ∧ Built s' (fun i => data i ++ written calls i)) ∧
      ((∃ i, LIMIT * BSIZE < (data i ++ written calls i).length) → ∃ e, build s calls = .error e) := by
  induction calls generalizing s data with
  | nil =>
    have hnil : ∀ i, data i ++ written [] i = data i := fun i => List.append_nil _
    simp only [hnil]
    refine ⟨fun _ => ⟨s, rfl, h⟩, fun ⟨i, hi⟩ => ?_⟩
    exact absurd (h.files.laid.limit i) (Nat.not_le.2 hi)
  | cons c calls ih =>
    obtain ⟨inum, p⟩ := c
    have hcall := iappend_spec h inum p
    unfold build
    by_cases hfits : (data inum ++ p).length ≤ LIMIT * BSIZE
    · rw [if_pos hfits] at hcall
      obtain ⟨s₁, hr, hbuilt⟩ := hcall
      rw [hr]
      have hrest := ih hbuilt
      simp only [update_append_written] at hrest
      exact hrest
    · rw [if_neg hfits] at hcall
      obtain ⟨e, hr⟩ := hcall
      rw [hr]
      refine ⟨fun hall => absurd ?_ hfits, fun _ => ⟨e, rfl⟩⟩
      have := hall inum
      rw [written_cons, if_pos rfl, ← List.append_assoc, List.length_append] at this
      omega

/-- Before the calls nothing has been built. -/
theorem Formatted.built (f : Formatted) : Built f.state fun _ => [] := by
  have hplace : ∀ (i : Fin NINODES) c, place f.state.disk (dinodeAt f.state.disk i) c = 0 := by
    intro i c
    have haddrs : ∀ k, (dinodeAt f.state.disk i).addrs k = 0 := f.addrs i
    cases c with
    | indirect => exact haddrs _
    | block fbn => simp [place, haddrs]
  have hnone : pieces 0 = ∅ := rfl
  refine ⟨⟨⟨?_, ?_, ?_, ?_, ?_⟩, fun i => ⟨?_, ?_, f.addrs i _⟩, ?_, ?_, ?_⟩, f.size⟩
  · exact fun i c i' c' _ _ hne => absurd (hplace i c) hne
  · exact fun i c _ hne => absurd (hplace i c) hne
  · rw [f.free]
    exact f.zero
  · exact fun i => Nat.zero_le _
  · exact fun i k hk => absurd hk (Nat.not_lt_zero k)
  · intro w hw
    unfold dinodeAt
    rw [if_pos hw]
    exact ByteBlock.word_lt _ _
  · exact fun w hw => if_neg (Nat.not_lt.2 hw)
  · exact fun i c hc => absurd hc (Finset.notMem_empty c)
  · exact fun i c _ => iff_of_false (not_not.2 (hplace i c)) (Finset.notMem_empty c)
  · rw [f.free, Finset.sum_eq_zero, Nat.add_zero]
    exact fun i _ => rfl

end Xv6.Mkfs
