import Mathlib

/-!
# The Blocks of a File

`bmap` follows the table of an inode to the block with a number, and allocates what is missing on the way.
The blocks that `balloc` finds, if any, are arbitrary: other processes allocate and free blocks in between.

Where `balloc` finds no block for a table of the second layer, the loop of `bmap` goes on with the address
0, and takes the boot block for the table.

- `Step`: what looking up one pointer does, and `Step.trans`: what several do;
- `bmap_layers`: the pointers that `bmap` looks up;
- `bmap_right_iff`: the calls that do what they should.
-/

namespace Xv6.Kernel.Bmap

/-! ## The disk -/

def TOTBUF : ℕ := 13
def INDIR_LAYERS : ℕ := 2
def NDIRECT : ℕ := TOTBUF - INDIR_LAYERS
def NINDIRECT : ℕ := 1024

/-- `BPB` -/
def BPB : ℕ := 4096 * 8

/-- What happens on the way -/
inductive Event where
  /-- `bread` of a table -/
  | table (b : ℕ)
  | logWrite (b : ℕ)
  /-- `balloc` returns this block. -/
  | alloc (b : ℕ)
  /-- `balloc` returns 0. -/
  | fail
  deriving DecidableEq

/-- An inode that is locked, and the disk that it is on -/
structure State where
  /-- `sb.size` -/
  size : ℕ
  /-- `sb.bmapstart` -/
  bmapstart : ℕ
  /-- `ip->addrs[]` -/
  addrs : ℕ → ℕ
  /-- The blocks as arrays of `uint` -/
  disk : ℕ → ℕ → ℕ
  /-- The blocks that no other process frees: the boot block and those of the inode -/
  used : ℕ → Bool
  /-- The block that a call of `balloc` comes upon, if it is free then -/
  pick : ℕ → ℕ
  /-- How often `balloc` has been called -/
  calls : ℕ
  log : List Event

namespace State

variable (s : State)

def addLog (e : Event) : State := { s with log := s.log ++ [e] }

/-- `a[i] = v` in the block `b` -/
def setWord (b i v : ℕ) : State :=
  { s with disk := Function.update s.disk b (Function.update (s.disk b) i v) }

def setAddr (i v : ℕ) : State := { s with addrs := Function.update s.addrs i v }

/-- `BBLOCK(b, sb)` -/
def bblock (b : ℕ) : ℕ := b / BPB + s.bmapstart

/-- `balloc(dev)` -/
def balloc : ℕ × State :=
  let b := s.pick s.calls
  let s := { s with calls := s.calls + 1 }
  if b < s.size ∧ s.used b = false then
    let s := { s with used := Function.update s.used b true }.addLog (.logWrite (s.bblock b))
    -- `bzero`
    let s := { s with disk := Function.update s.disk b fun _ => 0 }.addLog (.logWrite b)
    (b, s.addLog (.alloc b))
  else (0, s.addLog .fail)

/-- `ip->addrs[i]`, which is allocated if it is 0 -/
def root (i : ℕ) : ℕ × State :=
  if s.addrs i = 0 then
    let (b, s) := s.balloc
    if b = 0 then (0, s) else (b, s.setAddr i b)
  else (s.addrs i, s)

/-- One round of the loop over the layers of tables: the entry of the table, which is allocated if it is
    0 -/
def entry (addr idx : ℕ) : ℕ × State :=
  let s := s.addLog (.table addr)
  if s.disk addr idx = 0 then
    let (b, s) := s.balloc
    if b ≠ 0 then (b, (s.setWord addr idx b).addLog (.logWrite addr)) else (0, s)
  else (s.disk addr idx, s)

/-- The inner loop of `bmap`, this many rounds of it -/
def walk : ℕ → State → ℕ → ℕ → ℕ → ℕ × State
  | 0, s, _, _, addr => (addr, s)
  | j + 1, s, bn, prevBase, addr =>
    let (addr, s) := s.entry addr (bn / prevBase)
    walk j s (bn % prevBase) (prevBase / NINDIRECT) addr

/-- The outer loop of `bmap`, this many rounds of it -/
def layers (s : State) : ℕ → ℕ → ℕ → ℕ → ℕ → Except String (ℕ × State)
  | 0, _, _, _, _ => .error "bmap: out of range"
  | k + 1, inLayer, base, prevBase, bn =>
    if bn < base then
      let (addr, s) := s.root (NDIRECT + inLayer)
      if addr = 0 then .ok (0, s) else .ok (s.walk (inLayer + 1) bn prevBase addr)
    else layers s k (inLayer + 1) (base * NINDIRECT) base (bn - base)

/-- `bmap(ip, bn)` -/
def bmap (bn : ℕ) : Except String (ℕ × State) :=
  if bn < NDIRECT then .ok (s.root bn)
  else s.layers INDIR_LAYERS 0 NINDIRECT 1 (bn - NDIRECT)

end State

/-! ## The tree of an inode -/

/-- A pointer of the tree -/
inductive Slot where
  /-- In the inode -/
  | root (i : ℕ)
  /-- In the table of the first layer, to data -/
  | single (j : ℕ)
  /-- In the upper table of the second layer, to a table -/
  | leaf (i : ℕ)
  /-- In a lower table of the second layer, to data -/
  | double (i j : ℕ)
  deriving DecidableEq

/-- The pointer is one of the arrays. -/
def Slot.Valid : Slot → Prop
  | .root i => i < TOTBUF
  | .single j => j < NINDIRECT
  | .leaf i => i < NINDIRECT
  | .double i j => i < NINDIRECT ∧ j < NINDIRECT

namespace State

variable (s : State)

/-- The entry of a table, 0 if there is no table -/
def word (b i : ℕ) : ℕ := if b = 0 then 0 else s.disk b i

/-- What a pointer of the tree is -/
def ptr : Slot → ℕ
  | .root i => s.addrs i
  | .single j => s.word (s.addrs NDIRECT) j
  | .leaf i => s.word (s.addrs (NDIRECT + 1)) i
  | .double i j => s.word (s.word (s.addrs (NDIRECT + 1)) i) j

/-- The block belongs to the inode. -/
def Attached (b : ℕ) : Prop := ∃ slot : Slot, slot.Valid ∧ s.ptr slot = b

/-- The bitmap marks the blocks of the inode, and the boot block; the bitmap itself is behind it. -/
structure Consistent : Prop where
  boot : s.used 0 = true
  ptr : ∀ slot, s.used (s.ptr slot) = true
  bitmap : 0 < s.bmapstart

end State

/-- An inode of a consistent file system, before the call -/
structure Image where
  state : State
  consistent : state.Consistent
  log : state.log = []

/-- The pointer to the block with a number -/
def slotOf (bn : ℕ) : Slot :=
  if bn < NDIRECT then .root bn
  else if bn - NDIRECT < NINDIRECT then .single (bn - NDIRECT)
  else .double ((bn - NDIRECT - NINDIRECT) / NINDIRECT) ((bn - NDIRECT - NINDIRECT) % NINDIRECT)

/-- The pointers on the way to the block with a number -/
def slotPath (bn : ℕ) : Finset Slot :=
  if bn < NDIRECT then {.root bn}
  else if bn - NDIRECT < NINDIRECT then {.root NDIRECT, .single (bn - NDIRECT)}
  else
    {.root (NDIRECT + 1), .leaf ((bn - NDIRECT - NINDIRECT) / NINDIRECT),
      .double ((bn - NDIRECT - NINDIRECT) / NINDIRECT) ((bn - NDIRECT - NINDIRECT) % NINDIRECT)}

/-- The numbers for which `bmap` has a pointer end here. -/
def MAXBN : ℕ := NDIRECT + NINDIRECT + NINDIRECT * NINDIRECT

/-- The boot block is not taken for a table, and not written. -/
def Event.Sound : Event → Prop
  | .table b => b ≠ 0
  | .logWrite b => b ≠ 0
  | _ => True

/-- **The block is mapped**: where `balloc` has failed the result is 0, the boot block is left alone, all
    blocks that have been allocated belong to the inode, and the result, if it is a block, is the one with
    this number. -/
def Mapped (bn : ℕ) (r : Except String (ℕ × State)) : Prop :=
  ∃ addr s, r = .ok (addr, s) ∧ (.fail ∈ s.log → addr = 0) ∧ (∀ e ∈ s.log, e.Sound) ∧
    (∀ b, .alloc b ∈ s.log → s.Attached b) ∧ (addr ≠ 0 → s.ptr (slotOf bn) = addr)

/-- `balloc` finds no block for the table of the second layer that this block is in. -/
def LeafFails (s : State) (bn : ℕ) : Prop :=
  NDIRECT + NINDIRECT ≤ bn ∧
    let (top, s) := s.root (NDIRECT + 1)
    top ≠ 0 ∧ s.disk top ((bn - NDIRECT - NINDIRECT) / NINDIRECT) = 0 ∧
      (s.addLog (.table top)).balloc.1 = 0

/-! ## The growth of the tree -/

/-- The pointers that are there stay. -/
def Extends (s s' : State) : Prop := ∀ slot, s.ptr slot ≠ 0 → s'.ptr slot = s.ptr slot

theorem Extends.trans {s s₁ s₂ : State} (h₁ : Extends s s₁) (h₂ : Extends s₁ s₂) : Extends s s₂ := by
  intro slot hslot
  have h := h₁ slot hslot
  rw [← h]
  exact h₂ slot (h ▸ hslot)

theorem State.Attached.mono {s s' : State} {b : ℕ} (hb : b ≠ 0) (hext : Extends s s')
    (h : s.Attached b) : s'.Attached b := by
  obtain ⟨slot, hvalid, hptr⟩ := h
  exact ⟨slot, hvalid, by rw [hext slot (hptr ▸ hb), hptr]⟩

/-- A block of the bitmap, or one that a pointer of the path leads to -/
def State.Written (s : State) (path : Finset Slot) (b : ℕ) : Prop :=
  (∃ c < s.size, b = s.bblock c) ∨ b ≠ 0 ∧ ∃ slot ∈ path, s.ptr slot = b

theorem State.Written.mono {s s' : State} {path path' : Finset Slot} {b : ℕ} (hext : Extends s s')
    (hsize : s'.size = s.size) (hmap : s'.bmapstart = s.bmapstart) (hpath : path ⊆ path')
    (h : s.Written path b) : s'.Written path' b := by
  rcases h with ⟨c, hc, hb⟩ | ⟨hb, slot, hslot, hptr⟩
  · refine .inl ⟨c, hsize ▸ hc, ?_⟩
    unfold State.bblock at hb ⊢
    rw [hmap, hb]
  · exact .inr ⟨hb, slot, hpath hslot, by rw [hext slot (hptr ▸ hb), hptr]⟩

/-- What looking up pointers of a path does: the last one is `slot`, and `a` is what was found. -/
structure Step (path : Finset Slot) (s s' : State) (slot : Slot) (a : ℕ) : Prop where
  ext : Extends s s'
  consistent : s'.Consistent
  size : s'.size = s.size
  bitmap : s'.bmapstart = s.bmapstart
  found : a ≠ 0 → s'.ptr slot = a
  log : ∃ evs, s'.log = s.log ++ evs ∧ (∀ e ∈ evs, e.Sound) ∧ (.fail ∈ evs → a = 0) ∧
    (∀ b, .alloc b ∈ evs → b ≠ 0 ∧ s'.Attached b) ∧ ∀ b, .logWrite b ∈ evs → s'.Written path b

/-- **Step after step**: as long as the blocks are found, the lookups do together what each one does. -/
theorem Step.trans {path : Finset Slot} {s s₁ s₂ : State} {slot slot' : Slot} {a c : ℕ} (ha : a ≠ 0)
    (h₁ : Step path s s₁ slot a) (h₂ : Step path s₁ s₂ slot' c) : Step path s s₂ slot' c := by
  obtain ⟨evs₁, hlog₁, hsound₁, hfail₁, halloc₁, hwrite₁⟩ := h₁.log
  obtain ⟨evs₂, hlog₂, hsound₂, hfail₂, halloc₂, hwrite₂⟩ := h₂.log
  refine ⟨h₁.ext.trans h₂.ext, h₂.consistent, h₂.size.trans h₁.size, h₂.bitmap.trans h₁.bitmap, h₂.found,
    evs₁ ++ evs₂, ?_, ?_, ?_, ?_, ?_⟩
  · rw [hlog₂, hlog₁, List.append_assoc]
  · intro e he
    exact (List.mem_append.1 he).elim (hsound₁ e) (hsound₂ e)
  · intro h
    rcases List.mem_append.1 h with h | h
    · exact absurd (hfail₁ h) ha
    · exact hfail₂ h
  · intro b h
    rcases List.mem_append.1 h with h | h
    · obtain ⟨hb, hatt⟩ := halloc₁ b h
      exact ⟨hb, hatt.mono hb h₂.ext⟩
    · exact halloc₂ b h
  · intro b h
    rcases List.mem_append.1 h with h | h
    · exact (hwrite₁ b h).mono h₂.ext h₂.size h₂.bitmap (Finset.Subset.refl _)
    · exact hwrite₂ b h

/-- The block `b` has been hung into the tree. -/
structure Grown (s s' : State) (b : ℕ) : Prop where
  ptr : ∀ slot, s'.ptr slot = s.ptr slot ∨ s.ptr slot = 0 ∧ s'.ptr slot = b
  used : s'.used = Function.update s.used b true
  bitmap : s'.bmapstart = s.bmapstart

theorem Grown.extends {s s' : State} {b : ℕ} (h : Grown s s' b) : Extends s s' :=
  fun slot hslot => (h.ptr slot).resolve_right fun hz => hslot hz.1

theorem Grown.consistent {s s' : State} {b : ℕ} (h : Grown s s' b) (hs : s.Consistent) :
    s'.Consistent := by
  refine ⟨?_, fun slot => ?_, h.bitmap ▸ hs.bitmap⟩
  · rw [h.used, Function.update_apply]
    split
    · rfl
    · exact hs.boot
  · rw [h.used, Function.update_apply]
    rcases h.ptr slot with hp | ⟨-, hp⟩
    · rw [hp]
      split
      · rfl
      · exact hs.ptr slot
    · rw [if_pos hp]

/-! ## One pointer -/

theorem ptr_congr {s s' : State} (haddrs : s'.addrs = s.addrs) (hdisk : s'.disk = s.disk) (slot : Slot) :
    s'.ptr slot = s.ptr slot := by
  cases slot <;> simp [State.ptr, State.word, haddrs, hdisk]

/-- The state after `balloc` has found the block `b` -/
def State.allocated (s : State) (b : ℕ) : State :=
  { s with
    calls := s.calls + 1
    used := Function.update s.used b true
    disk := Function.update s.disk b fun _ => 0
    log := s.log ++ [.logWrite (s.bblock b), .logWrite b, .alloc b] }

/-- The state after `balloc` has found none -/
def State.failed (s : State) : State := { s with calls := s.calls + 1, log := s.log ++ [.fail] }

/-- What `balloc` does -/
theorem balloc_spec (s : State) (hboot : s.used 0 = true) :
    s.balloc = (0, s.failed) ∨
      ∃ b, b ≠ 0 ∧ b < s.size ∧ s.used b = false ∧ s.balloc = (b, s.allocated b) := by
  unfold State.balloc
  dsimp only
  split
  · next h =>
    refine .inr ⟨s.pick s.calls, fun heq => ?_, h.1, h.2, ?_⟩
    · rw [heq, hboot] at h
      cases h.2
    · simp [State.allocated, State.addLog, State.bblock]
  · exact .inl rfl

/-- A new block is no table of the tree. -/
theorem State.Consistent.ptr_ne {s : State} (hs : s.Consistent) {b : ℕ} (hb : s.used b = false)
    (slot : Slot) : s.ptr slot ≠ b := by
  intro h
  have := hs.ptr slot
  rw [h, hb] at this
  cases this

/-- A new block does not change the tables of the others. -/
theorem allocated_word {s : State} {b t : ℕ} (ht : t ≠ b) (i : ℕ) :
    (s.allocated b).word t i = s.word t i := by
  unfold State.word State.allocated
  dsimp only
  rw [Function.update_of_ne ht]

/-- The new block is empty. -/
theorem allocated_word_self (s : State) (b i : ℕ) : (s.allocated b).word b i = 0 := by
  unfold State.word State.allocated
  dsimp only
  rw [Function.update_self, ite_self]

/-- The events of finding a block for a pointer, and of writing the table that it is in, are sound. -/
theorem alloc_events {path : Finset Slot} {s : State} (s' : State) (slot : Slot) {b : ℕ} (hs : s.Consistent)
    (hsize : s'.size = s.size) (hmap : s'.bmapstart = s.bmapstart) (hb : b ≠ 0) (hlt : b < s.size)
    (hvalid : slot.Valid) (hslot : slot ∈ path) (hfound : s'.ptr slot = b) {rest : List Event}
    (hrest : ∀ e ∈ rest, ∃ t, t ≠ 0 ∧ s'.Written path t ∧ e = .logWrite t) :
    let evs := [.logWrite (s.bblock b), .logWrite b, .alloc b] ++ rest
    (∀ e ∈ evs, e.Sound) ∧ .fail ∉ evs ∧ (∀ c, .alloc c ∈ evs → c ≠ 0 ∧ s'.Attached c) ∧
      ∀ c, .logWrite c ∈ evs → s'.Written path c := by
  have hblock : s.bblock b ≠ 0 := Nat.ne_of_gt (Nat.lt_of_lt_of_le hs.bitmap (Nat.le_add_left _ _))
  -- the three events of the new block come first, then those of its table
  refine ⟨fun e he => ?_, fun hfail => ?_, fun c hc => ?_, fun c hc => ?_⟩
  · simp only [List.cons_append, List.nil_append, List.mem_cons] at he
    rcases he with rfl | rfl | rfl | he
    · exact hblock
    · exact hb
    · exact trivial
    · obtain ⟨t, ht, -, rfl⟩ := hrest e he
      exact ht
  · simp only [List.cons_append, List.nil_append, List.mem_cons, reduceCtorEq, false_or] at hfail
    obtain ⟨t, -, -, h⟩ := hrest _ hfail
    cases h
  · simp only [List.cons_append, List.nil_append, List.mem_cons, reduceCtorEq, false_or,
      Event.alloc.injEq] at hc
    rcases hc with rfl | hc
    · exact ⟨hb, slot, hvalid, hfound⟩
    · obtain ⟨t, -, -, h⟩ := hrest _ hc
      cases h
  · simp only [List.cons_append, List.nil_append, List.mem_cons, reduceCtorEq, false_or,
      Event.logWrite.injEq] at hc
    rcases hc with rfl | rfl | hc
    · refine .inl ⟨b, hsize ▸ hlt, ?_⟩
      unfold State.bblock
      rw [hmap]
    · exact .inr ⟨hb, slot, hslot, hfound⟩
    · obtain ⟨t, -, ht, h⟩ := hrest _ hc
      rw [Event.logWrite.inj h]
      exact ht

/-- Nothing has been looked up. -/
theorem Step.fail {path : Finset Slot} {s s' : State} {slot : Slot} (hs : s.Consistent)
    (haddrs : s'.addrs = s.addrs) (hdisk : s'.disk = s.disk) (hused : s'.used = s.used)
    (hsize : s'.size = s.size) (hmap : s'.bmapstart = s.bmapstart) {evs : List Event}
    (hlog : s'.log = s.log ++ evs) (hsound : ∀ e ∈ evs, e.Sound) (halloc : ∀ b, .alloc b ∉ evs)
    (hwrite : ∀ b, .logWrite b ∉ evs) : Step path s s' slot 0 where
  ext slot _ := ptr_congr haddrs hdisk slot
  consistent := by
    refine ⟨hused ▸ hs.boot, fun slot => ?_, hmap ▸ hs.bitmap⟩
    rw [ptr_congr haddrs hdisk slot, hused]
    exact hs.ptr slot
  size := hsize
  bitmap := hmap
  found h := absurd rfl h
  log := ⟨evs, hlog, hsound, fun _ => rfl, fun b hb => absurd hb (halloc b),
    fun b hb => absurd hb (hwrite b)⟩

/-- **Step at the inode**: `ip->addrs[i]` is looked up. -/
theorem root_step (path : Finset Slot) {s : State} (hs : s.Consistent) {i : ℕ} (hi : i < TOTBUF)
    (hpath : .root i ∈ path) : Step path s (s.root i).2 (.root i) (s.root i).1 := by
  unfold State.root
  split
  · next hnull =>
    rcases balloc_spec s hs.boot with h | ⟨b, hb, hlt, hfree, h⟩
    · rw [h]
      exact Step.fail hs rfl rfl rfl rfl rfl rfl (by simp [Event.Sound]) (by simp) (by simp)
    · rw [h]
      dsimp only
      rw [if_neg hb]
      have hword : ∀ t k, t ≠ b → ((s.allocated b).setAddr i b).word t k = s.word t k :=
        fun t k ht => allocated_word ht k
      have hself : ∀ k, ((s.allocated b).setAddr i b).word b k = 0 := allocated_word_self s b
      have haddrs : ∀ k, ((s.allocated b).setAddr i b).addrs k = if k = i then b else s.addrs k :=
        fun k => Function.update_apply ..
      have hzero : ∀ k, s.word 0 k = 0 := fun k => if_pos rfl
      -- A pointer in the inode that is the new one has a table without entries.
      have htop : ∀ k j, ((s.allocated b).setAddr i b).word (((s.allocated b).setAddr i b).addrs k) j =
          s.word (s.addrs k) j := by
        intro k j
        rw [haddrs]
        split
        · next hk => rw [hk, hnull, hself, hzero]
        · exact hword _ _ (hs.ptr_ne hfree (.root k))
      have hptr : ∀ slot, ((s.allocated b).setAddr i b).ptr slot =
          if slot = .root i then b else s.ptr slot := by
        intro slot
        cases slot with
        | root k => simp only [State.ptr, haddrs, Slot.root.injEq]
        | single j => simpa only [State.ptr, reduceCtorEq, if_false] using htop NDIRECT j
        | leaf j => simpa only [State.ptr, reduceCtorEq, if_false] using htop (NDIRECT + 1) j
        | double j k =>
          simp only [State.ptr, reduceCtorEq, if_false]
          rw [htop]
          exact hword _ _ (hs.ptr_ne hfree (.leaf j))
      have hfound : ((s.allocated b).setAddr i b).ptr (.root i) = b := by rw [hptr, if_pos rfl]
      have hgrown : Grown s ((s.allocated b).setAddr i b) b := by
        refine ⟨fun slot => ?_, rfl, rfl⟩
        rw [hptr]
        split
        · next hslot => exact .inr ⟨by rw [hslot]; exact hnull, rfl⟩
        · exact .inl rfl
      obtain ⟨hsound, hfail, halloc, hwrite⟩ := alloc_events ((s.allocated b).setAddr i b) (.root i) hs rfl
        rfl hb hlt hi hpath hfound (fun e he => absurd he List.not_mem_nil)
      exact ⟨hgrown.extends, hgrown.consistent hs, rfl, rfl, fun _ => hfound, _, rfl, hsound,
        fun h => absurd h hfail, halloc, hwrite⟩
  · exact ⟨fun _ _ => rfl, hs, rfl, rfl, fun _ => rfl, [], (List.append_nil _).symm, by simp, by simp,
      by simp, by simp⟩

/-- The entry of a table is looked up. -/
inductive Entry : Slot → ℕ → Slot → Prop where
  | single (j : ℕ) : Entry (.root NDIRECT) j (.single j)
  | leaf (i : ℕ) : Entry (.root (NDIRECT + 1)) i (.leaf i)
  | double (i j : ℕ) : Entry (.leaf i) j (.double i j)

/-- The pointer to an entry is the word in the table. -/
theorem Entry.ptr {table slot : Slot} {idx : ℕ} (h : Entry table idx slot) (s : State) :
    s.ptr slot = s.word (s.ptr table) idx := by
  cases h <;> rfl

theorem Entry.valid {table slot : Slot} {idx : ℕ} (h : Entry table idx slot) (hidx : idx < NINDIRECT)
    (hvalid : table.Valid) : slot.Valid := by
  cases h with
  | single j => exact hidx
  | leaf i => exact hidx
  | double i j => exact ⟨hvalid, hidx⟩

/-- The state after the new block `b` has been written into the table `t` -/
def State.linked (s : State) (t idx b : ℕ) : State :=
  (((s.addLog (.table t)).allocated b).setWord t idx b).addLog (.logWrite t)

/-- The new block is the one entry that changes. -/
theorem linked_word {s : State} {t idx b x : ℕ} (ht : t ≠ 0) (hnull : s.disk t idx = 0) (hx : x ≠ b)
    (k : ℕ) : (s.linked t idx b).word x k = s.word x k ∨
      s.word x k = 0 ∧ (s.linked t idx b).word x k = b := by
  have hdisk : (s.linked t idx b).disk x k = if x = t ∧ k = idx then b else s.disk x k := by
    simp only [State.linked, State.addLog, State.setWord, State.allocated, Function.update_apply, hx,
      if_false]
    by_cases hxt : x = t
    · subst hxt
      simp only [Function.update_apply, hx, if_false, if_true, true_and]
    · simp only [hxt, if_false, false_and]
  unfold State.word
  rw [hdisk]
  by_cases hslot : x = t ∧ k = idx
  · obtain ⟨rfl, rfl⟩ := hslot
    simp only [ht, if_false, hnull, and_self, if_true, or_true]
  · simp only [hslot, if_false, true_or]

theorem linked_word_self {s : State} {t idx b : ℕ} (ht : t ≠ b) (k : ℕ) :
    (s.linked t idx b).word b k = 0 := by
  unfold State.word State.linked State.addLog State.setWord State.allocated
  dsimp only
  rw [Function.update_of_ne ht.symm, Function.update_self, ite_self]

/-- The tree after the new block has been written into one of its tables -/
theorem linked_grown {s : State} (hs : s.Consistent) {t idx b : ℕ} (ht : t ≠ 0) (htb : t ≠ b)
    (hnull : s.disk t idx = 0) (hfree : s.used b = false) : Grown s (s.linked t idx b) b := by
  refine ⟨fun slot => ?_, rfl, rfl⟩
  cases slot with
  | root k => exact .inl rfl
  | single j => exact linked_word ht hnull (hs.ptr_ne hfree (.root NDIRECT)) j
  | leaf i => exact linked_word ht hnull (hs.ptr_ne hfree (.root (NDIRECT + 1))) i
  | double i j =>
    change (s.linked t idx b).word ((s.linked t idx b).ptr (.leaf i)) j = s.word (s.ptr (.leaf i)) j ∨
      s.word (s.ptr (.leaf i)) j = 0 ∧ (s.linked t idx b).word ((s.linked t idx b).ptr (.leaf i)) j = b
    rcases linked_word ht hnull (hs.ptr_ne hfree (.root (NDIRECT + 1))) i with hleaf | ⟨hzero, hleaf⟩
    · rw [show (s.linked t idx b).ptr (.leaf i) = s.ptr (.leaf i) from hleaf]
      exact linked_word ht hnull (hs.ptr_ne hfree (.leaf i)) j
    · -- The table is the new block, which has no entries.
      rw [show (s.linked t idx b).ptr (.leaf i) = b from hleaf, linked_word_self htb,
        show s.ptr (.leaf i) = 0 from hzero]
      exact .inl (if_pos rfl).symm

/-- **Step at a table**: one of its entries is looked up. -/
theorem entry_step (path : Finset Slot) {s : State} (hs : s.Consistent) {table slot : Slot} {idx : ℕ}
    (he : Entry table idx slot) (hvalid : slot.Valid) (hpath : table ∈ path ∧ slot ∈ path)
    (ht : s.ptr table ≠ 0) :
    Step path s (s.entry (s.ptr table) idx).2 slot (s.entry (s.ptr table) idx).1 := by
  generalize htab : s.ptr table = t at ht
  unfold State.entry
  dsimp only
  change Step path s (if s.disk t idx = 0 then _ else _ : ℕ × State).2 slot
    (if s.disk t idx = 0 then _ else _ : ℕ × State).1
  have hword : s.ptr slot = s.disk t idx := by
    rw [he.ptr, htab]
    exact if_neg ht
  split
  -- the entry is empty: a block is allocated for it and the table is written
  · next hnull =>
    rcases balloc_spec (s.addLog (.table t)) hs.boot with h | ⟨b, hb, hlt, hfree, h⟩
    · rw [h]
      dsimp only
      rw [if_neg (not_not.2 rfl)]
      have hlog : (s.addLog (.table t)).failed.log = s.log ++ [.table t, .fail] := List.append_assoc ..
      refine Step.fail hs rfl rfl rfl rfl rfl hlog ?_ (by simp) (by simp)
      simpa [Event.Sound] using ht
    · rw [h]
      dsimp only
      rw [if_pos hb]
      change Step path s (s.linked t idx b) slot b
      have htb : t ≠ b := htab ▸ hs.ptr_ne hfree table
      have hgrown := linked_grown hs ht htb hnull hfree
      have htable : (s.linked t idx b).ptr table = t := by rw [hgrown.extends table (htab ▸ ht), htab]
      have hfound : (s.linked t idx b).ptr slot = b := by
        rw [he.ptr, htable]
        rcases linked_word ht hnull htb idx with h | ⟨-, h⟩
        · unfold State.word State.linked State.addLog State.setWord
          dsimp only
          rw [if_neg ht, Function.update_self, Function.update_self]
        · exact h
      obtain ⟨hsound, hfail, halloc, hwrite⟩ := alloc_events (s.linked t idx b) slot hs rfl rfl hb hlt hvalid
        hpath.2 hfound (fun e he => ⟨t, ht, .inr ⟨ht, table, hpath.1, htable⟩, List.mem_singleton.1 he⟩)
      refine ⟨hgrown.extends, hgrown.consistent hs, rfl, rfl, fun _ => hfound,
        .table t :: ([.logWrite (s.bblock b), .logWrite b, .alloc b] ++ [.logWrite t]), ?_, ?_, ?_, ?_, ?_⟩
      · simp [State.linked, State.addLog, State.setWord, State.allocated, State.bblock]
      · exact List.forall_mem_cons.2 ⟨ht, hsound⟩
      · exact fun h => absurd ((List.mem_cons.1 h).resolve_left (by simp)) hfail
      · exact fun c h => halloc c ((List.mem_cons.1 h).resolve_left (by simp))
      · exact fun c h => hwrite c ((List.mem_cons.1 h).resolve_left (by simp))
  · refine ⟨fun slot _ => ptr_congr rfl rfl slot, ⟨hs.boot, hs.ptr, hs.bitmap⟩, rfl, rfl, fun _ => hword,
      [.table t], rfl, ?_, by simp, by simp, by simp⟩
    simpa [Event.Sound] using ht

/-- An entry is not found where it is null and `balloc` finds no block. -/
theorem entry_eq_zero_iff (s : State) (t idx : ℕ) :
    (s.entry t idx).1 = 0 ↔ s.disk t idx = 0 ∧ (s.addLog (.table t)).balloc.1 = 0 := by
  unfold State.entry
  dsimp only
  change (if s.disk t idx = 0 then _ else _ : ℕ × State).1 = 0 ↔ _
  split
  · next h =>
    rw [and_iff_right h]
    split
    · rfl
    · next hb => exact (iff_true_right (not_not.1 hb)).2 rfl
  · next h => exact iff_of_false h fun h' => h h'.1

/-- The table is read, whatever is found. -/
theorem table_mem_entry (s : State) (t idx : ℕ) : .table t ∈ (s.entry t idx).2.log := by
  have hballoc : ∀ s : State, ∀ e ∈ s.log, e ∈ s.balloc.2.log := by
    intro s e he
    unfold State.balloc
    dsimp only
    split
    · simp only [State.addLog, List.mem_append]
      exact .inl (.inl (.inl he))
    · exact List.mem_append_left _ he
  have hmem : .table t ∈ (s.addLog (.table t)).log :=
    List.mem_append_right _ (List.mem_singleton.2 rfl)
  unfold State.entry
  dsimp only
  split
  · split
    · exact List.mem_append_left _ (hballoc _ _ hmem)
    · exact hballoc _ _ hmem
  · exact hmem

/-! ## The pointers on the way -/

theorem slotOf_direct {bn : ℕ} (h : bn < NDIRECT) : slotOf bn = .root bn := if_pos h

theorem slotOf_single {bn : ℕ} (h : NDIRECT ≤ bn) (h' : bn < NDIRECT + NINDIRECT) :
    slotOf bn = .single (bn - NDIRECT) := by
  unfold slotOf
  rw [if_neg (by omega), if_pos (by omega)]

theorem slotOf_double {bn : ℕ} (h : NDIRECT + NINDIRECT ≤ bn) :
    slotOf bn = .double ((bn - NDIRECT - NINDIRECT) / NINDIRECT) ((bn - NDIRECT - NINDIRECT) % NINDIRECT) := by
  unfold slotOf
  rw [if_neg (by omega), if_neg (by omega)]

theorem bmap_direct {s : State} {bn : ℕ} (h : bn < NDIRECT) : s.bmap bn = .ok (s.root bn) := if_pos h

/-- The block is in the first layer. -/
theorem bmap_single {s : State} {bn : ℕ} (h : NDIRECT ≤ bn) (h' : bn < NDIRECT + NINDIRECT) :
    s.bmap bn = .ok (if (s.root NDIRECT).1 = 0 then (0, (s.root NDIRECT).2)
      else (s.root NDIRECT).2.entry (s.root NDIRECT).1 (bn - NDIRECT)) := by
  unfold State.bmap
  rw [if_neg (by omega)]
  change State.layers s (1 + 1) 0 NINDIRECT 1 (bn - NDIRECT) = _
  unfold State.layers
  rw [if_pos (by omega)]
  simp only [State.walk, Nat.add_zero, Nat.div_one]
  split <;> rfl

/-- The block is in the second layer. -/
theorem bmap_double {s : State} {bn : ℕ} (h : NDIRECT + NINDIRECT ≤ bn) (h' : bn < MAXBN) :
    s.bmap bn = .ok (if (s.root (NDIRECT + 1)).1 = 0 then (0, (s.root (NDIRECT + 1)).2)
      else
        let leaf := (s.root (NDIRECT + 1)).2.entry (s.root (NDIRECT + 1)).1
          ((bn - NDIRECT - NINDIRECT) / NINDIRECT)
        leaf.2.entry leaf.1 ((bn - NDIRECT - NINDIRECT) % NINDIRECT)) := by
  have hrange : bn - NDIRECT - NINDIRECT < NINDIRECT * NINDIRECT := by
    unfold MAXBN at h'
    omega
  unfold State.bmap
  rw [if_neg (by omega)]
  change State.layers s (1 + 1) 0 NINDIRECT 1 (bn - NDIRECT) = _
  unfold State.layers
  rw [if_neg (by omega)]
  unfold State.layers
  rw [if_pos hrange]
  have hbase : NINDIRECT / NINDIRECT = 1 := rfl
  simp only [State.walk, Nat.zero_add, hbase, Nat.div_one]
  split <;> rfl

theorem bmap_out {s : State} {bn : ℕ} (h : MAXBN ≤ bn) : s.bmap bn = .error "bmap: out of range" := by
  unfold MAXBN at h
  unfold State.bmap
  rw [if_neg (by omega)]
  change State.layers s (0 + 1 + 1) 0 NINDIRECT 1 (bn - NDIRECT) = _
  unfold State.layers
  rw [if_neg (by omega)]
  unfold State.layers
  rw [if_neg (by omega)]
  rfl

/-! ## The calls -/

/-- What is looked up in one step is mapped. -/
theorem Step.mapped {path : Finset Slot} {img : Image} {s' : State} {bn addr : ℕ}
    (h : Step path img.state s' (slotOf bn) addr) : Mapped bn (.ok (addr, s')) := by
  obtain ⟨evs, hlog, hsound, hfail, halloc, -⟩ := h.log
  rw [img.log, List.nil_append] at hlog
  exact ⟨addr, s', rfl, hlog ▸ hfail, hlog ▸ hsound, fun b hb => (halloc b (hlog ▸ hb)).2, h.found⟩

/-- Nothing else is looked up where a table is not found. -/
theorem Step.stop {path : Finset Slot} {s s' : State} {slot slot' : Slot} (h : Step path s s' slot 0) :
    Step path s s' slot' 0 :=
  ⟨h.ext, h.consistent, h.size, h.bitmap, fun h => absurd rfl h, h.log⟩

/-- The block is looked up at its place, unless the table of the second layer is missing. -/
theorem bmap_step {s : State} (hs : s.Consistent) {bn : ℕ} (hbn : bn < MAXBN) (hleaf : ¬ LeafFails s bn) :
    ∃ r, s.bmap bn = .ok r ∧ Step (slotPath bn) s r.2 (slotOf bn) r.1 := by
  -- the three kinds of places, with one table, two tables or none on the way
  rcases Nat.lt_or_ge bn NDIRECT with hdirect | hdirect
  · refine ⟨_, bmap_direct hdirect, ?_⟩
    rw [slotOf_direct hdirect]
    exact root_step _ hs (Nat.lt_of_lt_of_le hdirect (by decide)) (by simp [slotPath, hdirect])
  rcases Nat.lt_or_ge bn (NDIRECT + NINDIRECT) with hsingle | hdouble
  · have hpath : slotPath bn = {.root NDIRECT, .single (bn - NDIRECT)} := by
      unfold slotPath
      rw [if_neg (by omega), if_pos (by omega)]
    have htable := root_step (slotPath bn) hs (show NDIRECT < TOTBUF by decide) (by simp [hpath])
    refine ⟨_, bmap_single hdirect hsingle, ?_⟩
    rw [slotOf_single hdirect hsingle]
    generalize s.root NDIRECT = r at htable
    obtain ⟨table, s₁⟩ := r
    dsimp only at htable ⊢
    split
    · next h => exact (h ▸ htable).stop
    · next h =>
      have hptr := htable.found h
      rw [← hptr]
      exact htable.trans h (entry_step _ htable.consistent (.single _)
        (show bn - NDIRECT < NINDIRECT by omega) (by simp [hpath]) (hptr ▸ h))
  · have hidx : (bn - NDIRECT - NINDIRECT) / NINDIRECT < NINDIRECT := by
      rw [Nat.div_lt_iff_lt_mul (by decide)]
      unfold MAXBN at hbn
      omega
    have hpath : slotPath bn = {.root (NDIRECT + 1), .leaf ((bn - NDIRECT - NINDIRECT) / NINDIRECT),
        .double ((bn - NDIRECT - NINDIRECT) / NINDIRECT) ((bn - NDIRECT - NINDIRECT) % NINDIRECT)} := by
      unfold slotPath
      rw [if_neg (by omega), if_neg (by omega)]
    have htop := root_step (slotPath bn) hs (show NDIRECT + 1 < TOTBUF by decide) (by simp [hpath])
    refine ⟨_, bmap_double hdouble hbn, ?_⟩
    rw [slotOf_double hdouble]
    unfold LeafFails at hleaf
    generalize s.root (NDIRECT + 1) = r at htop hleaf
    obtain ⟨top, s₁⟩ := r
    dsimp only at htop hleaf ⊢
    split
    · next h => exact (h ▸ htop).stop
    · next h =>
      have hptr := htop.found h
      have hne : (s₁.entry top ((bn - NDIRECT - NINDIRECT) / NINDIRECT)).1 ≠ 0 := fun hz =>
        hleaf ⟨hdouble, h, (entry_eq_zero_iff _ _ _).1 hz⟩
      have hleafStep := entry_step (slotPath bn) htop.consistent (.leaf _) hidx (by simp [hpath])
        (hptr ▸ h)
      rw [hptr] at hleafStep
      have htrans := htop.trans h hleafStep
      generalize s₁.entry top ((bn - NDIRECT - NINDIRECT) / NINDIRECT) = r at hne htrans
      obtain ⟨leaf, s₂⟩ := r
      dsimp only at hne htrans ⊢
      have hptr' := htrans.found hne
      rw [← hptr']
      exact htrans.trans hne (entry_step _ htrans.consistent (.double _ _)
        ⟨hidx, Nat.mod_lt _ (by decide)⟩ (by simp [hpath]) (hptr' ▸ hne))

/-- The entry of the upper table is not found. -/
theorem LeafFails.entry {s : State} {bn : ℕ} (h : LeafFails s bn) :
    (s.root (NDIRECT + 1)).1 ≠ 0 ∧ ((s.root (NDIRECT + 1)).2.entry (s.root (NDIRECT + 1)).1
      ((bn - NDIRECT - NINDIRECT) / NINDIRECT)).1 = 0 := by
  unfold LeafFails at h
  generalize s.root (NDIRECT + 1) = r at h ⊢
  exact ⟨h.2.1, (entry_eq_zero_iff _ _ _).2 h.2.2⟩

/-- **The calls that do what they should**: those with a number in range that find a block for the table of
    the second layer, if it is missing. -/
theorem bmap_right_iff (img : Image) (bn : ℕ) :
    Mapped bn (img.state.bmap bn) ↔ bn < MAXBN ∧ ¬ LeafFails img.state bn := by
  constructor
  · rintro ⟨addr, s', hr, -, hsound, -⟩
    have hbn : bn < MAXBN := by
      by_contra h
      rw [bmap_out (Nat.le_of_not_lt h)] at hr
      cases hr
    refine ⟨hbn, fun hleaf => ?_⟩
    obtain ⟨htop, hzero⟩ := hleaf.entry
    rw [bmap_double hleaf.1 hbn, if_neg htop] at hr
    dsimp only at hr
    rw [hzero] at hr
    have hread := table_mem_entry ((img.state.root (NDIRECT + 1)).2.entry (img.state.root (NDIRECT + 1)).1
      ((bn - NDIRECT - NINDIRECT) / NINDIRECT)).2 0 ((bn - NDIRECT - NINDIRECT) % NINDIRECT)
    rw [Except.ok.inj hr] at hread
    exact hsound _ hread rfl
  · rintro ⟨hbn, hleaf⟩
    obtain ⟨r, hr, hstep⟩ := bmap_step img.consistent hbn hleaf
    rw [hr]
    exact hstep.mapped

/-- The upper table of the second layer is block 40. A block is freed between the first call of `balloc` and
    the second. -/
def leafless : Image where
  state :=
    { size := 64
      bmapstart := 3
      addrs := fun i => if i = NDIRECT + 1 then 40 else 0
      disk := fun _ _ => 0
      used := fun b => b ≤ 40
      pick := fun n => if n = 0 then 40 else 50
      calls := 0
      log := [] }
  consistent := by
    refine ⟨rfl, fun slot => decide_eq_true ?_, by decide⟩
    cases slot with
    | root i =>
      simp only [State.ptr]
      split
      · exact le_refl 40
      · exact Nat.zero_le 40
    | single j => simp [State.ptr, State.word]
    | leaf i => simp [State.ptr, State.word]
    | double i j => simp [State.ptr, State.word]
  log := rfl

/-- The boot block gets the pointer to the block that is found. -/
theorem leafless_writes_boot :
    NDIRECT + NINDIRECT < MAXBN ∧ ¬ Mapped (NDIRECT + NINDIRECT) (leafless.state.bmap (NDIRECT + NINDIRECT)) ∧
      ∃ r, leafless.state.bmap (NDIRECT + NINDIRECT) = .ok r ∧ r.1 = 50 ∧ r.2.disk 0 0 = 50 := by
  refine ⟨by decide, ?_, _, rfl, rfl, rfl⟩
  rintro ⟨addr, s, hr, -, hsound, -⟩
  obtain ⟨-, rfl⟩ := Prod.mk.inj (Except.ok.inj hr)
  have hmem : .table 0 ∈ (leafless.state.walk 2 0 NINDIRECT 40).2.log := by decide +kernel
  exact hsound _ hmem rfl

end Xv6.Kernel.Bmap
