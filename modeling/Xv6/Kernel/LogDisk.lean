import Mathlib
import Xv6.Lib.ByteBlock
import Xv6.Lib.Overlay
import Xv6.Kernel.Log

/-!
# The Log on Disk

The disk side of `log.c`: `commit()` copies the transaction's cached blocks to the
log, writes the header, installs the blocks at their home locations and clears the
header; `recover_from_log` repeats the installation after a crash. The buffer
cache keeps a copy of every block read and may drop any copy that `bpin` does not
hold, at any `bread`.

Each routine is described by an `Effect`: the disk writes it issues, in order, and
nothing else. `commit_effect` gives those of a whole commit.
-/

namespace Xv6.Kernel.LogDisk

open Xv6.Lib

/-! ## Disk and buffer cache -/

abbrev Disk := ℕ → ByteBlock

/-- Disk block writes, oldest first. -/
abbrev Writes := List (ℕ × ByteBlock)

/-- Which unpinned blocks the cache drops at the `t`-th `bread`. -/
abbrev Policy := ℕ → ℕ → Bool

/-- The disk, the buffer cache and the log of a running kernel. -/
structure Machine where
  log : Log
  disk : Disk
  /-- Cached copies by block number -/
  cache : ℕ → Option ByteBlock
  /-- References taken by `bpin` -/
  pins : ℕ → ℕ
  /-- Number of `bread`s so far -/
  clock : ℕ
  /-- The disk writes issued so far -/
  writes : Writes

namespace Machine

/-- The machine after a reboot on the disk `d`. -/
def boot (start size : ℕ) (d : Disk) : Machine where
  log := { start := start, size := size, outstanding := 0, committing := false, lh := [] }
  disk := d
  cache := fun _ => none
  pins := fun _ => 0
  clock := 0
  writes := []

/-- `bread(dev, b)`: the contents of block `b`, from the cache or else from the disk. -/
def bread (ev : Policy) (m : Machine) (b : ℕ) : ByteBlock × Machine :=
  let cache := fun c => if ev m.clock c ∧ m.pins c = 0 then none else m.cache c
  let data := (cache b).getD (m.disk b)
  (data, { m with cache := Function.update cache b (some data), clock := m.clock + 1 })

/-- `bwrite` of block `b` whose buffer has been filled with `data`. -/
def bwrite (m : Machine) (b : ℕ) (data : ByteBlock) : Machine :=
  { m with
    disk := Function.update m.disk b data
    cache := Function.update m.cache b (some data)
    writes := m.writes ++ [(b, data)] }

def bpin (m : Machine) (b : ℕ) : Machine :=
  { m with pins := Function.update m.pins b (m.pins b + 1) }

def bunpin (m : Machine) (b : ℕ) : Machine :=
  { m with pins := Function.update m.pins b (m.pins b - 1) }

/-- `log_write(b)` after the caller has put `data` in the buffer. -/
def logged (m : Machine) (l : Log) (pin : Bool) (b : ℕ) (data : ByteBlock) : Machine :=
  let m := { m with log := l, cache := Function.update m.cache b (some data) }
  if pin then m.bpin b else m

end Machine

/-! ## The header block -/

/-- Store the block numbers `bs` as `hb->block[i]`, `hb->block[i+1]`, … -/
def putBlocks (hb : ByteBlock) (i : ℕ) : List ℕ → ByteBlock
  | [] => hb
  | b :: bs => putBlocks (hb.setWord (i + 1) b) (i + 1) bs

/-- The header block `hb` overwritten by `n` and `block[0..n)`. -/
def putHeader (hb : ByteBlock) (bs : List ℕ) : ByteBlock :=
  putBlocks (hb.setWord 0 bs.length) 0 bs

/-- `block[0..n)` of a header block; `n` is a signed `int`. -/
def getHeader (hb : ByteBlock) : List ℕ :=
  if hb.word 0 < 2 ^ 31 then (List.range (hb.word 0)).map fun i => hb.word (i + 1) else []

theorem word_putBlocks (hb : ByteBlock) (i : ℕ) {bs : List ℕ} (hlt : ∀ b ∈ bs, b < 2 ^ 32) :
    (∀ j, j ≤ i → (putBlocks hb i bs).word j = hb.word j) ∧
      ∀ t (ht : t < bs.length), (putBlocks hb i bs).word (i + t + 1) = bs[t] := by
  induction bs generalizing hb i with
  | nil => exact ⟨fun _ _ => rfl, fun t ht => absurd ht (Nat.not_lt_zero t)⟩
  | cons b bs ih =>
    obtain ⟨hle, hget⟩ := ih (hb.setWord (i + 1) b) (i + 1)
      fun x hx => hlt x (List.mem_cons_of_mem _ hx)
    refine ⟨fun j hj => ?_, fun t ht => ?_⟩
    · rw [putBlocks, hle j (by omega), ByteBlock.word_setWord_of_ne _ _ (by omega)]
    · cases t with
      | zero =>
        rw [putBlocks, Nat.add_zero, hle (i + 1) (Nat.le_refl _)]
        exact ByteBlock.word_setWord_self _ _ (hlt b List.mem_cons_self)
      | succ t =>
        have := hget t (by simpa using ht)
        simpa [putBlocks, Nat.add_comm, Nat.add_left_comm, Nat.add_assoc] using this

/-- The header that `write_head` writes is the one that `read_head` reads. -/
theorem getHeader_putHeader {hb : ByteBlock} {bs : List ℕ} (hlen : bs.length < 2 ^ 31)
    (hlt : ∀ b ∈ bs, b < 2 ^ 32) : getHeader (putHeader hb bs) = bs := by
  obtain ⟨hle, hget⟩ := word_putBlocks (hb.setWord 0 bs.length) 0 hlt
  have h0 : (putHeader hb bs).word 0 = bs.length := by
    rw [putHeader, hle 0 (Nat.le_refl _)]
    exact ByteBlock.word_setWord_self _ _ (by omega)
  rw [getHeader, h0, if_pos hlen]
  apply List.ext_getElem
  · simp
  · intro t ht ht'
    have := hget t ht'
    rw [Nat.zero_add] at this
    simpa [putHeader] using this

theorem getHeader_eq_nil {hb : ByteBlock} (h : hb.word 0 = 0) : getHeader hb = [] := by
  simp [getHeader, h]

@[simp] theorem word_putHeader_nil (hb : ByteBlock) : (putHeader hb []).word 0 = 0 :=
  ByteBlock.word_setWord_self _ _ (by decide)

theorem putHeader_nil_of_word {hb : ByteBlock} (h : hb.word 0 = 0) : putHeader hb [] = hb := by
  have := ByteBlock.setWord_word hb 0
  rwa [h] at this

/-! ## The routines of `log.c` -/

open Machine

/-- The loop of `write_log` from index `tail` on. -/
def writeLogFrom (ev : Policy) (tail : ℕ) : List ℕ → Machine → Machine
  | [], m => m
  | b :: bs, m =>
    let (_, m) := m.bread ev (m.log.start + tail + 1)
    let (from_, m) := m.bread ev b
    writeLogFrom ev (tail + 1) bs (m.bwrite (m.log.start + tail + 1) from_)

/-- `write_log`: copy modified blocks from the cache to the log. -/
def writeLog (ev : Policy) (m : Machine) : Machine := writeLogFrom ev 0 m.log.lh m

/-- `write_head`: write the in-memory header to disk. -/
def writeHead (ev : Policy) (m : Machine) : Machine :=
  let (hb, m) := m.bread ev m.log.start
  m.bwrite m.log.start (putHeader hb m.log.lh)

/-- `read_head`: read the header from disk into memory. -/
def readHead (ev : Policy) (m : Machine) : Machine :=
  let (hb, m) := m.bread ev m.log.start
  { m with log := { m.log with lh := getHeader hb } }

/-- The loop of `install_trans` from index `tail` on. -/
def installFrom (ev : Policy) (recovering : Bool) (tail : ℕ) : List ℕ → Machine → Machine
  | [], m => m
  | b :: bs, m =>
    let (lbuf, m) := m.bread ev (m.log.start + tail + 1)
    let (_, m) := m.bread ev b
    let m := m.bwrite b lbuf
    installFrom ev recovering (tail + 1) bs (if recovering then m else m.bunpin b)

/-- `install_trans`: copy committed blocks from the log to their home locations. -/
def installTrans (ev : Policy) (recovering : Bool) (m : Machine) : Machine :=
  installFrom ev recovering 0 m.log.lh m

def clearLh (m : Machine) : Machine := { m with log := { m.log with lh := [] } }

def commit (ev : Policy) (m : Machine) : Machine :=
  if m.log.n > 0 then
    writeHead ev (clearLh (installTrans ev false (writeHead ev (writeLog ev m))))
  else m

def recoverFromLog (ev : Policy) (m : Machine) : Machine :=
  writeHead ev (clearLh (installTrans ev true (readHead ev m)))

/-- The writes of a commit, in order. -/
def commitWrites (ev : Policy) (m : Machine) : Writes :=
  (commit ev { m with writes := [] }).writes

/-! ## Routines by the writes they issue -/

/-- What a `bread` of each block returns. -/
def Machine.read (m : Machine) : Disk := fun b => (m.cache b).getD (m.disk b)

/-- The cache differs from the disk only in pinned blocks. -/
def Machine.Coherent (m : Machine) : Prop := ∀ b, m.pins b = 0 → m.read b = m.disk b

/-- Running from `m` to `m'` issued the writes `ws`, went through the cache and left
    the log structure alone. -/
structure Effect (ws : Writes) (m m' : Machine) : Prop where
  disk : m'.disk = overlay ws m.disk
  read : m'.read = overlay ws m.read
  writes : m'.writes = m.writes ++ ws
  log : m'.log = m.log
  coherent : m'.Coherent

theorem Effect.trans {ws vs : Writes} {m m' m'' : Machine} (h : Effect ws m m')
    (h' : Effect vs m' m'') : Effect (ws ++ vs) m m'' where
  disk := by rw [h'.disk, h.disk, overlay_append]
  read := by rw [h'.read, h.read, overlay_append]
  writes := by rw [h'.writes, h.writes, List.append_assoc]
  log := h'.log.trans h.log
  coherent := h'.coherent

theorem bread_read (ev : Policy) {m : Machine} (hc : m.Coherent) (b : ℕ) :
    (m.bread ev b).1 = m.read b ∧ (m.bread ev b).2.read = m.read := by
  have hkept : ∀ c, (if ev m.clock c ∧ m.pins c = 0 then none else m.cache c).getD (m.disk c)
      = m.read c := by
    intro c
    split
    · next h => rw [hc c h.2]; rfl
    · rfl
  refine ⟨hkept b, ?_⟩
  funext c
  by_cases hcb : c = b
  · subst hcb
    simpa [Machine.read, bread] using hkept c
  · simpa [Machine.read, bread, Function.update_of_ne hcb] using hkept c

theorem bread_effect (ev : Policy) {m : Machine} (hc : m.Coherent) (b : ℕ) :
    Effect [] m (m.bread ev b).2 where
  disk := rfl
  read := (bread_read ev hc b).2
  writes := (List.append_nil _).symm
  log := rfl
  coherent := fun c h => by rw [(bread_read ev hc b).2]; exact hc c h

@[simp] theorem bread_pins (ev : Policy) (m : Machine) (b : ℕ) :
    (m.bread ev b).2.pins = m.pins := rfl

@[simp] theorem bread_log (ev : Policy) (m : Machine) (b : ℕ) :
    (m.bread ev b).2.log = m.log := rfl

theorem bwrite_read (m : Machine) (b : ℕ) (data : ByteBlock) :
    (m.bwrite b data).read = Function.update m.read b data := by
  funext c
  by_cases hcb : c = b
  · subst hcb; simp [Machine.read, bwrite]
  · simp [Machine.read, bwrite, Function.update_of_ne hcb]

theorem logged_read (m : Machine) (l : Log) (pin : Bool) (b : ℕ) (data : ByteBlock) :
    (m.logged l pin b data).read = Function.update m.read b data := by
  funext c
  by_cases hcb : c = b
  · subst hcb; cases pin <;> simp [Machine.logged, Machine.read, bpin]
  · cases pin <;> simp [Machine.logged, Machine.read, bpin, Function.update_of_ne hcb]

theorem bwrite_effect {m : Machine} (hc : m.Coherent) (b : ℕ) (data : ByteBlock) :
    Effect [(b, data)] m (m.bwrite b data) where
  disk := rfl
  read := bwrite_read m b data
  writes := rfl
  log := rfl
  coherent := fun c h => by
    rw [bwrite_read]
    by_cases hcb : c = b
    · subst hcb; simp [bwrite]
    · simpa [bwrite, Function.update_of_ne hcb] using hc c h

/-- The blocks `cs` written one after the other to the log from index `tail` on. -/
def logCopies (start tail : ℕ) : List ByteBlock → Writes
  | [] => []
  | c :: cs => (start + tail + 1, c) :: logCopies start (tail + 1) cs

theorem logCopies_fst {start tail : ℕ} {cs : List ByteBlock} {w : ℕ × ByteBlock}
    (h : w ∈ logCopies start tail cs) :
    start + tail + 1 ≤ w.1 ∧ w.1 < start + tail + 1 + cs.length := by
  induction cs generalizing tail with
  | nil => simp [logCopies] at h
  | cons c cs ih =>
    rcases List.mem_cons.mp h with rfl | h
    · simp
    · have := ih h
      simp only [List.length_cons]
      omega

theorem logCopies_length (start tail : ℕ) (cs : List ByteBlock) :
    (logCopies start tail cs).length = cs.length := by
  induction cs generalizing tail with
  | nil => rfl
  | cons c cs ih => simp [logCopies, ih]

/-- The copies are read back from the log. -/
theorem overlay_logCopies (start tail : ℕ) {cs : List ByteBlock} (d : Disk) {i : ℕ}
    (hi : i < cs.length) : overlay (logCopies start tail cs) d (start + tail + i + 1) = cs[i] := by
  induction cs generalizing tail d i with
  | nil => simp at hi
  | cons c cs ih =>
    cases i with
    | zero =>
      simp only [logCopies, overlay_cons]
      rw [overlay_of_forall_ne]
      · simp
      · intro w hw
        have := (logCopies_fst hw).1
        omega
    | succ i =>
      simp only [List.length_cons, Nat.add_lt_add_iff_right] at hi
      have := ih (tail + 1) (Function.update d (start + tail + 1) c) hi
      simpa [logCopies, Nat.add_comm, Nat.add_left_comm, Nat.add_assoc] using this

theorem writeLogFrom_effect (ev : Policy) {bs : List ℕ} (tail : ℕ) {m : Machine}
    (hc : m.Coherent)
    (hhome : ∀ b ∈ bs, ∀ t, t < tail + bs.length → b ≠ m.log.start + t + 1) :
    Effect (logCopies m.log.start tail (bs.map m.read)) m (writeLogFrom ev tail bs m) ∧
      (writeLogFrom ev tail bs m).pins = m.pins := by
  induction bs generalizing tail m with
  | nil => exact ⟨⟨rfl, rfl, (List.append_nil _).symm, rfl, hc⟩, rfl⟩
  | cons b bs ih =>
    set dst := m.log.start + tail + 1 with hdst
    have h1 := bread_effect ev hc dst
    have h2 := bread_effect ev h1.coherent b
    have hfrom : ((m.bread ev dst).2.bread ev b).1 = m.read b := by
      rw [(bread_read ev h1.coherent b).1, h1.read, overlay_nil]
    have h3 := bwrite_effect h2.coherent dst (m.read b)
    set m3 := ((m.bread ev dst).2.bread ev b).2.bwrite dst (m.read b) with hm3
    have hrun : writeLogFrom ev tail (b :: bs) m = writeLogFrom ev (tail + 1) bs m3 := by
      simp only [writeLogFrom, bread_log, hm3, ← hfrom]
      rfl
    have h13 : Effect [(dst, m.read b)] m m3 := (h1.trans h2).trans h3
    -- the rest of the blocks lie outside the log, so they still read as before
    have hsame : bs.map m3.read = bs.map m.read := by
      apply List.map_congr_left
      intro c hcm
      have hne : c ≠ dst := hhome c (List.mem_cons_of_mem _ hcm) tail (by simp)
      rw [h13.read, overlay_cons, overlay_nil, Function.update_of_ne hne]
    have hlog : m3.log = m.log := h13.log
    obtain ⟨hE, hP⟩ := ih (tail + 1) h13.coherent (by
      intro c hcm t ht
      rw [hlog]
      exact hhome c (List.mem_cons_of_mem _ hcm) t (by simp only [List.length_cons]; omega))
    rw [hrun]
    rw [hsame, hlog] at hE
    exact ⟨h13.trans hE, hP⟩

theorem writeHead_effect (ev : Policy) {m : Machine} (hc : m.Coherent) :
    Effect [(m.log.start, putHeader (m.read m.log.start) m.log.lh)] m (writeHead ev m) ∧
      (writeHead ev m).pins = m.pins := by
  have h1 := bread_effect ev hc m.log.start
  have hb := (bread_read ev hc m.log.start).1
  have h2 := bwrite_effect h1.coherent m.log.start (putHeader (m.read m.log.start) m.log.lh)
  refine ⟨?_, rfl⟩
  have : writeHead ev m = (m.bread ev m.log.start).2.bwrite m.log.start
      (putHeader (m.read m.log.start) m.log.lh) := by
    simp only [writeHead, bread_log, hb]
  rw [this]
  exact h1.trans h2

theorem bunpin_coherent {m : Machine} {b : ℕ} (hc : m.Coherent) (hb : m.read b = m.disk b) :
    (m.bunpin b).Coherent := by
  intro c h
  by_cases hcb : c = b
  · subst hcb; exact hb
  · exact hc c (by simpa [bunpin, Function.update_of_ne hcb] using h)

theorem installFrom_effect (ev : Policy) (recovering : Bool) {bs : List ℕ} (cs : List ByteBlock)
    (tail : ℕ) {m : Machine} (hc : m.Coherent) (hlen : cs.length = bs.length)
    (hcs : ∀ i (hi : i < cs.length), m.read (m.log.start + tail + i + 1) = cs[i])
    (hhome : ∀ b ∈ bs, ∀ t, t < tail + bs.length → b ≠ m.log.start + t + 1) :
    Effect (bs.zip cs) m (installFrom ev recovering tail bs m) ∧
      (installFrom ev recovering tail bs m).pins =
        fun b => if recovering then m.pins b else m.pins b - bs.count b := by
  induction bs generalizing cs tail m with
  | nil => exact ⟨⟨rfl, rfl, by simp [installFrom], rfl, hc⟩, by simp [installFrom]⟩
  | cons b bs ih =>
    obtain ⟨c, cs, rfl⟩ := List.exists_cons_of_length_pos (l := cs) (by rw [hlen]; simp)
    set src := m.log.start + tail + 1 with hsrc
    have h1 := bread_effect ev hc src
    have h2 := bread_effect ev h1.coherent b
    have hlbuf : (m.bread ev src).1 = c := by
      rw [(bread_read ev hc src).1]
      exact hcs 0 (by simp)
    have h3 := bwrite_effect h2.coherent b c
    set m3 := ((m.bread ev src).2.bread ev b).2.bwrite b c with hm3
    have h13 : Effect [(b, c)] m m3 := (h1.trans h2).trans h3
    have hpins3 : m3.pins = m.pins := rfl
    -- unpinning the block just written keeps the cache coherent
    set m4 := if recovering then m3 else m3.bunpin b with hm4
    have hrun : installFrom ev recovering tail (b :: bs) m
        = installFrom ev recovering (tail + 1) bs m4 := by
      simp only [installFrom, ← hsrc, hlbuf]
      rfl
    have hwritten : m3.read b = m3.disk b := by rw [h13.read, h13.disk]; simp
    have h14 : Effect [(b, c)] m m4 := by
      cases recovering with
      | true => exact h13
      | false => exact ⟨h13.disk, h13.read, h13.writes, h13.log,
          bunpin_coherent h13.coherent hwritten⟩
    have hlog : m4.log = m.log := h14.log
    have hcs' : ∀ i (hi : i < cs.length), m4.read (m4.log.start + (tail + 1) + i + 1) = cs[i] := by
      intro i hi
      have hne : m.log.start + (tail + 1) + i + 1 ≠ b := by
        have := hhome b List.mem_cons_self (tail + 1 + i)
          (by simp only [List.length_cons] at hlen ⊢; omega)
        omega
      rw [hlog, h14.read, overlay_cons, overlay_nil, Function.update_of_ne hne]
      have := hcs (i + 1) (by simpa using hi)
      simpa [Nat.add_comm, Nat.add_left_comm, Nat.add_assoc] using this
    obtain ⟨hE, hP⟩ := ih cs (tail + 1) h14.coherent (by simpa using hlen) hcs' (by
      intro x hx t ht
      rw [hlog]
      exact hhome x (List.mem_cons_of_mem _ hx) t (by simp only [List.length_cons]; omega))
    rw [hrun]
    refine ⟨h14.trans hE, ?_⟩
    rw [hP]
    funext x
    cases recovering with
    | true => simp [hm4, hpins3]
    | false =>
      by_cases hx : x = b
      · subst hx
        simp [hm4, bunpin, hpins3, Nat.sub_sub, Nat.add_comm]
      · simp [hm4, bunpin, hpins3, Function.update_of_ne hx, List.count_cons_of_ne (Ne.symm hx)]

/-! ## What a commit writes -/

/-- The writes of a commit of the blocks `bs` with contents `cs`, with the header block
    `h₁` that commits and `h₂` that clears. -/
def commitTrace (start : ℕ) (bs : List ℕ) (cs : List ByteBlock) (h₁ h₂ : ByteBlock) : Writes :=
  logCopies start 0 cs ++ [(start, h₁)] ++ bs.zip cs ++ [(start, h₂)]

theorem clearLh_effect {ws : Writes} {m m' : Machine} (h : Effect ws m m') :
    Effect ws (clearLh m) (clearLh m') :=
  ⟨h.disk, h.read, h.writes, by simp [clearLh, h.log], h.coherent⟩

theorem commit_effect (ev : Policy) {m : Machine} (hc : m.Coherent) (hne : m.log.lh ≠ [])
    (hhome : ∀ b ∈ m.log.lh, ∀ t, t < m.log.lh.length → b ≠ m.log.start + t + 1) :
    ∃ h₁ h₂, h₁ = putHeader (m.read m.log.start) m.log.lh ∧ h₂.word 0 = 0 ∧
      Effect (commitTrace m.log.start m.log.lh (m.log.lh.map m.read) h₁ h₂) (clearLh m)
        (commit ev m) ∧
      (commit ev m).pins = fun b => m.pins b - m.log.lh.count b := by
  obtain ⟨hE1, hP1⟩ := writeLogFrom_effect ev 0 hc (by simpa using hhome)
  set cs := m.log.lh.map m.read with hcs
  set m1 := writeLogFrom ev 0 m.log.lh m with hm1
  obtain ⟨hE2, hP2⟩ := writeHead_effect ev hE1.coherent
  set m2 := writeHead ev m1 with hm2
  have hstart : m1.read m1.log.start = m.read m.log.start := by
    rw [hE1.log, hE1.read, overlay_of_forall_ne]
    intro w hw
    have := (logCopies_fst hw).1
    omega
  rw [hstart, hE1.log] at hE2
  have hlog2 : m2.log = m.log := hE2.log.trans hE1.log
  have h12 := hE1.trans hE2
  -- the copies are in the log, where the installation reads them
  have hread2 : ∀ i (hi : i < cs.length), m2.read (m2.log.start + 0 + i + 1) = cs[i] := by
    intro i hi
    rw [hlog2, h12.read, overlay_concat_of_ne _ _ _ (by omega)]
    exact overlay_logCopies _ _ _ hi
  have hcs_len : cs.length = m.log.lh.length := by simp [hcs]
  obtain ⟨hE3, hP3⟩ := installFrom_effect ev false cs 0 hE2.coherent hcs_len hread2
    (by rw [hlog2]; simpa using hhome)
  set m3 := installFrom ev false 0 m.log.lh m2 with hm3
  have h13 := clearLh_effect (h12.trans hE3)
  obtain ⟨hE4, hP4⟩ := writeHead_effect ev h13.coherent
  have hstart4 : (clearLh m3).log.start = m.log.start := by rw [h13.log]; rfl
  have hlh4 : (clearLh m3).log.lh = [] := rfl
  rw [hstart4, hlh4] at hE4
  have hrun : commit ev m = writeHead ev (clearLh m3) := by
    have hpos : m.log.n > 0 := List.length_pos_iff.mpr hne
    rw [commit, if_pos hpos]
    simp only [writeLog, installTrans, ← hm1, ← hm2, hlog2, ← hm3]
  refine ⟨putHeader (m.read m.log.start) m.log.lh, putHeader ((clearLh m3).read m.log.start) [],
    rfl, word_putHeader_nil _, ?_, ?_⟩
  · rw [hrun]
    exact h13.trans hE4
  · rw [hrun, hP4]
    show m3.pins = _
    rw [hP3, hP2, hP1]
    simp

end Xv6.Kernel.LogDisk
