import Mathlib
import Xv6.Kernel.Riscv
import Xv6.Kernel.PageTable

/-!
# Virtual Memory Areas

The VMA table of a process and the operations of `mmap.c` that change it:
`setup_vma`, `vma_create` in its three forms, `writeback` and `munmap`.

Slots `0 .. MAX_DYN_VMA-1` hold the areas whose address the kernel chose, the
slots from `FIX_START_ADDR` on the program's segments, the heap and the mappings
at a fixed address. File and inode references taken and dropped are recorded in
the order in which the code touches them, as are writes to files.
-/

namespace Xv6.Kernel

/-! ## The table -/

/-- `f->type` -/
inductive FileType where
  | none
  | pipe
  | inode
  | device
  | sock
  deriving DecidableEq

/-- What the memory mapping code reads of a `struct file`; `slot` is its place in
    the file table. -/
structure File where
  slot : ℕ
  type : FileType
  readable : Bool
  writable : Bool
  ip : ℕ
  deriving DecidableEq

/-- `enum vmatype` -/
inductive VmaType where
  | exec
  | heap
  | fix
  | dynamic
  deriving DecidableEq

def MAX_DYN_VMA : ℕ := 8
def MAX_FIX_VMA : ℕ := 8
def FIX_START_ADDR : ℕ := MAX_DYN_VMA
def MAX_VMA : ℕ := MAX_DYN_VMA + MAX_FIX_VMA

/-- `struct vma` -/
structure Vma where
  used : Bool
  addr : ℕ
  length : ℕ
  prot : ℕ
  flags : ℕ
  file : Option File
  ip : Option ℕ
  offset : ℕ
  filesz : ℕ
  type : VmaType
  deriving DecidableEq

/-- `prot & PROT_READ` -/
def protRead (prot : ℕ) : Bool := prot.testBit 0

/-- `prot & PROT_WRITE` -/
def protWrite (prot : ℕ) : Bool := prot.testBit 1

/-- `flags & MAP_SHARED` -/
def mapShared (flags : ℕ) : Bool := flags.testBit 0

/-- `flags & MAP_PRIVATE` -/
def mapPrivate (flags : ℕ) : Bool := flags.testBit 1

/-- `flags & MAP_SUPPG` -/
def mapSuppg (flags : ℕ) : Bool := flags.testBit 2

/-- `(uint64)-1` -/
def failed : ℕ := 2 ^ 64 - 1

namespace Vma

/-- `v->used && v->addr <= va && va < v->addr + v->length` -/
def covers (v : Vma) (va : ℕ) : Bool :=
  v.used && decide (v.addr ≤ va) && decide (va < add64 v.addr v.length)

/-- An area that covers an address does not wrap around the address space. -/
theorem covers_iff {v : Vma} {va : ℕ} (hlen : v.length < 2 ^ 64) :
    v.covers va = true ↔
      v.used = true ∧ v.addr ≤ va ∧ va < v.addr + v.length ∧ v.addr + v.length < 2 ^ 64 := by
  simp only [covers, Bool.and_eq_true, decide_eq_true_eq, and_assoc]
  rw [add64]
  constructor
  · rintro ⟨hu, hle, hlt⟩
    exact ⟨hu, hle, by omega, by omega⟩
  · rintro ⟨hu, hle, hlt, hwrap⟩
    exact ⟨hu, hle, by omega⟩

/-- Where a fault on the page at `va` reads a file: the inode and
    `vma->offset + va - vma->addr`. -/
def fileOffset (v : Vma) (va : ℕ) : Option (ℕ × ℕ) :=
  v.ip.map fun ip => (ip, sub64 (add64 v.offset va) v.addr)

end Vma

/-- The part of `struct threadshared` that memory mapping works on. -/
structure ThreadShared where
  sz : ℕ
  vmAreas : ℕ → Vma

/-- A change of a reference count. -/
inductive RefOp where
  | filedup (slot : ℕ)
  | fileclose (slot : ℕ)
  | idup (ip : ℕ)
  deriving DecidableEq

namespace ThreadShared

/-- Overwrite slot `i`. -/
def setSlot (ts : ThreadShared) (i : ℕ) (v : Vma) : ThreadShared :=
  { ts with vmAreas := Function.update ts.vmAreas i v }

@[simp] theorem setSlot_sz (ts : ThreadShared) (i : ℕ) (v : Vma) : (ts.setSlot i v).sz = ts.sz :=
  rfl

@[simp] theorem setSlot_self (ts : ThreadShared) (i : ℕ) (v : Vma) :
    (ts.setSlot i v).vmAreas i = v := Function.update_self ..

@[simp] theorem setSlot_of_ne (ts : ThreadShared) {i k : ℕ} (v : Vma) (h : k ≠ i) :
    (ts.setSlot i v).vmAreas k = ts.vmAreas k := Function.update_of_ne h ..

/-! ## Creating an area -/

/-- `setup_vma`: fails, leaving the slot as it was, for a file that is no inode. -/
def setupVma (ts : ThreadShared) (i addr len prot flags : ℕ) (f : Option File) (ip : Option ℕ)
    (offset filesz : ℕ) (type : VmaType) : ThreadShared × ℕ × List RefOp :=
  let ts' := ts.setSlot i ⟨true, addr, len, prot, flags, f, ip, offset, filesz, type⟩
  match f with
  | none => (ts', addr, [])
  | some file =>
    if file.type ≠ .inode then (ts, failed, []) else (ts', addr, [.filedup file.slot])

/-- The inner loop of the search: the first used slot from `j` on, `fuel` slots at
    most. -/
def nextUsed (ts : ThreadShared) : ℕ → ℕ → ℕ
  | 0, j => j
  | fuel + 1, j => if (ts.vmAreas j).used then j else nextUsed ts fuel (j + 1)

/-- The rounding of addresses for ordinary and for super pages. -/
def pageOf (suppg : Bool) : ℕ := if suppg then SUPPGSIZE else PGSIZE

/-- `next_end` before it is stored in an `int`: the end of what lies below a hole
    whose next used slot is `j`. -/
def nextEnd (ts : ThreadShared) (suppg : Bool) (j : ℕ) : ℕ :=
  roundUp (pageOf suppg) <|
    if j = MAX_DYN_VMA then ts.sz else add64 (ts.vmAreas j).addr (ts.vmAreas j).length

/-- `end` after slot `i` has been passed. -/
def endBelow (ts : ThreadShared) (suppg : Bool) (i : ℕ) : ℕ :=
  if suppg then suppgRoundDown (ts.vmAreas i).addr else (ts.vmAreas i).addr

/-- `end - next_end >= len`, where `next_end` is an `int` and `end` a `uint64`. -/
def holeFits (ts : ThreadShared) (suppg : Bool) (len j «end» : ℕ) : Bool :=
  decide (sub64 «end» (signExtend32 (ts.nextEnd suppg j)) ≥ len)

/-- The search for a hole from slot `i` on, below the address `end`. -/
def findHole (ts : ThreadShared) (suppg : Bool) (len : ℕ) : ℕ → ℕ → ℕ → Option (ℕ × ℕ)
  | 0, _, _ => none
  | fuel + 1, i, «end» =>
    if i < MAX_DYN_VMA then
      if (ts.vmAreas i).used then findHole ts suppg len fuel (i + 1) (ts.endBelow suppg i)
      else
        let j := ts.nextUsed (MAX_DYN_VMA - (i + 1)) (i + 1)
        if ts.holeFits suppg len j «end» then some (i, «end»)
        else findHole ts suppg len fuel j «end»
    else none

/-- `vma_create` for `DYNAMIC`, after the check of the file's mode. -/
def createDynamic (ts : ThreadShared) (len prot flags : ℕ) (f : Option File) (ip : Option ℕ)
    (offset filesz : ℕ) : ThreadShared × ℕ × List RefOp :=
  let suppg := mapSuppg flags
  match ts.findHole suppg len MAX_DYN_VMA 0 (roundDown (pageOf suppg) USYSCALL) with
  | none => (ts, failed, [])
  | some (i, «end») =>
    ts.setupVma i (roundDown (pageOf suppg) (sub64 «end» len)) len prot flags f ip offset filesz
      .dynamic

/-- The slots from `FIX_START_ADDR` on. -/
def fixSlots : List ℕ := List.range' FIX_START_ADDR MAX_FIX_VMA

/-- `vma_create` for `HEAP`: move the end of the heap area, or make one. -/
def createHeap (ts : ThreadShared) (addr len prot flags : ℕ) (f : Option File) (ip : Option ℕ)
    (offset filesz : ℕ) : Except String (ThreadShared × ℕ × List RefOp) :=
  match fixSlots.find? fun j => (ts.vmAreas j).used && (ts.vmAreas j).type == .heap with
  | some j =>
    let v := ts.vmAreas j
    if addr ≠ add64 v.addr v.length then .error "update_heap_vma"
    else
      let length := add64 v.length len
      .ok (ts.setSlot j { v with length := length, used := decide (length ≠ 0) }, addr, [])
  | none =>
    match fixSlots.find? fun j => !(ts.vmAreas j).used with
    | some j =>
      if len > 0 then .ok (ts.setupVma j addr len prot flags f ip offset filesz .heap)
      else .ok (ts, failed, [])
    | none => .ok (ts, failed, [])

/-- `vma_create` for `FIX` and `EXEC`: refused if an area covers the first address. -/
def createFix (ts : ThreadShared) (addr len prot flags : ℕ) (f : Option File) (ip : Option ℕ)
    (offset filesz : ℕ) (type : VmaType) : ThreadShared × ℕ × List RefOp :=
  if (List.range MAX_VMA).any fun i => (ts.vmAreas i).covers addr then (ts, failed, [])
  else
    match fixSlots.find? fun j => !(ts.vmAreas j).used with
    | none => (ts, failed, [])
    | some j =>
      let (ts', ret, refs) := ts.setupVma j addr len prot flags f ip offset filesz type
      (ts', ret, (ip.map RefOp.idup).toList ++ refs)

/-- The file may be mapped with this protection. -/
def fileAllows (f : Option File) (prot flags : ℕ) : Bool :=
  match f with
  | none => true
  | some file =>
    !((!file.readable && protRead prot) ||
      (!file.writable && protWrite prot && !mapPrivate flags))

/-- `vma_create(addr, len, prot, flags, f, ip, offset, filesz, type)` -/
def vmaCreate (ts : ThreadShared) (addr len prot flags : ℕ) (f : Option File) (ip : Option ℕ)
    (offset filesz : ℕ) (type : VmaType) : Except String (ThreadShared × ℕ × List RefOp) :=
  if !fileAllows f prot flags then .ok (ts, failed, [])
  else
    match type with
    | .dynamic => .ok (ts.createDynamic len prot flags f ip offset filesz)
    | .heap => ts.createHeap addr len prot flags f ip offset filesz
    | .fix => .ok (ts.createFix addr len prot flags f ip offset filesz .fix)
    | .exec => .ok (ts.createFix addr len prot flags f ip offset filesz .exec)

end ThreadShared

/-! ## Removing an area -/

/-- The address space of a process. -/
structure AddrSpace where
  shared : ThreadShared
  pagetable : PageTable

/-- A call `writei(ip, 1, src, off, n)` of `writeback`. -/
structure FileWrite where
  ip : ℕ
  src : ℕ
  off : ℕ
  n : ℕ
  deriving DecidableEq

/-- The loop of `writeback` from `addr` on; `writei` says which writes succeed. A
    page that is not reached by `walk` makes the kernel read through a null pointer. -/
def writebackFrom (writei : FileWrite → Bool) (pt : PageTable) (ip last : ℕ) :
    ℕ → ℕ → ℕ → Except String (Bool × List FileWrite)
  | 0, _, _ => .ok (true, [])
  | fuel + 1, addr, off =>
    if addr < last then
      match pt.walk addr with
      | .error e => .error e
      | .ok none => .error "kerneltrap"
      | .ok (some σ) =>
        let pte := pt.get σ
        let w : FileWrite := ⟨ip, addr, off, if PGSIZE > last - addr then last - addr else PGSIZE⟩
        if pte.d && pte.w then
          if writei w then
            match writebackFrom writei pt ip last fuel (addr + PGSIZE) (off + PGSIZE) with
            | .error e => .error e
            | .ok (ok, ws) => .ok (ok, w :: ws)
          else .ok (false, [w])
        else writebackFrom writei pt ip last fuel (addr + PGSIZE) (off + PGSIZE)
    else .ok (true, [])

/-- `writeback(addr, len, p, v)`; the pages of the range are turns enough. -/
def writeback (writei : FileWrite → Bool) (pt : PageTable) (ip addr len : ℕ) :
    Except String (Bool × List FileWrite) :=
  if addr % PGSIZE ≠ 0 then .error "writeback"
  else writebackFrom writei pt ip (add64 addr len) (len / PGSIZE + 1) addr 0

/-- `munmap`'s bookkeeping in the area it found. -/
def Vma.cut (v : Vma) (addr len : ℕ) : Vma :=
  if v.length = len then { v with used := false }
  else
    { v with
      addr := if v.addr = addr then add64 v.addr len else v.addr
      length := sub64 v.length len }

/-- What a `munmap` did besides changing the address space. -/
structure MunmapEffects where
  writes : List FileWrite
  refs : List RefOp
  releases : List PageTable.Release
  deriving DecidableEq

namespace AddrSpace

/-- The area that `munmap(addr, …)` works on: the first one that covers `addr` and
    was made by `mmap`. -/
def mmapped (s : AddrSpace) (addr : ℕ) : Option ℕ :=
  (List.range MAX_VMA).find? fun i =>
    let v := s.shared.vmAreas i
    !(v.type == .exec || v.type == .heap) && v.covers addr

/-- `munmap(addr, len)` -/
def munmap (writei : FileWrite → Bool) (s : AddrSpace) (addr len : ℕ) :
    Except String (AddrSpace × ℕ × MunmapEffects) :=
  if addr % PGSIZE ≠ 0 then .ok (s, failed, ⟨[], [], []⟩)
  else
    let len := pgRoundDown len
    if len = 0 then .ok (s, 0, ⟨[], [], []⟩)
    else
      match s.mmapped addr with
      | none => .ok (s, failed, ⟨[], [], []⟩)
      | some i =>
        let v := s.shared.vmAreas i
        let synced := match v.file with
          | some file =>
            if v.flags = 1 then writeback writei s.pagetable file.ip addr len else .ok (true, [])
          | none => .ok (true, [])
        match synced with
        | .error e => .error e
        -- a failure is a `uint64`, which is never below 0
        | .ok (_, ws) =>
          let refs := if v.length = len then (v.file.map fun f => RefOp.fileclose f.slot).toList
            else []
          let doFree := if mapShared v.flags then PageTable.FREE_BCACHE else 1
          match s.pagetable.uvmunmap addr (pgRoundUp len / PGSIZE) doFree with
          | .error e => .error e
          | .ok (pt', rel) =>
            .ok (⟨s.shared.setSlot i (v.cut addr len), pt'⟩, 0, ⟨ws, refs, rel⟩)

/-! ## What `munmap` finds and does -/

theorem mmapped_spec {s : AddrSpace} {addr i : ℕ} (h : s.mmapped addr = some i) :
    i < MAX_VMA ∧ (s.shared.vmAreas i).covers addr = true ∧
      (s.shared.vmAreas i).type ≠ .exec ∧ (s.shared.vmAreas i).type ≠ .heap := by
  have hmem := List.mem_of_find?_eq_some h
  have hp := List.find?_some h
  simp only [Bool.and_eq_true, Bool.not_eq_true', Bool.or_eq_false_iff, beq_eq_false_iff_ne] at hp
  exact ⟨List.mem_range.mp hmem, hp.2, hp.1.1, hp.1.2⟩

/-- Either `munmap` changes nothing, or it cuts the range out of the area it found and
    unmaps the pages. -/
theorem munmap_cases {writei : FileWrite → Bool} {s s' : AddrSpace} {addr len ret : ℕ}
    {eff : MunmapEffects} (h : s.munmap writei addr len = .ok (s', ret, eff)) :
    (s' = s ∧ (ret = failed ∨ ret = 0 ∧ pgRoundDown len = 0)) ∨
    (ret = 0 ∧ addr % PGSIZE = 0 ∧ pgRoundDown len ≠ 0 ∧
      ∃ i pt' rel doFree, s.mmapped addr = some i ∧
        s.pagetable.uvmunmap addr (pgRoundUp (pgRoundDown len) / PGSIZE) doFree
          = .ok (pt', rel) ∧
        s' = ⟨s.shared.setSlot i ((s.shared.vmAreas i).cut addr (pgRoundDown len)), pt'⟩) := by
  rw [munmap] at h
  -- Of the six branches only the last changes the areas.
  split at h
  · cases h
    exact .inl ⟨rfl, .inl rfl⟩
  next haddr =>
  simp only at h
  split at h
  · next hlen =>
    cases h
    exact .inl ⟨rfl, .inr ⟨rfl, hlen⟩⟩
  next hlen =>
  split at h
  · cases h
    exact .inl ⟨rfl, .inl rfl⟩
  next i hi =>
  split at h
  · cases h
  · split at h
    · cases h
    next pt' rel hunmap =>
    cases h
    exact .inr ⟨rfl, by simpa using haddr, hlen, i, pt', rel, _, hi, hunmap, rfl⟩

/-! ## What holds of every area -/

section Forall

variable {Q : Vma → Prop} {ts ts' : ThreadShared}

/-- A property of areas that does not depend on where they are -/
def Anywhere (Q : Vma → Prop) : Prop :=
  ∀ v used addr length, Q v → Q { v with used := used, addr := addr, length := length }

theorem forall_setSlot (h : ∀ i, Q (ts.vmAreas i)) {v : Vma} (hv : Q v) (j i : ℕ) :
    Q ((ts.setSlot j v).vmAreas i) := by
  by_cases hi : i = j
  · rw [hi, ThreadShared.setSlot_self]
    exact hv
  · rw [ThreadShared.setSlot_of_ne ts v hi]
    exact h i

theorem forall_setupVma (h : ∀ i, Q (ts.vmAreas i))
    {j addr len prot flags offset filesz ret : ℕ} {f : Option File} {ip : Option ℕ} {type : VmaType}
    {refs : List RefOp} (hv : Q ⟨true, addr, len, prot, flags, f, ip, offset, filesz, type⟩)
    (hcall : ts.setupVma j addr len prot flags f ip offset filesz type = (ts', ret, refs)) (i : ℕ) :
    Q (ts'.vmAreas i) := by
  unfold ThreadShared.setupVma at hcall
  split at hcall
  · cases hcall
    exact forall_setSlot h hv j i
  · split at hcall <;> cases hcall
    · exact h i
    · exact forall_setSlot h hv j i

/-- What holds of every area and of the one that `vma_create` is asked for holds afterwards. -/
theorem forall_vmaCreate (hmove : Anywhere Q) (h : ∀ i, Q (ts.vmAreas i))
    {addr len prot flags offset filesz ret : ℕ} {f : Option File} {ip : Option ℕ} {type : VmaType}
    {refs : List RefOp}
    (hv : ∀ addr', Q ⟨true, addr', len, prot, flags, f, ip, offset, filesz, type⟩)
    (hcall : ts.vmaCreate addr len prot flags f ip offset filesz type = .ok (ts', ret, refs)) (i : ℕ) :
    Q (ts'.vmAreas i) := by
  unfold ThreadShared.vmaCreate at hcall
  split at hcall
  · cases hcall
    exact h i
  cases type with
  | dynamic =>
    simp only [ThreadShared.createDynamic, Except.ok.injEq] at hcall
    split at hcall
    · cases hcall
      exact h i
    · exact forall_setupVma h (hv _) hcall i
  | heap =>
    simp only [ThreadShared.createHeap] at hcall
    split at hcall
    · next j _ =>
      split at hcall
      · cases hcall
      · -- the heap area moves its end
        cases hcall
        exact forall_setSlot h (hmove (ts.vmAreas j) _ (ts.vmAreas j).addr _ (h j)) j i
    · split at hcall
      · split at hcall
        · exact forall_setupVma h (hv _) (Except.ok.inj hcall) i
        · cases hcall
          exact h i
      · cases hcall
        exact h i
  | fix | exec =>
    simp only [ThreadShared.createFix, Except.ok.injEq] at hcall
    split at hcall
    · cases hcall
      exact h i
    · split at hcall
      · cases hcall
        exact h i
      · cases hcall
        exact forall_setupVma h (hv _) rfl i

/-- What holds of every area holds after a `munmap`. -/
theorem forall_munmap (hmove : Anywhere Q) {writei : FileWrite → Bool} {s s' : AddrSpace}
    (h : ∀ i, Q (s.shared.vmAreas i)) {addr len ret : ℕ} {eff : MunmapEffects}
    (hcall : s.munmap writei addr len = .ok (s', ret, eff)) (i : ℕ) : Q (s'.shared.vmAreas i) := by
  rcases munmap_cases hcall with ⟨rfl, -⟩ | ⟨-, -, -, j, pt', rel, doFree, -, -, rfl⟩
  · exact h i
  · refine forall_setSlot h ?_ j i
    unfold Vma.cut
    split
    · exact hmove _ false _ _ (h j)
    · exact hmove (s.shared.vmAreas j) (s.shared.vmAreas j).used _ _ (h j)

end Forall

end AddrSpace

end Xv6.Kernel
