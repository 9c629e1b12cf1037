import Mathlib
import Xv6.Kernel.Vma

/-!
# Writing Shared Mappings Back

What `munmap` and the end of a process write to the files of shared mappings.

`writeback` counts file offsets from 0 wherever its range begins in the mapping and wherever
the mapping begins in the file, takes the entries of the page table for granted, and runs
only for areas whose flags are `MAP_SHARED` and nothing else.

- `writeback_ok_iff`: what a run of `writeback` to its end writes;
- `syncRight_iff`: this is right exactly for ranges from the start of a mapping of the file
  from its start on, with a page table behind every page;
- `run_right_iff`: so it is for any sequence of `munmap`s with the end of the process behind.
-/

namespace Xv6.Kernel

/-! ## The end of a process -/

namespace AddrSpace

/-- `writeback` of a whole area at the end of a process, where a file is taken for granted -/
def writebackArea (writei : FileWrite → Bool) (pt : PageTable) (v : Vma) :
    Except String (Bool × List FileWrite) :=
  match v.file with
  | some f => writeback writei pt f.ip v.addr v.length
  | none =>
    match writeback (fun _ => false) pt 0 v.addr v.length with
    | .ok (true, ws) => .ok (true, ws)
    -- the page is dirty, and `v->file->ip` is read through a null pointer
    | .ok (false, _) => .error "kerneltrap"
    | .error e => .error e

/-- The turn of the loop of `mmap_clean` for slot `i`; also the inode that is put. -/
def mmapCleanSlot (writei : FileWrite → Bool) (s : AddrSpace) (i : ℕ) :
    Except String (AddrSpace × MunmapEffects × Option ℕ) :=
  let v := s.shared.vmAreas i
  if !v.used then .ok (s, ⟨[], [], []⟩, none)
  else
    match if v.flags = 1 then writebackArea writei s.pagetable v else .ok (true, []) with
    | .error e => .error e
    | .ok (_, ws) =>
      let doFree := if mapShared v.flags then PageTable.FREE_BCACHE else 1
      match s.pagetable.uvmunmap v.addr (pgRoundUp v.length / PGSIZE) doFree with
      | .error e => .error e
      | .ok (pt', rel) =>
        let refs := (v.file.map fun f => RefOp.fileclose f.slot).toList
        let put := if v.type = .exec then v.ip else none
        .ok (⟨s.shared.setSlot i { v with used := false }, pt'⟩, ⟨ws, refs, rel⟩, put)

/-- The loop of `mmap_clean` -/
def mmapCleanFrom (writei : FileWrite → Bool) :
    List ℕ → AddrSpace → Except String (AddrSpace × List (MunmapEffects × Option ℕ))
  | [], s => .ok (s, [])
  | i :: is, s =>
    match mmapCleanSlot writei s i with
    | .error e => .error e
    | .ok (s, eff, put) =>
      match mmapCleanFrom writei is s with
      | .error e => .error e
      | .ok (s, effs) => .ok (s, (eff, put) :: effs)

/-- `mmap_clean(p)` -/
def mmapClean (writei : FileWrite → Bool) (isthread : Bool) (s : AddrSpace) :
    Except String (AddrSpace × List (MunmapEffects × Option ℕ)) :=
  if isthread then .ok (s, []) else mmapCleanFrom writei (List.range MAX_VMA) s

end AddrSpace

namespace Writeback

/-! ## The pages of a range -/

/-- The pages from `a` up to `last`, `fuel` at most -/
def pagesFrom (last : ℕ) : ℕ → ℕ → List ℕ
  | 0, _ => []
  | fuel + 1, a => if a < last then a :: pagesFrom last fuel (a + PGSIZE) else []

/-- The pages of a range -/
def pages (addr len : ℕ) : List ℕ := pagesFrom (add64 addr len) (len / PGSIZE + 1) addr

theorem mem_pagesFrom {last fuel a va : ℕ} (hfuel : last ≤ a + fuel * PGSIZE) :
    va ∈ pagesFrom last fuel a ↔ a ≤ va ∧ va < last ∧ PGSIZE ∣ va - a := by
  induction fuel generalizing a with
  | zero =>
    simp only [pagesFrom, List.not_mem_nil, false_iff]
    omega
  | succ fuel ih =>
    rw [pagesFrom]
    split
    · next hlt =>
      rw [List.mem_cons, ih (by simp only [PGSIZE] at *; omega)]
      simp only [PGSIZE]
      omega
    · simp only [List.not_mem_nil, false_iff]
      omega

theorem mem_pages {addr len va : ℕ} :
    va ∈ pages addr len ↔ addr ≤ va ∧ va < add64 addr len ∧ PGSIZE ∣ va - addr := by
  refine mem_pagesFrom ?_
  have : add64 addr len ≤ addr + len := Nat.mod_le _ _
  simp only [PGSIZE]
  omega

/-- The hardware has marked the page at `va`, and it may be written. -/
def dirtyAt (pt : PageTable) (va : ℕ) : Bool :=
  match pt.walk va with
  | .ok (some σ) => (pt.get σ).d && (pt.get σ).w
  | _ => false

/-- The length of the page at `va` in a range up to `last` -/
def clip (last va : ℕ) : ℕ := if PGSIZE > last - va then last - va else PGSIZE

/-- The writes of `writeback` from page `a` on, where it has got to offset `off` -/
def writesFrom (pt : PageTable) (ip last fuel a off : ℕ) : List FileWrite :=
  ((pagesFrom last fuel a).filter (dirtyAt pt)).map fun va => ⟨ip, va, off + (va - a), clip last va⟩

/-- A table of the page table is behind every page. -/
def Reached (pt : PageTable) (vas : List ℕ) : Prop := ∀ va ∈ vas, ∃ σ, pt.walk va = .ok (some σ)

theorem le_of_mem_pagesFrom {last fuel a va : ℕ} (h : va ∈ pagesFrom last fuel a) : a ≤ va := by
  induction fuel generalizing a with
  | zero => cases h
  | succ fuel ih =>
    rw [pagesFrom] at h
    split at h
    · rcases List.mem_cons.mp h with rfl | h
      · exact le_refl _
      · exact le_trans (Nat.le_add_right _ _) (ih h)
    · cases h

theorem writesFrom_succ (pt : PageTable) (ip last fuel : ℕ) {a : ℕ} (off : ℕ) (h : a < last) :
    writesFrom pt ip last (fuel + 1) a off =
      (if dirtyAt pt a then [⟨ip, a, off, clip last a⟩] else []) ++
        writesFrom pt ip last fuel (a + PGSIZE) (off + PGSIZE) := by
  have htail : ∀ va ∈ pagesFrom last fuel (a + PGSIZE),
      off + (va - a) = off + PGSIZE + (va - (a + PGSIZE)) := fun va hva => by
    have := le_of_mem_pagesFrom hva
    omega
  rw [writesFrom, pagesFrom, if_pos h, List.filter_cons]
  have hmap : (((pagesFrom last fuel (a + PGSIZE)).filter (dirtyAt pt)).map fun va =>
      (⟨ip, va, off + (va - a), clip last va⟩ : FileWrite)) =
      writesFrom pt ip last fuel (a + PGSIZE) (off + PGSIZE) := by
    refine List.map_congr_left fun va hva => ?_
    rw [htail va (List.mem_of_mem_filter hva)]
  split
  · rw [List.map_cons, hmap, Nat.sub_self]
    rfl
  · rw [hmap]
    rfl

/-- The loop of `writeback` runs to its end exactly if it finds an entry for every page and
    no write fails. -/
theorem writebackFrom_ok_iff {writei : FileWrite → Bool} {pt : PageTable} {ip last fuel a off : ℕ}
    {ws : List FileWrite} : writebackFrom writei pt ip last fuel a off = .ok (true, ws) ↔
      Reached pt (pagesFrom last fuel a) ∧
        (∀ w ∈ writesFrom pt ip last fuel a off, writei w = true) ∧
        ws = writesFrom pt ip last fuel a off := by
  have hend : ∀ {ws : List FileWrite},
      (Except.ok (true, []) : Except String (Bool × List FileWrite)) = .ok (true, ws) ↔ ws = [] :=
    ⟨fun h => by cases h; rfl, fun h => by rw [h]⟩
  induction fuel generalizing a off ws with
  | zero =>
    rw [writebackFrom, hend]
    simp [writesFrom, pagesFrom, Reached]
  | succ fuel ih =>
    rw [writebackFrom]
    split
    swap
    · next hlast =>
      rw [hend]
      simp [writesFrom, pagesFrom, hlast, Reached]
    next hlt =>
    rw [writesFrom_succ pt ip last fuel off hlt, pagesFrom, if_pos hlt, Reached,
      List.forall_mem_cons, ← Reached, and_assoc]
    split
    · next e he => simp [he]
    · next hnone => simp [hnone]
    next σ hσ =>
    have hdirty : dirtyAt pt a = ((pt.get σ).d && (pt.get σ).w) := by simp [dirtyAt, hσ]
    have hreached : (∃ τ, pt.walk a = .ok (some τ)) ↔ True := by simp [hσ]
    rw [hreached, true_and]
    dsimp only
    rw [hdirty]
    split
    swap
    · rw [List.nil_append]
      exact ih
    rw [List.singleton_append, List.forall_mem_cons]
    change (if writei ⟨ip, a, off, clip last a⟩ = true then _ else _) = _ ↔ _
    split
    swap
    · next hw => simp [hw]
    next hw =>
    -- the write of this page, and those behind it
    rw [show (writei ⟨ip, a, off, clip last a⟩ = true) ↔ True by simp [hw], true_and]
    split
    · next e he =>
      refine ⟨nofun, fun ⟨hr, hws, hlist⟩ => ?_⟩
      have hok := ih.mpr ⟨hr, hws, rfl⟩
      rw [he] at hok
      cases hok
    · next ok ws' hrun =>
      constructor
      · intro h
        cases h
        obtain ⟨hr, hws, hlist⟩ := ih.mp hrun
        exact ⟨hr, hws, by rw [hlist]; rfl⟩
      · rintro ⟨hr, hws, rfl⟩
        have hok := ih.mpr ⟨hr, hws, rfl⟩
        cases hrun.symm.trans hok
        rfl

/-- **A run of `writeback` that writes all it has to.** -/
theorem writeback_ok_iff {writei : FileWrite → Bool} {pt : PageTable} {ip addr len : ℕ}
    {ws : List FileWrite} : writeback writei pt ip addr len = .ok (true, ws) ↔
      PGSIZE ∣ addr ∧ Reached pt (pages addr len) ∧
        (∀ w ∈ writesFrom pt ip (add64 addr len) (len / PGSIZE + 1) addr 0, writei w = true) ∧
        ws = writesFrom pt ip (add64 addr len) (len / PGSIZE + 1) addr 0 := by
  rw [writeback]
  split
  · next hne =>
    simp only [Nat.dvd_iff_mod_eq_zero, hne, false_and, iff_false]
    exact nofun
  · next heq =>
    rw [writebackFrom_ok_iff]
    have hdvd : PGSIZE ∣ addr := Nat.dvd_of_mod_eq_zero (not_not.mp heq)
    simp only [hdvd, true_and]
    rfl

/-! ## Right writes -/

/-- Where a mapping began, and at which offset of its file -/
structure Origin where
  start : ℕ
  offset : ℕ

/-- The `uint` offset that `writei` works with -/
def stored (w : FileWrite) : FileWrite := { w with off := w.off % 2 ^ 32 }

/-- What has to be written for a range: every dirty page, at the place in the file that it is
    a mapping of -/
def expected (o : Origin) (ip : ℕ) (pt : PageTable) (addr len : ℕ) : List FileWrite :=
  ((pages addr len).filter (dirtyAt pt)).map fun va =>
    ⟨ip, va, o.offset + (va - o.start), clip (add64 addr len) va⟩

/-- The part of `munmap` and of `mmap_clean` that writes back, for an area of a file -/
def syncs (writei : FileWrite → Bool) (pt : PageTable) (v : Vma) (f : File) (addr len : ℕ) :
    Except String (Bool × List FileWrite) :=
  if v.flags = 1 then writeback writei pt f.ip addr len else .ok (true, [])

/-- It writes what has to be written, without an error. -/
def SyncRight (writei : FileWrite → Bool) (pt : PageTable) (v : Vma) (f : File) (o : Origin)
    (addr len : ℕ) : Prop :=
  ∃ ws, syncs writei pt v f addr len = .ok (true, ws) ∧
    ws.map stored = expected o f.ip pt addr len

/-- The mapping is of the start of the file, and the range is from its start on, if any page
    is dirty; a table is behind every page. -/
structure SyncSafe (writei : FileWrite → Bool) (pt : PageTable) (v : Vma) (f : File) (o : Origin)
    (addr len : ℕ) : Prop where
  aligned : v.flags = 1 → PGSIZE ∣ addr
  reached : v.flags = 1 → Reached pt (pages addr len)
  place : ∀ va ∈ pages addr len, dirtyAt pt va = true →
    v.flags = 1 ∧ addr = o.start ∧ o.offset = 0 ∧ va - addr < 2 ^ 32
  accepted : ∀ va ∈ pages addr len, dirtyAt pt va = true →
    writei ⟨f.ip, va, va - addr, clip (add64 addr len) va⟩ = true

theorem map_stored_writesFrom_iff {o : Origin} {ip addr len : ℕ} {pt : PageTable}
    (hstart : o.start ≤ addr) :
    (writesFrom pt ip (add64 addr len) (len / PGSIZE + 1) addr 0).map stored =
        expected o ip pt addr len ↔
      ∀ va ∈ pages addr len, dirtyAt pt va = true →
        addr = o.start ∧ o.offset = 0 ∧ va - addr < 2 ^ 32 := by
  rw [writesFrom, expected, List.map_map, ← pages, List.map_inj_left]
  have hplace : ∀ va, addr ≤ va →
      ((0 + (va - addr)) % 2 ^ 32 = o.offset + (va - o.start) ↔
        addr = o.start ∧ o.offset = 0 ∧ va - addr < 2 ^ 32) := fun va hle => by omega
  constructor
  · intro h va hva hd
    have heq := congrArg FileWrite.off (h va (List.mem_filter.mpr ⟨hva, hd⟩))
    exact (hplace va (le_of_mem_pagesFrom hva)).mp heq
  · intro h va hva
    obtain ⟨hva, hd⟩ := List.mem_filter.mp hva
    have heq := (hplace va (le_of_mem_pagesFrom hva)).mpr (h va hva hd)
    simp only [Function.comp_apply, stored, heq]

/-- **One range is written back right exactly under these conditions.** -/
theorem syncRight_iff {writei : FileWrite → Bool} {pt : PageTable} {v : Vma} {f : File}
    {o : Origin} {addr len : ℕ} (hstart : o.start ≤ addr) :
    SyncRight writei pt v f o addr len ↔ SyncSafe writei pt v f o addr len := by
  unfold SyncRight syncs
  -- With `MAP_SHARED` alone the pages are written.
  by_cases hflags : v.flags = 1
  · simp only [hflags, if_true, writeback_ok_iff]
    -- The writes made are those of the dirty pages, in order.
    constructor
    · rintro ⟨ws, ⟨haligned, hreached, hws, rfl⟩, heq⟩
      have hplace := (map_stored_writesFrom_iff hstart).mp heq
      refine ⟨fun _ => haligned, fun _ => hreached,
        fun va hva hd => ⟨hflags, hplace va hva hd⟩, fun va hva hd => ?_⟩
      have hmem := List.mem_map_of_mem (f := fun va =>
        (⟨f.ip, va, 0 + (va - addr), clip (add64 addr len) va⟩ : FileWrite))
        (List.mem_filter.mpr ⟨hva, hd⟩)
      simpa using hws _ hmem
    · rintro ⟨haligned, hreached, hplace, haccepted⟩
      refine ⟨_, ⟨haligned hflags, hreached hflags, fun w hw => ?_, rfl⟩,
        (map_stored_writesFrom_iff hstart).mpr fun va hva hd => (hplace va hva hd).2⟩
      obtain ⟨va, hva, rfl⟩ := List.mem_map.mp hw
      obtain ⟨hva, hd⟩ := List.mem_filter.mp hva
      simpa using haccepted va hva hd
  · simp only [hflags, if_false]
    -- Nothing is written else, which is right if no page is dirty.
    have hnil : (∃ ws, (Except.ok (true, []) : Except String (Bool × List FileWrite)) =
        .ok (true, ws) ∧ ws.map stored = expected o f.ip pt addr len) ↔
        ∀ va ∈ pages addr len, dirtyAt pt va = false := by
      constructor
      · rintro ⟨ws, heq, hws⟩ va hva
        cases heq
        rw [List.map_nil, expected, eq_comm, List.map_eq_nil_iff, List.filter_eq_nil_iff] at hws
        simpa using hws va hva
      · intro hclean
        refine ⟨[], rfl, ?_⟩
        rw [expected, List.filter_eq_nil_iff.mpr fun va hva => by simp [hclean va hva]]
        rfl
    rw [hnil]
    constructor
    · intro hclean
      exact ⟨fun h => absurd h hflags, fun h => absurd h hflags,
        fun va hva hd => absurd hd (by simp [hclean va hva]),
        fun va hva hd => absurd hd (by simp [hclean va hva])⟩
    · intro hsafe va hva
      by_contra hd
      exact hflags (hsafe.place va hva (by simpa using hd)).1

/-! ## Sequences of unmappings -/

/-- A call of `munmap`, with the page table and the files it meets -/
structure Unmap where
  pt : PageTable
  writei : FileWrite → Bool
  addr : ℕ
  len : ℕ

/-- The call is for a range of pages of the area that it finds. -/
def Unmap.InArea (c : Unmap) (ts : ThreadShared) : Prop :=
  ∀ i, AddrSpace.mmapped ⟨ts, c.pt⟩ c.addr = some i →
    c.addr + pgRoundDown c.len < 2 ^ 64 ∧
      c.addr + pgRoundDown c.len ≤ (ts.vmAreas i).addr + pgRoundUp (ts.vmAreas i).length

/-- What a call that goes ahead has to satisfy, if it is for a shared mapping of a file -/
def Unmap.AtArea (c : Unmap) (ts : ThreadShared) (P : ℕ → File → Prop) : Prop :=
  c.addr % PGSIZE = 0 → pgRoundDown c.len ≠ 0 →
    ∀ i f, AddrSpace.mmapped ⟨ts, c.pt⟩ c.addr = some i →
      mapShared (ts.vmAreas i).flags = true → (ts.vmAreas i).file = some f → P i f

/-- The calls of a sequence satisfy `P`, and what they leave satisfies `Q`, up to a panic. -/
def Calls (P : ThreadShared → Unmap → Prop) (Q : ThreadShared → Prop) :
    ThreadShared → List Unmap → Prop
  | ts, [] => Q ts
  | ts, c :: cs => c.InArea ts → P ts c ∧ ∀ s ret eff,
      AddrSpace.munmap c.writei ⟨ts, c.pt⟩ c.addr c.len = .ok (s, ret, eff) → Calls P Q s.shared cs

/-- The shared mappings of files satisfy `P` when the end of the process comes to them, up to
    a panic. -/
def Ends (writei : FileWrite → Bool) (P : AddrSpace → ℕ → File → Prop) :
    List ℕ → AddrSpace → Prop
  | [], _ => True
  | i :: is, s =>
    ((s.shared.vmAreas i).used = true → mapShared (s.shared.vmAreas i).flags = true →
      ∀ f, (s.shared.vmAreas i).file = some f → P s i f) ∧
    ∀ s' eff put, AddrSpace.mmapCleanSlot writei s i = .ok (s', eff, put) → Ends writei P is s'

/-- A sequence of `munmap`s of page ranges of the areas, and the end of the process with the
    page table `pt`. In between, pages are touched and written. -/
def Run (C : (FileWrite → Bool) → PageTable → Vma → File → Origin → ℕ → ℕ → Prop)
    (origin : ℕ → Origin) (ts : ThreadShared) (cs : List Unmap) (pt : PageTable)
    (writei : FileWrite → Bool) : Prop :=
  Calls
    (fun ts c => c.AtArea ts fun i f =>
      C c.writei c.pt (ts.vmAreas i) f (origin i) c.addr (pgRoundDown c.len))
    (fun ts => Ends writei
      (fun s i f => C writei s.pagetable (s.shared.vmAreas i) f (origin i)
        (s.shared.vmAreas i).addr (s.shared.vmAreas i).length)
      (List.range MAX_VMA) ⟨ts, pt⟩)
    ts cs

/-- Where the areas of a table begin -/
def originOf (ts : ThreadShared) (i : ℕ) : Origin :=
  ⟨(ts.vmAreas i).addr, (ts.vmAreas i).offset⟩

/-- No area begins before the mapping that it is left of. -/
def Behind (origin : ℕ → Origin) (ts : ThreadShared) : Prop :=
  ∀ i, (ts.vmAreas i).used = true → (origin i).start ≤ (ts.vmAreas i).addr

theorem calls_congr {P P' : ThreadShared → Unmap → Prop} {Q Q' : ThreadShared → Prop}
    {I : ThreadShared → Prop} (hP : ∀ ts c, I ts → (P ts c ↔ P' ts c))
    (hQ : ∀ ts, I ts → (Q ts ↔ Q' ts))
    (hI : ∀ ts (c : Unmap) s ret eff, I ts → c.InArea ts →
      AddrSpace.munmap c.writei ⟨ts, c.pt⟩ c.addr c.len = .ok (s, ret, eff) → I s.shared)
    {ts : ThreadShared} (hts : I ts) (cs : List Unmap) : Calls P Q ts cs ↔ Calls P' Q' ts cs := by
  induction cs generalizing ts with
  | nil => exact hQ ts hts
  | cons c cs ih =>
    rw [Calls, Calls]
    refine imp_congr_right fun harea => and_congr (hP ts c hts) ?_
    exact forall_congr' fun s => forall_congr' fun ret => forall_congr' fun eff =>
      imp_congr_right fun hm => ih (hI ts c s ret eff hts harea hm)

theorem ends_congr {writei : FileWrite → Bool} {P P' : AddrSpace → ℕ → File → Prop}
    {I : AddrSpace → Prop}
    (hP : ∀ s i f, I s → (s.shared.vmAreas i).used = true → (P s i f ↔ P' s i f))
    (hI : ∀ s i s' eff put, I s → AddrSpace.mmapCleanSlot writei s i = .ok (s', eff, put) → I s')
    {s : AddrSpace} (hs : I s) (is : List ℕ) : Ends writei P is s ↔ Ends writei P' is s := by
  induction is generalizing s with
  | nil => exact Iff.rfl
  | cons i is ih =>
    rw [Ends, Ends]
    refine and_congr ?_ ?_
    · exact imp_congr_right fun hu => imp_congr_right fun _ => forall_congr' fun f =>
        imp_congr_right fun _ => hP s i f hs hu
    · exact forall_congr' fun s' => forall_congr' fun eff => forall_congr' fun put =>
        imp_congr_right fun hm => ih (hI s i s' eff put hs hm)

/-- `munmap` of pages of an area leaves every area behind its start. -/
theorem behind_munmap {origin : ℕ → Origin} {ts : ThreadShared} {c : Unmap} {s : AddrSpace}
    {ret : ℕ} {eff : MunmapEffects} (h : Behind origin ts) (harea : c.InArea ts)
    (hm : AddrSpace.munmap c.writei ⟨ts, c.pt⟩ c.addr c.len = .ok (s, ret, eff)) :
    Behind origin s.shared := by
  rcases AddrSpace.munmap_cases hm with ⟨rfl, -⟩ | ⟨-, -, -, i, pt', rel, doFree, hfind, -, rfl⟩
  · exact h
  obtain ⟨hwrap, -⟩ := harea i hfind
  intro k hk
  by_cases hki : k = i
  · subst hki
    have hu : (ts.vmAreas k).used = true := by
      have hcov := (AddrSpace.mmapped_spec hfind).2.1
      simp only [Vma.covers, Bool.and_eq_true] at hcov
      exact hcov.1.1
    refine (h k hu).trans ?_
    simp only [ThreadShared.setSlot_self, Vma.cut]
    split
    · exact le_refl _
    · dsimp only
      split
      · next haddr =>
        rw [haddr, add64, Nat.mod_eq_of_lt hwrap]
        exact Nat.le_add_right _ _
      · exact le_refl _
  · simp only [ThreadShared.setSlot_of_ne _ _ hki] at hk ⊢
    exact h k hk

theorem mmapCleanSlot_shared {writei : FileWrite → Bool} {s s' : AddrSpace} {i : ℕ}
    {eff : MunmapEffects} {put : Option ℕ}
    (h : AddrSpace.mmapCleanSlot writei s i = .ok (s', eff, put)) :
    s' = s ∨ ∃ pt', s' = ⟨s.shared.setSlot i { s.shared.vmAreas i with used := false }, pt'⟩ := by
  unfold AddrSpace.mmapCleanSlot at h
  dsimp only at h
  split at h
  · cases h
    exact .inl rfl
  split at h
  · cases h
  split at h
  · cases h
  · cases h
    exact .inr ⟨_, rfl⟩

theorem behind_mmapCleanSlot {origin : ℕ → Origin} {writei : FileWrite → Bool} {s s' : AddrSpace}
    {i : ℕ} {eff : MunmapEffects} {put : Option ℕ} (h : Behind origin s.shared)
    (hm : AddrSpace.mmapCleanSlot writei s i = .ok (s', eff, put)) : Behind origin s'.shared := by
  rcases mmapCleanSlot_shared hm with rfl | ⟨pt', rfl⟩
  · exact h
  intro k hk
  by_cases hki : k = i
  · subst hki
    simp at hk
  · simp only [ThreadShared.setSlot_of_ne _ _ hki] at hk ⊢
    exact h k hk

/-- **Shared mappings are written back where they came from, if and only if at every
    `munmap` and at the end what is dirty belongs to a range from the start of a mapping of the
    start of its file, and every page has a table behind it.** -/
theorem run_right_iff (ts : ThreadShared) (cs : List Unmap) (pt : PageTable)
    (writei : FileWrite → Bool) :
    Run SyncRight (originOf ts) ts cs pt writei ↔ Run SyncSafe (originOf ts) ts cs pt writei := by
  have hbehind : Behind (originOf ts) ts := fun i _ => le_refl _
  refine calls_congr (I := Behind (originOf ts)) (fun ts' c h => ?_) (fun ts' h => ?_)
    (fun ts' c s ret eff h harea hm => behind_munmap h harea hm) hbehind cs
  · refine imp_congr_right fun _ => imp_congr_right fun _ => forall_congr' fun i =>
      forall_congr' fun f => imp_congr_right fun hfind => ?_
    refine imp_congr_right fun _ => imp_congr_right fun _ => syncRight_iff ?_
    have hcov := (AddrSpace.mmapped_spec hfind).2.1
    simp only [Vma.covers, Bool.and_eq_true, decide_eq_true_eq] at hcov
    exact (h i hcov.1.1).trans hcov.1.2
  · refine ends_congr (I := fun s => Behind (originOf ts) s.shared)
      (fun s i f h hu => syncRight_iff (h i hu))
      (fun s i s' eff put h hm => behind_mmapCleanSlot h hm) h _

/-- What `munmap` writes is what `syncs` writes for the area that it finds. -/
theorem munmap_writes {c : Unmap} {ts : ThreadShared} {s : AddrSpace} {ret i : ℕ}
    {eff : MunmapEffects} {f : File} (haddr : c.addr % PGSIZE = 0) (hlen : pgRoundDown c.len ≠ 0)
    (hfind : AddrSpace.mmapped ⟨ts, c.pt⟩ c.addr = some i) (hf : (ts.vmAreas i).file = some f)
    (hm : AddrSpace.munmap c.writei ⟨ts, c.pt⟩ c.addr c.len = .ok (s, ret, eff)) :
    ∃ ok, syncs c.writei c.pt (ts.vmAreas i) f c.addr (pgRoundDown c.len) =
      .ok (ok, eff.writes) := by
  rw [AddrSpace.munmap, if_neg (not_not.mpr haddr)] at hm
  simp only [if_neg hlen, hfind, hf] at hm
  unfold syncs
  split at hm
  · cases hm
  next ok ws hsync =>
  split at hm
  · cases hm
  · cases hm
    exact ⟨ok, hsync⟩

/-! ## The second page of a mapping -/

/-- A file that may be read and written -/
def file : File := ⟨3, .inode, true, true, 7⟩

/-- A table with one area: the first two pages of the file, mapped shared -/
def twoPages : ThreadShared where
  sz := 8192
  vmAreas := fun i =>
    if i = 0 then ⟨true, USYSCALL - 8192, 8192, 3, 1, some file, some 7, 0, 8192, .dynamic⟩
    else ⟨false, 0, 0, 0, 0, none, none, 0, 0, .exec⟩

/-- A page table in which every page has been written -/
def allDirty : PageTable where
  root := fun _ => some fun _ => .table fun _ =>
    ⟨0x87000, true, true, true, false, true, false, true, true, false, false⟩

/-- `munmap` of the second page -/
def unmapSecond : Unmap := ⟨allDirty, fun _ => true, USYSCALL - 4096, 4096⟩

/-- The second page of the mapping is written to the first page of the file. -/
theorem second_page_overwrites_first : ¬ ∀ (ts : ThreadShared) (cs : List Unmap) (pt : PageTable)
    (writei : FileWrite → Bool), Run SyncRight (originOf ts) ts cs pt writei := by
  intro hall
  have hfind : AddrSpace.mmapped ⟨twoPages, allDirty⟩ (USYSCALL - 4096) = some 0 := by decide
  have harea : unmapSecond.InArea twoPages := by
    intro i hi
    cases hfind.symm.trans hi
    decide
  obtain ⟨hcall, -⟩ := hall twoPages [unmapSecond] allDirty (fun _ => true) harea
  have hright := hcall (by decide) (by decide) 0 file hfind (by decide) rfl
  have hsafe := (syncRight_iff (by decide)).mp hright
  have hmem : USYSCALL - 4096 ∈ pages (USYSCALL - 4096) (pgRoundDown 4096) :=
    mem_pages.mpr (by decide)
  exact absurd (hsafe.place _ hmem (by decide)).2.1 (by decide)

end Writeback

end Xv6.Kernel
