import Mathlib
import Xv6.Kernel.Eviction

/-!
# Forking without Memory

`allocproc` holds the lock of the process that it has found when it calls `kalloc`. When the free lists are
empty `kalloc` looks for a page to swap out, and takes the lock of one process after the other for it.

It comes to the lock that is held already, unless it finds a page before that has not been used at all. This
page has to be written to the disk then, unless there is no room for it.

- `Cpu`: the process table and the memory, with the spinlocks that this CPU holds;
- `scanProcs_before`: the part of the search before the process that is held;
- `fork_clean_iff`: when `fork` returns.
-/

namespace Xv6.Kernel.Eviction

/-! ## Locks -/

/-- The spinlocks on the way. Threads share a `tlock`; nobody holds two of them. -/
inductive Lock where
  /-- `proc[i].lock` -/
  | proc (i : ℕ)
  /-- `proc[i].tshared->tlock` -/
  | tlock (i : ℕ)
  /-- `kmems[i].lock` -/
  | kmem (i : ℕ)
  | ref
  | swap
  | pid
  deriving DecidableEq

/-- A CPU that runs in the kernel, and what it works on -/
structure Cpu (κ : Type*) where
  world : World κ
  /-- `kmems[].freelist` -/
  freelist : ℕ → List ℕ
  nextpid : ℤ
  /-- `cpuid()` -/
  id : ℕ
  held : List Lock

namespace Cpu

variable {κ : Type*}

def acquire (l : Lock) (c : Cpu κ) : Except String (Cpu κ) :=
  if l ∈ c.held then .error "acquire" else .ok { c with held := l :: c.held }

def release (l : Lock) (c : Cpu κ) : Except String (Cpu κ) :=
  if l ∈ c.held then .ok { c with held := c.held.erase l } else .error "release"

/-- `sched()`, when a process sleeps: it may not hold spinlocks. -/
def sched (c : Cpu κ) : Except String (Cpu κ) := if c.held = [] then .ok c else .error "sched locks"

/-! ## The code -/

variable [DecidableEq κ]

/-- `pageage(pte)` -/
def pageage (c : Cpu κ) (q : κ) : Except String (Cpu κ × UInt8) := do
  let c ← c.acquire .swap
  let (w, age) := c.world.pageage q
  let c ← { c with world := w }.release .swap
  .ok (c, age)

/-- The loop of `find_swapping_page` over the pages of a process -/
def scanPages (c : Cpu κ) : List κ → Scan κ → Except String (Cpu κ × Scan κ)
  | [], sc => .ok (c, sc)
  | q :: qs, sc =>
    let pte := c.world.pte q
    if !pte.v then c.scanPages qs sc
    else if pte.cow then c.scanPages qs sc
    else if pte.onlyV then .error "find_nfup_proc: not a leaf"
    else if ¬ InRam pte.pa then .error "kerneltrap"
    else do
      let (c, age) ← c.pageage q
      let sc := if age < sc.minage ∧ c.world.refCnt (refIdx pte.pa) = 1 then ⟨age, some q⟩ else sc
      if sc.minage = 0 then .ok (c, sc) else scanPages c qs sc

/-- The loop over the processes -/
def scanProcs (c : Cpu κ) : List (Proc κ × ℕ) → Scan κ → Except String (Cpu κ × Scan κ)
  | [], sc => .ok (c, sc)
  | (p, i) :: ps, sc => do
    let c ← c.acquire (.proc i)
    let (c, sc) ← (if p.evictable then do
        let c ← c.acquire (.tlock i)
        let c ← c.acquire .ref
        let (c, sc) ← c.scanPages p.entries sc
        let c ← c.release .ref
        let c ← c.release (.tlock i)
        .ok (c, sc)
      else .ok (c, sc))
    let c ← c.release (.proc i)
    if sc.minage = 0 then .ok (c, sc) else scanProcs c ps sc

/-- `pageout(pte)`: `bwrite` sleeps until the disk has the page. -/
def pageout (c : Cpu κ) (q : κ) : Except String (Cpu κ × ℕ) := do
  let c ← c.acquire .swap
  if (c.world.pte q).v then
    match c.world.freeSlot with
    | none =>
      let c ← c.release .swap
      .ok (c, 0)
    | some _ =>
      let (w, pa) := c.world.pageout q
      let c ← { c with world := w }.release .swap
      let c ← c.sched
      let c ← c.acquire .swap
      let c ← c.release .swap
      .ok (c, pa)
  else
    let c ← c.release .swap
    .ok (c, failed)

/-- `find_swapping_page(refcnt, memlock)` -/
def findSwappingPage (c : Cpu κ) : Except String (Cpu κ × ℕ) := do
  let (c, sc) ← c.scanProcs c.world.procs.zipIdx ⟨255, none⟩
  match sc.ret with
  | none => .ok (c, 0)
  | some q =>
    let c ← c.acquire .ref
    let idx := refIdx (c.world.pte q).pa
    if c.world.refCnt idx ≠ 1 then .error "find_swapping_page 2"
    else
      let c ← c.release .ref
      let (c, res) ← c.pageout q
      if res > 0 then
        let c ← c.acquire .ref
        let c ← { c with world := { c.world with refCnt := Function.update c.world.refCnt idx 0 } }.release .ref
        .ok (c, res)
      else .ok (c, res)

/-- `ksteal(head)`: what it cuts off -/
def ksteal (l : List ℕ) : List ℕ := l.drop ((l.length + 1) / 2)

/-- The free lists of the other CPUs: the page, and what is left for this CPU -/
def steal (c : Cpu κ) : List ℕ → Except String (Cpu κ × Option ℕ)
  | [] => .ok (c, none)
  | j :: js =>
    if j = c.id then c.steal js
    else do
      let c ← c.acquire (.kmem j)
      match c.freelist j with
      | [] =>
        let c ← c.release (.kmem j)
        c.steal js
      | pa :: rest =>
        let stolen := ksteal (pa :: rest)
        let mine := ((pa :: rest).take ((rest.length + 2) / 2)).tail
        let c ← { c with freelist := Function.update c.freelist j stolen }.release (.kmem j)
        let c ← c.acquire (.kmem c.id)
        let c ← { c with freelist := Function.update c.freelist c.id mine }.release (.kmem c.id)
        .ok (c, some pa)

/-- The page from the free lists -/
def takeFree (c : Cpu κ) : Except String (Cpu κ × Option ℕ) := do
  let c ← c.acquire (.kmem c.id)
  match c.freelist c.id with
  | pa :: rest =>
    let c ← { c with freelist := Function.update c.freelist c.id rest }.release (.kmem c.id)
    .ok (c, some pa)
  | [] =>
    let c ← c.release (.kmem c.id)
    c.steal (List.range NCPU)

/-- `kincget(r)` of a page that `kalloc` returns -/
def kincget (c : Cpu κ) (pa : ℕ) : Except String (Cpu κ) := do
  let c ← c.acquire .ref
  let idx := refIdx pa
  let c := { c with world := { c.world with refCnt := Function.update c.world.refCnt idx (c.world.refCnt idx + 1) } }
  let c ← c.release .ref
  if c.world.refCnt idx ≠ 1 then .error "kalloc_ref_cnt" else .ok c

/-- `kalloc()`, 0 if there is no page -/
def kalloc (c : Cpu κ) : Except String (Cpu κ × ℕ) := do
  let (c, r) ← c.takeFree
  let (c, pa) ← (match r with
    | some pa => .ok (c, pa)
    | none => c.findSwappingPage)
  if pa = 0 then .ok (c, 0)
  else
    let c ← c.kincget pa
    .ok (c, pa)

def setProc (c : Cpu κ) (i : ℕ) (f : Proc κ → Proc κ) : Cpu κ :=
  { c with world := { c.world with procs := c.world.procs.modify i f } }

/-- The loop of `allocproc`: the process that it finds, whose lock it keeps -/
def findUnused (c : Cpu κ) : List (Proc κ × ℕ) → Except String (Cpu κ × Option ℕ)
  | [] => .ok (c, none)
  | (p, i) :: ps => do
    let c ← c.acquire (.proc i)
    if p.state = .unused then .ok (c, some i)
    else
      let c ← c.release (.proc i)
      c.findUnused ps

/-- `allocpid()` -/
def allocpid (c : Cpu κ) : Except String (Cpu κ × ℤ) := do
  let c ← c.acquire .pid
  let c ← { c with nextpid := c.nextpid + 1 }.release .pid
  .ok (c, c.nextpid - 1)

/-- `freeproc(p)` of a process that has got no pages -/
def freeproc (c : Cpu κ) (i : ℕ) : Cpu κ :=
  c.setProc i fun p => { p with state := .unused, pid := 0 }

/-- `fork()`. What happens from the trapframe of the new process on is arbitrary. -/
def fork (rest : Cpu κ → ℕ → ℕ → Except String (Cpu κ × ℤ)) (c : Cpu κ) : Except String (Cpu κ × ℤ) := do
  let (c, found) ← c.findUnused c.world.procs.zipIdx
  match found with
  | none => .ok (c, -1)
  | some i =>
    let (c, pid) ← c.allocpid
    let c := c.setProc i fun p => { p with state := .used, pid := pid }
    let (c, pa) ← c.kalloc
    if pa = 0 then
      let c ← (c.freeproc i).release (.proc i)
      .ok (c, -1)
    else rest c i pa

end Cpu

/-! ## When the lists are empty -/

/-- A CPU that calls `fork` when all the free lists are empty -/
structure OutOfMemory (κ : Type*) where
  cpu : Cpu κ
  freelist : ∀ j, cpu.freelist j = []
  held : cpu.held = []

/-- **A fork is clean**: it returns -1 or a process, no lock has been taken twice and none is left, and nobody
    has slept with one. -/
def Clean {κ : Type*} (r : Except String (Cpu κ × ℤ)) : Prop :=
  ∃ c ret, r = .ok (c, ret) ∧ (ret = -1 ∨ 0 < ret) ∧ c.held = []

/-- The processes before the first one that is not in use -/
def before {κ : Type*} (procs : List (Proc κ)) : List (Proc κ) :=
  procs.takeWhile fun p => p.state ≠ .unused

/-- The entries of these processes that the search comes to -/
def entriesOf {κ : Type*} (ps : List (Proc κ)) : List κ := (ps.filter Proc.evictable).flatMap Proc.entries

/-- The search finds a page that has not been used, before it comes to the process that is held. -/
def FindsUnused {κ : Type*} [DecidableEq κ] (w : World κ) : Prop :=
  (∀ x ∈ visits w (entriesOf (before w.procs)), x.Sound) ∧
    ∃ x ∈ visits w (entriesOf (before w.procs)), x.age = 0 ∧ x.alone = true

namespace Cpu

variable {κ : Type*} {c : Cpu κ} {l : Lock} {n : ℕ}

theorem acquire_ok (h : l ∉ c.held) : c.acquire l = .ok { c with held := l :: c.held } := if_neg h

theorem acquire_held (h : l ∈ c.held) : c.acquire l = .error "acquire" := if_pos h

/-- The lock that has been taken last is given back. -/
theorem release_head {hs : List Lock} (h : c.held = l :: hs) : c.release l = .ok { c with held := hs } := by
  unfold release
  rw [h, if_pos List.mem_cons_self, List.erase_cons_head]

variable [DecidableEq κ]

/-! ## The search -/

/-- The search over entries one part after the other -/
theorem search_append {w : World κ} (qs qs' : List κ) {sc : Scan κ} (hmin : sc.minage ≠ 0) :
    w.search (qs ++ qs') sc = (w.search qs sc).bind fun r =>
      if r.2.minage = 0 then .ok r else r.1.search qs' r.2 := by
  -- the search stops early only once it has found an age of 0
  induction qs generalizing w sc with
  | nil =>
    change w.search qs' sc = if sc.minage = 0 then _ else _
    rw [if_neg hmin]
  | cons q qs ih =>
    rw [List.cons_append, World.search, World.search]
    dsimp only
    by_cases hv : (w.pte q).v = true
    · simp only [hv, Bool.not_true, Bool.false_eq_true, if_false]
      by_cases hcow : (w.pte q).cow = true
      · rw [if_pos hcow, if_pos hcow]
        exact ih hmin
      rw [if_neg hcow, if_neg hcow]
      by_cases hleaf : (w.pte q).onlyV = true
      · rw [if_pos hleaf, if_pos hleaf]
        rfl
      rw [if_neg hleaf, if_neg hleaf]
      by_cases hram : InRam (w.pte q).pa
      · rw [if_neg (not_not.mpr hram), if_neg (not_not.mpr hram)]
        generalize (if (w.pageage q).2 < sc.minage ∧ w.refCnt (refIdx (w.pte q).pa) = 1 then
          (⟨(w.pageage q).2, some q⟩ : Scan κ) else sc) = sc'
        by_cases hzero : sc'.minage = 0
        · rw [if_pos hzero, if_pos hzero]
          exact (if_pos hzero).symm
        · rw [if_neg hzero, if_neg hzero]
          exact ih hzero
      · rw [if_pos hram, if_pos hram]
        rfl
    · simp only [Bool.not_eq_true] at hv
      simp only [hv, Bool.not_false, if_true]
      exact ih hmin

theorem pageage_eq (hswap : .swap ∉ c.held) (q : κ) :
    c.pageage q = .ok ({ c with world := (c.world.pageage q).1 }, (c.world.pageage q).2) := by
  unfold pageage
  rw [acquire_ok hswap]
  dsimp only [bind, Except.bind]
  rw [release_head rfl]

/-- The loop over the pages of a process is the search over its entries. -/
theorem scanPages_eq (hswap : .swap ∉ c.held) (qs : List κ) (sc : Scan κ) :
    c.scanPages qs sc = (c.world.search qs sc).map fun r => ({ c with world := r.1 }, r.2) := by
  -- the two loops take the same branches, and the locks are those that they began with
  induction qs generalizing c sc with
  | nil => rfl
  | cons q qs ih =>
    rw [scanPages, World.search]
    dsimp only
    by_cases hv : (c.world.pte q).v = true
    · simp only [hv, Bool.not_true, Bool.false_eq_true, if_false]
      by_cases hcow : (c.world.pte q).cow = true
      · rw [if_pos hcow, if_pos hcow]
        exact ih hswap sc
      rw [if_neg hcow, if_neg hcow]
      by_cases hleaf : (c.world.pte q).onlyV = true
      · rw [if_pos hleaf, if_pos hleaf]
        rfl
      rw [if_neg hleaf, if_neg hleaf]
      by_cases hram : InRam (c.world.pte q).pa
      · rw [if_neg (not_not.mpr hram), if_neg (not_not.mpr hram), pageage_eq hswap]
        dsimp only [bind, Except.bind]
        rw [show (c.world.pageage q).1.refCnt = c.world.refCnt from rfl]
        generalize (if (c.world.pageage q).2 < sc.minage ∧ c.world.refCnt (refIdx (c.world.pte q).pa) = 1 then
          (⟨(c.world.pageage q).2, some q⟩ : Scan κ) else sc) = sc'
        by_cases hzero : sc'.minage = 0
        · rw [if_pos hzero, if_pos hzero]
          rfl
        · rw [if_neg hzero, if_neg hzero]
          exact ih (c := { c with world := (c.world.pageage q).1 }) hswap sc'
      · rw [if_pos hram, if_pos hram]
        rfl
    · simp only [Bool.not_eq_true] at hv
      simp only [hv, Bool.not_false, if_true]
      exact ih hswap sc

/-- **The search before the process that is held** is a search over the entries of the processes there. -/
theorem scanProcs_before (hheld : c.held = [.proc n]) (ps tail : List (Proc κ × ℕ))
    (hps : ∀ x ∈ ps, x.2 ≠ n) {sc : Scan κ} (hmin : sc.minage ≠ 0) :
    c.scanProcs (ps ++ tail) sc = (c.world.search (entriesOf (ps.map Prod.fst)) sc).bind fun r =>
      if r.2.minage = 0 then .ok ({ c with world := r.1 }, r.2)
      else { c with world := r.1 }.scanProcs tail r.2 := by
  -- induction on the processes before the one that is held, whose locks are all free
  induction ps generalizing c sc with
  | nil =>
    change c.scanProcs tail sc = if sc.minage = 0 then _ else _
    rw [if_neg hmin]
  | cons x ps ih =>
    obtain ⟨p, i⟩ := x
    have hi : i ≠ n := hps (p, i) List.mem_cons_self
    have hrest : ∀ x ∈ ps, x.2 ≠ n := fun x hx => hps x (List.mem_cons_of_mem _ hx)
    have hproc : Lock.proc i ∉ c.held := by
      rw [hheld, List.mem_singleton]
      exact fun h => hi (Lock.proc.inj h)
    rw [List.cons_append, scanProcs, acquire_ok hproc]
    dsimp only [bind, Except.bind]
    by_cases hp : p.evictable = true
    · have hentries : entriesOf (((p, i) :: ps).map Prod.fst) = p.entries ++ entriesOf (ps.map Prod.fst) := by
        unfold entriesOf
        rw [List.map_cons, List.filter_cons_of_pos hp, List.flatMap_cons]
      rw [if_pos hp, hentries, search_append _ _ hmin, acquire_ok (by simp [hheld])]
      dsimp only
      rw [acquire_ok (by simp [hheld])]
      dsimp only
      rw [scanPages_eq (by simp [hheld])]
      cases hsearch : c.world.search p.entries sc with
      | error e => rfl
      | ok r =>
        dsimp only [Except.map, Except.bind]
        rw [release_head rfl]
        dsimp only
        rw [release_head rfl]
        dsimp only
        rw [release_head rfl]
        by_cases hzero : r.2.minage = 0
        · simp only [hzero, if_true]
        · simp only [hzero, if_false]
          exact ih (c := { c with world := r.1 }) hheld hrest hzero
    · have hentries : entriesOf (((p, i) :: ps).map Prod.fst) = entriesOf (ps.map Prod.fst) := by
        unfold entriesOf
        rw [List.map_cons, List.filter_cons_of_neg hp]
      rw [if_neg hp, hentries]
      dsimp only
      rw [release_head rfl]
      dsimp only
      rw [if_neg hmin]
      exact ih hheld hrest hmin

/-! ## The process that is found -/

omit [DecidableEq κ] in
theorem findUnused_none (hheld : c.held = []) (procs : List (Proc κ)) (k : ℕ)
    (hnone : ∀ p ∈ procs, p.state ≠ .unused) : c.findUnused (procs.zipIdx k) = .ok (c, none) := by
  induction procs generalizing k with
  | nil => rfl
  | cons p ps ih =>
    obtain ⟨hp, hps⟩ := List.forall_mem_cons.mp hnone
    rw [List.zipIdx_cons, findUnused, acquire_ok (by simp [hheld])]
    dsimp only [bind, Except.bind]
    rw [if_neg hp, release_head rfl]
    exact ih (k + 1) hps

omit [DecidableEq κ] in
/-- The lock of the first process that is not in use is kept. -/
theorem findUnused_some (hheld : c.held = []) (ps : List (Proc κ)) (p : Proc κ) (tail : List (Proc κ)) (k : ℕ)
    (hps : ∀ p ∈ ps, p.state ≠ .unused) (hp : p.state = .unused) :
    c.findUnused ((ps ++ p :: tail).zipIdx k) =
      .ok ({ c with held := [.proc (k + ps.length)] }, some (k + ps.length)) := by
  induction ps generalizing k with
  | nil =>
    rw [List.nil_append, List.zipIdx_cons, findUnused, acquire_ok (by simp [hheld])]
    dsimp only [bind, Except.bind]
    rw [if_pos hp, hheld]
    rfl
  | cons p' ps ih =>
    obtain ⟨hp', hps⟩ := List.forall_mem_cons.mp hps
    rw [List.cons_append, List.zipIdx_cons, findUnused, acquire_ok (by simp [hheld])]
    dsimp only [bind, Except.bind]
    rw [if_neg hp', release_head rfl, List.length_cons, ← Nat.add_assoc, Nat.add_right_comm]
    exact ih (k + 1) hps

omit [DecidableEq κ] in
theorem allocpid_eq (hheld : c.held = [.proc n]) :
    c.allocpid = .ok ({ c with nextpid := c.nextpid + 1 }, c.nextpid) := by
  unfold allocpid
  rw [acquire_ok (by simp [hheld])]
  dsimp only [bind, Except.bind]
  rw [release_head rfl]
  dsimp only
  rw [Int.add_sub_cancel]

/-! ## The free lists -/

omit [DecidableEq κ] in
theorem steal_eq (hheld : c.held = [.proc n]) (hfree : ∀ j, c.freelist j = []) (js : List ℕ) :
    c.steal js = .ok (c, none) := by
  induction js with
  | nil => rfl
  | cons j js ih =>
    rw [steal]
    by_cases hj : j = c.id
    · rw [if_pos hj]
      exact ih
    · rw [if_neg hj, acquire_ok (by simp [hheld])]
      dsimp only [bind, Except.bind]
      rw [hfree j]
      dsimp only
      rw [release_head rfl]
      exact ih

omit [DecidableEq κ] in
/-- All lists are looked at, and each lock is given back. -/
theorem takeFree_eq (hheld : c.held = [.proc n]) (hfree : ∀ j, c.freelist j = []) :
    c.takeFree = .ok (c, none) := by
  unfold takeFree
  rw [acquire_ok (by simp [hheld])]
  dsimp only [bind, Except.bind]
  rw [hfree c.id]
  dsimp only
  rw [release_head rfl]
  exact steal_eq hheld hfree _

theorem kalloc_eq (hheld : c.held = [.proc n]) (hfree : ∀ j, c.freelist j = []) :
    c.kalloc = c.findSwappingPage.bind fun r =>
      if r.2 = 0 then .ok (r.1, 0) else (r.1.kincget r.2).map fun c => (c, r.2) := by
  unfold kalloc
  rw [takeFree_eq hheld hfree]
  dsimp only [bind, Except.bind]
  cases c.findSwappingPage with
  | error e => rfl
  | ok r =>
    dsimp only
    by_cases hr : r.2 = 0
    · rw [if_pos hr, if_pos hr]
    · rw [if_neg hr, if_neg hr]
      rfl

/-! ## What the search finds -/

/-- The visits do not depend on the process table. -/
theorem visits_procs (w : World κ) (procs : List (Proc κ)) (qs : List κ) :
    visits { w with procs := procs } qs = visits w qs := by
  induction qs generalizing w with
  | nil => rfl
  | cons q qs ih =>
    rw [visits, visits]
    change (if (w.pte q).v = true ∧ (w.pte q).cow = false then
      _ :: (if (w.pageage q).2 = 0 ∧ _ then [] else visits { (w.pageage q).1 with procs := procs } qs) else _) = _
    rw [ih, ih]
    rfl

omit [DecidableEq κ] in
/-- `minage` is 0 at the end if and only if it has been so, or a page has not been used at all. -/
theorem minage_foldl (l : List (Visit κ)) (sc : Scan κ) :
    (l.foldl pick sc).minage = 0 ↔ sc.minage = 0 ∨ ∃ x ∈ l, x.age = 0 ∧ x.alone = true := by
  induction l generalizing sc with
  | nil => simp
  | cons x l ih =>
    have hstep : (pick sc x).minage = 0 ↔ sc.minage = 0 ∨ x.age = 0 ∧ x.alone = true := by
      unfold pick
      split
      · next hc =>
        have hne : sc.minage ≠ 0 := UInt8.pos_iff_ne_zero.mp (UInt8.lt_of_le_of_lt UInt8.zero_le hc.1)
        exact ⟨fun h => .inr ⟨h, hc.2⟩, fun h => (h.resolve_left hne).1⟩
      · next hc =>
        refine ⟨.inl, fun h => h.elim (fun h => h) fun hx => ?_⟩
        by_contra hne
        exact hc ⟨hx.1 ▸ UInt8.pos_iff_ne_zero.mpr hne, hx.2⟩
    rw [List.foldl_cons, ih, hstep, or_assoc, List.exists_mem_cons_iff]

/-- A page that is chosen passes the second look. -/
theorem chosen_ok {w : World κ} {qs : List κ} {q : κ}
    (hq : ((visits w qs).foldl pick ⟨255, none⟩).ret = some q) :
    ((aged w (visits w qs)).pte q).v = true ∧
      (aged w (visits w qs)).refCnt (refIdx ((aged w (visits w qs)).pte q).pa) = 1 := by
  rcases (pick_spec (visits w qs) ⟨255, none⟩ fun _ => rfl).2 q hq with h | ⟨x, hx, rfl, halone⟩
  · cases h
  · obtain ⟨-, hv, -, hpa, heq⟩ := visit_spec hx
    rw [heq, decide_eq_true_eq] at halone
    have haged := aged_aged w (visits w qs)
    obtain ⟨a, ha⟩ := haged.pte x.entry
    rw [ha, haged.refCnt]
    exact ⟨hv, halone⟩

/-! ## The lock that is held -/

/-- The processes up to the one that is found: `allocproc` has set its state and its pid. -/
structure Found (c : Cpu κ) (n : ℕ) : Prop where
  held : c.held = [.proc n]
  freelist : ∀ j, c.freelist j = []
  procs : ∃ ps p tail, c.world.procs = ps ++ p :: tail ∧ ps.length = n

/-- The entries before the process that is held -/
def entriesTo (c : Cpu κ) (n : ℕ) : List κ := entriesOf (c.world.procs.take n)

/-- The search comes to the process that is held, unless it has stopped before. -/
theorem scanProcs_eq (h : Found c n) :
    c.scanProcs c.world.procs.zipIdx ⟨255, none⟩ =
      (c.world.search (c.entriesTo n) ⟨255, none⟩).bind fun r =>
        if r.2.minage = 0 then .ok ({ c with world := r.1 }, r.2) else .error "acquire" := by
  obtain ⟨hheld, -, ps, p, tail, hprocs, hlen⟩ := h
  have hmin : (⟨255, none⟩ : Scan κ).minage ≠ 0 := show (255 : UInt8) ≠ 0 by decide
  have hentries : c.entriesTo n = entriesOf (ps.zipIdx.map Prod.fst) := by
    unfold entriesTo
    rw [hprocs, List.take_append_of_le_length hlen.ge, ← hlen, List.take_length, List.zipIdx_map_fst]
  have hps : ∀ x ∈ ps.zipIdx, x.2 ≠ n := fun x hx => by
    have hlt := List.snd_lt_of_mem_zipIdx hx
    omega
  rw [hprocs, List.zipIdx_append, scanProcs_before hheld _ _ hps hmin, ← hentries]
  congr 1
  funext r
  rw [List.zipIdx_cons, scanProcs, acquire_held (by simp [hheld, hlen])]
  rfl

theorem scanProcs_found (h : Found c n) (hsound : ∀ x ∈ visits c.world (c.entriesTo n), x.Sound) :
    c.scanProcs c.world.procs.zipIdx ⟨255, none⟩ =
      if ∃ x ∈ visits c.world (c.entriesTo n), x.age = 0 ∧ x.alone = true then
        .ok ({ c with world := aged c.world (visits c.world (c.entriesTo n)) },
          (visits c.world (c.entriesTo n)).foldl pick ⟨255, none⟩)
      else .error "acquire" := by
  have hmin : (⟨255, none⟩ : Scan κ).minage ≠ 0 := show (255 : UInt8) ≠ 0 by decide
  rw [scanProcs_eq h, (search_eq hmin).1 hsound]
  dsimp only [Except.bind]
  by_cases hzero : ∃ x ∈ visits c.world (c.entriesTo n), x.age = 0 ∧ x.alone = true
  · rw [if_pos ((minage_foldl _ _).mpr (.inr hzero)), if_pos hzero]
  · rw [if_neg fun h => hzero (((minage_foldl _ _).mp h).resolve_left hmin), if_neg hzero]

theorem scanProcs_unsound (h : Found c n) (hsound : ¬ ∀ x ∈ visits c.world (c.entriesTo n), x.Sound) :
    ∃ e, c.scanProcs c.world.procs.zipIdx ⟨255, none⟩ = .error e := by
  have hmin : (⟨255, none⟩ : Scan κ).minage ≠ 0 := show (255 : UInt8) ≠ 0 by decide
  obtain ⟨e, he⟩ := (search_eq hmin).2 hsound
  refine ⟨e, ?_⟩
  rw [scanProcs_eq h, he]
  rfl

theorem pageout_found (hheld : c.held = [.proc n]) {q : κ} (hv : (c.world.pte q).v = true) :
    c.pageout q = match c.world.freeSlot with
      | none => .ok (c, 0)
      | some _ => .error "sched locks" := by
  unfold pageout
  rw [acquire_ok (by simp [hheld])]
  dsimp only [bind, Except.bind]
  rw [if_pos hv]
  cases c.world.freeSlot with
  | none =>
    dsimp only
    rw [release_head rfl]
  | some i =>
    dsimp only
    rw [release_head rfl]
    dsimp only
    unfold sched
    rw [if_neg (by simp [hheld])]

/-- **Without memory**: `find_swapping_page` returns only if a page before has not been used and there is no slot
    for it, and returns 0 then. -/
theorem findSwappingPage_found (h : Found c n) :
    ((∀ x ∈ visits c.world (c.entriesTo n), x.Sound) ∧
        (∃ x ∈ visits c.world (c.entriesTo n), x.age = 0 ∧ x.alone = true) ∧ NoSlot c.world →
      ∃ w, c.findSwappingPage = .ok ({ c with world := w }, 0)) ∧
    (¬ ((∀ x ∈ visits c.world (c.entriesTo n), x.Sound) ∧
        (∃ x ∈ visits c.world (c.entriesTo n), x.age = 0 ∧ x.alone = true) ∧ NoSlot c.world) →
      ∃ e, c.findSwappingPage = .error e) := by
  -- the search goes through only if every entry is sound, and it comes back to the process that is
  -- held unless something has not been used
  by_cases hsound : ∀ x ∈ visits c.world (c.entriesTo n), x.Sound
  · have hscan := scanProcs_found h hsound
    by_cases hzero : ∃ x ∈ visits c.world (c.entriesTo n), x.age = 0 ∧ x.alone = true
    · rw [if_pos hzero] at hscan
      obtain ⟨x, hx, hage, halone⟩ := hzero
      have hyoung : x.Young := ⟨by rw [hage]; decide, halone⟩
      obtain ⟨q, hret⟩ : ∃ q, ((visits c.world (c.entriesTo n)).foldl pick ⟨255, none⟩).ret = some q := by
        refine Option.ne_none_iff_exists'.mp fun hnone => ?_
        exact ((pick_spec _ ⟨255, none⟩ fun _ => rfl).1.mp hnone).2 x hx hyoung
      obtain ⟨hv, hcnt⟩ := chosen_ok hret
      have hres : c.findSwappingPage =
          match c.world.freeSlot with
          | none => .ok ({ c with world := aged c.world (visits c.world (c.entriesTo n)) }, 0)
          | some _ => .error "sched locks" := by
        have hslot : (aged c.world (visits c.world (c.entriesTo n))).freeSlot = c.world.freeSlot := by
          unfold World.freeSlot
          rw [(aged_aged _ _).swapRef]
        unfold findSwappingPage
        rw [hscan]
        dsimp only [bind, Except.bind]
        rw [hret]
        dsimp only
        rw [acquire_ok (by simp [h.held])]
        dsimp only
        rw [if_neg (not_not.mpr hcnt), release_head rfl]
        dsimp only
        rw [pageout_found (c := { c with world := aged c.world _, held := c.held }) h.held hv]
        dsimp only
        rw [hslot]
        cases c.world.freeSlot with
        | none => rfl
        | some i => rfl
      -- without a slot `pageout` gives up; with one it waits for the disk, and `sched` finds the
      -- lock that is held
      rw [hres]
      cases hfree : c.world.freeSlot with
      | none =>
        have hno := freeSlot_eq_none.mp hfree
        exact ⟨fun _ => ⟨_, rfl⟩, fun hn => absurd ⟨hsound, ⟨x, hx, hage, halone⟩, hno⟩ hn⟩
      | some i =>
        refine ⟨fun hall => ?_, fun _ => ⟨_, rfl⟩⟩
        rw [freeSlot_eq_none.mpr hall.2.2] at hfree
        cases hfree
    · rw [if_neg hzero] at hscan
      refine ⟨fun hall => absurd hall.2.1 hzero, fun _ => ⟨"acquire", ?_⟩⟩
      unfold findSwappingPage
      rw [hscan]
      rfl
  · refine ⟨fun hall => absurd hall.1 hsound, fun _ => ?_⟩
    obtain ⟨e, he⟩ := scanProcs_unsound h hsound
    refine ⟨e, ?_⟩
    unfold findSwappingPage
    rw [he]
    rfl

end Cpu

/-! ## When forking is clean -/

section Fork

variable {κ : Type*} [DecidableEq κ]

omit [DecidableEq κ] in
/-- The processes before the first one that is not in use, that one, and the others -/
theorem split_unused {procs : List (Proc κ)} (h : ¬ ∀ p ∈ procs, p.state ≠ .unused) :
    ∃ p tail, procs = before procs ++ p :: tail ∧ p.state = .unused := by
  induction procs with
  | nil => exact absurd nofun h
  | cons p ps ih =>
    by_cases hp : p.state = .unused
    · exact ⟨p, ps, by simp [before, hp], hp⟩
    · obtain ⟨p', tail, hps, hp'⟩ := ih fun hps => h (List.forall_mem_cons.mpr ⟨hp, hps⟩)
      refine ⟨p', tail, ?_, hp'⟩
      have hcons : before (p :: ps) = p :: before ps := List.takeWhile_cons_of_pos (by simp [hp])
      rw [hcons, List.cons_append, ← hps]

omit [DecidableEq κ] in
theorem modify_length (ps : List (Proc κ)) (p : Proc κ) (tail : List (Proc κ)) (f : Proc κ → Proc κ) :
    (ps ++ p :: tail).modify ps.length f = ps ++ f p :: tail := by
  induction ps with
  | nil => rfl
  | cons p' ps ih => exact congrArg (p' :: ·) ih

/-- **When a fork without memory is clean**: if every process is in use, or the search finds a page that has not
    been used before it comes to the process that is held, and there is no slot to page it out to. -/
theorem fork_clean_iff (o : OutOfMemory κ) (rest : Cpu κ → ℕ → ℕ → Except String (Cpu κ × ℤ)) :
    Clean (o.cpu.fork rest) ↔
      (∀ p ∈ o.cpu.world.procs, p.state ≠ .unused) ∨ FindsUnused o.cpu.world ∧ NoSlot o.cpu.world := by
  obtain ⟨c, hfree, hheld⟩ := o
  dsimp only
  by_cases hnone : ∀ p ∈ c.world.procs, p.state ≠ .unused
  · refine iff_of_true ⟨c, -1, ?_, .inl rfl, hheld⟩ (.inl hnone)
    unfold Cpu.fork
    rw [Cpu.findUnused_none hheld _ _ hnone]
    rfl
  · obtain ⟨p, tail, hprocs, hp⟩ := split_unused hnone
    have hbefore : ∀ p ∈ before c.world.procs, p.state ≠ .unused := fun p hp => by
      simpa using List.mem_takeWhile_imp hp
    set n := (before c.world.procs).length with hn
    -- the state in which `kalloc` is called
    set c₁ : Cpu κ := Cpu.setProc { c with held := [.proc n], nextpid := c.nextpid + 1 } n fun p =>
      { p with state := .used, pid := c.nextpid } with hc₁
    have hprocs₁ : c₁.world.procs = before c.world.procs ++ { p with state := .used, pid := c.nextpid } :: tail := by
      have hmodify : c₁.world.procs = c.world.procs.modify n fun p => { p with state := .used, pid := c.nextpid } := rfl
      conv at hmodify => rhs; arg 1; rw [hprocs]
      rw [hmodify, hn, modify_length]
    have hfound : c₁.Found n := ⟨rfl, hfree, _, _, tail, hprocs₁, rfl⟩
    have hvisits : visits c₁.world (c₁.entriesTo n) = visits c.world (entriesOf (before c.world.procs)) := by
      have hentries : c₁.entriesTo n = entriesOf (before c.world.procs) := by
        unfold Cpu.entriesTo
        rw [hprocs₁, List.take_left']
        exact hn.symm
      rw [hentries]
      exact Cpu.visits_procs c.world _ _
    have hfork : c.fork rest = c₁.kalloc.bind fun r =>
        if r.2 = 0 then ((r.1.freeproc n).release (.proc n)).map fun c => (c, -1) else rest r.1 n r.2 := by
      unfold Cpu.fork
      have hfind := Cpu.findUnused_some hheld _ p tail 0 hbefore hp
      rw [← hprocs, Nat.zero_add] at hfind
      rw [hfind]
      dsimp only [bind, Except.bind]
      rw [Cpu.allocpid_eq rfl]
      dsimp only
      cases c₁.kalloc with
      | error e => rfl
      | ok r =>
        dsimp only
        by_cases hr : r.2 = 0
        · rw [if_pos hr, if_pos hr]
          rfl
        · rw [if_neg hr, if_neg hr]
    obtain ⟨hok, herr⟩ := Cpu.findSwappingPage_found hfound
    rw [hvisits] at hok herr
    rw [hfork, Cpu.kalloc_eq hfound.held hfree]
    by_cases hall : FindsUnused c.world ∧ NoSlot c.world
    · obtain ⟨w, hw⟩ := hok ⟨hall.1.1, hall.1.2, hall.2⟩
      rw [hw]
      refine iff_of_true ?_ (.inr hall)
      dsimp only [Except.bind]
      rw [if_pos rfl]
      dsimp only
      rw [if_pos rfl, Cpu.release_head (l := .proc n) rfl]
      exact ⟨_, -1, rfl, .inl rfl, rfl⟩
    · obtain ⟨e, he⟩ := herr fun h => hall ⟨⟨h.1, h.2.1⟩, h.2.2⟩
      rw [he]
      refine iff_of_false ?_ ?_
      · rintro ⟨c', ret, h, -⟩
        cases h
      · rintro (h | h)
        · exact hnone h
        · exact hall h

end Fork

/-! ## What happens otherwise -/

/-- The slot after the processes of `w` is unused, and the free lists are empty. -/
def withUnused (w : World ℕ) : OutOfMemory ℕ where
  cpu :=
    { world := { w with procs := w.procs ++ [⟨.unused, 0, 0, fun _ => none⟩] }
      freelist := fun _ => []
      nextpid := 4
      id := 0
      held := [] }
  freelist _ := rfl
  held := rfl

/-- When the page of the only process has been used, `find_swapping_page` takes the lock of the new process
    again; when it has not, `pageout` sleeps with it. -/
theorem fork_panics :
    ¬ Clean ((withUnused (onePage 255)).cpu.fork fun c _ _ => .ok (c, 4)) ∧
    ¬ Clean ((withUnused (onePage 0)).cpu.fork fun c _ _ => .ok (c, 4)) := by
  have hunused : ∀ w : World ℕ, ¬ ∀ p ∈ (withUnused w).cpu.world.procs, p.state ≠ .unused := fun w h =>
    h ⟨.unused, 0, 0, fun _ => none⟩ (List.mem_append_right _ List.mem_cons_self) rfl
  constructor
  · rw [fork_clean_iff]
    rintro (h | ⟨⟨-, x, hx, hage, -⟩, -⟩)
    · exact hunused _ h
    · have hold : ∀ x ∈ visits (withUnused (onePage 255)).cpu.world
          (entriesOf (before (withUnused (onePage 255)).cpu.world.procs)), x.age ≠ 0 := by decide +kernel
      exact hold x hx hage
  · rw [fork_clean_iff]
    rintro (h | ⟨-, hslot⟩)
    · exact hunused _ h
    · exact hslot 0 (by decide) rfl

end Xv6.Kernel.Eviction
