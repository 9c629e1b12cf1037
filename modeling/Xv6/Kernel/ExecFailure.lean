import Mathlib
import Xv6.Kernel.Exec
import Xv6.Kernel.FixedMapping
import Xv6.Kernel.Signal

/-!
# A Call of `exec` That Fails

`exec` as a whole, on the part of the process that a program keeps: its page table, its areas,
its signal handlers and the inodes that it has references to. The areas and the handlers of the
old program are gone before the program headers of the new one are read, and nothing brings
them back.

- `exec`: the call, with all the ways in which it fails;
- `Refused`: a failure before anything is changed;
- `Reloads`: the new program's segments are those that the old one had;
- `exec_unchanged_iff`: a call that fails leaves everything as it was in these cases only.
-/

namespace Xv6.Kernel.Exec

open ThreadShared (fixSlots)
open Xv6.Kernel.Signal (Word NUMSIG SIG_DFL)

/-! ## The code -/

def ELF_MAGIC : ℕ := 0x464C457F
def MAXARG : ℕ := 32

/-- `struct elfhdr`; the program headers are those at `phoff`, `phnum` of them. -/
structure ElfHdr where
  magic : ℕ
  entry : ℕ

/-- A program file as `exec` reads it: `none` stands for what is behind the end of the file. -/
structure Program where
  ip : ℕ
  elf : Option ElfHdr
  headers : List (Option ProgHdr)

/-- A process, as far as `exec` has to do with it -/
@[ext] structure Process where
  shared : ThreadShared
  pagetable : PageTable
  saHandler : ℕ → Word
  /-- `epc`, `sp` and `a1` of the trapframe -/
  epc : ℕ
  sp : ℕ
  a1 : ℕ
  /-- `ref` of each inode -/
  refs : ℕ → ℤ

/-- What the rest of the kernel answers -/
structure ExecAnswers where
  /-- What `namei` finds -/
  namei : Option Program
  /-- What `proc_pagetable` returns -/
  pagetable : Option PageTable
  /-- The page table after `uvmalloc`, unless `kalloc` has no page for the stack -/
  stack : Option PageTable

namespace Process

/-- `iput` of each inode -/
def put (p : Process) (ips : List ℕ) : Process := { p with refs := fun i => p.refs i - ips.count i }

/-- `namei` and `idup` -/
def get (p : Process) (ips : List ℕ) : Process := { p with refs := fun i => p.refs i + ips.count i }

/-- `signal_handler_clear`: every value differs from `SIG_DFL` or from `SIG_IGN`. -/
def signalHandlerClear (p : Process) : Process :=
  { p with saHandler := fun sig => if sig < NUMSIG then SIG_DFL else p.saHandler sig }

/-- `vma_exec_clear` -/
def vmaExecClear (p : Process) : Process :=
  { p.put p.shared.vmaExecClear.2 with shared := p.shared.vmaExecClear.1 }

end Process

/-- The inodes that `vma_create` takes a reference to -/
def idups (refs : List RefOp) : List ℕ :=
  refs.filterMap fun op => match op with
    | .idup ip => some ip
    | _ => none

/-- The loop that pushes the argument strings: the number of them and `sp`, unless they are too many
    or too long -/
def pushArgs (stackbase : ℕ) : ℕ → ℕ → List (List UInt8) → Option (ℕ × ℕ)
  | argc, sp, [] => some (argc, sp)
  | argc, sp, arg :: args =>
    if argc ≥ MAXARG then none
    else
      let sp := sub64 sp (arg.length + 1)
      let sp := sub64 sp (sp % 16)
      if sp < stackbase then none else pushArgs stackbase (argc + 1) sp args

/-- The stack pointer below the array of the pointers to the arguments -/
def pushArgv (stackbase argc sp : ℕ) : Option (ℕ × ℕ) :=
  let sp := sub64 sp ((argc + 1) * 8)
  let sp := sub64 sp (sp % 16)
  if sp < stackbase then none else some (argc, sp)

/-- The arguments and the array of the pointers to them, on a stack that ends at `sz` -/
def pushAll (sz : ℕ) (argv : List (List UInt8)) : Option (ℕ × ℕ) :=
  (pushArgs (sub64 sz PGSIZE) 0 sz argv).bind fun x => pushArgv (sub64 sz PGSIZE) x.1 x.2

/-- `bad:` with a new page table, of which the pages below `sz` are freed -/
def execBad (p : Process) (sz : ℕ) : Except String (Process × ℤ) :=
  if pgRoundUp sz > MAXVA then .error "walk" else .ok (p, -1)

/-- The new image replaces the old one; `exec` returns the number of arguments. -/
def commit (p : Process) (pagetable : PageTable) (elf : ElfHdr) (sz argc sp : ℕ) : Process × ℤ :=
  ({ p with
      shared := { p.shared with sz := sz }
      pagetable := pagetable
      epc := elf.entry
      sp := sp
      a1 := sp }, argc)

/-- `exec` once the program headers are read. The pages of the stack may not reach those at the top
    of the address space. -/
def execStack (k : ExecAnswers) (elf : ElfHdr) (p : Process) (sz : ℕ) (argv : List (List UInt8)) :
    Except String (Process × ℤ) :=
  match k.stack with
  | none => execBad p (pgRoundUp sz)
  | some pagetable =>
    if ThreadShared.withStack sz > USYSCALL then .error "mappages: remap"
    else
      match pushAll (ThreadShared.withStack sz) argv with
      | none => execBad p (ThreadShared.withStack sz)
      | some (argc, sp) => .ok (commit p pagetable elf (ThreadShared.withStack sz) argc sp)

/-- `exec(path, argv)` for a process that pages its program in on demand -/
def exec (k : ExecAnswers) (p : Process) (argv : List (List UInt8)) : Except String (Process × ℤ) :=
  match k.namei with
  | none => .ok (p, -1)
  | some prog =>
    let p := p.get [prog.ip]
    match prog.elf with
    | none => .ok (p.put [prog.ip], -1)
    | some elf =>
      if elf.magic ≠ ELF_MAGIC then .ok (p.put [prog.ip], -1)
      else
        match k.pagetable with
        | none => .ok (p.put [prog.ip], -1)
        | some _ =>
          let p := p.vmaExecClear.signalHandlerClear
          match p.shared.loadHeaders prog.ip 0 prog.headers with
          | .error e => .error e
          | .ok (ts, sz, refs, done) =>
            let p := ({ p with shared := ts }.get (idups refs)).put [prog.ip]
            if done then execStack k elf p sz argv else execBad p sz

/-! ## When nothing has changed -/

/-- `exec` fails before it changes anything: there is no such file, it is no program, or there is no
    memory for a page table. -/
def Refused (k : ExecAnswers) : Prop :=
  ∀ prog, k.namei = some prog → (∀ elf, prog.elf = some elf → elf.magic ≠ ELF_MAGIC) ∨ k.pagetable = none

/-- The area of a segment -/
def segment (ip : ℕ) (ph : ProgHdr) : Vma :=
  ⟨true, ph.vaddr, ph.memsz, flags2prot ph.flags, 2, none, if ph.filesz ≠ 0 then some ip else none,
    ph.off, ph.filesz, .exec⟩

/-- The loadable headers that `exec` comes to: those before one that it cannot read or does not
    accept -/
def segments : List (Option ProgHdr) → List ProgHdr
  | [] => []
  | none :: _ => []
  | some ph :: phs =>
    if !ph.load then segments phs else if !ph.wellFormed then [] else ph :: segments phs

/-- `exec` makes the slot free, or finds it free. -/
def freed (ts : ThreadShared) : List ℕ :=
  fixSlots.filter fun j => !(ts.vmAreas j).used || (ts.vmAreas j).type == .exec ||
    (ts.vmAreas j).type == .heap

/-- An area that is there begins at `va` or below and goes on behind it; the slots are free. -/
def Covered (ts : ThreadShared) (slots : List ℕ) (va : ℕ) : Prop :=
  ∃ i < MAX_VMA, i ∉ slots ∧ (ts.vmAreas i).covers va = true

/-- The segments are made again as they were: each one that gets a slot gets the one that has just
    this area, in the order of the slots, and no slot that had an area is left over. A segment
    gets none if none is free or an area covers its first address. -/
def Reloads (ts : ThreadShared) (ip : ℕ) : List ℕ → List ProgHdr → Prop
  | slots, [] => ∀ j ∈ slots, (ts.vmAreas j).used = false
  | [], _ => True
  | j :: slots, ph :: phs =>
    Covered ts (j :: slots) ph.vaddr ∧ Reloads ts ip (j :: slots) phs ∨
      ¬ Covered ts (j :: slots) ph.vaddr ∧ ts.vmAreas j = segment ip ph ∧ Reloads ts ip slots phs

/-- The process has no signal handler set. -/
def NoHandlers (p : Process) : Prop := ∀ sig < NUMSIG, p.saHandler sig = SIG_DFL

/-! ## Making the areas again -/

section Reload

variable {ts cur ts' : ThreadShared} {ip sz sz' : ℕ} {slots : List ℕ} {ph : ProgHdr}
  {phs : List (Option ProgHdr)} {refs : List RefOp} {done : Bool}

/-- The table while segments are made: all areas outside of the free slots are there as in the old
    table, and those in the free slots are not in use. -/
structure Partial (ts : ThreadShared) (slots : List ℕ) (cur : ThreadShared) : Prop where
  sz : cur.sz = ts.sz
  areas : ∀ i, cur.vmAreas i =
    if i ∈ slots then { ts.vmAreas i with used := false } else ts.vmAreas i
  free : fixSlots.filter (fun j => !(cur.vmAreas j).used) = slots

theorem nodup_fixSlots : fixSlots.Nodup := List.nodup_range'

theorem Partial.nodup (h : Partial ts slots cur) : slots.Nodup := h.free ▸ nodup_fixSlots.filter _

theorem Partial.covered_iff (h : Partial ts slots cur) (va : ℕ) :
    (List.range MAX_VMA).any (fun i => (cur.vmAreas i).covers va) = true ↔ Covered ts slots va := by
  simp only [List.any_eq_true, List.mem_range, Covered]
  refine exists_congr fun i => and_congr_right fun _ => ?_
  rw [h.areas i]
  by_cases hi : i ∈ slots
  · rw [if_pos hi]
    simp [Vma.covers, hi]
  · rw [if_neg hi]
    simp [hi]

/-- **What `vma_create` does for a segment**: nothing, or it makes the area in the first free slot. -/
theorem Partial.createSegment (h : Partial ts slots cur) (ip : ℕ) (ph : ProgHdr) :
    (Covered ts slots ph.vaddr ∨ slots = []) ∧ cur.createSegment ip ph = .ok (cur, failed, []) ∨
      ¬ Covered ts slots ph.vaddr ∧ ∃ j rest, slots = j :: rest ∧
        cur.createSegment ip ph = .ok (cur.setSlot j (segment ip ph), ph.vaddr,
          ((segment ip ph).ip.map RefOp.idup).toList) := by
  have hfind : fixSlots.find? (fun j => !(cur.vmAreas j).used) = slots.head? := by
    rw [← h.free, List.head?_filter]
  have hcreate : cur.createSegment ip ph = .ok (cur.createFix ph.vaddr ph.memsz (flags2prot ph.flags) 2
      none (if ph.filesz ≠ 0 then some ip else none) ph.off ph.filesz .exec) := by
    unfold ThreadShared.createSegment ThreadShared.vmaCreate
    exact if_neg (by simp [ThreadShared.fileAllows])
  rw [hcreate, ThreadShared.createFix, hfind]
  by_cases hcov : Covered ts slots ph.vaddr
  · rw [if_pos ((h.covered_iff _).mpr hcov)]
    exact .inl ⟨.inl hcov, rfl⟩
  · rw [if_neg fun hany => hcov ((h.covered_iff _).mp hany)]
    cases slots with
    | nil => exact .inl ⟨.inr rfl, rfl⟩
    | cons j rest => exact .inr ⟨hcov, j, rest, rfl, by simp [ThreadShared.setupVma, segment]⟩

/-- A segment that has got the slot with its own area -/
theorem Partial.fill {j : ℕ} {rest : List ℕ} (h : Partial ts (j :: rest) cur)
    (hj : ts.vmAreas j = segment ip ph) : Partial ts rest (cur.setSlot j (segment ip ph)) := by
  have hnodup := List.nodup_cons.mp h.nodup
  refine ⟨h.sz, fun i => ?_, ?_⟩
  · by_cases hi : i = j
    · subst hi
      rw [ThreadShared.setSlot_self, if_neg hnodup.1, hj]
    · rw [ThreadShared.setSlot_of_ne _ _ hi, h.areas i]
      simp [hi]
  · -- the slot leaves the free ones, and the others stay
    have hused : (fun i => !((cur.setSlot j (segment ip ph)).vmAreas i).used) =
        fun i => decide (i ≠ j) && !(cur.vmAreas i).used := by
      funext i
      by_cases hi : i = j
      · subst hi
        simp [segment]
      · simp [hi]
    rw [hused, ← List.filter_filter, h.free, List.filter_cons_of_neg (by simp)]
    exact List.filter_eq_self.mpr fun i hi => by
      simpa using fun heq : i = j => hnodup.1 (heq ▸ hi)

/-- The table is whole again exactly if no area is missing. -/
theorem Partial.eq_iff (h : Partial ts slots cur) :
    cur = ts ↔ ∀ j ∈ slots, (ts.vmAreas j).used = false := by
  constructor
  · rintro rfl j hj
    have harea := h.areas j
    rw [if_pos hj] at harea
    rw [harea]
  · intro hunused
    have hareas : cur.vmAreas = ts.vmAreas := funext fun i => by
      rw [h.areas i]
      split
      · next hi => rw [← hunused i hi]
      · rfl
    cases cur
    cases ts
    cases hareas
    cases h.sz
    rfl

/-- Areas that are in use stay as they are while segments are made. -/
theorem loadHeaders_used {j : ℕ} (h : cur.loadHeaders ip sz phs = .ok (ts', sz', refs, done))
    (hu : (cur.vmAreas j).used = true) : ts'.vmAreas j = cur.vmAreas j := by
  -- induction on the headers; each segment goes into a slot that was free
  induction phs generalizing cur sz refs with
  | nil =>
    cases h
    rfl
  | cons hd phs ih =>
    cases hd with
    | none =>
      cases h
      rfl
    | some ph =>
      rw [ThreadShared.loadHeaders] at h
      split at h
      · exact ih h hu
      split at h
      · cases h
        rfl
      split at h
      · cases h
      next ts₁ r refs₁ hcreate =>
      split at h
      · cases h
      next hloop =>
      cases h
      have hkeep : ts₁.vmAreas j = cur.vmAreas j := by
        have hcreate := Except.ok.inj hcreate
        rcases FixedMapping.createFix_cases hcreate with rfl | ⟨-, -, i, -, -, hi, rfl⟩
        · rfl
        · refine ThreadShared.setSlot_of_ne _ _ fun heq => ?_
          subst heq
          rw [hu] at hi
          cases hi
      rw [ih hloop (hkeep ▸ hu), hkeep]

/-- The inodes that the old program's segments in these slots have references to -/
def execInodes (ts : ThreadShared) (slots : List ℕ) : List ℕ :=
  slots.flatMap fun j =>
    if (ts.vmAreas j).used && (ts.vmAreas j).type == .exec then (ts.vmAreas j).ip.toList else []

/-- Where no more segments come -/
theorem Partial.stopped (h : Partial ts slots cur) :
    (cur = ts ↔ Reloads ts ip slots []) ∧ (Reloads ts ip slots [] → idups [] = execInodes ts slots) := by
  have hreload : Reloads ts ip slots [] ↔ ∀ j ∈ slots, (ts.vmAreas j).used = false := by
    cases slots <;> exact Iff.rfl
  rw [hreload]
  refine ⟨h.eq_iff, fun hunused => ?_⟩
  symm
  exact List.flatMap_eq_nil_iff.mpr fun j hj => by simp [hunused j hj]

theorem reloads_nil (phs : List ProgHdr) : Reloads ts ip [] phs := by
  cases phs with
  | nil => exact nofun
  | cons ph phs => trivial

theorem idups_append (refs refs' : List RefOp) : idups (refs ++ refs') = idups refs ++ idups refs' :=
  List.filterMap_append ..

theorem idups_segment (ip : ℕ) (ph : ProgHdr) :
    idups ((segment ip ph).ip.map RefOp.idup).toList = (segment ip ph).ip.toList := by
  cases (segment ip ph).ip <;> rfl

/-- **The loop over the program headers** makes the old table again exactly if the segments reload
    it, and then it takes the references that the old segments have given up. -/
theorem loadHeaders_iff (hp : Partial ts slots cur)
    (h : cur.loadHeaders ip sz phs = .ok (ts', sz', refs, done)) :
    (ts' = ts ↔ Reloads ts ip slots (segments phs)) ∧
      (Reloads ts ip slots (segments phs) → idups refs = execInodes ts slots) := by
  induction phs generalizing slots cur sz refs with
  | nil =>
    cases h
    exact hp.stopped
  | cons hd phs ih =>
    cases hd with
    | none =>
      cases h
      exact hp.stopped
    | some ph =>
      rw [ThreadShared.loadHeaders] at h
      rw [segments]
      by_cases hload : (!ph.load) = true
      · rw [if_pos hload] at h ⊢
        exact ih hp h
      rw [if_neg hload] at h ⊢
      by_cases hwf : (!ph.wellFormed) = true
      · rw [if_pos hwf] at h ⊢
        cases h
        exact hp.stopped
      rw [if_neg hwf] at h ⊢
      split at h
      · cases h
      next ts₁ r refs₁ hcreate =>
      split at h
      · cases h
      next hloop =>
      cases h
      rcases hp.createSegment ip ph with ⟨hnone, hsame⟩ | ⟨hcov, j, rest, rfl, hset⟩
      · -- the segment gets no slot
        cases hcreate.symm.trans hsame
        obtain ⟨hiff, hrefs⟩ := ih hp hloop
        cases slots with
        | nil => exact ⟨iff_of_true (hiff.mpr (reloads_nil _)) (reloads_nil _), fun _ => hrefs (reloads_nil _)⟩
        | cons j rest =>
          have hcov := hnone.resolve_right (List.cons_ne_nil j rest)
          have hreload : Reloads ts ip (j :: rest) (ph :: segments phs) ↔
              Reloads ts ip (j :: rest) (segments phs) := by
            rw [Reloads]
            simp [hcov]
          rw [hreload]
          exact ⟨hiff, hrefs⟩
      · cases hcreate.symm.trans hset
        have hreload : Reloads ts ip (j :: rest) (ph :: segments phs) ↔
            ts.vmAreas j = segment ip ph ∧ Reloads ts ip rest (segments phs) := by
          rw [Reloads]
          simp [hcov]
        rw [hreload]
        by_cases hj : ts.vmAreas j = segment ip ph
        · obtain ⟨hiff, hrefs⟩ := ih (hp.fill hj) hloop
          refine ⟨by rw [and_iff_right hj, hiff], fun hr => ?_⟩
          rw [idups_append, idups_segment, hrefs hr.2, execInodes, execInodes, List.flatMap_cons, hj]
          rfl
        · -- the slot keeps the wrong area
          refine ⟨iff_of_false (fun heq => hj ?_) fun hr => hj hr.1, fun hr => absurd hr.1 hj⟩
          have hkeep := loadHeaders_used (j := j) hloop (by simp [segment])
          rw [heq, ThreadShared.setSlot_self] at hkeep
          exact hkeep

/-- `vma_exec_clear` leaves the areas that are no segments and no heap. -/
theorem partial_vmaExecClear (ts : ThreadShared) : Partial ts (freed ts) ts.vmaExecClear.1 := by
  -- the slots that are free afterwards: those that were, and those of segments and of the heap
  have hmem : ∀ j, j ∈ freed ts ↔ (FIX_START_ADDR ≤ j ∧ j < MAX_VMA) ∧
      ((ts.vmAreas j).used = false ∨ (ts.vmAreas j).type = .exec ∨ (ts.vmAreas j).type = .heap) := by
    intro j
    rw [freed, List.mem_filter, FixedMapping.mem_fixSlots]
    simp [or_assoc]
  have hareas : ∀ i, ts.vmaExecClear.1.vmAreas i =
      if i ∈ freed ts then { ts.vmAreas i with used := false } else ts.vmAreas i := by
    intro i
    by_cases hi : i ∈ freed ts
    · obtain ⟨⟨hlo, hhi⟩, hfree⟩ := (hmem i).mp hi
      rw [if_pos hi]
      cases hu : (ts.vmAreas i).used with
      | true => simp [ThreadShared.vmaExecClear, hlo, hhi, hu, hfree.resolve_left (by simp [hu])]
      | false =>
        have hsame : ({ ts.vmAreas i with used := false } : Vma) = ts.vmAreas i := by rw [← hu]
        simp [ThreadShared.vmaExecClear, hu, hsame]
    · rw [if_neg hi]
      rw [hmem] at hi
      simp only [ThreadShared.vmaExecClear]
      rw [if_neg]
      rintro ⟨hlo, hhi, hgone⟩
      refine hi ⟨⟨hlo, hhi⟩, .inr ?_⟩
      rw [Bool.and_eq_true, Bool.or_eq_true, beq_iff_eq, beq_iff_eq] at hgone
      exact hgone.2
  refine ⟨rfl, hareas, List.filter_congr fun j hj => ?_⟩
  rw [hareas j]
  by_cases hj' : j ∈ freed ts
  · have hfree := (List.mem_filter.mp hj').2
    rw [if_pos hj', hfree]
    rfl
  · rw [if_neg hj']
    have hkept : ¬ _ := fun hfree => hj' (List.mem_filter.mpr ⟨hj, hfree⟩)
    simp_all

/-- The references that `vma_exec_clear` gives up -/
theorem put_vmaExecClear (ts : ThreadShared) : ts.vmaExecClear.2 = execInodes ts (freed ts) := by
  have hfilter : ∀ l : List ℕ, (l.flatMap fun j => if (ts.vmAreas j).used && (ts.vmAreas j).type == .exec then
      (ts.vmAreas j).ip.toList else []) = execInodes ts (l.filter fun j => !(ts.vmAreas j).used ||
        (ts.vmAreas j).type == .exec || (ts.vmAreas j).type == .heap) := by
    intro l
    induction l with
    | nil => rfl
    | cons j l ih =>
      rw [List.flatMap_cons, ih]
      by_cases hfree : (!(ts.vmAreas j).used || (ts.vmAreas j).type == .exec ||
          (ts.vmAreas j).type == .heap) = true
      · rw [List.filter_cons, if_pos hfree]
        rfl
      · -- an area that is kept is no segment
        have hexec : ¬ ((ts.vmAreas j).used && (ts.vmAreas j).type == .exec) = true := by
          simp_all
        rw [List.filter_cons, if_neg hfree, if_neg hexec]
        rfl
  exact hfilter fixSlots

end Reload

/-! ## The call -/

section Call

variable {k : ExecAnswers} {p p' : Process} {argv : List (List UInt8)}

theorem put_get (p : Process) (ips : List ℕ) : (p.get ips).put ips = p := by
  simp [Process.get, Process.put]

theorem execBad_failed {sz : ℕ} {r : ℤ} (h : execBad p sz = .ok (p', r)) : p' = p := by
  unfold execBad at h
  split at h
  · cases h
  · cases h
    rfl

/-- What fails behind the program headers changes nothing more. -/
theorem execStack_failed {elf : ElfHdr} {sz : ℕ} (h : execStack k elf p sz argv = .ok (p', -1)) : p' = p := by
  unfold execStack at h
  split at h
  · exact execBad_failed h
  split at h
  · cases h
  split at h
  · exact execBad_failed h
  next argc sp _ =>
  -- the number of arguments is not negative
  have hargc : (argc : ℤ) = -1 := congrArg Prod.snd (Except.ok.inj h)
  omega

/-- The process after a failure behind the program headers: the references of the old segments are
    given up, those of the new ones are taken. -/
def rebuilt (p : Process) (ip : ℕ) (ts : ThreadShared) (refs : List RefOp) : Process :=
  ({ (p.get [ip]).vmaExecClear.signalHandlerClear with shared := ts }.get (idups refs)).put [ip]

theorem rebuilt_eq_iff {ip : ℕ} {ts : ThreadShared} {refs : List RefOp} {R : Prop}
    (h : (ts = p.shared ↔ R) ∧ (R → idups refs = execInodes p.shared (freed p.shared))) :
    rebuilt p ip ts refs = p ↔ NoHandlers p ∧ R := by
  constructor
  · intro heq
    refine ⟨fun sig hsig => ?_, h.1.mp (congrArg Process.shared heq)⟩
    have hhandler : (rebuilt p ip ts refs).saHandler sig = SIG_DFL := if_pos hsig
    rw [← hhandler, heq]
  · rintro ⟨hno, hr⟩
    have hhandlers : (rebuilt p ip ts refs).saHandler = p.saHandler := funext fun sig => by
      by_cases hsig : sig < NUMSIG
      · exact (if_pos hsig).trans (hno sig hsig).symm
      · exact if_neg hsig
    have hrefs : (rebuilt p ip ts refs).refs = p.refs := funext fun i => by
      show p.refs i + [ip].count i - p.shared.vmaExecClear.2.count i + (idups refs).count i - [ip].count i = _
      rw [put_vmaExecClear, h.2 hr]
      ring
    have hshared : (rebuilt p ip ts refs).shared = p.shared := h.1.mpr hr
    exact Process.ext hshared rfl hhandlers rfl rfl rfl hrefs

/-- **A call of `exec` that fails** leaves the page table, the size, the areas, the signal handlers and
    the references of the process as they were if and only if it is refused before anything is
    changed, or no signal handler is set and the segments that are made before the failure are
    just those that the process had. -/
theorem exec_unchanged_iff (h : exec k p argv = .ok (p', -1)) :
    p' = p ↔ Refused k ∨ NoHandlers p ∧
      ∀ prog, k.namei = some prog → Reloads p.shared prog.ip (freed p.shared) (segments prog.headers) := by
  unfold exec at h
  -- each refusal comes before the areas are cleared
  cases hprog : k.namei with
  | none =>
    rw [hprog] at h
    cases h
    exact iff_of_true rfl (.inl fun prog hp => nomatch hprog.symm.trans hp)
  | some prog =>
    have hrefused : Refused k ↔
        (∀ elf, prog.elf = some elf → elf.magic ≠ ELF_MAGIC) ∨ k.pagetable = none := by
      simp [Refused, hprog]
    simp only [hrefused, Option.some.injEq, forall_eq']
    rw [hprog] at h
    dsimp only at h
    cases helf : prog.elf with
    | none =>
      rw [helf] at h
      cases h
      exact iff_of_true (put_get p _) (.inl (.inl nofun))
    | some elf =>
      rw [helf] at h
      dsimp only at h
      by_cases hmagic : elf.magic ≠ ELF_MAGIC
      · rw [if_pos hmagic] at h
        cases h
        have hbad : ∀ elf', some elf = some elf' → elf'.magic ≠ ELF_MAGIC := by
          rintro _ ⟨⟩
          exact hmagic
        exact iff_of_true (put_get p _) (.inl (.inl hbad))
      rw [if_neg hmagic] at h
      cases hpt : k.pagetable with
      | none =>
        rw [hpt] at h
        cases h
        exact iff_of_true (put_get p _) (.inl (.inr rfl))
      | some pagetable =>
        rw [hpt] at h
        dsimp only at h
        split at h
        · cases h
        next ts sz refs done hload =>
        -- from here on every failure goes to `bad`, with the areas that have been made
        have hfail : p' = rebuilt p prog.ip ts refs := by
          cases done with
          | false => exact execBad_failed h
          | true => exact execStack_failed h
        have hnot : ¬ ((∀ elf', some elf = some elf' → elf'.magic ≠ ELF_MAGIC) ∨
            some pagetable = none) := by
          rintro (hbad | hbad)
          · exact hmagic (hbad elf rfl)
          · cases hbad
        rw [hfail, or_iff_right hnot]
        exact rebuilt_eq_iff (loadHeaders_iff (partial_vmaExecClear p.shared) hload)

end Call

/-! ## A shell -/

/-- A process that runs the program of inode 7, which has one segment -/
def shell : Process where
  shared := ⟨3 * PGSIZE, fun i => if i = FIX_START_ADDR then
    segment 7 ⟨true, 5, PGSIZE, 0, PGSIZE, PGSIZE⟩ else ⟨false, 0, 0, 0, 0, none, none, 0, 0, .fix⟩⟩
  pagetable := .empty
  saHandler _ := SIG_DFL
  epc := 0
  sp := 0
  a1 := 0
  refs _ := 1

/-- A file with the magic number `magic` whose only program header is cut off -/
def truncated (magic : ℕ) : ExecAnswers :=
  ⟨some ⟨8, some ⟨magic, 0⟩, [none]⟩, some .empty, none⟩

/-- A file that is no program changes nothing. -/
theorem exec_no_magic : ∃ p', exec (truncated 0) shell [] = .ok (p', -1) ∧ p' = shell := by
  have hfail : exec (truncated 0) shell [] = .ok ((shell.get [8]).put [8], -1) := rfl
  refine ⟨_, hfail, (exec_unchanged_iff hfail).mpr (.inl ?_)⟩
  rintro _ ⟨⟩
  left
  rintro _ ⟨⟩
  decide

/-- A program whose header is cut off takes the segment of the shell away. -/
theorem exec_truncated_clears :
    ¬ ∀ (k : ExecAnswers) (p p' : Process) argv, exec k p argv = .ok (p', -1) → p' = p := by
  intro h
  have hfail : exec (truncated ELF_MAGIC) shell [] =
      .ok (rebuilt shell 8 shell.shared.vmaExecClear.1 [], -1) := rfl
  have hused := congrArg (fun p => (p.shared.vmAreas FIX_START_ADDR).used) (h _ _ _ _ hfail)
  exact absurd hused (by decide)

end Xv6.Kernel.Exec
