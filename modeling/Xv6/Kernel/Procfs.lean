import Mathlib
import Xv6.Lib.TransitionSystem

/-!
# Inode Numbers of procfs

The directories that `procfs.c` makes up. A node that is not on the disk is known by
its inode number alone: `read_main_dir` and `read_proc_dir` store the number in a
directory entry, a lookup makes an inode with that number, and `procfsread` finds out
from the number which process and which of its files is meant.

The number is computed from an `int` pid, and a directory entry has 16 bits for it.

- `nodeOf_inumOf_iff`: the number of a node is decoded to that node exactly when it fits
  in a directory entry;
- `encodes_iff`: all nodes of the processes in the table are encoded faithfully exactly
  when no pid is above 27766.
-/

namespace Xv6.Kernel.Procfs

open Xv6.Lib

/-! ## Nodes and their numbers -/

/-- Root i-number -/
def ROOTINO : ℕ := 1

/-- Where the numbers of procfs start -/
def INODE_BASE : ℕ := 10000

/-- The entries of the main directory that are no processes -/
def FNUM_IN_MAIN_DIR : ℕ := 1

/-- The number of the first directory of a process -/
def PROC_BASE : ℕ := FNUM_IN_MAIN_DIR + INODE_BASE

/-- A directory and a status file -/
def INUMS_PER_PROC : ℕ := 2

/-- The major number of procfs -/
def PROCFS : ℕ := 3

/-- `enum procstate` -/
inductive ProcState where
  | unused
  | used
  | sleeping
  | runnable
  | running
  | zombie
  deriving DecidableEq

/-- What procfs shows of a `struct proc` -/
structure Proc where
  pid : BitVec 32
  state : ProcState
  sz : ℕ
  deriving DecidableEq

/-- `maindir`: what the entries of the main directory are called -/
def maindir : List String := ["uptime"]

/-- `procdir`: what the files of a process are called -/
def procdir : List String := ["status"]

/-- The nodes of procfs, main directory included -/
inductive Node where
  | mainDir
  /-- Entry `idx` of `maindir` -/
  | mainFile (idx : ℕ)
  | procDir (pid : BitVec 32)
  /-- Entry `idx` of `procdir` in the directory of a process -/
  | procFile (pid : BitVec 32) (idx : ℕ)
  deriving DecidableEq

/-- `struct dirent` -/
structure Dirent where
  inum : BitVec 16
  name : String
  deriving DecidableEq

/-- What a lookup passes to `iget` for an entry -/
def Dirent.igetInum (de : Dirent) : BitVec 32 := de.inum.setWidth 32

/-- `IS_MAIN_DIR`: the main directory is an inode of the disk. -/
def isMainDir (inum : BitVec 32) (major : ℕ) : Bool :=
  decide (inum.toNat < INODE_BASE) && major == PROCFS

/-- `procfsisdir` -/
def procfsisdir (inum : BitVec 32) (major : ℕ) : Bool :=
  isMainDir inum major ||
    (decide (inum.toNat ≥ PROC_BASE) && (inum.toNat - PROC_BASE) % INUMS_PER_PROC == 0)

/-- The node that `procfsread` takes an inode for -/
def nodeOf (inum : BitVec 32) (major : ℕ) : Node :=
  if isMainDir inum major then .mainDir
  else if inum.toNat ≥ PROC_BASE then
    let idx := (inum.toNat - PROC_BASE) % INUMS_PER_PROC
    let pid := BitVec.ofNat 32 ((inum.toNat - PROC_BASE) / INUMS_PER_PROC)
    if idx = 0 then .procDir pid else .procFile pid (idx - 1)
  else .mainFile (inum.toNat - INODE_BASE)

/-! ## The directories -/

/-- The process table, in the order of its slots -/
structure State where
  nextpid : BitVec 32
  procs : List Proc

/-- `get_proc_by_idx` for the process `self`; all but the shell are hidden from
    themselves. -/
def getProcByIdx (s : State) (self : BitVec 32) (isSh : Bool) (idx : ℕ) : Option Proc :=
  (s.procs.filter fun p =>
    p.state != .unused && p.state != .used && (isSh || p.pid != self))[idx]?

/-- `get_proc_by_pid` -/
def getProcByPid (s : State) (pid : BitVec 32) : Option Proc :=
  s.procs.find? fun p => p.state != .unused && p.state != .used && p.pid == pid

/-- The number of entry `idx` of `maindir` -/
def mainInum (idx : ℕ) : BitVec 16 := BitVec.ofNat 16 (INODE_BASE + idx)

/-- The number of the directory of a process: `INUMS_PER_PROC * p->pid + PROC_BASE`, an
    `int`, stored in 16 bits -/
def procInum (pid : BitVec 32) : BitVec 16 :=
  (BitVec.ofNat 32 INUMS_PER_PROC * pid + BitVec.ofNat 32 PROC_BASE).setWidth 16

/-- The number of entry `idx` of `procdir` in the directory with number `dir` -/
def fileInum (dir : BitVec 32) (idx : ℕ) : BitVec 16 :=
  (dir + BitVec.ofNat 32 idx + 1).setWidth 16

/-- `sizeof(struct dirent)` -/
def direntSize : ℕ := 16

/-- `read_main_dir` on the inode `inum` -/
def readMainDir (s : State) (self : BitVec 32) (isSh : Bool) (inum : BitVec 32) (off : ℕ) :
    Option Dirent :=
  match off / direntSize with
  | 0 => some ⟨inum.setWidth 16, "."⟩
  | 1 => some ⟨BitVec.ofNat 16 ROOTINO, ".."⟩
  | idx + 2 =>
    match maindir[idx]? with
    | some name => some ⟨mainInum idx, name⟩
    | none => (getProcByIdx s self isSh (idx - FNUM_IN_MAIN_DIR)).map fun p =>
        ⟨procInum p.pid, toString p.pid.toInt⟩

/-- `read_proc_dir` on the inode `inum` -/
def readProcDir (mainDirInum : ℕ) (inum : BitVec 32) (off : ℕ) : Except String (Option Dirent) :=
  match off / direntSize with
  | 0 => .ok (some ⟨inum.setWidth 16, "."⟩)
  | 1 =>
    if mainDirInum = 0 then .error "read_proc_dir"
    else .ok (some ⟨BitVec.ofNat 16 mainDirInum, ".."⟩)
  | idx + 2 => .ok (procdir[idx]?.map fun name => ⟨fileInum inum idx, name⟩)

/-- The names of `write_proc_status` for the states -/
def stateName : ProcState → String
  | .unused => "unused"
  | .used => "used  "
  | .sleeping => "sleep "
  | .runnable => "runble"
  | .running => "run   "
  | .zombie => "zombie"

/-- `snprintf(data, sz, ...)`, which stops after `sz` characters. No number of the formats
    here gets as far. -/
def snprintf (sz : ℕ) (text : String) : String := String.ofList (text.toList.take sz)

/-- `write_proc_status` -/
def writeProcStatus (p : Proc) : String :=
  snprintf 100 ("proc pid: " ++ toString p.pid.toInt ++ "\nstate: " ++ stateName p.state ++
    "\nheap size: " ++ toString (BitVec.ofNat 32 p.sz).toInt ++ "\n")

/-- `write_uptime` -/
def writeUptime (ticks : ℕ) : String :=
  snprintf 20 ("uptime: " ++ toString (BitVec.ofNat 32 ticks).toInt ++ " ticks\n")

/-- What `procfsread` copies to the reader -/
inductive Answer where
  | entry (de : Option Dirent)
  /-- The text of a file; the reader gets `n` bytes of it from `off` on. -/
  | text (data : String)
  deriving DecidableEq

/-- `procfsread`: what is read from an inode with this number. The file of a process that
    is gone is read through a null pointer. -/
def procfsread (s : State) (self : BitVec 32) (isSh : Bool) (ticks mainDirInum : ℕ)
    (inum : BitVec 32) (major off : ℕ) : Except String Answer :=
  match nodeOf inum major with
  | .mainDir => .ok (.entry (readMainDir s self isSh inum off))
  | .procDir _ => (readProcDir mainDirInum inum off).map .entry
  | .procFile pid _ =>
    match getProcByPid s pid with
    | none => .error "kerneltrap"
    | some p => .ok (.text (writeProcStatus p))
  | .mainFile _ => .ok (.text (writeUptime ticks))

/-! ## Faithful numbers -/

/-- The number of the inode that a lookup makes for a node. The files of a process are
    looked up in the inode that its own entry led to. -/
def inumOf : Node → BitVec 32
  | .mainDir => 0
  | .mainFile idx => (mainInum idx).setWidth 32
  | .procDir pid => (procInum pid).setWidth 32
  | .procFile pid idx => (fileInum ((procInum pid).setWidth 32) idx).setWidth 32

/-- The nodes of a process: its directory, and its status file -/
def nodesOf (pid : BitVec 32) : List Node := [.procDir pid, .procFile pid 0]

/-- The nodes of procfs that are not on the disk -/
def State.nodes (s : State) : List Node :=
  .mainFile 0 :: s.procs.flatMap fun p => nodesOf p.pid

/-- The number of a node leads back to it, and to nothing else. -/
structure Faithful (s : State) (n : Node) : Prop where
  decodes : nodeOf (inumOf n) PROCFS = n
  isdir : procfsisdir (inumOf n) PROCFS = true ↔ ∃ pid, n = .procDir pid
  base : INODE_BASE ≤ (inumOf n).toNat
  differs : ∀ m ∈ s.nodes, m ≠ n → inumOf m ≠ inumOf n

/-- All nodes of processes have faithful numbers. -/
def Encodes (s : State) : Prop := ∀ p ∈ s.procs, ∀ n ∈ nodesOf p.pid, Faithful s n

/-! ## Numbers as naturals -/

theorem toNat_inumOf_mainFile : (inumOf (.mainFile 0)).toNat = 10000 := by decide

theorem toNat_inumOf_procDir (pid : BitVec 32) :
    (inumOf (.procDir pid)).toNat = (2 * pid.toNat + 10001) % 2 ^ 16 := by
  simp only [inumOf, procInum, INUMS_PER_PROC, PROC_BASE, FNUM_IN_MAIN_DIR, INODE_BASE,
    BitVec.toNat_setWidth, BitVec.toNat_add, BitVec.toNat_mul, BitVec.toNat_ofNat]
  omega

theorem toNat_inumOf_procFile (pid : BitVec 32) :
    (inumOf (.procFile pid 0)).toNat = (2 * pid.toNat + 10002) % 2 ^ 16 := by
  -- the file counts on from the number of the directory it was looked up in
  have hnext : ((inumOf (.procDir pid) + BitVec.ofNat 32 0 + 1).setWidth 16 : BitVec 16).toNat =
      ((inumOf (.procDir pid)).toNat + 1) % 2 ^ 16 := by
    simp only [BitVec.toNat_setWidth, BitVec.toNat_add, BitVec.toNat_ofNat]
    have : (inumOf (.procDir pid)).toNat < 2 ^ 16 := by
      rw [toNat_inumOf_procDir]
      omega
    have hone : (1 : BitVec 32).toNat = 1 := rfl
    omega
  have hfile : (inumOf (.procFile pid 0)).toNat = ((inumOf (.procDir pid)).toNat + 1) % 2 ^ 16 := by
    rw [← hnext]
    exact BitVec.toNat_setWidth_of_le (by decide)
  rw [hfile, toNat_inumOf_procDir]
  omega

theorem PROC_BASE_eq : PROC_BASE = 10001 := by
  simp [PROC_BASE, FNUM_IN_MAIN_DIR, INODE_BASE]

theorem isMainDir_of_le {inum : BitVec 32} (h : 10000 ≤ inum.toNat) (major : ℕ) :
    isMainDir inum major = false := by
  have : ¬ inum.toNat < INODE_BASE := Nat.not_lt.mpr h
  rw [isMainDir, decide_eq_false this]
  rfl

/-- A number above `INODE_BASE` is decoded by its distance from `PROC_BASE`. -/
theorem nodeOf_eq {inum : BitVec 32} (h : 10001 ≤ inum.toNat) :
    nodeOf inum PROCFS =
      if (inum.toNat - 10001) % 2 = 0 then .procDir (BitVec.ofNat 32 ((inum.toNat - 10001) / 2))
      else .procFile (BitVec.ofNat 32 ((inum.toNat - 10001) / 2)) 0 := by
  have hper : INUMS_PER_PROC = 2 := rfl
  rw [nodeOf, isMainDir_of_le (by omega), if_neg Bool.false_ne_true, PROC_BASE_eq, if_pos h, hper]
  dsimp only
  by_cases heven : (inum.toNat - 10001) % 2 = 0
  · rw [if_pos heven, if_pos heven]
  · have hodd : (inum.toNat - 10001) % 2 = 1 := by omega
    rw [if_neg heven, if_neg heven, hodd]

theorem procfsisdir_eq {inum : BitVec 32} (h : 10001 ≤ inum.toNat) :
    procfsisdir inum PROCFS = decide ((inum.toNat - 10001) % 2 = 0) := by
  rw [procfsisdir, isMainDir_of_le (by omega), PROC_BASE_eq, decide_eq_true h, INUMS_PER_PROC,
    Bool.false_or, Bool.true_and]
  exact beq_eq_decide _ _

/-- A number that is below the first directory of a process leads to no process. -/
theorem nodeOf_of_lt {inum : BitVec 32} (h : inum.toNat < 10001) {pid : BitVec 32} {n : Node}
    (hn : n ∈ nodesOf pid) : nodeOf inum PROCFS ≠ n := by
  simp only [nodesOf, List.mem_cons, List.not_mem_nil, or_false] at hn
  rw [nodeOf, PROC_BASE_eq, if_neg (Nat.not_le.mpr h)]
  split <;> rcases hn with rfl | rfl <;> exact fun h => by cases h

/-! ## Which numbers are faithful -/

/-- The number that a node of a process has before it is stored -/
def wide : Node → ℕ
  | .mainDir => 0
  | .mainFile _ => 10000
  | .procDir pid => 2 * pid.toNat + 10001
  | .procFile pid _ => 2 * pid.toNat + 10002

theorem toNat_inumOf {pid : BitVec 32} {n : Node} (hn : n ∈ nodesOf pid) :
    (inumOf n).toNat = wide n % 2 ^ 16 := by
  simp only [nodesOf, List.mem_cons, List.not_mem_nil, or_false] at hn
  rcases hn with rfl | rfl
  · exact toNat_inumOf_procDir pid
  · exact toNat_inumOf_procFile pid

/-- Where the number fits, its distance from `PROC_BASE` is the pid and the entry. -/
theorem nodeOf_inumOf {pid : BitVec 32} {n : Node} (hn : n ∈ nodesOf pid) (h : wide n < 2 ^ 16) :
    nodeOf (inumOf n) PROCFS = n := by
  have hnum := toNat_inumOf hn
  rw [Nat.mod_eq_of_lt h] at hnum
  simp only [nodesOf, List.mem_cons, List.not_mem_nil, or_false] at hn
  rcases hn with rfl | rfl
  · rw [nodeOf_eq (by rw [hnum, wide]; omega), hnum]
    have : 2 * pid.toNat + 10001 - 10001 = 2 * pid.toNat := by omega
    simp [wide]
  · rw [nodeOf_eq (by rw [hnum, wide]; omega), hnum]
    have hdiff : wide (.procFile pid 0) - 10001 = 2 * pid.toNat + 1 := by simp only [wide]; omega
    rw [hdiff, if_neg (by omega)]
    have : (2 * pid.toNat + 1) / 2 = pid.toNat := by omega
    rw [this, BitVec.ofNat_toNat, BitVec.setWidth_eq]

/-- **Decoding.** The number of a node of a process is decoded to that node exactly when
    it fits in the 16 bits of a directory entry. -/
theorem nodeOf_inumOf_iff {pid : BitVec 32} {n : Node} (hn : n ∈ nodesOf pid) :
    nodeOf (inumOf n) PROCFS = n ↔ wide n < 2 ^ 16 := by
  constructor
  · intro h
    by_contra hge
    have hnum := toNat_inumOf hn
    by_cases hsmall : (inumOf n).toNat < 10001
    · exact nodeOf_of_lt hsmall hn h
    · -- what is left of the number leads to a smaller pid
      rw [nodeOf_eq (by omega)] at h
      have hlt := pid.isLt
      simp only [nodesOf, List.mem_cons, List.not_mem_nil, or_false] at hn
      rcases hn with rfl | rfl <;> split at h <;> simp only [Node.procDir.injEq, Node.procFile.injEq,
        reduceCtorEq, and_true] at h
      all_goals
        have hpid := congrArg BitVec.toNat h
        rw [BitVec.toNat_ofNat] at hpid
        simp only [wide] at hnum hge
        omega
  · exact nodeOf_inumOf hn

/-- The nodes of a process are told apart by their numbers before they are stored. -/
theorem wide_injective {pid pid' : BitVec 32} {n m : Node} (hn : n ∈ nodesOf pid)
    (hm : m ∈ nodesOf pid') (h : wide m = wide n) : m = n := by
  simp only [nodesOf, List.mem_cons, List.not_mem_nil, or_false] at hn hm
  rcases hn with rfl | rfl <;> rcases hm with rfl | rfl <;> simp only [wide] at h
  · rw [BitVec.eq_of_toNat_eq (by omega : pid'.toNat = pid.toNat)]
  · omega
  · omega
  · rw [BitVec.eq_of_toNat_eq (by omega : pid'.toNat = pid.toNat)]

/-- No pid of the table is above 27766. -/
def SmallPids (s : State) : Prop := ∀ p ∈ s.procs, 2 * p.pid.toNat + PROC_BASE + 1 < 2 ^ 16

/-- **Faithful numbers.** In any process table, the numbers that the directories of procfs
    give out for the nodes of processes lead back to them and to nothing else if and only
    if no process has a pid above 27766. -/
theorem encodes_iff (s : State) : Encodes s ↔ SmallPids s := by
  have hwide : ∀ {pid n}, n ∈ nodesOf pid → wide n ≤ 2 * pid.toNat + 10002 ∧ 10001 ≤ wide n := by
    intro pid n hn
    simp only [nodesOf, List.mem_cons, List.not_mem_nil, or_false] at hn
    rcases hn with rfl | rfl <;> simp only [wide] <;> omega
  constructor
  -- the number of the file of a process is the larger one of the two
  · intro h p hp
    have hfile : Node.procFile p.pid 0 ∈ nodesOf p.pid := by simp [nodesOf]
    have hfit := (nodeOf_inumOf_iff hfile).mp (h p hp _ hfile).decodes
    simp only [wide] at hfit
    rw [PROC_BASE_eq]
    omega
  · intro hsmall
    have hfits : ∀ p ∈ s.procs, ∀ n ∈ nodesOf p.pid, (inumOf n).toNat = wide n := by
      intro p hp n hn
      have hp := hsmall p hp
      rw [PROC_BASE_eq] at hp
      rw [toNat_inumOf hn, Nat.mod_eq_of_lt (by have := (hwide hn).1; omega)]
    intro p hp n hn
    have hnum := hfits p hp n hn
    have hlow := (hwide hn).2
    have hfit : wide n < 2 ^ 16 := by rw [← hnum, toNat_inumOf hn]; omega
    refine ⟨nodeOf_inumOf hn hfit, ?_, ?_, ?_⟩
    · rw [procfsisdir_eq (by omega), hnum, decide_eq_true_iff]
      simp only [nodesOf, List.mem_cons, List.not_mem_nil, or_false] at hn
      rcases hn with rfl | rfl <;> simp only [wide, reduceCtorEq, exists_const, iff_false,
        Node.procDir.injEq, exists_eq', iff_true] <;> omega
    · rw [hnum]
      exact Nat.le_trans (by simp [INODE_BASE]) hlow
    -- a node of another process has another number, as no number wraps
    · intro m hm hne heq
      rw [State.nodes, List.mem_cons, List.mem_flatMap] at hm
      have heq := congrArg BitVec.toNat heq
      rcases hm with rfl | ⟨q, hq, hm⟩
      · rw [toNat_inumOf_mainFile, hnum] at heq
        omega
      · rw [hfits q hq m hm, hnum] at heq
        exact hne (wide_injective hn hm heq)

/-! ## Which pids are issued -/

/-- `allocpid`: the pid, and the next one -/
def allocpid (nextpid : BitVec 32) : BitVec 32 × BitVec 32 := (nextpid, nextpid + 1)

/-- What happens to the process table -/
inductive Act where
  /-- `allocproc` of a process or a thread -/
  | allocproc
  /-- `freeproc` of the process in slot `i` -/
  | freeproc (i : ℕ)
  /-- The process in slot `i` changes its state or its size. -/
  | set (i : ℕ) (state : ProcState) (sz : ℕ)

def step (s : State) : Act → Option State
  | .allocproc =>
    let (pid, next) := allocpid s.nextpid
    some ⟨next, s.procs ++ [⟨pid, .used, 0⟩]⟩
  | .freeproc i => some { s with procs := s.procs.eraseIdx i }
  | .set i state sz =>
    some { s with procs := s.procs.modify i fun p => { p with state := state, sz := sz } }

/-- The table when the system boots -/
def system : System State Act where
  init s := s = ⟨1, []⟩
  step := step

/-- Processes come and go, and the next pid grows. -/
theorem reachable_nextpid (n : ℕ) : system.Reachable ⟨BitVec.ofNat 32 (n + 1), []⟩ := by
  induction n with
  | zero => exact .init rfl
  | succ n ih =>
    have hborn : system.Reachable ⟨BitVec.ofNat 32 (n + 1) + 1, [⟨BitVec.ofNat 32 (n + 1), .used, 0⟩]⟩ :=
      .step (a := .allocproc) ih trivial rfl
    have hgone : system.Reachable ⟨BitVec.ofNat 32 (n + 1) + 1, []⟩ :=
      .step (a := .freeproc 0) hborn trivial rfl
    have hnext : BitVec.ofNat 32 (n + 1) + 1 = BitVec.ofNat 32 (n + 1 + 1) := by
      rw [BitVec.ofNat_add (n + 1) 1]
      rfl
    rwa [← hnext]

/-- The 27768th process is given the number of the root directory. -/
theorem late_pid_names_root :
    ¬ ∀ s, system.Reachable s → Encodes s := by
  intro h
  have hs : system.Reachable ⟨BitVec.ofNat 32 27768 + 1, [⟨BitVec.ofNat 32 27768, .used, 0⟩]⟩ :=
    .step (a := .allocproc) (reachable_nextpid 27767) trivial rfl
  have hroot : inumOf (.procDir (BitVec.ofNat 32 27768)) = BitVec.ofNat 32 ROOTINO := by decide
  have hfaithful := h _ hs _ (List.mem_singleton.mpr rfl) (.procDir (BitVec.ofNat 32 27768))
    (by simp [nodesOf])
  have hbase := hfaithful.base
  rw [hroot] at hbase
  exact absurd hbase (by decide)

end Xv6.Kernel.Procfs
