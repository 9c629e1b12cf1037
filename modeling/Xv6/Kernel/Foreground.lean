import Mathlib
import Xv6.Lib.TransitionSystem
import Xv6.Kernel.Eviction

/-!
# Foreground Processes

When the shell waits, `setfg` marks its children in a mask, one bit for each slot of the process table, and `exit`
clears the bit. What is typed at the console is then for the processes that are marked.

The bits are made by shifts of an `int`. Two slots that are 32 apart have the same bit, and the bit of the last one
of the first half is extended over the second half of the mask.

- `Represents`: what the mask says, one bit for each remainder modulo 32;
- `Reaches`: the signal is for the foreground processes, or for the shell;
- `foreground_reached`: the runs in which it gets there.
-/

namespace Xv6.Kernel.Foreground

open Xv6.Lib
open Xv6.Kernel.Eviction (ProcState)

/-! ## The process table -/

def NPROC : ℕ := 64

/-- The pid that stands for the foreground processes -/
def FG : ℤ := 0

/-- The fields of `struct proc` that `setfg` and `sendsignal` use -/
structure Proc where
  state : ProcState
  pid : ℤ
  /-- The slot of `p->parent` -/
  parent : Option ℕ
  isthread : Bool
  pending : BitVec 32

/-- `p->state` is `RUNNING`, `RUNNABLE` or `SLEEPING`. -/
def Proc.live (p : Proc) : Bool := p.state == .running || p.state == .runnable || p.state == .sleeping

structure State where
  proc : ℕ → Proc
  initproc : ℕ
  shproc : ℕ
  fgprocMask : BitVec 64
  /-- The process in the slot was a child of the shell at a `setfg`, and has not exited since. No code reads this. -/
  foreground : ℕ → Bool

namespace State

variable (s : State)

/-- `1 << i` for an `int`: the shift is by `i` modulo 32. -/
def shl (i : ℕ) : BitVec 32 := 1#32 <<< (i % 32)

def setProc (i : ℕ) (p : Proc) : State := { s with proc := Function.update s.proc i p }

/-- The loop of `setfg(sh_proc)` -/
def setfgLoop (sh : ℕ) : List ℕ → State → State
  | [], s => s
  | i :: is, s =>
    let p := s.proc i
    setfgLoop sh is
      (if p.parent = some sh ∧ p.isthread = false ∧ p.live = true then
        { s with fgprocMask := s.fgprocMask ||| (shl i).signExtend 64 }
      else s)

/-- `setfg(sh_proc)` -/
def setfg (sh : ℕ) : State := setfgLoop sh (List.range NPROC) s

/-- `pp->pending |= (1 << signal)` -/
def post (signal : ℕ) (p : Proc) : Proc := { p with pending := p.pending ||| shl signal }

/-- `if (pp->state == SLEEPING) pp->state = RUNNABLE` -/
def wake (p : Proc) : Proc := if p.state = .sleeping then { p with state := .runnable } else p

/-- The loop of `sendsignal(signal, pid)`: `ret`, and whether it returns from the loop -/
def sendLoop (signal : ℕ) (pid : ℤ) : List ℕ → State → ℤ → State × ℤ × Bool
  | [], s, ret => (s, ret, false)
  | i :: is, s, ret =>
    let pp := s.proc i
    if pp.isthread then sendLoop signal pid is s ret
    else if pp.live then
      if pid = pp.pid then (s.setProc i (post signal pp), 0, true)
      else if pid = FG ∧ (shl i).signExtend 64 &&& s.fgprocMask ≠ 0 then
        sendLoop signal pid is (s.setProc i (wake (post signal pp))) 0
      else sendLoop signal pid is s ret
    else sendLoop signal pid is s ret

/-- `sendsignal(signal, pid)` -/
def sendsignal (signal : ℕ) (pid : ℤ) : State × ℤ :=
  match sendLoop signal pid (List.range NPROC) s (-1) with
  | (s, ret, true) => (s, ret)
  | (s, ret, false) =>
    if ret < 0 ∧ pid = FG then (s.setProc s.shproc (wake (post signal (s.proc s.shproc))), ret) else (s, ret)

/-- `exit` of the process in slot `i`: `reparent`, the mask and the state -/
def exit (i : ℕ) : State :=
  let proc := fun j =>
    if (s.proc j).parent = some i ∧ (s.proc j).isthread = false then { s.proc j with parent := some s.initproc }
    else s.proc j
  { s with
    proc := Function.update proc i { proc i with state := .zombie }
    fgprocMask := s.fgprocMask &&& (~~~(shl i)).signExtend 64 }

end State

/-! ## Runs -/

/-- The children of the shell that `setfg` is for -/
def ShellChild (s : State) (i : ℕ) : Prop :=
  (s.proc i).parent = some s.shproc ∧ (s.proc i).isthread = false ∧ (s.proc i).live = true

instance (s : State) (i : ℕ) : Decidable (ShellChild s i) := inferInstanceAs (Decidable (_ ∧ _ ∧ _))

/-- A process stays what it is, and live, until it exits; what is live has a pid. -/
def Persists (proc proc' : ℕ → Proc) : Prop :=
  ∀ i < NPROC, ((proc i).live = true →
      (proc' i).live = true ∧ (proc' i).pid = (proc i).pid ∧ (proc' i).isthread = (proc i).isthread) ∧
    ((proc' i).live = true → 0 < (proc' i).pid)

instance (proc proc' : ℕ → Proc) : Decidable (Persists proc proc') :=
  inferInstanceAs (Decidable (∀ i < NPROC, (_ → _ ∧ _ ∧ _) ∧ (_ → _)))

inductive Act where
  /-- The shell calls `wait`. -/
  | setfg
  | exit (i : ℕ)
  | sendsignal (signal : ℕ) (pid : ℤ)
  /-- `initproc` forks: the child is the shell. -/
  | shell (i : ℕ)
  /-- `fork`, `clone`, `wait`, the scheduler, `signal_handle`, …: what happens to the table else -/
  | other (proc : ℕ → Proc)

def step (s : State) : Act → Option State
  | .setfg => some { s.setfg s.shproc with foreground := fun i => s.foreground i || decide (i < NPROC ∧ ShellChild s i) }
  | .exit i =>
    if i < NPROC ∧ i ≠ s.initproc ∧ (s.proc i).live then
      some { s.exit i with foreground := Function.update s.foreground i false }
    else none
  | .sendsignal signal pid => some (s.sendsignal signal pid).1
  | .shell i => if i < NPROC then some { s with shproc := i } else none
  | .other proc => if Persists s.proc proc then some { s with proc := proc } else none

/-- Any process table at the time when `initproc` has forked the first shell -/
structure Started (s : State) : Prop where
  mask : s.fgprocMask = 0
  foreground : ∀ i, s.foreground i = false
  pid : ∀ i < NPROC, (s.proc i).live = true → 0 < (s.proc i).pid

def system : System State Act where
  init := Started
  step := step

/-! ## What it is for -/

/-- The slot holds a live foreground process. -/
def State.Addressed (s : State) (i : ℕ) : Prop :=
  (s.proc i).live = true ∧ (s.proc i).isthread = false ∧ s.foreground i = true

/-- The signal is for the process in the slot. -/
def State.Receives (s : State) (i : ℕ) : Prop :=
  s.Addressed i ∨ i = s.shproc ∧ ¬ ∃ j < NPROC, s.Addressed j

/-- **The signal reaches the foreground**: it is pending for the live foreground processes, for the shell if there are
    none, and for nobody else. -/
def Reaches (s : State) : Act → Prop
  | .sendsignal signal pid => pid = FG → ∀ i < NPROC,
      (s.Receives i →
        ((s.sendsignal signal pid).1.proc i).pending = (s.proc i).pending ||| State.shl signal) ∧
      (¬ s.Receives i → (s.sendsignal signal pid).1.proc i = s.proc i)
  | _ => True

/-- No slot 32 away from a foreground process exits, or is live in the background when a signal is sent. -/
def Apart (s : State) : Act → Prop
  | .exit i => ∀ j < NPROC, j ≠ i → j % 32 = i % 32 → s.foreground j = false
  | .sendsignal _ pid => pid = FG → ∀ i < NPROC, ∀ j < NPROC, s.foreground i = true → j % 32 = i % 32 →
      (s.proc j).live = true → (s.proc j).isthread = false → s.foreground j = true
  | _ => True

/-! ## The mask -/

/-- The mask has the bits of `m`, and the last one of them in its whole second half. -/
def Represents (mask : BitVec 64) (m : ℕ → Prop) : Prop := ∀ k < 64, mask.getLsbD k = true ↔ m (min k 31)

section Mask

variable {mask : BitVec 64} {m : ℕ → Prop} {i : ℕ}

theorem shl_getLsbD (k : ℕ) : (State.shl i).getLsbD k = decide (k = i % 32) := by
  unfold State.shl
  rw [BitVec.getLsbD_shiftLeft, BitVec.getLsbD_one]
  by_cases heq : k = i % 32
  · simp [heq, Nat.mod_lt]
  · by_cases hlt : k < i % 32
    · simp [heq, hlt]
    · have hsub : k - i % 32 ≠ 0 := by omega
      simp [heq, hsub]

/-- The bits of `1 << i` as an `int` that is extended to 64 bits -/
theorem signExtend_shl {k : ℕ} (hk : k < 64) :
    ((State.shl i).signExtend 64).getLsbD k = decide (min k 31 = i % 32) := by
  have hmod : i % 32 < 32 := Nat.mod_lt _ (by decide)
  rw [BitVec.getLsbD_signExtend, BitVec.msb_eq_getLsbD_last, shl_getLsbD, shl_getLsbD]
  by_cases hlt : k < 32
  · rw [if_pos hlt, Nat.min_eq_left (by omega)]
    simp [hk]
  · rw [if_neg hlt, Nat.min_eq_right (by omega)]
    simp [hk]

/-- The bits of `~(1 << i)` -/
theorem signExtend_not_shl {k : ℕ} (hk : k < 64) :
    ((~~~(State.shl i)).signExtend 64).getLsbD k = !decide (min k 31 = i % 32) := by
  rw [BitVec.getLsbD_signExtend, BitVec.msb_eq_getLsbD_last, BitVec.getLsbD_not, BitVec.getLsbD_not,
    shl_getLsbD, shl_getLsbD]
  by_cases hlt : k < 32
  · rw [if_pos hlt, Nat.min_eq_left (by omega)]
    simp [hk, hlt]
  · rw [if_neg hlt, Nat.min_eq_right (by omega)]
    simp [hk]

theorem Represents.set (h : Represents mask m) :
    Represents (mask ||| (State.shl i).signExtend 64) fun c => m c ∨ c = i % 32 := by
  intro k hk
  rw [BitVec.getLsbD_or, Bool.or_eq_true, h k hk, signExtend_shl hk, decide_eq_true_eq]

theorem Represents.clear (h : Represents mask m) :
    Represents (mask &&& (~~~(State.shl i)).signExtend 64) fun c => m c ∧ c ≠ i % 32 := by
  intro k hk
  rw [BitVec.getLsbD_and, Bool.and_eq_true, h k hk, signExtend_not_shl hk, Bool.not_eq_true', decide_eq_false_iff_not]

/-- **The test of a slot** is one of its remainder. -/
theorem Represents.test (h : Represents mask m) :
    (State.shl i).signExtend 64 &&& mask ≠ 0 ↔ m (i % 32) := by
  have hmod : i % 32 < 32 := Nat.mod_lt _ (by decide)
  constructor
  · intro hne
    by_contra hm
    refine hne (BitVec.eq_of_getLsbD_eq fun k hk => ?_)
    change _ = (0#64).getLsbD k
    rw [BitVec.getLsbD_and, signExtend_shl hk, BitVec.getLsbD_zero, Bool.and_eq_false_iff, decide_eq_false_iff_not,
      ← Bool.not_eq_true, h k hk]
    by_cases heq : min k 31 = i % 32
    · exact .inr (heq ▸ hm)
    · exact .inl heq
  · intro hm hzero
    have hbit : ((State.shl i).signExtend 64 &&& mask).getLsbD (i % 32) = true := by
      have hmin : min (i % 32) 31 = i % 32 := Nat.min_eq_left (by omega)
      rw [BitVec.getLsbD_and, signExtend_shl (by omega), hmin, Bool.and_eq_true, h _ (by omega), hmin]
      exact ⟨decide_eq_true rfl, hm⟩
    rw [hzero] at hbit
    exact absurd hbit (by simp)

theorem Represents.congr {m' : ℕ → Prop} (h : Represents mask m) (hm : ∀ c < 32, m c ↔ m' c) :
    Represents mask m' := fun k hk => (h k hk).trans (hm _ (by omega))

end Mask

/-! ## The loops -/

section Loops

variable {s : State} {m : ℕ → Prop}

theorem setProc_self {i : ℕ} {p : Proc} : (s.setProc i p).proc i = p := Function.update_self ..

theorem setProc_ne {i j : ℕ} {p : Proc} (h : j ≠ i) : (s.setProc i p).proc j = s.proc j := Function.update_of_ne h ..

/-- What `setfg` marks: the remainders of the children in the list -/
theorem setfgLoop_spec (sh : ℕ) (l : List ℕ) (h : Represents s.fgprocMask m) :
    ∃ mask, State.setfgLoop sh l s = { s with fgprocMask := mask } ∧
      Represents mask fun c => m c ∨ ∃ i ∈ l, c = i % 32 ∧ (s.proc i).parent = some sh ∧
        (s.proc i).isthread = false ∧ (s.proc i).live = true := by
  induction l generalizing s m with
  | nil => exact ⟨s.fgprocMask, rfl, h.congr fun c _ => by simp⟩
  | cons i is ih =>
    rw [State.setfgLoop]
    by_cases hchild : (s.proc i).parent = some sh ∧ (s.proc i).isthread = false ∧ (s.proc i).live = true
    · rw [if_pos hchild]
      obtain ⟨mask, heq, hmask⟩ := ih (s := { s with fgprocMask := s.fgprocMask ||| (State.shl i).signExtend 64 }) h.set
      refine ⟨mask, heq, hmask.congr fun c _ => ?_⟩
      rw [List.exists_mem_cons_iff, or_assoc, and_iff_left hchild]
    · rw [if_neg hchild]
      obtain ⟨mask, heq, hmask⟩ := ih h
      refine ⟨mask, heq, hmask.congr fun c _ => ?_⟩
      rw [List.exists_mem_cons_iff, or_iff_right (a := _ ∧ _) fun hc => hchild hc.2]

/-- The process in the slot is live, and the mask says that it is in the foreground. -/
def State.Marked (s : State) (m : ℕ → Prop) (i : ℕ) : Prop :=
  (s.proc i).isthread = false ∧ (s.proc i).live = true ∧ m (i % 32)

/-- What a process gets from `sendsignal(signal, FG)` -/
def State.posted (signal : ℕ) (p : Proc) : Proc := wake (post signal p)

theorem posted_pending (signal : ℕ) (p : Proc) : (State.posted signal p).pending = p.pending ||| State.shl signal := by
  unfold State.posted State.wake
  split
  · rfl
  · rfl

/-- **The loop of `sendsignal` for the foreground** posts to the marked processes, and returns 0 if there is one. -/
theorem sendLoop_fg (signal : ℕ) (l : List ℕ) (hl : l.Nodup) (h : Represents s.fgprocMask m)
    (hpid : ∀ i ∈ l, (s.proc i).live = true → 0 < (s.proc i).pid) (ret : ℤ) :
    ∃ proc ret', State.sendLoop signal FG l s ret = ({ s with proc := proc }, ret', false) ∧
      (∀ i, (i ∈ l ∧ s.Marked m i → proc i = State.posted signal (s.proc i)) ∧
        (¬ (i ∈ l ∧ s.Marked m i) → proc i = s.proc i)) ∧
      ((∃ i ∈ l, s.Marked m i) → ret' = 0) ∧ ((¬ ∃ i ∈ l, s.Marked m i) → ret' = ret) := by
  induction l generalizing s ret with
  | nil => exact ⟨s.proc, ret, rfl, fun i => ⟨fun hi => by simp at hi, fun _ => rfl⟩, by simp, fun _ => rfl⟩
  | cons i is ih =>
    obtain ⟨hi, his⟩ := List.nodup_cons.mp hl
    have hpid' := fun j hj => hpid j (List.mem_cons_of_mem i hj)
    rw [State.sendLoop]
    -- in the other cases the loop goes on with the state as it is
    have hskip : ¬ s.Marked m i →
        ∃ proc ret', State.sendLoop signal FG is s ret = ({ s with proc := proc }, ret', false) ∧
        (∀ j, (j ∈ i :: is ∧ s.Marked m j → proc j = State.posted signal (s.proc j)) ∧
          (¬ (j ∈ i :: is ∧ s.Marked m j) → proc j = s.proc j)) ∧
        ((∃ j ∈ i :: is, s.Marked m j) → ret' = 0) ∧ ((¬ ∃ j ∈ i :: is, s.Marked m j) → ret' = ret) := by
      intro hnot
      have hmem : ∀ j, j ∈ i :: is ∧ s.Marked m j ↔ j ∈ is ∧ s.Marked m j := by
        intro j
        refine ⟨fun hj => ⟨(List.mem_cons.mp hj.1).resolve_left ?_, hj.2⟩, fun hj => ⟨List.mem_cons_of_mem i hj.1, hj.2⟩⟩
        rintro rfl
        exact hnot hj.2
      simp only [hmem]
      exact ih his h hpid' ret
    by_cases hthread : (s.proc i).isthread = true
    · rw [if_pos hthread]
      exact hskip fun hm => by simp [hm.1] at hthread
    rw [if_neg hthread]
    by_cases hlive : (s.proc i).live = true
    · have hne : FG ≠ (s.proc i).pid := (hpid i List.mem_cons_self hlive).ne
      rw [if_pos hlive, if_neg hne]
      by_cases htest : (State.shl i).signExtend 64 &&& s.fgprocMask ≠ 0
      · rw [if_pos ⟨rfl, htest⟩]
        have hmarked : s.Marked m i := ⟨Bool.eq_false_iff.mpr hthread, hlive, h.test.mp htest⟩
        obtain ⟨proc, ret', heq, hproc, hsome, hnone⟩ := ih (s := s.setProc i (State.posted signal (s.proc i))) his h
          (fun j hj => by
            have hji : j ≠ i := ne_of_mem_of_not_mem hj hi
            rw [setProc_ne hji]
            exact hpid' j hj) 0
        have hret : ret' = 0 := by
          by_cases hex : ∃ j ∈ is, (s.setProc i (State.posted signal (s.proc i))).Marked m j
          · exact hsome hex
          · exact hnone hex
        refine ⟨proc, ret', heq, fun j => ?_, fun _ => hret, fun hno => absurd ⟨i, List.mem_cons_self, hmarked⟩ hno⟩
        obtain ⟨hpost, hsame⟩ := hproc j
        by_cases hji : j = i
        · subst hji
          refine ⟨fun _ => ?_, fun hno => absurd ⟨List.mem_cons_self, hmarked⟩ hno⟩
          rw [hsame fun hj => hi hj.1, setProc_self]
        · have hold : (s.setProc i (State.posted signal (s.proc i))).proc j = s.proc j := setProc_ne hji
          have hmem : j ∈ i :: is ∧ s.Marked m j ↔
              j ∈ is ∧ (s.setProc i (State.posted signal (s.proc i))).Marked m j := by
            unfold State.Marked
            rw [hold, List.mem_cons, or_iff_right hji]
          rw [hmem, ← hold]
          exact ⟨hpost, hsame⟩
      · rw [if_neg fun hc => htest hc.2]
        exact hskip fun hm => htest (h.test.mpr hm.2.2)
    · rw [if_neg hlive]
      exact hskip fun hm => hlive hm.2.1

end Loops

/-! ## Runs -/

/-- The remainders of the slots of foreground processes -/
def State.marks (s : State) (c : ℕ) : Prop := ∃ i < NPROC, i % 32 = c ∧ s.foreground i = true

/-- The mask has the bits of the foreground processes. -/
structure Inv (s : State) : Prop where
  mask : Represents s.fgprocMask s.marks
  pid : ∀ i < NPROC, (s.proc i).live = true → 0 < (s.proc i).pid

section Runs

variable {s t : State}

theorem inv_started (h : Started s) : Inv s where
  mask k hk := by
    rw [h.mask]
    refine iff_of_false (by simp) ?_
    rintro ⟨i, -, -, hfg⟩
    rw [h.foreground i] at hfg
    cases hfg
  pid := h.pid

theorem Inv.setfg (h : Inv s) (hs : step s .setfg = some t) : Inv t := by
  obtain ⟨mask, heq, hmask⟩ := setfgLoop_spec s.shproc (List.range NPROC) h.mask
  have ht := Option.some.inj hs
  subst ht
  have hset : s.setfg s.shproc = { s with fgprocMask := mask } := heq
  rw [hset]
  refine ⟨hmask.congr fun c _ => ?_, h.pid⟩
  constructor
  · rintro (⟨i, hi, hc, hfg⟩ | ⟨i, hi, hc, hchild⟩)
    · exact ⟨i, hi, hc, by simp [hfg]⟩
    · have hi' := List.mem_range.mp hi
      refine ⟨i, hi', hc.symm, ?_⟩
      rw [Bool.or_eq_true, decide_eq_true_eq]
      exact .inr ⟨hi', hchild⟩
  · rintro ⟨i, hi, hc, hfg⟩
    rw [Bool.or_eq_true, decide_eq_true_eq] at hfg
    rcases hfg with hfg | ⟨-, hchild⟩
    · exact .inl ⟨i, hi, hc, hfg⟩
    · exact .inr ⟨i, List.mem_range.mpr hi, hc.symm, hchild⟩

/-- **An exit** clears the bit of its own process only, if no other foreground process has the same bit. -/
theorem Inv.exit {i : ℕ} (h : Inv s) (hapart : Apart s (.exit i)) (hs : step s (.exit i) = some t) : Inv t := by
  rw [step] at hs
  split at hs
  · next hi =>
    cases hs
    refine ⟨h.mask.clear.congr fun c _ => ?_, ?_⟩
    -- the bit is the one of the process that exits, and of no other foreground process
    · constructor
      · rintro ⟨⟨j, hj, hc, hfg⟩, hne⟩
        have hji : j ≠ i := by
          rintro rfl
          exact hne hc.symm
        exact ⟨j, hj, hc, (Function.update_of_ne hji ..).trans hfg⟩
      · rintro ⟨j, hj, hc, hfg⟩
        have hji : j ≠ i := by
          rintro rfl
          exact absurd hfg (by simp)
        have hfg' : s.foreground j = true := (Function.update_of_ne hji ..).symm.trans hfg
        refine ⟨⟨j, hj, hc, hfg'⟩, fun hci => ?_⟩
        rw [hapart j hj hji (hc.trans hci)] at hfg'
        cases hfg'
    -- children are handed to init and keep their pid
    · intro j hj hlive
      have hji : j ≠ i := by
        rintro rfl
        simp [State.exit, Proc.live] at hlive
      simp only [State.exit, Function.update_of_ne hji] at hlive ⊢
      split at hlive
      · next hchild =>
        rw [if_pos hchild]
        exact h.pid j hj hlive
      · next hchild =>
        rw [if_neg hchild]
        exact h.pid j hj hlive
  · cases hs

/-- What `sendsignal(signal, FG)` does, by the mask -/
theorem sendsignal_fg (h : Inv s) (signal : ℕ) :
    ∃ proc, (s.sendsignal signal FG).1 = { s with proc := proc } ∧
      ∀ i < NPROC, (s.Marked s.marks i ∨ i = s.shproc ∧ (¬ ∃ j < NPROC, s.Marked s.marks j) →
          proc i = State.posted signal (s.proc i)) ∧
        (¬ (s.Marked s.marks i ∨ i = s.shproc ∧ ¬ ∃ j < NPROC, s.Marked s.marks j) → proc i = s.proc i) := by
  obtain ⟨proc, ret, heq, hproc, hsome, hnone⟩ := sendLoop_fg signal (List.range NPROC) List.nodup_range h.mask
    (fun i hi => h.pid i (List.mem_range.mp hi)) (-1)
  have hex : (∃ i ∈ List.range NPROC, s.Marked s.marks i) ↔ ∃ j < NPROC, s.Marked s.marks j := by
    simp only [List.mem_range]
  rw [hex] at hsome hnone
  simp only [List.mem_range] at hproc
  unfold State.sendsignal
  rw [heq]
  dsimp only
  by_cases hm : ∃ j < NPROC, s.Marked s.marks j
  · rw [hsome hm, if_neg fun hc => absurd hc.1 (by decide)]
    refine ⟨proc, rfl, fun i hi => ⟨fun hr => ?_, fun hr => ?_⟩⟩
    · rcases hr with hr | hr
      · exact (hproc i).1 ⟨hi, hr⟩
      · exact absurd hm hr.2
    · exact (hproc i).2 fun hc => hr (.inl hc.2)
  · -- nobody is marked: the signal is for the shell
    have hsame : proc = s.proc := funext fun i => (hproc i).2 fun hc => hm ⟨i, hc⟩
    rw [hnone hm, if_pos ⟨by decide, rfl⟩, hsame]
    refine ⟨_, rfl, fun i hi => ⟨fun hr => ?_, fun hr => ?_⟩⟩
    · rcases hr with hr | ⟨rfl, -⟩
      · exact absurd ⟨i, hi, hr⟩ hm
      · exact Function.update_self ..
    · exact Function.update_of_ne (fun hc => hr (.inr ⟨hc, hm⟩)) ..

/-- Only processes change, and no process becomes live or gets another pid. -/
def Keeps (s t : State) : Prop :=
  t.fgprocMask = s.fgprocMask ∧ t.foreground = s.foreground ∧
    ∀ i, (t.proc i).live = (s.proc i).live ∧ (t.proc i).pid = (s.proc i).pid

theorem Keeps.trans {u : State} (h : Keeps s t) (h' : Keeps t u) : Keeps s u :=
  ⟨h'.1.trans h.1, h'.2.1.trans h.2.1, fun i => ⟨(h'.2.2 i).1.trans (h.2.2 i).1, (h'.2.2 i).2.trans (h.2.2 i).2⟩⟩

theorem keeps_post (signal i : ℕ) : Keeps s (s.setProc i (State.post signal (s.proc i))) := by
  refine ⟨rfl, rfl, fun j => ?_⟩
  by_cases hji : j = i
  · subst hji
    rw [setProc_self]
    exact ⟨rfl, rfl⟩
  · rw [setProc_ne hji]
    exact ⟨rfl, rfl⟩

theorem keeps_posted (signal i : ℕ) : Keeps s (s.setProc i (State.posted signal (s.proc i))) := by
  refine ⟨rfl, rfl, fun j => ?_⟩
  by_cases hji : j = i
  · subst hji
    rw [setProc_self]
    unfold State.posted State.wake
    split
    · next hsleep =>
      have hsleep : (s.proc j).state = .sleeping := hsleep
      simp [Proc.live, State.post, hsleep]
    · exact ⟨rfl, rfl⟩
  · rw [setProc_ne hji]
    exact ⟨rfl, rfl⟩

theorem keeps_sendLoop (signal : ℕ) (pid : ℤ) (l : List ℕ) (ret : ℤ) :
    Keeps s (State.sendLoop signal pid l s ret).1 := by
  induction l generalizing s ret with
  | nil => exact ⟨rfl, rfl, fun i => ⟨rfl, rfl⟩⟩
  | cons i is ih =>
    rw [State.sendLoop]
    split
    · exact ih ret
    · split
      · split
        · exact keeps_post signal i
        · split
          · exact (keeps_posted signal i).trans (ih 0)
          · exact ih ret
      · exact ih ret

theorem keeps_sendsignal (signal : ℕ) (pid : ℤ) : Keeps s (s.sendsignal signal pid).1 := by
  have hloop := keeps_sendLoop (s := s) signal pid (List.range NPROC) (-1)
  unfold State.sendsignal
  generalize State.sendLoop signal pid (List.range NPROC) s (-1) = r at hloop
  obtain ⟨t, ret, early⟩ := r
  cases early with
  | true => exact hloop
  | false =>
    dsimp only at hloop ⊢
    split
    · exact hloop.trans (keeps_posted signal t.shproc)
    · exact hloop

theorem Inv.sendsignal {signal : ℕ} {pid : ℤ} (h : Inv s) (hs : step s (.sendsignal signal pid) = some t) : Inv t := by
  obtain ⟨hmask, hfg, hproc⟩ := keeps_sendsignal (s := s) signal pid
  have ht := Option.some.inj hs
  rw [ht] at hmask hfg hproc
  refine ⟨?_, fun i hi hlive => ?_⟩
  · unfold State.marks
    rw [hmask, hfg]
    exact h.mask
  · rw [(hproc i).2]
    exact h.pid i hi ((hproc i).1 ▸ hlive)

theorem Inv.step {a : Act} (h : Inv s) (hapart : Apart s a) (hs : step s a = some t) : Inv t := by
  cases a with
  | setfg => exact h.setfg hs
  | exit i => exact h.exit hapart hs
  | sendsignal signal pid => exact h.sendsignal hs
  | shell i =>
    rw [Foreground.step] at hs
    split at hs
    · cases hs
      exact ⟨h.mask, h.pid⟩
    · cases hs
  | other proc =>
    rw [Foreground.step] at hs
    split at hs
    · next hpersists =>
      cases hs
      exact ⟨h.mask, fun i hi => (hpersists i hi).2⟩
    · cases hs

/-- **A signal reaches the foreground**, when the mask is right and no background process has the same bit. -/
theorem reaches_of_inv {a : Act} (h : Inv s) (hapart : Apart s a) : Reaches s a := by
  unfold Reaches
  split
  · next signal pid =>
    rintro rfl i hi
    obtain ⟨proc, heq, hproc⟩ := sendsignal_fg h signal
    -- the marked processes are the foreground processes
    have hmarked : ∀ j < NPROC, s.Marked s.marks j ↔ s.Addressed j := by
      intro j hj
      constructor
      · rintro ⟨hthread, hlive, k, hk, hmod, hfg⟩
        exact ⟨hlive, hthread, hapart rfl k hk j hj hfg hmod.symm hlive hthread⟩
      · rintro ⟨hlive, hthread, hfg⟩
        exact ⟨hthread, hlive, j, hj, rfl, hfg⟩
    have hreceives : s.Receives i ↔ s.Marked s.marks i ∨ i = s.shproc ∧ ¬ ∃ j < NPROC, s.Marked s.marks j := by
      unfold State.Receives
      rw [hmarked i hi]
      have hex : (∃ j < NPROC, s.Marked s.marks j) ↔ ∃ j < NPROC, s.Addressed j :=
        exists_congr fun j => and_congr_right (hmarked j)
      rw [hex]
    rw [heq, hreceives]
    refine ⟨fun hr => ?_, (hproc i hi).2⟩
    change (proc i).pending = _
    rw [(hproc i hi).1 hr, posted_pending]
  · trivial

/-- **When the foreground is reached**: by every signal of a run in which no slot 32 away from a foreground process
    exits, or is live in the background when a signal is sent. -/
theorem foreground_reached (h0 : system.init s) (as : List Act) (has : system.Takes Apart s as) :
    system.Takes Reaches s as := by
  have hinv := inv_started h0
  clear h0
  induction as generalizing s with
  | nil => trivial
  | cons a as ih =>
    intro t hs
    obtain ⟨hapart, hrest⟩ := has t hs
    exact ⟨reaches_of_inv hinv hapart, ih hrest (hinv.step hapart hs)⟩

end Runs

/-! ## Slots 32 apart -/

/-- `init`, the shell, its child in slot 2, and a process of `init` in the given slot -/
def table (background : ℕ) : State where
  proc i :=
    if i = 0 then ⟨.sleeping, 1, none, false, 0⟩
    else if i = 1 then ⟨.sleeping, 2, some 0, false, 0⟩
    else if i = 2 then ⟨.running, 3, some 1, false, 0⟩
    else if i = background then ⟨.runnable, 4, some 0, false, 0⟩
    else ⟨.unused, 0, none, false, 0⟩
  initproc := 0
  shproc := 1
  fgprocMask := 0
  foreground _ := false

theorem table_started (background : ℕ) : Started (table background) := by
  refine ⟨rfl, fun _ => rfl, fun i _ hlive => ?_⟩
  unfold table at hlive ⊢
  dsimp only at hlive ⊢
  split_ifs at hlive ⊢ <;> first | decide | exact absurd hlive (by decide)

/-- The table after the shell has called `wait` -/
def waited (background : ℕ) : State :=
  { (table background).setfg 1 with
    foreground := fun i => (table background).foreground i || decide (i < NPROC ∧ ShellChild (table background) i) }

theorem foreground_reached_three : system.Takes Reaches (table 3) [.setfg, .sendsignal 0 FG] := by
  refine foreground_reached (table_started 3) _ fun t ht =>
    ⟨trivial, fun u _ => ⟨fun _ i hi j hj hfg hmod hlive _ => ?_, trivial⟩⟩
  obtain rfl : waited 3 = t := Option.some.inj ht
  have honly : ∀ i < NPROC, decide (i < NPROC ∧ ShellChild (table 3) i) = true → i = 2 := by decide +kernel
  have hi2 := honly i hi hfg
  have hj2 : ∀ j < NPROC, j % 32 = 2 % 32 → ((waited 3).proc j).live = true → j = 2 := by decide +kernel
  rw [hi2] at hmod hfg
  rw [hj2 j hj hmod hlive]
  exact hfg

/-- A background process in slot 34 gets the signal of the one in slot 2; and when it exits, that one gets no signal
    any more. -/
theorem slots_confused :
    ¬ system.Takes Reaches (table 34) [.setfg, .sendsignal 0 FG] ∧
    ¬ system.Takes Reaches (table 34) [.setfg, .exit 34, .sendsignal 0 FG] := by
  constructor
  · intro h
    have hsame := (((h _ rfl).2 _ rfl).1 rfl 34 (by decide)).2 (by
      rintro (⟨-, -, hfg⟩ | ⟨hsh, -⟩)
      · exact absurd hfg (by decide +kernel)
      · exact absurd hsh (by decide +kernel))
    exact absurd (congrArg Proc.pending hsame) (by decide +kernel)
  · intro h
    have hexit : system.step (waited 34) (.exit 34) =
        some { (waited 34).exit 34 with foreground := Function.update (waited 34).foreground 34 false } := by
      have hcan : 34 < NPROC ∧ 34 ≠ (waited 34).initproc ∧ ((waited 34).proc 34).live = true := by decide +kernel
      generalize waited 34 = w at hcan ⊢
      exact if_pos hcan
    have hpost := (((((h (waited 34) rfl).2 _ hexit).2) _ rfl).1 rfl 2 (by decide)).1
      (.inl ⟨by decide +kernel, by decide +kernel, by decide +kernel⟩)
    exact absurd hpost (by decide +kernel)

end Xv6.Kernel.Foreground
