import Mathlib
import Xv6.Lib.TransitionSystem
import Xv6.Lib.Ring

/-!
# Pipes

One pipe under any number of concurrent `pipewrite`, `piperead` and `pipeclose`
calls. What a call does between acquiring and releasing `pi->lock` is one step;
`sleep` and the copies between user and kernel memory run without the lock.

`pipewrite` tests for a full pipe, releases the lock for `copyin`, and stores the
byte without testing again, so two writers that both saw the last free cell
overfill the buffer.

- `pipe_fifo`: in runs where no byte is stored into a full pipe the buffer holds
  exactly the bytes put in and not yet taken out, in order, and the first store
  into a full pipe breaks the bound;
- `two_writers_last_cell`: two writers racing for the last cell leave
  `nwrite - nread = PIPESIZE + 1`.
-/

namespace Xv6.Kernel.PipeFifo

open Xv6.Lib

def PIPESIZE : ℕ := 512

@[simp] theorem PIPESIZE_eq : PIPESIZE = 512 := rfl

/-! ## The pipe -/

structure Pipe where
  data : ℕ → UInt8
  /-- number of bytes read -/
  nread : UInt32
  /-- number of bytes written -/
  nwrite : UInt32
  /-- read fd is still open -/
  readopen : Bool
  /-- write fd is still open -/
  writeopen : Bool

namespace Pipe

/-- `pi->nwrite == pi->nread + PIPESIZE` -/
def full (pi : Pipe) : Bool := pi.nwrite = pi.nread + UInt32.ofNat PIPESIZE

/-- `pi->nread == pi->nwrite` -/
def empty (pi : Pipe) : Bool := pi.nread = pi.nwrite

/-- `pi->data[pi->nwrite++ % PIPESIZE] = ch` -/
def put (pi : Pipe) (ch : UInt8) : Pipe :=
  { pi with
    data := Function.update pi.data (pi.nwrite.toNat % PIPESIZE) ch
    nwrite := pi.nwrite + 1 }

/-- `ch = pi->data[pi->nread++ % PIPESIZE]` -/
def take (pi : Pipe) : UInt8 × Pipe :=
  (pi.data (pi.nread.toNat % PIPESIZE), { pi with nread := pi.nread + 1 })

end Pipe

/-! ## Calls in progress -/

/-- The two channels of a pipe: `&pi->nread` and `&pi->nwrite`. -/
inductive Chan where
  | nread
  | nwrite
  deriving DecidableEq

/-- Where a task stands while it does not hold the lock. -/
inductive Pc where
  | idle
  /-- `pipewrite(pi, addr, n)` asleep on `&pi->nwrite` with `i` bytes written -/
  | writeSleep (n : ℤ) (i : ℕ)
  /-- the same, made runnable -/
  | writeWoken (n : ℤ) (i : ℕ)
  /-- `pipewrite` in `copyin(pr->pagetable, &ch, addr + i, 1)` -/
  | copyin (n : ℤ) (i : ℕ)
  /-- `piperead(pi, addr, n)` asleep on `&pi->nread` -/
  | readSleep (n : ℤ)
  /-- the same, made runnable -/
  | readWoken (n : ℤ)
  /-- `piperead` in `copyout(pr->pagetable, addr + i, &ch, 1)` -/
  | copyout (n : ℤ) (i : ℕ)
  /-- the call returned `r` -/
  | returned (r : ℤ)
  deriving DecidableEq

/-- What a `wakeup` of a channel, or a `kill`, makes of a sleeping task. -/
def Pc.woken : Pc → Pc
  | writeSleep n i => writeWoken n i
  | readSleep n => readWoken n
  | pc => pc

/-- The channel a task sleeps on. -/
def Pc.chan : Pc → Option Chan
  | writeSleep _ _ => some .nwrite
  | readSleep _ => some .nread
  | _ => none

structure State (τ : Type*) where
  pipe : Pipe
  pc : τ → Pc
  killed : τ → Bool
  /-- both ends were closed and the page was given back -/
  freed : Bool
  /-- every byte stored to `data[]` so far -/
  put : List UInt8
  /-- every byte taken from `data[]` so far -/
  taken : List UInt8

variable {τ : Type*} [DecidableEq τ]

namespace State

def setPc (s : State τ) (p : τ) (pc : Pc) : State τ := { s with pc := Function.update s.pc p pc }

def wakeup (s : State τ) (c : Chan) : State τ :=
  { s with pc := fun q => if (s.pc q).chan = some c then (s.pc q).woken else s.pc q }

/-- The end of `pipewrite`: `wakeup(&pi->nread); release(&pi->lock); return i`. -/
def writeDone (s : State τ) (p : τ) (i : ℕ) : State τ := (s.wakeup .nread).setPc p (.returned i)

/-- The loop of `pipewrite` from its test on, up to where it gives up the lock. -/
def writeLoop (s : State τ) (p : τ) (n : ℤ) (i : ℕ) : State τ :=
  if (i : ℤ) < n then
    if !s.pipe.readopen || s.killed p then s.setPc p (.returned (-1))
    else if s.pipe.full then (s.wakeup .nread).setPc p (.writeSleep n i)
    else s.setPc p (.copyin n i)
  else s.writeDone p i

/-- The end of `piperead`: `wakeup(&pi->nwrite); release(&pi->lock); return i`. -/
def readDone (s : State τ) (p : τ) (i : ℕ) : State τ := (s.wakeup .nwrite).setPc p (.returned i)

/-- The copying loop of `piperead` from its test on, up to where it gives up the lock. -/
def readLoop (s : State τ) (p : τ) (n : ℤ) (i : ℕ) : State τ :=
  if (i : ℤ) < n then
    if s.pipe.empty then s.readDone p i
    else
      let (ch, pi) := s.pipe.take
      { s with pipe := pi, taken := s.taken ++ [ch] }.setPc p (.copyout n i)
  else s.readDone p i

/-- `piperead` from its test for an empty pipe on. -/
def readWait (s : State τ) (p : τ) (n : ℤ) : State τ :=
  if s.pipe.empty && s.pipe.writeopen then
    if s.killed p then s.setPc p (.returned (-1)) else s.setPc p (.readSleep n)
  else s.readLoop p n 0

/-- `pi->data[pi->nwrite++ % PIPESIZE] = ch` -/
def store (s : State τ) (ch : UInt8) : State τ :=
  { s with pipe := s.pipe.put ch, put := s.put ++ [ch] }

/-- `pipeclose(pi, writable)` -/
def pipeclose (s : State τ) (writable : Bool) : State τ :=
  let t := if writable then { s with pipe := { s.pipe with writeopen := false } }.wakeup .nread
           else { s with pipe := { s.pipe with readopen := false } }.wakeup .nwrite
  { t with freed := !t.pipe.readopen && !t.pipe.writeopen }

end State

/-! ## The system -/

inductive Act (τ : Type*) where
  /-- call `pipewrite` with `n` bytes -/
  | pipewrite (p : τ) (n : ℤ)
  /-- call `piperead` with room for `n` bytes -/
  | piperead (p : τ) (n : ℤ)
  /-- a woken task returns from `sleep` with the lock -/
  | resume (p : τ)
  /-- `copyin` ended, with the byte it read unless it failed, and the lock is taken again -/
  | copyin (p : τ) (r : Option UInt8)
  /-- `copyout` ended, successfully or not, and the lock is taken again -/
  | copyout (p : τ) (ok : Bool)
  /-- the caller is done with the value its call returned -/
  | collect (p : τ)
  /-- `setkilled` and, for a sleeping task, the wakeup of `kill` -/
  | kill (p : τ)
  | pipeclose (writable : Bool)

/-- One stretch of code under `pi->lock`. -/
def exec (s : State τ) : Act τ → Option (State τ)
  | .pipewrite p n =>
    match s.pc p with
    | .idle => some (s.writeLoop p n 0)
    | _ => none
  | .piperead p n =>
    match s.pc p with
    | .idle => some (s.readWait p n)
    | _ => none
  | .resume p =>
    match s.pc p with
    | .writeWoken n i => some (s.writeLoop p n i)
    | .readWoken n => some (s.readWait p n)
    | _ => none
  | .copyin p r =>
    match s.pc p, r with
    | .copyin _ i, none => some (s.writeDone p i)
    | .copyin n i, some ch => some ((s.store ch).writeLoop p n (i + 1))
    | _, _ => none
  | .copyout p ok =>
    match s.pc p, ok with
    | .copyout _ i, false => some (s.readDone p i)
    | .copyout n i, true => some (s.readLoop p n (i + 1))
    | _, _ => none
  | .collect p =>
    match s.pc p with
    | .returned _ => some (s.setPc p .idle)
    | _ => none
  | .kill p =>
    some { s with killed := Function.update s.killed p true, pc := Function.update s.pc p (s.pc p).woken }
  | .pipeclose writable => some (s.pipeclose writable)

/-- Nothing runs on a pipe that was given back. -/
def step (s : State τ) (a : Act τ) : Option (State τ) := if s.freed then none else exec s a

/-- The pipe as `pipealloc` leaves it, on a page with any contents. -/
def init (data : ℕ → UInt8) : State τ where
  pipe := { data := data, nread := 0, nwrite := 0, readopen := true, writeopen := true }
  pc := fun _ => .idle
  killed := fun _ => false
  freed := false
  put := []
  taken := []

variable (τ) in
def system : System (State τ) (Act τ) where
  init s := ∃ data, s = init data
  step := step

/-! ## What a step does -/

/-- The parts of the state the bytes live in are the same. -/
structure SameBytes (s s' : State τ) : Prop where
  data : s'.pipe.data = s.pipe.data
  nread : s'.pipe.nread = s.pipe.nread
  nwrite : s'.pipe.nwrite = s.pipe.nwrite
  put : s'.put = s.put
  taken : s'.taken = s.taken

/-- One byte was taken from a pipe that is not empty. -/
structure Took (s s' : State τ) : Prop where
  nonempty : s.pipe.nread ≠ s.pipe.nwrite
  data : s'.pipe.data = s.pipe.data
  nread : s'.pipe.nread = s.pipe.nread + 1
  nwrite : s'.pipe.nwrite = s.pipe.nwrite
  put : s'.put = s.put
  taken : s'.taken = s.taken ++ [s.pipe.data (s.pipe.nread.toNat % PIPESIZE)]

variable {s s' : State τ} {p : τ}

omit [DecidableEq τ] in
theorem SameBytes.refl : SameBytes s s := ⟨rfl, rfl, rfl, rfl, rfl⟩

theorem writeLoop_sameBytes (n : ℤ) (i : ℕ) : SameBytes s (s.writeLoop p n i) := by
  unfold State.writeLoop
  split_ifs <;> exact ⟨rfl, rfl, rfl, rfl, rfl⟩

theorem readLoop_cases (n : ℤ) (i : ℕ) :
    SameBytes s (s.readLoop p n i) ∨ Took s (s.readLoop p n i) := by
  unfold State.readLoop
  split_ifs with hn hempty
  · exact .inl ⟨rfl, rfl, rfl, rfl, rfl⟩
  · exact .inr ⟨by simpa [Pipe.empty] using hempty, rfl, rfl, rfl, rfl, rfl⟩
  · exact .inl ⟨rfl, rfl, rfl, rfl, rfl⟩

theorem readWait_cases (n : ℤ) :
    SameBytes s (s.readWait p n) ∨ Took s (s.readWait p n) := by
  unfold State.readWait
  split_ifs
  · exact .inl ⟨rfl, rfl, rfl, rfl, rfl⟩
  · exact .inl ⟨rfl, rfl, rfl, rfl, rfl⟩
  · exact readLoop_cases n 0

/-- The step stores a byte: `copyin` ended with one. -/
def Stores (a : Act τ) (ch : UInt8) : Prop := ∃ p, a = .copyin p (some ch)

/-- Everything a step can do to the bytes of the pipe. -/
theorem step_cases {a : Act τ} (h : step s a = some s') :
    ((∀ ch, ¬ Stores a ch) ∧ (SameBytes s s' ∨ Took s s')) ∨
    ∃ ch, Stores a ch ∧ SameBytes (s.store ch) s' := by
  unfold step at h
  split at h
  · cases h
  -- only a `copyin` that has got a byte stores one
  cases a with
  | pipewrite p n =>
    simp only [exec] at h
    split at h <;> cases h
    exact .inl ⟨by simp [Stores], .inl (writeLoop_sameBytes n 0)⟩
  | piperead p n =>
    simp only [exec] at h
    split at h <;> cases h
    exact .inl ⟨by simp [Stores], readWait_cases n⟩
  | resume p =>
    simp only [exec] at h
    split at h <;> cases h
    · exact .inl ⟨by simp [Stores], .inl (writeLoop_sameBytes _ _)⟩
    · exact .inl ⟨by simp [Stores], readWait_cases _⟩
  | copyin p r =>
    simp only [exec] at h
    split at h <;> cases h
    · exact .inl ⟨by simp [Stores], .inl ⟨rfl, rfl, rfl, rfl, rfl⟩⟩
    · next ch _ => exact .inr ⟨ch, ⟨p, rfl⟩, writeLoop_sameBytes _ _⟩
  | copyout p ok =>
    simp only [exec] at h
    split at h <;> cases h
    · exact .inl ⟨by simp [Stores], .inl ⟨rfl, rfl, rfl, rfl, rfl⟩⟩
    · exact .inl ⟨by simp [Stores], readLoop_cases _ _⟩
  | collect p =>
    simp only [exec] at h
    split at h <;> cases h
    exact .inl ⟨by simp [Stores], .inl ⟨rfl, rfl, rfl, rfl, rfl⟩⟩
  | kill p =>
    cases h
    exact .inl ⟨by simp [Stores], .inl ⟨rfl, rfl, rfl, rfl, rfl⟩⟩
  | pipeclose writable =>
    cases h
    cases writable <;> exact .inl ⟨by simp [Stores], .inl ⟨rfl, rfl, rfl, rfl, rfl⟩⟩

/-! ## The invariant -/

/-- The counters count the bytes put and taken, and the buffer holds the rest. -/
structure Inv (s : State τ) (unread : List UInt8) : Prop where
  put : s.put = s.taken ++ unread
  nread : s.pipe.nread = UInt32.ofNat s.taken.length
  nwrite : s.pipe.nwrite = UInt32.ofNat s.put.length
  holds : Ring.Holds s.pipe.data PIPESIZE s.taken.length unread

/-- A position of the stream and the counter that stands for it have one cell. -/
theorem cell_ofNat (n : ℕ) : (UInt32.ofNat n).toNat % PIPESIZE = n % PIPESIZE := by
  rw [UInt32.toNat_ofNat']
  exact Nat.mod_mod_of_dvd n (by decide)

theorem ofNat_succ (n : ℕ) : UInt32.ofNat (n + 1) = UInt32.ofNat n + 1 := UInt32.ofNat_add n 1

variable {unread : List UInt8}

namespace Inv

omit [DecidableEq τ]

/-- The distance of the counters is the number of unread bytes. -/
theorem distance (h : Inv s unread) :
    (s.pipe.nwrite - s.pipe.nread).toNat = unread.length := by
  have hfits := h.holds.fits
  rw [h.nwrite, h.nread, h.put, List.length_append, UInt32.ofNat_add, UInt32.add_comm,
    UInt32.add_sub_cancel, UInt32.toNat_ofNat']
  simp only [PIPESIZE_eq] at hfits
  omega

theorem nread_eq_nwrite_iff (h : Inv s unread) :
    s.pipe.nread = s.pipe.nwrite ↔ unread = [] := by
  rw [← List.length_eq_zero_iff, ← h.distance]
  constructor
  · intro heq
    simp [heq]
  · intro hzero
    have hsub : s.pipe.nwrite - s.pipe.nread = 0 := UInt32.toNat_inj.mp hzero
    exact (sub_eq_zero.mp hsub).symm

/-- The test for a full pipe is right. -/
theorem full_iff (h : Inv s unread) : s.pipe.full = true ↔ unread.length = PIPESIZE := by
  rw [← h.distance, Pipe.full, decide_eq_true_iff, ← sub_eq_iff_eq_add', ← UInt32.toNat_inj]
  simp

theorem of_sameBytes (h : Inv s unread) (hb : SameBytes s s') : Inv s' unread where
  put := by rw [hb.put, hb.taken, h.put]
  nread := by rw [hb.nread, hb.taken, h.nread]
  nwrite := by rw [hb.nwrite, hb.put, h.nwrite]
  holds := by rw [hb.data, hb.taken]; exact h.holds

/-- Taking a byte takes the oldest unread one. -/
theorem of_took (h : Inv s unread) (ht : Took s s') : ∃ rest, Inv s' rest := by
  obtain ⟨ch, rest, rfl⟩ : ∃ ch rest, unread = ch :: rest :=
    List.exists_cons_of_ne_nil (mt h.nread_eq_nwrite_iff.mpr ht.nonempty)
  have hch : s.pipe.data (s.pipe.nread.toNat % PIPESIZE) = ch := by
    rw [h.nread, cell_ofNat]
    exact h.holds.head
  have htaken : s'.taken = s.taken ++ [ch] := by rw [ht.taken, hch]
  refine ⟨rest, ?_, ?_, ?_, ?_⟩
  · rw [ht.put, htaken, h.put]
    simp
  · rw [ht.nread, htaken, h.nread, List.length_append, List.length_singleton, ofNat_succ]
  · rw [ht.nwrite, ht.put, h.nwrite]
  · rw [ht.data, htaken, List.length_append, List.length_singleton]
    exact h.holds.pop

/-- Storing a byte where a cell is free puts it behind the unread ones. -/
theorem store (h : Inv s unread) (hfull : ¬ s.pipe.full = true) (ch : UInt8) :
    Inv (s.store ch) (unread ++ [ch]) where
  put := by simp [State.store, h.put]
  nread := h.nread
  nwrite := by
    simp only [State.store, Pipe.put, List.length_append, List.length_singleton]
    rw [ofNat_succ, h.nwrite]
  holds := by
    have hlt : unread.length < PIPESIZE := h.holds.fits.lt_of_ne (mt h.full_iff.mpr hfull)
    have hcell : s.pipe.nwrite.toNat % PIPESIZE = (s.taken.length + unread.length) % PIPESIZE := by
      rw [h.nwrite, cell_ofNat, h.put, List.length_append]
    simp only [State.store, Pipe.put, hcell]
    exact h.holds.push hlt ch

end Inv

/-! ## First in, first out -/

/-- The buffer is a queue of the bytes put in and not yet taken out. -/
structure Fifo (s : State τ) : Prop where
  bound : (s.pipe.nwrite - s.pipe.nread).toNat ≤ PIPESIZE
  inOrder : s.taken <+: s.put
  count : (s.put.drop s.taken.length).length = (s.pipe.nwrite - s.pipe.nread).toNat
  unread : Ring.Holds s.pipe.data PIPESIZE s.pipe.nread.toNat (s.put.drop s.taken.length)

omit [DecidableEq τ] in
theorem Inv.fifo (h : Inv s unread) : Fifo s where
  bound := h.distance ▸ h.holds.fits
  inOrder := ⟨unread, h.put.symm⟩
  count := by rw [h.put, List.drop_left, h.distance]
  unread := by
    rw [h.put, List.drop_left]
    refine h.holds.of_modEq ?_
    rw [h.nread]
    exact (cell_ofNat _).symm

/-- The byte that `copyin` read is stored into a pipe that is not full by then. -/
def StoreHasRoom (s : State τ) (a : Act τ) : Prop :=
  ∀ p ch, a = .copyin p (some ch) → s.pipe.full = false

omit [DecidableEq τ] in
theorem inv_init (data : ℕ → UInt8) : Inv (init data : State τ) [] where
  put := rfl
  nread := rfl
  nwrite := rfl
  holds := Ring.holds_nil

theorem inv_step {a : Act τ} (hi : Inv s unread) (hroom : StoreHasRoom s a)
    (h : step s a = some s') : ∃ rest, Inv s' rest := by
  rcases step_cases h with ⟨-, hsame | htook⟩ | ⟨ch, ⟨p, rfl⟩, hsame⟩
  · exact ⟨unread, hi.of_sameBytes hsame⟩
  · exact hi.of_took htook
  · have hnf : ¬ s.pipe.full = true := by simp [hroom p ch rfl]
    exact ⟨_, (hi.store hnf ch).of_sameBytes hsame⟩

theorem inv_of_reachable (h : (system τ).ReachableUnder StoreHasRoom s) : ∃ unread, Inv s unread :=
  System.invariant (fun s => ∃ unread, Inv s unread)
    (by rintro s ⟨data, rfl⟩; exact ⟨[], inv_init data⟩)
    (fun _ _ _ ⟨_, hi⟩ hroom hs => inv_step hi hroom hs) h

omit [DecidableEq τ] in
/-- A byte stored into a full pipe takes the counters out of bounds. -/
theorem store_full_breaks (hfull : s.pipe.full = true) {ch : UInt8}
    (hsame : SameBytes (s.store ch) s') : ¬ Fifo s' := by
  intro hfifo
  have hbound := hfifo.bound
  have hwrite : s.pipe.nwrite = s.pipe.nread + UInt32.ofNat PIPESIZE := by
    exact of_decide_eq_true hfull
  have hdist : s'.pipe.nwrite - s'.pipe.nread = UInt32.ofNat (PIPESIZE + 1) := by
    rw [hsame.nwrite, hsame.nread]
    simp only [State.store, Pipe.put, hwrite]
    rw [UInt32.add_assoc, UInt32.add_comm, UInt32.add_sub_cancel]
    rfl
  rw [hdist] at hbound
  exact absurd hbound (by decide)

/-- **Pipe order.** While no byte is stored into a full pipe, the unread bytes are
    in the buffer, at most `PIPESIZE` of them, and the bytes taken are a prefix of
    the bytes put; the first store into a full pipe ends this. -/
theorem pipe_fifo (hs : (system τ).ReachableUnder StoreHasRoom s) :
    Fifo s ∧ ∀ a s', (system τ).step s a = some s' → (Fifo s' ↔ StoreHasRoom s a) := by
  obtain ⟨unread, hi⟩ := inv_of_reachable hs
  refine ⟨hi.fifo, fun a s' h => ⟨fun hfifo p ch ha => ?_, fun hroom => ?_⟩⟩
  · rcases step_cases h with ⟨hno, -⟩ | ⟨ch', ⟨p', ha'⟩, hsame⟩
    · exact absurd ⟨p, ha⟩ (hno ch)
    · by_contra hfull
      exact store_full_breaks (by simpa using hfull) hsame hfifo
  · obtain ⟨rest, hi'⟩ := inv_step hi hroom h
    exact hi'.fifo

/-- One byte written through an empty pipe of zeros. -/
theorem one_byte_fifo :
    ∃ s : State Unit, s.put = [7] ∧ Fifo s ∧
      ∀ a s', (system Unit).step s a = some s' → (Fifo s' ↔ StoreHasRoom s a) :=
  ⟨_, rfl, pipe_fifo (.step (a := .copyin () (some 7))
    (.step (a := .pipewrite () 1) (.init ⟨fun _ => 0, rfl⟩) nofun rfl) (fun _ _ _ => rfl) rfl)⟩

/-- A task fills the buffer but for one cell; then it and a second writer both pass
    the test for a full pipe before either of them stores its byte. -/
def twoWriters {τ : Type} (t u : τ) : List (Act τ) :=
  .pipewrite t 512 :: List.replicate 511 (.copyin t (some 0)) ++
    [.pipewrite u 1, .copyin t (some 0), .copyin u (some 0)]

theorem two_writers_last_cell :
    ¬ ∀ s, (system (Fin 2)).Reachable s → Fifo s := by
  intro h
  have hrun : ((system (Fin 2)).run (init fun _ => 0) (twoWriters 0 1)).any
      (fun s => (s.pipe.nwrite - s.pipe.nread).toNat = PIPESIZE + 1) = true := by
    decide +kernel
  have hinit : (system (Fin 2)).init (init fun _ => 0) := ⟨_, rfl⟩
  obtain ⟨t, ht, hp⟩ := System.exists_reachable_of_run hinit hrun
  have hbound := (h t ht).bound
  simp only [decide_eq_true_eq] at hp
  omega

end Xv6.Kernel.PipeFifo
