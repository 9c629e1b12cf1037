import Mathlib
import Xv6.Lib.TransitionSystem
import Xv6.Lib.Ring

/-!
# The Console's Input Buffer

The ring of input characters of `console.c` with its read, write and edit index, under any
number of readers, of writers and of characters that arrive. One turn of `consoleread`'s
loop, one character of `consolewrite` and one of `consoleintr` are one step each.

An ordinary character is stored only if a cell is free. A tab, the three characters of an
arrow key, and the completion text that the shell writes back are stored without a test.

- `console_ring`: in runs in which what is stored without a test finds room, the indices
  stay in order, at most `INPUT_BUF_SIZE` apart, and the buffer holds every character that
  was accepted and not yet read or erased; and the first step that finds no room ends this;
- `tab_into_full_buffer`: a full line and a tab are 129 characters.
-/

namespace Xv6.Kernel.Console

open Xv6.Lib

def INPUT_BUF_SIZE : ℕ := 128

@[simp] theorem INPUT_BUF_SIZE_eq : INPUT_BUF_SIZE = 128 := rfl

/-! ## The console -/

/-- `input_state` -/
inductive InputState where
  | normal
  | escapeSeen
  | bracketSeen
  deriving DecidableEq

/-- `struct cons` with the state of the input handler. -/
structure Cons where
  buf : ℕ → UInt8
  /-- Read index -/
  r : UInt32
  /-- Write index -/
  w : UInt32
  /-- Edit index -/
  e : UInt32
  inputState : InputState

/-- What the console sends out. -/
inductive Output where
  /-- a character for the UART -/
  | putc (c : UInt8)
  /-- `procdump()` -/
  | procdump
  /-- `sendsignal(SIGINT, FG)` -/
  | sigint
  deriving DecidableEq

/-- Where a task stands in a call. -/
inductive Pc where
  | idle
  /-- `consoleread` at the head of its loop, `n` of `target` characters still wanted -/
  | reading (n target : ℤ)
  /-- the same, asleep on `&cons.r` -/
  | readSleep (n target : ℤ)
  /-- `consolewrite` of `n` characters before the character `i` -/
  | writing (n : ℤ) (i : ℕ) (tabcomplete writestdin : Bool)
  /-- the call returned `r` -/
  | returned (r : ℤ)
  deriving DecidableEq

/-- What `wakeup(&cons.r)` or a `kill` makes of a task. -/
def Pc.woken : Pc → Pc
  | readSleep n target => reading n target
  | pc => pc

structure State (τ : Type*) where
  cons : Cons
  pc : τ → Pc
  killed : τ → Bool
  out : List Output
  /-- the characters that were accepted and not yet read or erased -/
  unread : List UInt8

variable {τ : Type*} [DecidableEq τ]

namespace State

def setPc (s : State τ) (p : τ) (pc : Pc) : State τ := { s with pc := Function.update s.pc p pc }

omit [DecidableEq τ] in
/-- `wakeup(&cons.r)` -/
def wakeup (s : State τ) : State τ := { s with pc := fun q => (s.pc q).woken }

omit [DecidableEq τ] in
def send (s : State τ) (o : List Output) : State τ := { s with out := s.out ++ o }

omit [DecidableEq τ] in
/-- `cons.buf[cons.e++ % INPUT_BUF_SIZE] = c` -/
def store (s : State τ) (c : UInt8) : State τ :=
  { s with
    cons := { s.cons with
      buf := Function.update s.cons.buf (s.cons.e.toNat % INPUT_BUF_SIZE) c
      e := s.cons.e + 1 }
    unread := s.unread ++ [c] }

omit [DecidableEq τ] in
/-- `cons.w = cons.e; wakeup(&cons.r)` -/
def commit (s : State τ) : State τ := { s with cons := { s.cons with w := s.cons.e } }.wakeup

omit [DecidableEq τ] in
/-- `cons.e--; consputc(BACKSPACE)` -/
def erase (s : State τ) : State τ :=
  { s with
    cons := { s.cons with e := s.cons.e - 1 }
    out := s.out ++ [.putc 8, .putc 32, .putc 8]
    unread := s.unread.dropLast }

omit [DecidableEq τ] in
/-- `while(cons.e != cons.w && more) erase`; the distance of the indices is turns enough. -/
def eraseWhile (more : Cons → Bool) : ℕ → State τ → State τ
  | 0, s => s
  | fuel + 1, s =>
    if s.cons.e != s.cons.w && more s.cons then eraseWhile more fuel s.erase else s

omit [DecidableEq τ] in
/-- `c = cons.buf[cons.r++ % INPUT_BUF_SIZE]` -/
def take (s : State τ) : State τ :=
  { s with cons := { s.cons with r := s.cons.r + 1 }, unread := s.unread.tail }

/-! ## The input handler -/

omit [DecidableEq τ] in
/-- The case of `normalintr` for ordinary characters. -/
def ordinary (s : State τ) (c : UInt8) : State τ :=
  if c != 0 && decide ((s.cons.e - s.cons.r).toNat < INPUT_BUF_SIZE) then
    let c := if c = 13 then 10 else c
    let s := (s.send [.putc c]).store c
    if c == 10 || c == 4 || decide ((s.cons.e - s.cons.r).toNat = INPUT_BUF_SIZE) then s.commit
    else s
  else s

omit [DecidableEq τ] in
/-- `normalintr(c)` -/
def normalintr (s : State τ) (c : UInt8) : State τ :=
  if c = 16 then s.send [.procdump]
  else if c = 21 then
    s.eraseWhile (fun k => k.buf ((k.e - 1).toNat % INPUT_BUF_SIZE) != 10)
      (s.cons.e - s.cons.w).toNat
  else if c = 8 ∨ c = 127 then (if s.cons.e ≠ s.cons.w then s.erase else s)
  else if c = 9 then (s.store c).commit
  else s.ordinary c

omit [DecidableEq τ] in
/-- `dirintr(c)`: an arrow key replaces the line that is being edited. -/
def dirintr (s : State τ) (c : UInt8) : State τ :=
  if c = 65 ∨ c = 66 then
    let s := s.eraseWhile (fun _ => true) (s.cons.e - s.cons.w).toNat
    (((s.store 27).store 91).store c).commit
  else s

omit [DecidableEq τ] in
def setInput (s : State τ) (i : InputState) : State τ :=
  { s with cons := { s.cons with inputState := i } }

omit [DecidableEq τ] in
/-- The loop body of `consoleintr` for the character `c`. -/
def consoleintr (s : State τ) (c : UInt8) : State τ :=
  match s.cons.inputState with
  | .normal =>
    if c = 27 then s.setInput .escapeSeen
    else if c = 3 then s.send [.sigint]
    else s.normalintr c
  | .escapeSeen => if c = 91 then s.setInput .bracketSeen else s.setInput .normal
  | .bracketSeen => (s.setInput .normal).dirintr c

/-! ## Reading and writing -/

/-- One turn of `consoleread`'s loop; `ok` says whether `either_copyout` succeeds. The
    index that is put back after an end of file is the one before. -/
def consoleread (s : State τ) (p : τ) (n target : ℤ) (ok : Bool) : State τ :=
  if n > 0 then
    if s.cons.r = s.cons.w then
      if s.killed p then s.setPc p (.returned (-1)) else s.setPc p (.readSleep n target)
    else
      let c := s.cons.buf (s.cons.r.toNat % INPUT_BUF_SIZE)
      if c = 4 then
        (if n < target then s else s.take).setPc p (.returned (target - n))
      else if !ok then s.take.setPc p (.returned (target - n))
      else if c = 10 then s.take.setPc p (.returned (target - (n - 1)))
      else s.take.setPc p (.reading (n - 1) target)
  else s.setPc p (.returned (target - n))

/-- One turn of `consolewrite`'s loop; `c` is what `either_copyin` reads, if it succeeds. -/
def consolewrite (s : State τ) (p : τ) (n : ℤ) (i : ℕ) (tabcomplete writestdin : Bool)
    (c : Option UInt8) : State τ :=
  if (i : ℤ) < n then
    match c with
    | none => s.setPc p (.returned i)
    | some c =>
      if i = 0 ∧ c = 9 then s.setPc p (.writing n (i + 1) true writestdin)
      else if tabcomplete then
        if c = 9 then s.setPc p (.writing n (i + 1) tabcomplete true)
        else
          ((if writestdin then s.send [.putc c] else s).store c).setPc p
            (.writing n (i + 1) tabcomplete writestdin)
      else (s.send [.putc c]).setPc p (.writing n (i + 1) tabcomplete writestdin)
  else s.setPc p (.returned i)

end State

/-! ## The system -/

inductive Act (τ : Type*) where
  /-- `consoleintr` takes the character `c` -/
  | intr (c : UInt8)
  /-- call `consoleread` with room for `n` characters -/
  | read (p : τ) (n : ℤ)
  /-- one turn of `consoleread`, whose copy to the user succeeds or not -/
  | readChar (p : τ) (ok : Bool)
  /-- call `consolewrite` with `n` characters -/
  | write (p : τ) (n : ℤ)
  /-- one turn of `consolewrite`, with the character copied from the user -/
  | writeChar (p : τ) (c : Option UInt8)
  /-- the caller is done with the value its call returned -/
  | collect (p : τ)
  | kill (p : τ)

def step (s : State τ) : Act τ → Option (State τ)
  | .intr c => some (s.consoleintr c)
  | .read p n =>
    match s.pc p with
    | .idle => some (s.setPc p (.reading n n))
    | _ => none
  | .readChar p ok =>
    match s.pc p with
    | .reading n target => some (s.consoleread p n target ok)
    | _ => none
  | .write p n =>
    match s.pc p with
    | .idle => some (s.setPc p (.writing n 0 false false))
    | _ => none
  | .writeChar p c =>
    match s.pc p with
    | .writing n i tabcomplete writestdin => some (s.consolewrite p n i tabcomplete writestdin c)
    | _ => none
  | .collect p =>
    match s.pc p with
    | .returned _ => some (s.setPc p .idle)
    | _ => none
  | .kill p =>
    some { s with
      killed := Function.update s.killed p true
      pc := Function.update s.pc p (s.pc p).woken }

omit [DecidableEq τ] in
/-- The console after `consoleinit`. -/
def init : State τ where
  cons := ⟨fun _ => 0, 0, 0, 0, .normal⟩
  pc := fun _ => .idle
  killed := fun _ => false
  out := []
  unread := []

variable (τ) in
def system : System (State τ) (Act τ) where
  init s := s = init
  step := step

/-! ## The invariant -/

/-- Counting in `uint` keeps the cell of the ring. -/
theorem cell_add (i : UInt32) (k : ℕ) :
    (i + UInt32.ofNat k).toNat % INPUT_BUF_SIZE = (i.toNat + k) % INPUT_BUF_SIZE := by
  rw [UInt32.toNat_add, UInt32.toNat_ofNat', INPUT_BUF_SIZE_eq]
  omega

theorem add_ofNat_sub_toNat (i : UInt32) {k : ℕ} (h : k < 2 ^ 32) :
    (i + UInt32.ofNat k - i).toNat = k := by
  rw [UInt32.add_comm, UInt32.add_sub_cancel, UInt32.toNat_ofNat', Nat.mod_eq_of_lt h]

theorem add_ofNat_succ (i : UInt32) (k : ℕ) :
    i + UInt32.ofNat (k + 1) = i + UInt32.ofNat k + 1 := by
  rw [UInt32.ofNat_add, ← UInt32.add_assoc]
  rfl

/-- The unread characters are those a reader may take, and behind them those that can still
    be edited; the buffer holds them. -/
structure Inv (s : State τ) (ready editing : List UInt8) : Prop where
  unread : s.unread = ready ++ editing
  w : s.cons.w = s.cons.r + UInt32.ofNat ready.length
  e : s.cons.e = s.cons.r + UInt32.ofNat (ready.length + editing.length)
  holds : Ring.Holds s.cons.buf INPUT_BUF_SIZE s.cons.r.toNat (ready ++ editing)

/-- A step that leaves the ring alone. -/
structure SameRing (s s' : State τ) : Prop where
  buf : s'.cons.buf = s.cons.buf
  r : s'.cons.r = s.cons.r
  w : s'.cons.w = s.cons.w
  e : s'.cons.e = s.cons.e
  unread : s'.unread = s.unread

variable {s s' : State τ} {ready editing : List UInt8}

namespace Inv

omit [DecidableEq τ]

theorem of_sameRing (h : Inv s ready editing) (hs : SameRing s s') : Inv s' ready editing where
  unread := hs.unread.trans h.unread
  w := by rw [hs.w, hs.r, h.w]
  e := by rw [hs.e, hs.r, h.e]
  holds := by rw [hs.buf, hs.r]; exact h.holds

theorem fits (h : Inv s ready editing) : ready.length + editing.length ≤ INPUT_BUF_SIZE := by
  simpa using h.holds.fits

/-- The distances of the indices are the numbers of characters. -/
theorem distances (h : Inv s ready editing) :
    (s.cons.e - s.cons.r).toNat = ready.length + editing.length ∧
      (s.cons.w - s.cons.r).toNat = ready.length ∧
      (s.cons.e - s.cons.w).toNat = editing.length := by
  have hfits := h.fits
  rw [INPUT_BUF_SIZE_eq] at hfits
  refine ⟨?_, ?_, ?_⟩
  · rw [h.e, add_ofNat_sub_toNat _ (by omega)]
  · rw [h.w, add_ofNat_sub_toNat _ (by omega)]
  · rw [h.e, h.w, UInt32.ofNat_add, ← UInt32.add_assoc, add_ofNat_sub_toNat _ (by omega)]

theorem e_eq_w_iff (h : Inv s ready editing) : s.cons.e = s.cons.w ↔ editing = [] := by
  rw [← List.length_eq_zero_iff, ← h.distances.2.2]
  constructor
  · intro heq
    simp [heq]
  · intro hzero
    exact sub_eq_zero.mp (UInt32.toNat_inj.mp hzero)

theorem r_eq_w_iff (h : Inv s ready editing) : s.cons.r = s.cons.w ↔ ready = [] := by
  rw [← List.length_eq_zero_iff, ← h.distances.2.1]
  constructor
  · intro heq
    simp [heq]
  · intro hzero
    exact (sub_eq_zero.mp (UInt32.toNat_inj.mp hzero)).symm

/-- A character stored where a cell is free comes behind the others. -/
theorem store (h : Inv s ready editing)
    (hroom : ready.length + editing.length < INPUT_BUF_SIZE) (c : UInt8) :
    Inv (s.store c) ready (editing ++ [c]) where
  unread := by simp [State.store, h.unread]
  w := h.w
  e := by
    have hlen : ready.length + (editing ++ [c]).length = ready.length + editing.length + 1 := by
      simp [Nat.add_assoc]
    rw [hlen, add_ofNat_succ]
    exact congrArg (· + 1) h.e
  holds := by
    have hcell : s.cons.e.toNat % INPUT_BUF_SIZE =
        (s.cons.r.toNat + (ready ++ editing).length) % INPUT_BUF_SIZE := by
      rw [h.e, cell_add, List.length_append]
    rw [← List.append_assoc]
    simp only [State.store, hcell]
    exact h.holds.push (by simpa using hroom) c

/-- The line that was edited is handed to the readers. -/
theorem commit (h : Inv s ready editing) : Inv s.commit (ready ++ editing) [] where
  unread := by simp [State.commit, State.wakeup, h.unread]
  w := by
    rw [List.length_append]
    exact h.e
  e := by
    rw [List.length_append, List.length_nil, Nat.add_zero]
    exact h.e
  holds := by
    rw [List.append_nil]
    exact h.holds

/-- The last character of the line is erased. -/
theorem erase (h : Inv s ready editing) (hne : s.cons.e ≠ s.cons.w) :
    Inv s.erase ready editing.dropLast := by
  have hsplit : editing.dropLast ++ [editing.getLast (mt h.e_eq_w_iff.mpr hne)] = editing :=
    List.dropLast_append_getLast _
  have hlen : ready.length + editing.length = ready.length + editing.dropLast.length + 1 := by
    rw [← hsplit]
    simp [Nat.add_assoc]
  refine ⟨?_, h.w, ?_, ?_⟩
  · simp only [State.erase]
    rw [h.unread, List.dropLast_append_of_ne_nil (mt h.e_eq_w_iff.mpr hne)]
  · simp only [State.erase]
    rw [h.e, hlen, add_ofNat_succ, UInt32.add_sub_cancel]
  · have hholds := h.holds
    rw [← hsplit, ← List.append_assoc] at hholds
    exact hholds.of_append

/-- Erasing takes characters of the line only. -/
theorem eraseWhile (more : Cons → Bool) (fuel : ℕ) (h : Inv s ready editing) :
    ∃ rest, Inv (s.eraseWhile more fuel) ready rest := by
  induction fuel generalizing s editing with
  | zero => exact ⟨editing, h⟩
  | succ fuel ih =>
    rw [State.eraseWhile]
    split
    · next hcond =>
      simp only [Bool.and_eq_true, bne_iff_ne] at hcond
      exact ih (h.erase hcond.1)
    · exact ⟨editing, h⟩

/-- An arrow key erases the whole line. -/
theorem eraseLine (h : Inv s ready editing) {fuel : ℕ} (hfuel : editing.length ≤ fuel) :
    Inv (s.eraseWhile (fun _ => true) fuel) ready [] := by
  induction fuel generalizing s editing with
  | zero =>
    obtain rfl : editing = [] := List.length_eq_zero_iff.mp (Nat.le_zero.mp hfuel)
    exact h
  | succ fuel ih =>
    rw [State.eraseWhile]
    by_cases hne : s.cons.e = s.cons.w
    · obtain rfl := h.e_eq_w_iff.mp hne
      rw [if_neg (by simp [hne])]
      exact h
    · rw [if_pos (by simp [hne])]
      exact ih (h.erase hne) (by rw [List.length_dropLast]; omega)

/-- A reader takes the first character. -/
theorem take (h : Inv s ready editing) (hne : s.cons.r ≠ s.cons.w) :
    Inv s.take ready.tail editing := by
  obtain ⟨c, rest, rfl⟩ : ∃ c rest, ready = c :: rest :=
    List.exists_cons_of_ne_nil (mt h.r_eq_w_iff.mpr hne)
  have hshift : ∀ k, s.cons.r + UInt32.ofNat (k + 1) = s.cons.r + 1 + UInt32.ofNat k := by
    intro k
    rw [Nat.add_comm k 1, UInt32.ofNat_add, ← UInt32.add_assoc]
    rfl
  refine ⟨?_, ?_, ?_, ?_⟩
  · simp [State.take, h.unread]
  · simp only [State.take, List.tail_cons]
    rw [h.w, List.length_cons, hshift]
  · simp only [State.take, List.tail_cons]
    rw [h.e, List.length_cons, Nat.add_right_comm, hshift]
  · have hpop := h.holds.pop
    refine hpop.of_modEq ?_
    have hcell := cell_add s.cons.r 1
    exact hcell.symm

end Inv

/-! ## What is stored without a test -/

/-- The indices are in order and at most `INPUT_BUF_SIZE` apart, and the buffer holds what
    was accepted and not yet read or erased. -/
structure RingOk (s : State τ) : Prop where
  order : (s.cons.w - s.cons.r).toNat ≤ (s.cons.e - s.cons.r).toNat
  bound : (s.cons.e - s.cons.r).toNat ≤ INPUT_BUF_SIZE
  count : s.unread.length = (s.cons.e - s.cons.r).toNat
  held : Ring.Holds s.cons.buf INPUT_BUF_SIZE s.cons.r.toNat s.unread

/-- A tab and a character of completion text find a free cell, and the characters of an
    arrow key find three once the line is erased. -/
def HasRoom (s : State τ) : Act τ → Prop
  | .intr c =>
    match s.cons.inputState with
    | .normal => c = 9 → (s.cons.e - s.cons.r).toNat < INPUT_BUF_SIZE
    | .escapeSeen => True
    | .bracketSeen => c = 65 ∨ c = 66 → (s.cons.w - s.cons.r).toNat + 3 ≤ INPUT_BUF_SIZE
  | .writeChar p (some c) => ∀ n i writestdin, s.pc p = .writing n i true writestdin →
      (i : ℤ) < n → c ≠ 9 → (s.cons.e - s.cons.r).toNat < INPUT_BUF_SIZE
  | _ => True

omit [DecidableEq τ] in
theorem Inv.ringOk (h : Inv s ready editing) : RingOk s where
  order := by
    rw [h.distances.1, h.distances.2.1]
    exact Nat.le_add_right _ _
  bound := h.distances.1 ▸ h.fits
  count := by rw [h.unread, h.distances.1, List.length_append]
  held := h.unread ▸ h.holds

section Ordinary

omit [DecidableEq τ]

/-- `send` leaves the ring alone, as does every change of the other fields. -/
theorem sameRing_send (o : List Output) : SameRing s (s.send o) := ⟨rfl, rfl, rfl, rfl, rfl⟩

theorem sameRing_setInput (i : InputState) : SameRing s (s.setInput i) := ⟨rfl, rfl, rfl, rfl, rfl⟩

/-- An ordinary character is stored where a cell is free, or dropped. -/
theorem inv_ordinary (h : Inv s ready editing) (c : UInt8) :
    ∃ ready' editing', Inv (s.ordinary c) ready' editing' := by
  rw [State.ordinary]
  split
  · next hcond =>
    simp only [Bool.and_eq_true, decide_eq_true_eq] at hcond
    have hlt : ready.length + editing.length < INPUT_BUF_SIZE := by
      rw [← h.distances.1]
      exact hcond.2
    simp only
    generalize (if c = 13 then 10 else c) = c'
    have hstore := (h.of_sameRing (sameRing_send [.putc c'])).store hlt c'
    split
    · exact ⟨_, _, hstore.commit⟩
    · exact ⟨_, _, hstore⟩
  · exact ⟨_, _, h⟩

theorem inv_normalintr (h : Inv s ready editing) {c : UInt8}
    (hroom : c = 9 → (s.cons.e - s.cons.r).toNat < INPUT_BUF_SIZE) :
    ∃ ready' editing', Inv (s.normalintr c) ready' editing' := by
  rw [State.normalintr]
  split
  · exact ⟨_, _, h.of_sameRing (sameRing_send _)⟩
  split
  · obtain ⟨rest, hrest⟩ := h.eraseWhile
      (fun k => k.buf ((k.e - 1).toNat % INPUT_BUF_SIZE) != 10) (s.cons.e - s.cons.w).toNat
    exact ⟨_, _, hrest⟩
  split
  · split
    · next hne => exact ⟨_, _, h.erase hne⟩
    · exact ⟨_, _, h⟩
  split
  · next htab =>
    have hlt := hroom htab
    rw [h.distances.1] at hlt
    exact ⟨_, _, (h.store hlt c).commit⟩
  · exact inv_ordinary h c

theorem inv_dirintr (h : Inv s ready editing) {c : UInt8}
    (hroom : c = 65 ∨ c = 66 → (s.cons.w - s.cons.r).toNat + 3 ≤ INPUT_BUF_SIZE) :
    ∃ ready' editing', Inv (s.dirintr c) ready' editing' := by
  rw [State.dirintr]
  split
  · next hkey =>
    have hlt := hroom hkey
    rw [h.distances.2.1] at hlt
    have hline := h.eraseLine (Nat.le_of_eq h.distances.2.2.symm)
    have h₁ := hline.store (by simp only [List.length_nil]; omega) 27
    have h₂ := h₁.store (by simp only [List.length_append, List.length_singleton, List.length_nil]; omega) 91
    have h₃ := h₂.store (by simp only [List.length_append, List.length_singleton, List.length_nil]; omega) c
    exact ⟨_, _, h₃.commit⟩
  · exact ⟨_, _, h⟩

theorem inv_consoleintr (h : Inv s ready editing) {c : UInt8}
    (hroom : HasRoom s (.intr c)) :
    ∃ ready' editing', Inv (s.consoleintr c) ready' editing' := by
  rw [State.consoleintr]
  simp only [HasRoom] at hroom
  cases hin : s.cons.inputState with
  | normal =>
    rw [hin] at hroom
    simp only
    split
    · exact ⟨_, _, h.of_sameRing (sameRing_setInput _)⟩
    split
    · exact ⟨_, _, h.of_sameRing (sameRing_send _)⟩
    · exact inv_normalintr h hroom
  | escapeSeen =>
    simp only
    split <;> exact ⟨_, _, h.of_sameRing (sameRing_setInput _)⟩
  | bracketSeen =>
    rw [hin] at hroom
    exact inv_dirintr (h.of_sameRing (sameRing_setInput .normal)) hroom

end Ordinary

section Calls

theorem sameRing_setPc (p : τ) (pc : Pc) : SameRing s (s.setPc p pc) := ⟨rfl, rfl, rfl, rfl, rfl⟩

theorem inv_consoleread (h : Inv s ready editing) (p : τ) (n target : ℤ) (ok : Bool) :
    ∃ ready', Inv (s.consoleread p n target ok) ready' editing := by
  rw [State.consoleread]
  split
  · split
    · split <;> exact ⟨_, h.of_sameRing (sameRing_setPc _ _)⟩
    next hne =>
    have htake := h.take hne
    simp only
    split
    · split
      · exact ⟨_, h.of_sameRing (sameRing_setPc _ _)⟩
      · exact ⟨_, htake.of_sameRing (sameRing_setPc _ _)⟩
    split
    · exact ⟨_, htake.of_sameRing (sameRing_setPc _ _)⟩
    split <;> exact ⟨_, htake.of_sameRing (sameRing_setPc _ _)⟩
  · exact ⟨_, h.of_sameRing (sameRing_setPc _ _)⟩

theorem inv_consolewrite (h : Inv s ready editing) {p : τ} {n : ℤ} {i : ℕ} {tab stdin : Bool}
    {c : Option UInt8} (hpc : s.pc p = .writing n i tab stdin) (hroom : HasRoom s (.writeChar p c)) :
    ∃ editing', Inv (s.consolewrite p n i tab stdin c) ready editing' := by
  unfold State.consolewrite
  split
  · next hi =>
    cases c with
    | none => exact ⟨_, h.of_sameRing (sameRing_setPc _ _)⟩
    | some c =>
      simp only
      split
      · exact ⟨_, h.of_sameRing (sameRing_setPc _ _)⟩
      split
      · next htab =>
        split
        · exact ⟨_, h.of_sameRing (sameRing_setPc _ _)⟩
        next hc =>
        subst htab
        have hlt := hroom n i stdin hpc hi hc
        rw [h.distances.1] at hlt
        have hsent : Inv (if stdin then s.send [.putc c] else s) ready editing := by
          split
          · exact h.of_sameRing (sameRing_send _)
          · exact h
        exact ⟨_, (hsent.store hlt c).of_sameRing (sameRing_setPc _ _)⟩
      · exact ⟨_, h.of_sameRing ⟨rfl, rfl, rfl, rfl, rfl⟩⟩
  · exact ⟨_, h.of_sameRing (sameRing_setPc _ _)⟩

theorem inv_step {a : Act τ} (h : Inv s ready editing) (hroom : HasRoom s a)
    (hstep : step s a = some s') : ∃ ready' editing', Inv s' ready' editing' := by
  cases a with
  | intr c =>
    cases hstep
    exact inv_consoleintr h hroom
  | readChar p ok =>
    simp only [step] at hstep
    split at hstep
    · cases hstep
      obtain ⟨ready', h'⟩ := inv_consoleread h p _ _ ok
      exact ⟨_, _, h'⟩
    · cases hstep
  | writeChar p c =>
    simp only [step] at hstep
    split at hstep
    · next n i tab stdin hpc =>
      cases hstep
      obtain ⟨editing', h'⟩ := inv_consolewrite h hpc hroom
      exact ⟨_, _, h'⟩
    · cases hstep
  -- the calls start and end outside of the ring
  | read p n | write p n | collect p =>
    simp only [step] at hstep
    split at hstep
    · cases hstep
      exact ⟨_, _, h.of_sameRing (sameRing_setPc _ _)⟩
    · cases hstep
  | kill p =>
    cases hstep
    exact ⟨_, _, h.of_sameRing ⟨rfl, rfl, rfl, rfl, rfl⟩⟩

end Calls

/-! ## The first step without room -/

section Full

omit [DecidableEq τ] in
/-- Characters stored regardless of room take the indices that far apart. -/
theorem Inv.distance_add (h : Inv s ready editing) {k : ℕ} (hk : k ≤ 3) :
    (s.cons.e + UInt32.ofNat k - s.cons.r).toNat = ready.length + editing.length + k := by
  have hfits := h.fits
  rw [INPUT_BUF_SIZE_eq] at hfits
  rw [h.e, UInt32.add_assoc, ← UInt32.ofNat_add, add_ofNat_sub_toNat _ (by omega)]

omit [DecidableEq τ] in
theorem tab_breaks (h : Inv s ready editing)
    (hfull : ¬ (s.cons.e - s.cons.r).toNat < INPUT_BUF_SIZE) {c : UInt8}
    (he : s'.cons.e = (s.store c).cons.e) (hr : s'.cons.r = s.cons.r) : ¬ RingOk s' := by
  intro hok
  have hbound := hok.bound
  have hadd := h.distance_add (k := 1) (by omega)
  rw [h.distances.1] at hfull
  rw [he, hr] at hbound
  exact absurd (hadd ▸ hbound) (by omega)

omit [DecidableEq τ] in
theorem arrow_breaks (h : Inv s ready editing)
    (hfull : ¬ (s.cons.w - s.cons.r).toNat + 3 ≤ INPUT_BUF_SIZE) {c : UInt8}
    (hc : c = 65 ∨ c = 66) : ¬ RingOk (s.dirintr c) := by
  intro hok
  rw [h.distances.2.1] at hfull
  have hline := h.eraseLine (Nat.le_of_eq h.distances.2.2.symm)
  have hbound := hok.bound
  have hadd := hline.distance_add (k := 3) (by omega)
  have he : ∀ t : State τ, ((((t.store 27).store 91).store c).commit).cons.e =
      t.cons.e + UInt32.ofNat 3 := by
    intro t
    simp only [State.commit, State.wakeup, State.store, UInt32.add_assoc]
    rfl
  rw [State.dirintr, if_pos hc] at hbound
  simp only [he] at hbound
  exact absurd (hadd ▸ hbound) (by simp only [List.length_nil]; omega)

theorem step_breaks {a : Act τ} (h : Inv s ready editing) (hroom : ¬ HasRoom s a)
    (hstep : step s a = some s') : ¬ RingOk s' := by
  -- the only steps without room are a tab, an arrow and the character of a `write`
  cases a with
  | intr c =>
    cases hstep
    simp only [HasRoom] at hroom
    rw [State.consoleintr]
    cases hin : s.cons.inputState with
    | normal =>
      rw [hin] at hroom
      obtain ⟨rfl, hfull⟩ := Classical.not_imp.mp hroom
      exact tab_breaks h hfull (c := 9) rfl rfl
    | escapeSeen =>
      rw [hin] at hroom
      exact absurd trivial hroom
    | bracketSeen =>
      rw [hin] at hroom
      obtain ⟨hc, hfull⟩ := Classical.not_imp.mp hroom
      exact arrow_breaks (h.of_sameRing (sameRing_setInput .normal)) hfull hc
  | writeChar p c =>
    cases c with
    | none => exact absurd trivial hroom
    | some c =>
      simp only [HasRoom, Classical.not_forall] at hroom
      obtain ⟨n, i, stdin, hpc, hi, hc, hfull⟩ := hroom
      simp only [step, hpc, Option.some.injEq] at hstep
      subst hstep
      unfold State.consolewrite
      rw [if_pos hi]
      simp only [if_neg (not_and_of_not_right (i = 0) hc), if_true, if_neg hc]
      cases stdin <;> exact tab_breaks h hfull rfl rfl
  | read p n | readChar p ok | write p n | collect p | kill p => exact absurd trivial hroom

end Full

/-! ## The ring -/

omit [DecidableEq τ] in
theorem inv_init : Inv (init : State τ) [] [] where
  unread := rfl
  w := rfl
  e := rfl
  holds := Ring.holds_nil

theorem inv_of_reachable (h : (system τ).ReachableUnder HasRoom s) :
    ∃ ready editing, Inv s ready editing :=
  System.invariant (fun s => ∃ ready editing, Inv s ready editing)
    (by rintro s rfl; exact ⟨[], [], inv_init⟩)
    (fun _ _ _ ⟨_, _, hi⟩ hroom hs => inv_step hi hroom hs) h

/-- **The console's ring.** While every character that is stored without a test finds room,
    the indices stay in order and no unread character is overwritten; the first one that
    finds no room ends this. -/
theorem console_ring (hs : (system τ).ReachableUnder HasRoom s) :
    RingOk s ∧ ∀ a s', (system τ).step s a = some s' → (RingOk s' ↔ HasRoom s a) := by
  obtain ⟨ready, editing, hi⟩ := inv_of_reachable hs
  refine ⟨hi.ringOk, fun a s' h => ⟨fun hok => ?_, fun hroom => ?_⟩⟩
  · by_contra hfull
    exact step_breaks hi hfull h hok
  · obtain ⟨ready', editing', hi'⟩ := inv_step hi hroom h
    exact hi'.ringOk

/-- A task that begins to read, a line of no characters, and the start of another. -/
theorem two_chars_ring :
    ∃ s : State Unit, s.unread = [10, 97] ∧ RingOk s ∧
      ∀ a s', (system Unit).step s a = some s' → (RingOk s' ↔ HasRoom s a) := by
  have h₁ : (system Unit).ReachableUnder HasRoom (init.setPc () (.reading 5 5)) :=
    .step (a := Act.read () 5) (.init rfl) trivial rfl
  have h₂ : (system Unit).ReachableUnder HasRoom
      ((init.setPc () (.reading 5 5)).consoleintr 10) :=
    .step (a := Act.intr 10) h₁ (fun h => absurd h (by decide)) rfl
  have h₃ : (system Unit).ReachableUnder HasRoom
      (((init.setPc () (.reading 5 5)).consoleintr 10).consoleintr 97) :=
    .step (a := Act.intr 97) h₂ (fun h => absurd h (by decide)) rfl
  exact ⟨_, rfl, console_ring h₃⟩

/-- 128 ordinary characters, all of them unread, and a tab. -/
def fullLineAndTab : List (Act Unit) := List.replicate 128 (.intr 97) ++ [.intr 9]

theorem tab_into_full_buffer :
    ¬ ∀ s, (system Unit).Reachable s →
      (s.cons.w - s.cons.r).toNat ≤ (s.cons.e - s.cons.r).toNat ∧
        (s.cons.e - s.cons.r).toNat ≤ INPUT_BUF_SIZE := by
  intro h
  have hrun : ((system Unit).run init fullLineAndTab).any
      (fun s => (s.cons.e - s.cons.r).toNat = INPUT_BUF_SIZE + 1) = true := by
    decide +kernel
  obtain ⟨t, ht, hp⟩ := System.exists_reachable_of_run rfl hrun
  have hbound := (h t ht).2
  simp only [decide_eq_true_eq] at hp
  omega

end Xv6.Kernel.Console
