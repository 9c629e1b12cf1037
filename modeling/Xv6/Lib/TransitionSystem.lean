import Mathlib.Data.List.Basic
import Mathlib.Logic.Basic

/-!
# Transition Systems with Guarded Reachability

A labelled transition system whose steps are partial functions, the states it
reaches when every step taken satisfies a guard, and the two ways results about
such systems are obtained:

- `invariant`: an initial property that every guarded step preserves holds in
  every state reached under the guard;
- `exists_reachable_of_run`: a schedule that evaluates to a state with some
  property shows that such a state is reachable.
-/

namespace Xv6.Lib

/-- A labelled transition system: an action either is disabled or determines
    the next state. -/
structure System (σ α : Type*) where
  /-- The initial states -/
  init : σ → Prop
  /-- `step s a` is `none` when `a` cannot be taken in `s` -/
  step : σ → α → Option σ

namespace System

variable {σ α : Type*} (M : System σ α)

/-! ## Reachability -/

/-- States reached from an initial one by steps that all satisfy `G`. -/
inductive ReachableUnder (G : σ → α → Prop) : σ → Prop where
  | init {s : σ} : M.init s → ReachableUnder G s
  | step {s : σ} {a : α} {s' : σ} :
      ReachableUnder G s → G s a → M.step s a = some s' → ReachableUnder G s'

/-- States reached by arbitrary steps. -/
def Reachable (s : σ) : Prop := M.ReachableUnder (fun _ _ => True) s

variable {M}

theorem ReachableUnder.mono {G H : σ → α → Prop} (hGH : ∀ s a, G s a → H s a) {s : σ}
    (h : M.ReachableUnder G s) : M.ReachableUnder H s := by
  induction h with
  | init h0 => exact .init h0
  | step _ hG hs ih => exact .step ih (hGH _ _ hG) hs

theorem ReachableUnder.reachable {G : σ → α → Prop} {s : σ} (h : M.ReachableUnder G s) :
    M.Reachable s :=
  h.mono fun _ _ _ => trivial

/-- The invariant rule: what holds initially and survives every guarded step
    holds in every state reached under the guard. -/
theorem invariant {G : σ → α → Prop} (I : σ → Prop) (h0 : ∀ s, M.init s → I s)
    (hstep : ∀ s a s', I s → G s a → M.step s a = some s' → I s')
    {s : σ} (h : M.ReachableUnder G s) : I s := by
  induction h with
  | init hi => exact h0 _ hi
  | step _ hG hs ih => exact hstep _ _ _ ih hG hs

/-! ## Runs of a fixed schedule -/

variable (M)

/-- Take the actions of a schedule in order. -/
def run : σ → List α → Option σ
  | s, [] => some s
  | s, a :: as => (M.step s a).bind fun s' => run s' as

variable {M}

@[simp] theorem run_nil (s : σ) : M.run s [] = some s := rfl

theorem run_cons {s t : σ} {a : α} {as : List α} :
    M.run s (a :: as) = some t ↔ ∃ s', M.step s a = some s' ∧ M.run s' as = some t := by
  simp [run, Option.bind_eq_some_iff]

theorem run_append (s : σ) (as bs : List α) :
    M.run s (as ++ bs) = (M.run s as).bind fun t => M.run t bs := by
  induction as generalizing s with
  | nil => rfl
  | cons a as ih =>
    simp only [List.cons_append, run, Option.bind_assoc]
    congr 1
    funext s'
    exact ih s'

/-- What every step of a schedule preserves holds at its end. -/
theorem run_invariant {I : σ → Prop} {s t : σ} {as : List α}
    (hstep : ∀ s s', ∀ a ∈ as, I s → M.step s a = some s' → I s') (hs : I s)
    (h : M.run s as = some t) : I t := by
  induction as generalizing s with
  | nil => cases h; exact hs
  | cons a as ih =>
    obtain ⟨s', hs', hrun⟩ := run_cons.mp h
    exact ih (fun s s' b hb => hstep s s' b (List.mem_cons_of_mem _ hb))
      (hstep s s' a List.mem_cons_self hs hs') hrun

theorem reachable_of_run {s t : σ} {as : List α} (hs : M.Reachable s)
    (h : M.run s as = some t) : M.Reachable t := by
  induction as generalizing s with
  | nil => cases h; exact hs
  | cons a as ih =>
    obtain ⟨s', hstep, hrun⟩ := run_cons.mp h
    exact ih (.step hs trivial hstep) hrun

/-- A schedule whose outcome passes the test `p` shows a reachable state that does. -/
theorem exists_reachable_of_run {s : σ} {as : List α} {p : σ → Bool} (hs : M.init s)
    (h : (M.run s as).any p = true) : ∃ t, M.Reachable t ∧ p t = true := by
  cases hrun : M.run s as with
  | none => simp [hrun] at h
  | some t => exact ⟨t, reachable_of_run (.init hs) hrun, by simpa [hrun] using h⟩

variable (M)

/-- Take the actions of a schedule in order as long as each passes the test `g`. -/
def runUnder (g : σ → α → Bool) : σ → List α → Option σ
  | s, [] => some s
  | s, a :: as => if g s a then (M.step s a).bind fun s' => runUnder g s' as else none

variable {M}

theorem run_of_runUnder {g : σ → α → Bool} {s t : σ} {as : List α} (h : M.runUnder g s as = some t) :
    M.run s as = some t := by
  induction as generalizing s with
  | nil => exact h
  | cons a as ih =>
    rw [runUnder] at h
    split at h
    · obtain ⟨s', hstep, hrun⟩ := Option.bind_eq_some_iff.mp h
      exact run_cons.mpr ⟨s', hstep, ih hrun⟩
    · cases h

theorem reachableUnder_of_runUnder {G : σ → α → Prop} {g : σ → α → Bool}
    (hg : ∀ s a, g s a = true → G s a) {s t : σ} {as : List α} (hs : M.ReachableUnder G s)
    (h : M.runUnder g s as = some t) : M.ReachableUnder G t := by
  induction as generalizing s with
  | nil => cases h; exact hs
  | cons a as ih =>
    rw [runUnder] at h
    split at h
    · next hga =>
      obtain ⟨s', hstep, hrun⟩ := Option.bind_eq_some_iff.mp h
      exact ih (.step hs (hg s a hga) hstep) hrun
    · cases h

/-- A guarded schedule whose outcome passes the test `p` shows such a state that is reachable
    under the guard. -/
theorem exists_reachableUnder_of_runUnder {G : σ → α → Prop} {g : σ → α → Bool}
    (hg : ∀ s a, g s a = true → G s a) {s : σ} {as : List α} {p : σ → Bool} (hs : M.init s)
    (h : (M.runUnder g s as).any p = true) : ∃ t, M.ReachableUnder G t ∧ p t = true := by
  cases hrun : M.runUnder g s as with
  | none => simp [hrun] at h
  | some t =>
    exact ⟨t, reachableUnder_of_runUnder hg (.init hs) hrun, by simpa [hrun] using h⟩

/-! ## What holds along a schedule -/

variable (M)

/-- `P` holds in every state that a schedule comes to. -/
def Throughout (P : σ → Prop) : σ → List α → Prop
  | s, [] => P s
  | s, a :: as => P s ∧ ∀ s', M.step s a = some s' → Throughout P s' as

/-- Every step that a schedule takes satisfies `G`. -/
def Takes (G : σ → α → Prop) : σ → List α → Prop
  | _, [] => True
  | s, a :: as => ∀ s', M.step s a = some s' → G s a ∧ Takes G s' as

variable {M}

/-- A property that exactly the steps of `G` preserve holds along a schedule if and only if the
    schedule takes no other steps. -/
theorem throughout_iff {P : σ → Prop} {G : σ → α → Prop} {s : σ} {as : List α}
    (hstep : ∀ s s', ∀ a ∈ as, P s → M.step s a = some s' → (P s' ↔ G s a)) (hs : P s) :
    M.Throughout P s as ↔ M.Takes G s as := by
  induction as generalizing s with
  | nil => exact iff_of_true hs trivial
  | cons a as ih =>
    have hrest : ∀ s s', ∀ b ∈ as, P s → M.step s b = some s' → (P s' ↔ G s b) :=
      fun s s' b hb => hstep s s' b (List.mem_cons_of_mem _ hb)
    rw [Throughout, Takes, and_iff_right hs]
    refine forall_congr' fun s' => forall_congr' fun hs' => ?_
    have hone := hstep s s' a List.mem_cons_self hs hs'
    constructor
    · intro h
      have hP : P s' := by
        cases as with
        | nil => exact h
        | cons b bs => exact h.1
      exact ⟨hone.mp hP, (ih hrest hP).mp h⟩
    · intro h
      exact (ih hrest (hone.mpr h.1)).mpr h.2

theorem Throughout.of_run {P : σ → Prop} {s t : σ} {as : List α} (h : M.Throughout P s as)
    (hrun : M.run s as = some t) : P t := by
  induction as generalizing s with
  | nil => cases hrun; exact h
  | cons a as ih =>
    obtain ⟨s', hstep, hrun⟩ := run_cons.mp hrun
    exact ih (h.2 s' hstep) hrun

theorem Throughout.mono {P Q : σ → Prop} (hPQ : ∀ s, P s → Q s) {s : σ} {as : List α}
    (h : M.Throughout P s as) : M.Throughout Q s as := by
  induction as generalizing s with
  | nil => exact hPQ s h
  | cons a as ih => exact ⟨hPQ s h.1, fun s' hstep => ih (h.2 s' hstep)⟩

/-- An invariant comes along with whatever holds along a schedule. -/
theorem Throughout.and_invariant {I P : σ → Prop} {s : σ} {as : List α}
    (hstep : ∀ s a s', I s → M.step s a = some s' → I s') (hs : I s) (h : M.Throughout P s as) :
    M.Throughout (fun t => I t ∧ P t) s as := by
  induction as generalizing s with
  | nil => exact ⟨hs, h⟩
  | cons a as ih => exact ⟨⟨hs, h.1⟩, fun s' hs' => ih (hstep s a s' hs hs') (h.2 s' hs')⟩

theorem takes_of_runUnder {G : σ → α → Prop} {g : σ → α → Bool}
    (hg : ∀ s a, g s a = true → G s a) {s t : σ} {as : List α} (h : M.runUnder g s as = some t) :
    M.Takes G s as := by
  induction as generalizing s with
  | nil => trivial
  | cons a as ih =>
    intro s' hstep
    rw [runUnder] at h
    split at h
    · next hga =>
      rw [hstep, Option.bind_some] at h
      exact ⟨hg s a hga, ih h⟩
    · cases h

theorem Takes.mono {G H : σ → α → Prop} (hGH : ∀ s a, G s a → H s a) {s : σ} {as : List α}
    (h : M.Takes G s as) : M.Takes H s as := by
  induction as generalizing s with
  | nil => trivial
  | cons a as ih => exact fun s' hstep => ⟨hGH s a (h s' hstep).1, ih (h s' hstep).2⟩

end System

end Xv6.Lib
