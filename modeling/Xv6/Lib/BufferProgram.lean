import Mathlib.Data.List.Basic
import Mathlib.Logic.Function.Basic

/-!
# Programs on a Buffer

Programs that read and write one buffer and can give up, with the list of the offsets that
they touch. What is proved of such a program is a weakest precondition in three parts: what
holds of every offset touched, of the value and the buffer it returns, and of the error it
gives up with.

- `wp_bind`, `wp_read`, `wp_write`, `wp_giveUp`, `wp_ite`: one rule for each construct, all
  of them equivalences, so that what a program needs can be computed from its text;
- `wp_mono`, `wp_congr`: the rule of consequence;
- `of_wp`: the run that is meant.
-/

namespace Xv6.Lib

/-- From the contents of the buffer: how the program ends, the contents that it leaves, and the
    offsets that it touches -/
def BufferProgram (β ε α : Type) : Type := (ℕ → β) → Except ε α × (ℕ → β) × List ℕ

namespace BufferProgram

variable {β ε α γ : Type}

/-! ## Constructs -/

instance : Monad (BufferProgram β ε) where
  pure a := fun b => (.ok a, b, [])
  bind x f := fun b =>
    match x b with
    | (.error e, b', l) => (.error e, b', l)
    | (.ok a, b', l) =>
      let (r, b'', l') := f a b'
      (r, b'', l ++ l')

/-- The byte at an offset -/
def read (i : ℕ) : BufferProgram β ε β := fun b => (.ok (b i), b, [i])

/-- Overwrite the byte at an offset. -/
def write (i : ℕ) (v : β) : BufferProgram β ε Unit := fun b => (.ok (), Function.update b i v, [i])

/-- End without a value. -/
def giveUp (e : ε) : BufferProgram β ε α := fun b => (.error e, b, [])

/-! ## Weakest preconditions -/

/-- From `b` the program touches offsets in `P` only, and what it returns satisfies `Q`, or what it
    gives up with satisfies `E`. -/
def wp (x : BufferProgram β ε α) (P : ℕ → Prop) (Q : α → (ℕ → β) → Prop) (E : ε → Prop) (b : ℕ → β) : Prop :=
  (∀ i ∈ (x b).2.2, P i) ∧
    match (x b).1 with
    | .ok a => Q a (x b).2.1
    | .error e => E e

variable {x : BufferProgram β ε α} {P P' : ℕ → Prop} {Q Q' : α → (ℕ → β) → Prop} {E E' : ε → Prop} {b : ℕ → β}

@[simp] theorem wp_pure (a : α) : (pure a : BufferProgram β ε α).wp P Q E b ↔ Q a b := by
  show (∀ i ∈ ([] : List ℕ), P i) ∧ Q a b ↔ Q a b
  simp

@[simp] theorem wp_read {Q : β → (ℕ → β) → Prop} (i : ℕ) :
    (read i : BufferProgram β ε β).wp P Q E b ↔ P i ∧ Q (b i) b := by
  simp [wp, read]

@[simp] theorem wp_write {Q : Unit → (ℕ → β) → Prop} (i : ℕ) (v : β) :
    (write i v : BufferProgram β ε Unit).wp P Q E b ↔ P i ∧ Q () (Function.update b i v) := by
  simp [wp, write]

@[simp] theorem wp_giveUp (e : ε) : (giveUp e : BufferProgram β ε α).wp P Q E b ↔ E e := by
  simp [wp, giveUp]

/-- What the second program needs is what the first has to ensure. -/
@[simp] theorem wp_bind {f : α → BufferProgram β ε γ} {Q : γ → (ℕ → β) → Prop} :
    (x >>= f).wp P Q E b ↔ x.wp P (fun a b' => (f a).wp P Q E b') E b := by
  show (∀ i ∈ (match x b with
      | (.error e, b', l) => ((.error e : Except ε γ), b', l)
      | (.ok a, b', l) => ((f a b').1, (f a b').2.1, l ++ (f a b').2.2)).2.2, P i) ∧ _ ↔ _
  unfold wp
  cases hx : x b with
  | mk r rest =>
    obtain ⟨b', l⟩ := rest
    cases r with
    | error e => simp [bind, hx]
    | ok a => simp [bind, hx, or_imp, forall_and, and_assoc]

theorem wp_ite {c : Prop} [Decidable c] {y : BufferProgram β ε α} :
    (if c then x else y).wp P Q E b ↔ (c → x.wp P Q E b) ∧ (¬ c → y.wp P Q E b) := by
  by_cases hc : c <;> simp [hc]

theorem wp_mono (hP : ∀ i, P i → P' i) (hQ : ∀ a b', Q a b' → Q' a b') (hE : ∀ e, E e → E' e)
    (h : x.wp P Q E b) : x.wp P' Q' E' b := by
  obtain ⟨htouched, hend⟩ := h
  refine ⟨fun i hi => hP i (htouched i hi), ?_⟩
  split at hend
  · exact hQ _ _ hend
  · exact hE _ hend

theorem wp_congr (hQ : ∀ a b', Q a b' ↔ Q' a b') : x.wp P Q E b ↔ x.wp P Q' E b :=
  ⟨wp_mono (fun _ h => h) (fun a b' => (hQ a b').mp) (fun _ h => h),
    wp_mono (fun _ h => h) (fun a b' => (hQ a b').mpr) (fun _ h => h)⟩

/-- A program that cannot give up returns. -/
theorem of_wp (h : x.wp P Q (fun _ => False) b) :
    (∀ i ∈ (x b).2.2, P i) ∧ ∃ a, (x b).1 = .ok a ∧ Q a (x b).2.1 := by
  obtain ⟨htouched, hend⟩ := h
  refine ⟨htouched, ?_⟩
  split at hend
  · next a ha => exact ⟨a, ha, hend⟩
  · exact absurd hend id

end BufferProgram

end Xv6.Lib
