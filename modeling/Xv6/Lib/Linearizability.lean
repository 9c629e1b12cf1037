import Mathlib.Data.Finset.Card
import Mathlib.Logic.Function.Basic

/-!
# Linearizability

A sequential object answers calls one at a time. The atomic object is its concurrent form:
between the call of an operation and its return, the operation takes place in one step. A
history of calls and returns is linearizable when the atomic object has it, and the order in
which the operations take place there is the linearization.

- `Atomic.legal`: the linearization is a run of the sequential object;
- `Atomic.count_returns`: all operations that have returned have taken place, and the others
  that have are those about to return.
-/

namespace Xv6.Lib

variable {σ ω ρ τ : Type*}

/-- A sequential object with states `σ`, operations `ω` and results `ρ`. -/
structure SeqObject (σ ω ρ : Type*) where
  init : σ
  next : σ → ω → ρ → σ → Prop

/-- What the environment sees of an object that several tasks use. -/
inductive Event (τ ω ρ : Type*) where
  | call (t : τ) (op : ω)
  | ret (t : τ) (r : ρ)
  deriving DecidableEq

/-- How far a task is with its operation. -/
inductive Progress (ω ρ : Type*) where
  | idle
  /-- It has been called and has not taken place. -/
  | pending (op : ω)
  /-- It has taken place and has not returned. -/
  | done (r : ρ)

namespace SeqObject

/-- The operations of the list, one after another, lead to the state `s`. -/
inductive Legal (O : SeqObject σ ω ρ) : List (ω × ρ) → σ → Prop where
  | nil : Legal O [] O.init
  | snoc {log : List (ω × ρ)} {s s' : σ} {op : ω} {r : ρ} :
      Legal O log s → O.next s op r s' → Legal O (log ++ [(op, r)]) s'

variable [DecidableEq τ]

/-- The runs of the atomic object: the history, the operations that have taken place, the state
    and how far each task is. -/
inductive Atomic (O : SeqObject σ ω ρ) :
    List (Event τ ω ρ) → List (ω × ρ) → σ → (τ → Progress ω ρ) → Prop where
  | init : Atomic O [] [] O.init fun _ => .idle
  | call {h : List (Event τ ω ρ)} {log : List (ω × ρ)} {s : σ} {p : τ → Progress ω ρ} {t : τ}
      (op : ω) : Atomic O h log s p → p t = .idle →
      Atomic O (h ++ [.call t op]) log s (Function.update p t (.pending op))
  | take {h : List (Event τ ω ρ)} {log : List (ω × ρ)} {s s' : σ} {p : τ → Progress ω ρ} {t : τ}
      {op : ω} {r : ρ} : Atomic O h log s p → p t = .pending op → O.next s op r s' →
      Atomic O h (log ++ [(op, r)]) s' (Function.update p t (.done r))
  | ret {h : List (Event τ ω ρ)} {log : List (ω × ρ)} {s : σ} {p : τ → Progress ω ρ} {t : τ}
      {r : ρ} : Atomic O h log s p → p t = .done r →
      Atomic O (h ++ [.ret t r]) log s (Function.update p t .idle)

/-- The atomic object has the history. -/
def Linearizable (O : SeqObject σ ω ρ) (h : List (Event τ ω ρ)) : Prop :=
  ∃ log s p, O.Atomic h log s p

namespace Atomic

variable {O : SeqObject σ ω ρ} {h : List (Event τ ω ρ)} {log : List (ω × ρ)} {s : σ}
  {p : τ → Progress ω ρ}

/-- **The linearization is sequential.** -/
theorem legal (ha : O.Atomic h log s p) : O.Legal log s := by
  induction ha with
  | init => exact .nil
  | call op _ _ ih => exact ih
  | take _ _ hnext ih => exact .snoc ih hnext
  | ret _ _ ih => exact ih

end Atomic

end SeqObject

/-! ## Counting -/

namespace Event

variable [DecidableEq ρ]

/-- How often the result `r` has been returned -/
def returns (r : ρ) (h : List (Event τ ω ρ)) : ℕ :=
  h.countP fun e => match e with
    | .ret _ r' => r' = r
    | .call _ _ => false

@[simp] theorem returns_call (r : ρ) (h : List (Event τ ω ρ)) (t : τ) (op : ω) :
    returns r (h ++ [.call t op]) = returns r h := by
  simp [returns]

@[simp] theorem returns_ret (r : ρ) (h : List (Event τ ω ρ)) (t : τ) (r' : ρ) :
    returns r (h ++ [.ret t r']) = returns r h + if r' = r then 1 else 0 := by
  simp [returns, List.countP_singleton]

end Event

/-- How often the result `r` has been the result of an operation of the list -/
def results [DecidableEq ρ] (r : ρ) (log : List (ω × ρ)) : ℕ := log.countP fun e => e.2 = r

@[simp] theorem results_snoc [DecidableEq ρ] (r : ρ) (log : List (ω × ρ)) (op : ω) (r' : ρ) :
    results r (log ++ [(op, r')]) = results r log + if r' = r then 1 else 0 := by
  simp [results, List.countP_singleton]

namespace SeqObject.Atomic

variable [DecidableEq τ] [DecidableEq ρ] {O : SeqObject σ ω ρ} {h : List (Event τ ω ρ)}
  {log : List (ω × ρ)} {s : σ} {p : τ → Progress ω ρ}

/-- **What has taken place** with the result `r` has returned, or a task is about to return it. -/
theorem count_returns (ha : O.Atomic h log s p) (r : ρ) :
    ∃ ts : Finset τ, (∀ t, t ∈ ts ↔ p t = .done r) ∧ results r log = Event.returns r h + ts.card := by
  -- The tasks about to return `r` are those of `ts`; each step adds one, takes one away, or leaves
  -- them.
  induction ha with
  | init => exact ⟨∅, by simp, rfl⟩
  | @call h log s p t op _ hidle ih =>
    obtain ⟨ts, hts, hcount⟩ := ih
    refine ⟨ts, fun t' => ?_, by rw [hcount, Event.returns_call]⟩
    rw [hts]
    by_cases ht : t' = t
    · simp [ht, hidle]
    · rw [Function.update_of_ne ht]
  | @take h log s s' p t op r' _ hpending _ ih =>
    obtain ⟨ts, hts, hcount⟩ := ih
    have hnew : t ∉ ts := by simp [hts, hpending]
    -- With the result `r`, the task is one more that is about to return it.
    by_cases hr : r' = r
    · refine ⟨insert t ts, fun t' => ?_, ?_⟩
      · by_cases ht : t' = t
        · simp [ht, hr]
        · rw [Finset.mem_insert, hts, Function.update_of_ne ht, or_iff_right ht]
      · rw [results_snoc, hcount, if_pos hr, Finset.card_insert_of_notMem hnew]
        omega
    · refine ⟨ts, fun t' => ?_, by rw [results_snoc, hcount, if_neg hr, Nat.add_zero]⟩
      by_cases ht : t' = t
      · simp [ht, hr, hnew]
      · rw [hts, Function.update_of_ne ht]
  | @ret h log s p t r' _ hdone ih =>
    obtain ⟨ts, hts, hcount⟩ := ih
    -- A task that returns `r` was one of them.
    by_cases hr : r' = r
    · have hold : t ∈ ts := by rw [hts, hdone, hr]
      have hpos := Finset.card_pos.mpr ⟨t, hold⟩
      refine ⟨ts.erase t, fun t' => ?_, ?_⟩
      · by_cases ht : t' = t
        · simp [ht]
        · rw [Finset.mem_erase, hts, Function.update_of_ne ht, and_iff_right ht]
      · rw [hcount, Event.returns_ret, if_pos hr, Finset.card_erase_of_mem hold]
        omega
    · have hold : t ∉ ts := by simp [hts, hdone, hr]
      refine ⟨ts, fun t' => ?_, by rw [hcount, Event.returns_ret, if_neg hr, Nat.add_zero]⟩
      by_cases ht : t' = t
      · simp [ht, hold]
      · rw [hts, Function.update_of_ne ht]

end SeqObject.Atomic

end Xv6.Lib
