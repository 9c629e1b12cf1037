import Mathlib
import Xv6.Lib.LinkedList

/-!
# Queues of Packet Buffers

`struct mbufq` and its operations, on the `next` fields of the buffers. A queue has a pointer to its
last buffer, which is out of date while the queue is empty: `mbufq_pophead` does not touch it, and
`mbufq_init` does not set it.

- `Holds`: the queue consists of these buffers;
- `holds_pushtail`, `holds_pophead`: the operations on the list of the buffers;
- `holds_putBack`: the buffer that was popped last can be linked in front again.
-/

namespace Xv6.Kernel

open Xv6.Lib

/-- `struct mbufq`; `none` is the null pointer. -/
structure Mbufq where
  head : Option ℕ
  tail : ℕ

namespace Mbufq

/-- `mbufq_init(q)` -/
def init (q : Mbufq) : Mbufq := { q with head := none }

/-- `mbufq_empty(q)` -/
def empty (q : Mbufq) : Bool := q.head.isNone

/-- `mbufq_pushtail(q, m)`: the queue and the `next` fields afterwards -/
def pushtail (q : Mbufq) (next : ℕ → Option ℕ) (m : ℕ) : Mbufq × (ℕ → Option ℕ) :=
  let next := Function.update next m none
  match q.head with
  | none => (⟨some m, m⟩, next)
  | some _ => ({ q with tail := m }, Function.update next q.tail (some m))

/-- `mbufq_pophead(q)`: the queue afterwards, and the buffer -/
def pophead (q : Mbufq) (next : ℕ → Option ℕ) : Mbufq × Option ℕ :=
  match q.head with
  | none => (q, none)
  | some m => ({ q with head := next m }, some m)

/-- The queue consists of these buffers, from the first to the last. -/
structure Holds (q : Mbufq) (next : ℕ → Option ℕ) (ms : List ℕ) : Prop where
  chain : Chain next q.head ms
  nodup : ms.Nodup
  tail : ∀ m, ms.getLast? = some m → q.tail = m

section Holds

variable {q : Mbufq} {next next' : ℕ → Option ℕ} {m : ℕ} {ms : List ℕ}

theorem holds_init (q : Mbufq) (next : ℕ → Option ℕ) : q.init.Holds next [] :=
  ⟨.nil none, List.nodup_nil, nofun⟩

theorem Holds.empty_iff (h : q.Holds next ms) : q.empty = true ↔ ms = [] := by
  have hhead := h.chain.head_eq
  unfold empty
  rw [hhead]
  cases ms <;> simp

/-- The `next` fields of other buffers do not matter. -/
theorem Holds.congr (h : q.Holds next ms) (hn : ∀ m ∈ ms, next' m = next m) : q.Holds next' ms :=
  ⟨h.chain.congr hn, h.nodup, h.tail⟩

/-- **A buffer that is pushed is the last one**, whatever the tail of an empty queue was. -/
theorem holds_pushtail (h : q.Holds next ms) (hm : m ∉ ms) :
    (q.pushtail next m).1.Holds (q.pushtail next m).2 (ms ++ [m]) := by
  have hnodup : (ms ++ [m]).Nodup := by
    rw [List.nodup_append]
    exact ⟨h.nodup, List.nodup_singleton m, fun a ha b hb => by
      rw [List.mem_singleton.mp hb]
      exact fun heq => hm (heq ▸ ha)⟩
  have hlast : ∀ a, (ms ++ [m]).getLast? = some a → m = a := fun a ha => by simpa using ha
  have hhead := h.chain.head_eq
  unfold pushtail
  rcases List.eq_nil_or_concat ms with rfl | ⟨init, last, rfl⟩
  · rw [List.head?_nil] at hhead
    rw [hhead]
    dsimp only
    exact ⟨.cons (by rw [Function.update_self]; exact .nil none), hnodup, hlast⟩
  · -- the tail is the last buffer, and its link is the null pointer
    rw [List.concat_eq_append] at *
    have htail : q.tail = last := h.tail last (by simp)
    cases hq : q.head with
    | none =>
      rw [hq] at hhead
      simp at hhead
    | some first =>
      have hchain : Chain (Function.update next m none) q.head (init ++ [last]) :=
        h.chain.update hm none
      rw [hq] at hchain
      rw [htail]
      dsimp only
      exact ⟨hchain.snoc h.nodup hm (Function.update_self ..), hnodup, hlast⟩

/-- The first buffer is popped. -/
theorem holds_pophead (h : q.Holds next (m :: ms)) :
    (q.pophead next).2 = some m ∧ (q.pophead next).1.Holds next ms ∧ (q.pophead next).1.tail = q.tail := by
  obtain ⟨hhead, hchain⟩ := Seg.cons_iff.mp h.chain
  have hpop : q.pophead next = ({ q with head := next m }, some m) := by
    unfold pophead
    rw [hhead]
  rw [hpop]
  refine ⟨rfl, ⟨hchain, h.nodup.of_cons, fun a ha => ?_⟩, rfl⟩
  refine h.tail a ?_
  cases ms with
  | nil => cases ha
  | cons b bs => exact ha

/-- **Linking the popped buffer in front again** restores the queue, also if it was the last one: the
    tail still points to it. -/
theorem holds_putBack (h : q.Holds next (m :: ms)) :
    Holds { (q.pophead next).1 with head := some m }
      (Function.update next m (q.pophead next).1.head) (m :: ms) := by
  obtain ⟨-, hpop, htail⟩ := holds_pophead h
  have hm : m ∉ ms := (List.nodup_cons.mp h.nodup).1
  refine ⟨.cons ?_, h.nodup, fun a ha => htail.trans (h.tail a ha)⟩
  rw [Function.update_self]
  exact hpop.chain.update hm _

end Holds

end Mbufq

end Xv6.Kernel
