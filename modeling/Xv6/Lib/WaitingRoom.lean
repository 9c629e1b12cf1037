import Mathlib.Data.List.Nodup
import Mathlib.Data.List.Dedup

/-!
# Items That Wait for a Key

Items enter and wait for a key; when the key is called, all that wait for it leave, in the order in which they entered.
Some items leave without waiting. A log of these events, newest first, says who waits and who has left.

- `waiting`, `left`: read off the log;
- `Waits`, `Answered`: an item has entered and its key has not, or has, been called since;
- `Holds es log`: a list of queues, one for each key, holds what waits;
- `Holds.enter_old`, `Holds.enter_new`, `Holds.call`: what becomes of the list with each event;
- `Holds.waits`, `Holds.answered`: no item is lost, and none is there twice.
-/

namespace Xv6.Lib.WaitingRoom

variable {κ ι : Type*} [DecidableEq κ]

inductive Event (κ ι : Type*) where
  /-- The item begins to wait for the key. -/
  | enter (k : κ) (x : ι)
  /-- All that wait for the key leave. -/
  | call (k : κ)
  /-- The item leaves without waiting. -/
  | pass (x : ι)
  deriving DecidableEq

/-- The items that wait for a key, in the order in which they entered -/
def waiting : List (Event κ ι) → κ → List ι
  | [], _ => []
  | .enter k' x :: log, k => if k' = k then waiting log k ++ [x] else waiting log k
  | .call k' :: log, k => if k' = k then [] else waiting log k
  | .pass _ :: log, k => waiting log k

/-- The items that have left, in the order in which they did -/
def left : List (Event κ ι) → List ι
  | [] => []
  | .enter _ _ :: log => left log
  | .call k :: log => left log ++ waiting log k
  | .pass x :: log => left log ++ [x]

/-- The items of a log, newest first -/
def items : List (Event κ ι) → List ι
  | [] => []
  | .enter _ x :: log => x :: items log
  | .call _ :: log => items log
  | .pass x :: log => x :: items log

/-- The item has entered, and its key has not been called since. -/
def Waits (log : List (Event κ ι)) (k : κ) (x : ι) : Prop :=
  ∃ newer older, log = newer ++ .enter k x :: older ∧ .call k ∉ newer

/-- The item has entered, and its key has been called since. -/
def Answered (log : List (Event κ ι)) (k : κ) (x : ι) : Prop :=
  ∃ newer older, log = newer ++ .enter k x :: older ∧ .call k ∈ newer

variable {log : List (Event κ ι)} {k k' : κ} {x : ι}

/-! ## Logs -/

theorem waiting_enter : waiting (.enter k' x :: log) k = if k' = k then waiting log k ++ [x] else waiting log k := rfl

theorem waiting_call : waiting (.call k' :: log : List (Event κ ι)) k = if k' = k then [] else waiting log k := rfl

theorem mem_items_of_waiting (h : x ∈ waiting log k) : x ∈ items log := by
  induction log with
  | nil => nomatch h
  | cons e log ih =>
    cases e with
    | enter k' y =>
      unfold waiting at h
      split at h
      · rcases List.mem_append.mp h with h | h
        · exact List.mem_cons_of_mem y (ih h)
        · rw [List.mem_singleton.mp h]
          exact List.mem_cons_self
      · exact List.mem_cons_of_mem y (ih h)
    | call k' =>
      unfold waiting at h
      split at h
      · nomatch h
      · exact ih h
    | pass y => exact List.mem_cons_of_mem y (ih h)

theorem mem_items_of_left (h : x ∈ left log) : x ∈ items log := by
  induction log with
  | nil => nomatch h
  | cons e log ih =>
    cases e with
    | enter k' y => exact List.mem_cons_of_mem y (ih h)
    | call k' => exact (List.mem_append.mp h).elim ih mem_items_of_waiting
    | pass y =>
      rcases List.mem_append.mp h with h | h
      · exact List.mem_cons_of_mem y (ih h)
      · rw [List.mem_singleton.mp h]
        exact List.mem_cons_self

/-- **Items that are different** wait once, for one key, or have left once. -/
theorem separate (h : (items log).Nodup) :
    (left log).Nodup ∧ ∀ k, (waiting log k).Nodup ∧ List.Disjoint (waiting log k) (left log) ∧
      ∀ k' ≠ k, List.Disjoint (waiting log k) (waiting log k') := by
  -- On the log, from its last entry. Its item, if it has one, is in none of the lists yet.
  induction log with
  | nil => exact ⟨.nil, fun k => ⟨.nil, List.disjoint_nil_left _, fun k' _ => List.disjoint_nil_left _⟩⟩
  | cons e log ih =>
    cases e with
    | enter k₀ x =>
      obtain ⟨hx, hlog⟩ := List.nodup_cons.mp h
      obtain ⟨hleft, hwait⟩ := ih hlog
      have hxl : x ∉ left log := fun hm => hx (mem_items_of_left hm)
      have hxw : ∀ k, x ∉ waiting log k := fun k hm => hx (mem_items_of_waiting hm)
      refine ⟨hleft, fun k => ?_⟩
      obtain ⟨hnd, hdl, hdk⟩ := hwait k
      simp only [waiting, left]
      -- Of the list it joins, and of every other.
      by_cases hk : k₀ = k
      · subst hk
        rw [if_pos rfl]
        refine ⟨List.nodup_append.mpr ⟨hnd, List.nodup_singleton x, fun a ha b hb he => ?_⟩, ?_, fun k' hne => ?_⟩
        · exact hxw k₀ (List.mem_singleton.mp hb ▸ he ▸ ha)
        · exact List.disjoint_append_left.mpr ⟨hdl, List.singleton_disjoint.mpr hxl⟩
        · rw [if_neg hne.symm]
          exact List.disjoint_append_left.mpr ⟨hdk k' hne, List.singleton_disjoint.mpr (hxw k')⟩
      · rw [if_neg hk]
        refine ⟨hnd, hdl, fun k' hne => ?_⟩
        split
        · exact List.disjoint_append_right.mpr ⟨hdk k' hne, List.disjoint_singleton.mpr (hxw k)⟩
        · exact hdk k' hne
    | call k₀ =>
      obtain ⟨hleft, hwait⟩ := ih h
      -- The list of `k₀` moves to the items that have left, from which it was disjoint.
      refine ⟨List.nodup_append'.mpr ⟨hleft, (hwait k₀).1, (hwait k₀).2.1.symm⟩, fun k => ?_⟩
      obtain ⟨hnd, hdl, hdk⟩ := hwait k
      simp only [waiting, left]
      by_cases hk : k₀ = k
      · rw [if_pos hk]
        exact ⟨.nil, List.disjoint_nil_left _, fun k' _ => List.disjoint_nil_left _⟩
      · rw [if_neg hk]
        refine ⟨hnd, List.disjoint_append_right.mpr ⟨hdl, hdk k₀ hk⟩, fun k' hne => ?_⟩
        split
        · exact List.disjoint_nil_right _
        · exact hdk k' hne
    | pass x =>
      obtain ⟨hx, hlog⟩ := List.nodup_cons.mp h
      obtain ⟨hleft, hwait⟩ := ih hlog
      have hxl : x ∉ left log := fun hm => hx (mem_items_of_left hm)
      refine ⟨List.nodup_append'.mpr ⟨hleft, List.nodup_singleton x, List.disjoint_singleton.mpr hxl⟩,
        fun k => ?_⟩
      obtain ⟨hnd, hdl, hdk⟩ := hwait k
      exact ⟨hnd, List.disjoint_append_right.mpr ⟨hdl,
        List.disjoint_singleton.mpr fun hm => hx (mem_items_of_waiting hm)⟩, hdk⟩

theorem Waits.mem_waiting (h : Waits log k x) : x ∈ waiting log k := by
  obtain ⟨newer, older, rfl, hcall⟩ := h
  induction newer with
  | nil =>
    rw [List.nil_append, waiting_enter, if_pos rfl]
    exact List.mem_append_right _ (List.mem_singleton_self x)
  | cons e newer ih =>
    obtain ⟨he, hrest⟩ := not_or.mp (List.mem_cons.not.mp hcall)
    have hx := ih hrest
    rw [List.cons_append]
    cases e with
    | enter k' y =>
      rw [waiting_enter]
      split
      · exact List.mem_append_left _ hx
      · exact hx
    | call k' =>
      have hk : k' ≠ k := fun hk => he (congrArg Event.call hk.symm)
      rw [waiting_call, if_neg hk]
      exact hx
    | pass y => exact hx

theorem Answered.mem_left (h : Answered log k x) : x ∈ left log := by
  obtain ⟨newer, older, rfl, hcall⟩ := h
  induction newer with
  | nil => nomatch hcall
  | cons e newer ih =>
    rw [List.cons_append]
    by_cases hold : .call k ∈ newer
    · have hx := ih hold
      cases e with
      | enter k' y => exact hx
      | call k' => exact List.mem_append_left _ hx
      | pass y => exact List.mem_append_left _ hx
    · -- this event is the call
      obtain rfl : e = .call k := ((List.mem_cons.mp hcall).resolve_right hold).symm
      have hwaits : Waits (newer ++ .enter k x :: older) k x := ⟨newer, older, rfl, hold⟩
      exact List.mem_append_right _ hwaits.mem_waiting

/-! ## A List of Queues -/

/-- **The list has one queue for each key that is waited for**, and the queue holds what waits for it. -/
structure Holds (es : List (κ × List ι)) (log : List (Event κ ι)) : Prop where
  keys : (es.map Prod.fst).Nodup
  queue : ∀ e ∈ es, e.2 = waiting log e.1
  rest : ∀ k, k ∉ es.map Prod.fst → waiting log k = []

variable {es fs gs : List (κ × List ι)} {q : List ι}

theorem Holds.nil : Holds ([] : List (κ × List ι)) [] := ⟨.nil, nofun, fun _ _ => rfl⟩

/-- An item enters for a key that has no queue. -/
theorem Holds.enter_new (h : Holds es log) (hk : k ∉ es.map Prod.fst) : Holds ((k, [x]) :: es) (.enter k x :: log) where
  keys := List.nodup_cons.mpr ⟨hk, h.keys⟩
  queue e he := by
    rcases List.mem_cons.mp he with rfl | he
    · rw [waiting_enter, if_pos rfl, h.rest k hk]
      rfl
    · have hne : k ≠ e.1 := fun heq => hk (heq ▸ List.mem_map_of_mem he)
      rw [waiting_enter, if_neg hne]
      exact h.queue e he
  rest k' hk' := by
    obtain ⟨hne, hk'⟩ := not_or.mp (List.mem_cons.not.mp hk')
    rw [waiting_enter, if_neg (Ne.symm hne)]
    exact h.rest k' hk'

/-- An item enters for a key that has a queue. -/
theorem Holds.enter_old (h : Holds (fs ++ (k, q) :: gs) log) :
    Holds (fs ++ (k, q ++ [x]) :: gs) (.enter k x :: log) where
  keys := by simpa using h.keys
  queue e he := by
    have hkeys := h.keys
    rw [List.map_append, List.map_cons, List.nodup_middle, List.nodup_cons, ← List.map_append] at hkeys
    have hq := h.queue (k, q) (by simp)
    rw [waiting_enter]
    by_cases heq : e = (k, q ++ [x])
    · subst heq
      rw [if_pos rfl]
      exact congrArg (· ++ [x]) hq
    · have hmem : e ∈ fs ++ gs := by
        simp only [List.mem_append, List.mem_cons] at he ⊢
        tauto
      have hne : k ≠ e.1 := fun hk => hkeys.1 (List.mem_map.mpr ⟨e, hmem, hk.symm⟩)
      rw [if_neg hne]
      exact h.queue e (by
        simp only [List.mem_append, List.mem_cons] at hmem ⊢
        tauto)
  rest k' hk' := by
    have hk₀ : k' ∉ (fs ++ (k, q) :: gs).map Prod.fst := by simpa using hk'
    have hne : k ≠ k' := fun he => hk₀ (by simp [he])
    rw [waiting_enter, if_neg hne]
    exact h.rest k' hk₀

/-- A key is called that has a queue. -/
theorem Holds.call (h : Holds (fs ++ (k, q) :: gs) log) : Holds (fs ++ gs) (.call k :: log) := by
  have hkeys := h.keys
  rw [List.map_append, List.map_cons, List.nodup_middle, List.nodup_cons, ← List.map_append] at hkeys
  refine ⟨hkeys.2, fun e he => ?_, fun k' hk' => ?_⟩
  · have hne : k ≠ e.1 := fun hk => hkeys.1 (List.mem_map.mpr ⟨e, he, hk.symm⟩)
    rw [waiting_call, if_neg hne]
    exact h.queue e (by
      simp only [List.mem_append, List.mem_cons] at he ⊢
      tauto)
  · rw [waiting_call]
    split
    · rfl
    · next hne =>
      refine h.rest k' fun hmem => hk' ?_
      simp only [List.map_append, List.map_cons, List.mem_append, List.mem_cons] at hmem ⊢
      exact hmem.imp_right fun hmem => hmem.resolve_left (Ne.symm hne)

/-- A key is called that has no queue. -/
theorem Holds.call_none (h : Holds es log) (hk : k ∉ es.map Prod.fst) :
    Holds es (.call k :: log) ∧ left (.call k :: log) = left log := by
  refine ⟨⟨h.keys, fun e he => ?_, fun k' hk' => ?_⟩, ?_⟩
  · have hne : k ≠ e.1 := fun heq => hk (heq ▸ List.mem_map_of_mem he)
    rw [waiting_call, if_neg hne]
    exact h.queue e he
  · rw [waiting_call]
    split
    · rfl
    · exact h.rest k' hk'
  · simp only [left]
    rw [h.rest k hk, List.append_nil]

theorem Holds.pass (h : Holds es log) : Holds es (.pass x :: log) := ⟨h.keys, h.queue, h.rest⟩

/-! ## Nothing Lost, Nothing Twice -/

theorem Holds.nodup (h : Holds es log) (hitems : (items log).Nodup) : (es.flatMap Prod.snd).Nodup := by
  obtain ⟨-, hwait⟩ := separate hitems
  refine List.nodup_flatMap.mpr ⟨fun e he => h.queue e he ▸ (hwait e.1).1, ?_⟩
  refine (List.pairwise_map.mp h.keys).imp_of_mem fun {e f} he hf hne => ?_
  unfold Function.onFun
  rw [h.queue e he, h.queue f hf]
  exact (hwait e.1).2.2 f.1 (Ne.symm hne)

/-- **What waits is in one queue**, that of its key, and has not left. -/
theorem Holds.waits [DecidableEq ι] (h : Holds es log) (hitems : (items log).Nodup) (hw : Waits log k x) :
    (∃ q, (k, q) ∈ es ∧ x ∈ q) ∧ (es.flatMap Prod.snd).count x = 1 ∧ x ∉ left log := by
  have hx := hw.mem_waiting
  have hkey : k ∈ es.map Prod.fst := by
    by_contra hk
    rw [h.rest k hk] at hx
    nomatch hx
  obtain ⟨e, he, rfl⟩ := List.mem_map.mp hkey
  have hxe : x ∈ e.2 := h.queue e he ▸ hx
  refine ⟨⟨e.2, he, hxe⟩, ?_, ?_⟩
  · exact List.count_eq_one_of_mem (h.nodup hitems) (List.mem_flatMap.mpr ⟨e, he, hxe⟩)
  · exact fun hl => ((separate hitems).2 e.1).2.1 hx hl

/-- **What has been answered is in no queue**, and has left once. -/
theorem Holds.answered [DecidableEq ι] (h : Holds es log) (hitems : (items log).Nodup) (ha : Answered log k x) :
    (es.flatMap Prod.snd).count x = 0 ∧ (left log).count x = 1 := by
  have hx := ha.mem_left
  obtain ⟨hleft, hwait⟩ := separate hitems
  refine ⟨List.count_eq_zero.mpr fun hmem => ?_, List.count_eq_one_of_mem hleft hx⟩
  obtain ⟨e, he, hxe⟩ := List.mem_flatMap.mp hmem
  rw [h.queue e he] at hxe
  exact (hwait e.1).2.1 hxe hx

end Xv6.Lib.WaitingRoom
