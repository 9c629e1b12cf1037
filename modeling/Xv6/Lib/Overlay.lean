import Mathlib.Data.List.Basic
import Mathlib.Logic.Function.Basic

/-!
# Overlays: Finite Lists of Writes over a Map

`overlay ws f` is the map `f` after the writes `ws`, oldest first. The rules say
what a key holds (`overlay_of_forall_ne`, `overlay_agree`), how write lists
compose (`overlay_append`), and that repeating an interrupted list of writes from
its beginning gives the same map as never having been interrupted
(`overlay_overlay_take`).
-/

namespace Xv6.Lib

variable {κ β : Type*} [DecidableEq κ]

/-- The map `f` after the writes `ws`, oldest first. -/
def overlay : List (κ × β) → (κ → β) → κ → β
  | [], f => f
  | (k, v) :: ws, f => overlay ws (Function.update f k v)

@[simp] theorem overlay_nil (f : κ → β) : overlay [] f = f := rfl

@[simp] theorem overlay_cons (k : κ) (v : β) (ws : List (κ × β)) (f : κ → β) :
    overlay ((k, v) :: ws) f = overlay ws (Function.update f k v) := rfl

theorem overlay_append (ws vs : List (κ × β)) (f : κ → β) :
    overlay (ws ++ vs) f = overlay vs (overlay ws f) := by
  induction ws generalizing f with
  | nil => rfl
  | cons w ws ih => exact ih _

/-- A key no write goes to keeps its value. -/
theorem overlay_of_forall_ne {ws : List (κ × β)} {k : κ} (f : κ → β)
    (h : ∀ w ∈ ws, w.1 ≠ k) : overlay ws f k = f k := by
  induction ws generalizing f with
  | nil => rfl
  | cons w ws ih =>
    have hw : k ≠ w.1 := fun he => h w List.mem_cons_self he.symm
    rw [overlay_cons, ih _ fun v hv => h v (List.mem_cons_of_mem _ hv),
      Function.update_of_ne hw]

/-- Overlays by the same writes agree on every key that is written or on which the
    maps underneath agree. -/
theorem overlay_agree {ws : List (κ × β)} {f g : κ → β} {k : κ}
    (h : (∃ w ∈ ws, w.1 = k) ∨ f k = g k) : overlay ws f k = overlay ws g k := by
  induction ws generalizing f g with
  | nil => simpa using h
  | cons w ws ih =>
    apply ih
    by_cases hk : k = w.1
    · subst hk; simp
    · rcases h with ⟨v, hv, rfl⟩ | h
      · rcases List.mem_cons.mp hv with rfl | hv
        · exact absurd rfl hk
        · exact .inl ⟨v, hv, rfl⟩
      · exact .inr (by simpa [Function.update_of_ne hk] using h)

/-- Writing a prefix of `ws` first makes no difference to writing all of it. -/
theorem overlay_overlay_take (ws : List (κ × β)) (m : ℕ) (f : κ → β) :
    overlay ws (overlay (ws.take m) f) = overlay ws f := by
  funext k
  apply overlay_agree
  by_cases h : ∃ w ∈ ws, w.1 = k
  · exact .inl h
  · push Not at h
    exact .inr (overlay_of_forall_ne f fun w hw => h w (List.mem_of_mem_take hw))

/-- Where the keys are distinct, each holds the value written to it. -/
theorem overlay_zip_getElem {ks : List κ} {vs : List β} (hnd : ks.Nodup) (f : κ → β)
    {i : ℕ} (hk : i < ks.length) (hv : i < vs.length) :
    overlay (ks.zip vs) f ks[i] = vs[i] := by
  induction ks generalizing vs f i with
  | nil => simp at hk
  | cons k ks ih =>
    obtain ⟨v, vs, rfl⟩ := List.exists_cons_of_length_pos (Nat.zero_lt_of_lt hv)
    rw [List.nodup_cons] at hnd
    cases i with
    | zero =>
      simp only [List.zip_cons_cons, overlay_cons, List.getElem_cons_zero]
      rw [overlay_of_forall_ne]
      · simp
      · rintro ⟨a, b⟩ hab rfl
        exact hnd.1 (List.of_mem_zip hab).1
    | succ i =>
      simp only [List.length_cons, Nat.add_lt_add_iff_right] at hk hv
      simpa using ih hnd.2 _ hk hv

/-- The last write to a key decides; in a one-key list it is the only one. -/
theorem overlay_concat_self (ws : List (κ × β)) (k : κ) (v : β) (f : κ → β) :
    overlay (ws ++ [(k, v)]) f k = v := by
  simp [overlay_append]

theorem overlay_concat_of_ne (ws : List (κ × β)) {k l : κ} (v : β) (f : κ → β) (h : l ≠ k) :
    overlay (ws ++ [(k, v)]) f l = overlay ws f l := by
  simp [overlay_append, Function.update_of_ne h]

end Xv6.Lib
