import Mathlib
import Xv6.Lib.Ring

/-!
# The History of the Shell

The last commands that `user/sh.c` keeps in `history`, and the keys that go through them:
`add_history` and the key handler of `getcmd`.

- `Inv`: where the last commands are, after any session;
- `lines_eq`: the command `history` lists the last `HISTSIZE - 1` of them;
- `recall_up`: what presses of the up key show, before the ring is full;
- `history_ok_iff`: the keys go through the history as long as fewer than `HISTSIZE` commands have
  been entered. The next one leaves `historyPos` behind the array, and from then on it is
  compared with positions on the other side of the wrap.
-/

namespace Xv6.User.Shell

open Xv6.Lib

def HISTSIZE : ℕ := 21

/-- An element of `history`: 100 bytes -/
abbrev Row := ℕ → UInt8

/-- The string that an element holds -/
def string (row : Row) : List UInt8 := ((List.range 100).map row).takeWhile (· ≠ 0)

/-- `strcpy` -/
def strcpy (row : Row) (cmd : List UInt8) : Row := fun j => if j ≤ cmd.length then cmd.getD j 0 else row j

/-- `history` and its positions -/
structure State where
  history : ℕ → Row
  historySt : ℕ
  historyEnd : ℕ
  historyPos : ℕ

namespace State

/-- Static variables are zero. -/
def boot : State := ⟨fun _ _ => 0, 0, 0, 0⟩

/-- `add_history(cmd)` -/
def addHistory (s : State) (cmd : List UInt8) : State :=
  let size : ℤ := s.historyEnd - s.historySt
  let size := if size < 0 then size + HISTSIZE else size
  -- exchange \n to 0
  let row := Function.update (strcpy (s.history s.historyEnd) cmd) (cmd.length - 1) 0
  { history := Function.update s.history s.historyEnd row
    historyEnd := if s.historyEnd + 1 = HISTSIZE then 0 else s.historyEnd + 1
    historyPos := s.historyEnd + 1
    historySt :=
      if size = HISTSIZE - 1 then if s.historySt + 1 = HISTSIZE then 0 else s.historySt + 1 else s.historySt }

/-- The up key in `getcmd` -/
def up (s : State) : State :=
  if s.historyPos > s.historySt then { s with historyPos := s.historyPos - 1 } else s

/-- The down key in `getcmd` -/
def down (s : State) : State :=
  if s.historyPos < s.historyEnd then { s with historyPos := s.historyPos + 1 } else s

/-- What `write_shell_stdin` shows after a key -/
def shown (s : State) : List UInt8 := string (s.history s.historyPos)

/-- The loop of the command `history` from `i` on, in which each element comes once at most -/
def linesFrom (s : State) : ℕ → ℕ → List (List UInt8)
  | 0, _ => []
  | turns + 1, i =>
    if i = s.historyEnd then []
    else string (s.history i) :: s.linesFrom turns (if i + 1 = HISTSIZE then 0 else i + 1)

/-- What the command `history` lists -/
def lines (s : State) : List (List UInt8) := s.linesFrom HISTSIZE s.historySt

end State

/-! ## Sessions -/

/-- A line that `getcmd` has read into its buffer and that `main` enters into the history -/
structure Command where
  buf : List UInt8
  two : 2 ≤ buf.length
  fits : buf.length ≤ 99
  noZero : 0 ∉ buf

/-- The line without its newline -/
def Command.line (c : Command) : List UInt8 := c.buf.dropLast

inductive Event where
  | enter (c : Command)
  | upKey
  | downKey

def State.step (s : State) : Event → State
  | .enter c => s.addHistory c.buf
  | .upKey => s.up
  | .downKey => s.down

/-- The state after a session -/
def after (es : List Event) : State := es.foldl State.step .boot

/-- The lines that have been entered -/
def entered (es : List Event) : List (List UInt8) :=
  es.filterMap fun
    | .enter c => some c.line
    | .upKey => none
    | .downKey => none

/-- The last lines, as many as the ring has room for -/
def lastLines (ls : List (List UInt8)) : List (List UInt8) := ls.drop (ls.length - (HISTSIZE - 1))

/-- **The history is in order** after a session. -/
structure Ok (es : List Event) : Prop where
  st : (after es).historySt < HISTSIZE
  en : (after es).historyEnd < HISTSIZE
  pos : (after es).historyPos < HISTSIZE
  lines : (after es).lines = lastLines (entered es)
  /-- Right after a command, presses of the up key show one command after the other, up to the oldest. -/
  recent : ∀ front c, es = front ++ [.enter c] → ∀ k, 0 < k →
    (lastLines (entered es))[(lastLines (entered es)).length - k]? = some (State.up^[k] (after es)).shown
  undo : (after es).historySt < (after es).historyPos → (after es).up.down = after es

/-! ## Strings -/

theorem string_eq {row : Row} {l : List UInt8} (hlen : l.length < 100) (hl : ∀ i (hi : i < l.length), row i = l[i])
    (hend : row l.length = 0) (hz : 0 ∉ l) : string row = l := by
  have hfront : (List.range l.length).map row = l := by
    refine List.ext_getElem (by simp) fun i hi hi' => ?_
    rw [List.getElem_map, List.getElem_range, hl i hi']
  obtain ⟨n, hn⟩ : ∃ n, 100 = l.length + (n + 1) := ⟨99 - l.length, by omega⟩
  rw [string, hn, List.range_add, List.map_append, hfront, List.takeWhile_append_of_pos]
  · simp [List.range_succ_eq_map, hend]
  · intro x hx
    exact decide_eq_true fun h => hz (h ▸ hx)

/-- The string that `add_history` leaves in an element -/
theorem string_stored (row : Row) (c : Command) :
    string (Function.update (strcpy row c.buf) (c.buf.length - 1) 0) = c.line := by
  have htwo := c.two
  have hfits := c.fits
  have hlen : c.line.length = c.buf.length - 1 := List.length_dropLast
  refine string_eq (by omega) (fun i hi => ?_) ?_ fun h => c.noZero (List.mem_of_mem_dropLast h)
  · rw [Function.update_of_ne (by omega), strcpy, if_pos (by omega), List.getD_eq_getElem _ _ (by omega)]
    exact (List.getElem_dropLast _).symm
  · rw [hlen, Function.update_self]

/-! ## The ring -/

/-- How many of `n` lines are not in the ring any more -/
def dropped (n : ℕ) : ℕ := n - (HISTSIZE - 1)

/-- **Where the last lines are**, and where the keys are before the ring has been full -/
structure Inv (s : State) (ls : List (List UInt8)) : Prop where
  st : s.historySt = dropped ls.length % HISTSIZE
  en : s.historyEnd = ls.length % HISTSIZE
  ring : Ring.Holds (fun i => string (s.history i)) HISTSIZE (dropped ls.length) (lastLines ls)
  pos : ls.length < HISTSIZE → s.historyPos ≤ ls.length

section Ring

variable {s : State} {ls xs : List (List UInt8)} {n : ℕ}

theorem Inv.boot : Inv .boot [] :=
  ⟨rfl, rfl, Ring.holds_nil, fun _ => le_rfl⟩

theorem length_lastLines : (lastLines ls).length = ls.length - dropped ls.length := by
  rw [lastLines, List.length_drop, dropped]

/-- The wrap of an index -/
theorem wrap_succ (n : ℕ) : (if n % HISTSIZE + 1 = HISTSIZE then 0 else n % HISTSIZE + 1) = (n + 1) % HISTSIZE := by
  unfold HISTSIZE
  split <;> omega

/-- The ring is full just where `add_history` computes its size as `HISTSIZE - 1`. -/
theorem size_eq_iff {size : ℤ} (hsize : size = (n % HISTSIZE : ℕ) - (dropped n % HISTSIZE : ℕ)) :
    (if size < 0 then size + HISTSIZE else size) = HISTSIZE - 1 ↔ HISTSIZE - 1 ≤ n := by
  unfold dropped HISTSIZE at *
  split <;> omega

/-- A line more: the oldest one leaves where there were enough. -/
theorem lastLines_append (x : List UInt8) : lastLines (ls ++ [x]) =
    if HISTSIZE - 1 ≤ ls.length then (lastLines ls ++ [x]).tail else lastLines ls ++ [x] := by
  unfold lastLines
  rw [List.length_append, List.length_singleton]
  split
  · next hfull =>
    rw [← List.drop_append_of_le_length (Nat.sub_le _ _), ← List.drop_one, List.drop_drop,
      Nat.sub_add_comm hfull, Nat.add_comm]
  · next hroom =>
    rw [show ls.length + 1 - (HISTSIZE - 1) = 0 by omega, show ls.length - (HISTSIZE - 1) = 0 by omega]
    rfl

/-- A command goes behind the last one, and the oldest makes room where the ring is full. -/
theorem Inv.addHistory (h : Inv s ls) (c : Command) : Inv (s.addHistory c.buf) (ls ++ [c.line]) := by
  -- The cell that is written is the one behind the last line, which is free.
  have hcell : (dropped ls.length + (lastLines ls).length) % HISTSIZE = s.historyEnd := by
    rw [length_lastLines, h.en, dropped, Nat.add_sub_cancel' (Nat.sub_le _ _)]
  have hroom : (lastLines ls).length < HISTSIZE := by
    rw [length_lastLines, dropped, HISTSIZE]
    omega
  -- Of what the cells hold nothing else changes.
  have hdata : (fun i => string ((s.addHistory c.buf).history i)) =
      Function.update (fun i => string (s.history i)) s.historyEnd c.line := by
    funext i
    by_cases hi : i = s.historyEnd
    · subst hi
      simp only [State.addHistory, Function.update_self]
      exact string_stored _ c
    · simp only [State.addHistory, Function.update_of_ne hi]
  have hring := h.ring.push hroom c.line
  rw [hcell, ← hdata] at hring
  -- The start moves on if the ring was full.
  have hst : (s.addHistory c.buf).historySt =
      if HISTSIZE - 1 ≤ ls.length then (dropped ls.length + 1) % HISTSIZE else dropped ls.length % HISTSIZE := by
    have hsize : ((s.historyEnd : ℤ) - s.historySt) =
        (ls.length % HISTSIZE : ℕ) - (dropped ls.length % HISTSIZE : ℕ) := by
      rw [h.en, h.st]
    refine if_congr (size_eq_iff hsize) ?_ h.st
    rw [h.st, wrap_succ]
  have hlen : (ls ++ [c.line]).length = ls.length + 1 := List.length_append
  refine ⟨?_, ?_, ?_, fun hfew => ?_⟩
  · rw [hst, hlen]
    unfold dropped HISTSIZE
    split <;> omega
  · show (if s.historyEnd + 1 = HISTSIZE then 0 else s.historyEnd + 1) = _
    rw [h.en, wrap_succ, hlen]
  · rw [lastLines_append, hlen]
    split
    -- The oldest line leaves the ring, which is a cell shorter than its array.
    · next hfull =>
      have hdropped : dropped (ls.length + 1) = dropped ls.length + 1 := Nat.sub_add_comm hfull
      rw [hdropped]
      obtain ⟨x, xs, hxs⟩ := List.exists_cons_of_ne_nil (List.append_ne_nil_of_right_ne_nil (lastLines ls)
        (List.cons_ne_nil c.line []))
      rw [hxs] at hring ⊢
      exact hring.pop
    · next hfew =>
      have hdropped : dropped (ls.length + 1) = dropped ls.length := by
        unfold dropped
        omega
      rw [hdropped]
      exact hring
  · rw [hlen] at hfew ⊢
    show s.historyEnd + 1 ≤ _
    rw [h.en]
    exact Nat.succ_le_succ (Nat.mod_le _ _)

/-- The keys move `historyPos` between the ends, before the ring has been full. -/
theorem Inv.step (h : Inv s ls) (e : Event) : Inv (s.step e) (ls ++ entered [e]) := by
  cases e with
  | enter c => exact h.addHistory c
  | upKey =>
    rw [show entered [.upKey] = [] from rfl, List.append_nil]
    unfold State.step State.up
    dsimp only
    split
    · exact ⟨h.st, h.en, h.ring, fun hfew => (Nat.sub_le _ _).trans (h.pos hfew)⟩
    · exact h
  | downKey =>
    rw [show entered [.downKey] = [] from rfl, List.append_nil]
    unfold State.step State.down
    dsimp only
    split
    · next hlt =>
      refine ⟨h.st, h.en, h.ring, fun _ => ?_⟩
      rw [h.en] at hlt
      exact Nat.succ_le_of_lt (hlt.trans_le (Nat.mod_le _ _))
    · exact h

theorem after_append (es : List Event) (e : Event) : after (es ++ [e]) = (after es).step e := List.foldl_append

theorem entered_append (es fs : List Event) : entered (es ++ fs) = entered es ++ entered fs := List.filterMap_append

/-- **After any session the last lines are in the ring.** -/
theorem inv_after (es : List Event) : Inv (after es) (entered es) := by
  induction es using List.reverseRecOn with
  | nil => exact .boot
  | append_singleton es e ih =>
    have hstep := ih.step e
    rwa [← after_append, ← entered_append] at hstep

/-! ## What is listed and shown -/

/-- The command `history` lists what is in the ring. -/
theorem linesFrom_eq {turns start : ℕ} (h : Ring.Holds (fun i => string (s.history i)) HISTSIZE start xs)
    (hend : (start + xs.length) % HISTSIZE = s.historyEnd) (hlen : xs.length < HISTSIZE) (hturns : xs.length ≤ turns) :
    s.linesFrom turns (start % HISTSIZE) = xs := by
  induction xs generalizing start turns with
  | nil =>
    cases turns with
    | zero => rfl
    | succ turns => rw [State.linesFrom, if_pos (by simpa using hend)]
  | cons x xs ih =>
    rw [List.length_cons] at hend hlen hturns
    obtain ⟨turns, rfl⟩ := Nat.exists_eq_succ_of_ne_zero (Nat.pos_iff_ne_zero.mp ((Nat.succ_pos _).trans_le hturns))
    have hne : start % HISTSIZE ≠ s.historyEnd := by
      rw [← hend]
      exact Ring.cell_ne (Nat.succ_pos _) hlen
    rw [State.linesFrom, if_neg hne, wrap_succ, h.head, ih h.pop (by rw [← hend]; congr 1; omega) (by omega)
      (Nat.le_of_succ_le_succ hturns)]

theorem lines_eq (h : Inv s ls) : s.lines = lastLines ls := by
  have hlen : (lastLines ls).length = ls.length - dropped ls.length := length_lastLines
  have hfew : (lastLines ls).length < HISTSIZE := by
    rw [hlen, dropped, HISTSIZE]
    omega
  rw [State.lines, h.st]
  refine linesFrom_eq h.ring ?_ hfew hfew.le
  rw [hlen, h.en, dropped, Nat.add_sub_cancel' (Nat.sub_le _ _)]

/-! ### Before the ring has been full -/

/-- The positions while there is room for all lines -/
theorem Inv.few (h : Inv s ls) (hfew : ls.length < HISTSIZE) :
    s.historySt = 0 ∧ s.historyEnd = ls.length ∧ lastLines ls = ls ∧
      ∀ i (hi : i < ls.length), string (s.history i) = ls[i] := by
  have hdropped : dropped ls.length = 0 := by
    unfold dropped
    omega
  have hlast : lastLines ls = ls := by
    rw [lastLines, ← dropped, hdropped, List.drop_zero]
  have hring := h.ring
  rw [hdropped, hlast] at hring
  refine ⟨by rw [h.st, hdropped, Nat.zero_mod], by rw [h.en, Nat.mod_eq_of_lt hfew], hlast, fun i hi => ?_⟩
  have hget := hring.get i hi
  rwa [Nat.zero_add, Nat.mod_eq_of_lt (hi.trans hfew)] at hget

/-- Presses of the up key move `historyPos` down to `historySt`. -/
theorem up_iterate (k : ℕ) (hst : s.historySt = 0) :
    State.up^[k] s = { s with historyPos := s.historyPos - k } := by
  induction k with
  | zero => rfl
  | succ k ih =>
    rw [Function.iterate_succ_apply', ih, State.up]
    dsimp only
    split
    · rw [Nat.sub_sub]
    · next hstop => rw [show s.historyPos - (k + 1) = s.historyPos - k by omega]

/-- **The key up shows the last command, and then the ones before it, up to the oldest.** -/
theorem recall_up (h : Inv s ls) (hfew : ls.length < HISTSIZE) (hpos : s.historyPos = ls.length) {k : ℕ} (hk : 0 < k)
    (hls : 0 < ls.length) : (lastLines ls)[(lastLines ls).length - k]? = some (State.up^[k] s).shown := by
  obtain ⟨hst, -, hlast, hrows⟩ := h.few hfew
  have hi : ls.length - k < ls.length := Nat.sub_lt hls hk
  rw [hlast, up_iterate k hst, State.shown, hpos, hrows _ hi, List.getElem?_eq_getElem hi]

/-- The key down takes the key up back. -/
theorem down_up (h : Inv s ls) (hfew : ls.length < HISTSIZE) (hlt : s.historySt < s.historyPos) : s.up.down = s := by
  have hle := h.pos hfew
  obtain ⟨-, hen, -, -⟩ := h.few hfew
  rw [State.up, if_pos hlt, State.down]
  dsimp only
  rw [if_pos (by omega), Nat.sub_add_cancel (by omega)]

theorem Ok.of_few {es : List Event} (hfew : (entered es).length < HISTSIZE) : Ok es := by
  have h := inv_after es
  obtain ⟨hst, hen, -, -⟩ := h.few hfew
  refine ⟨?_, ?_, (h.pos hfew).trans_lt hfew, lines_eq h, ?_, down_up h hfew⟩
  · rw [hst]
    exact Nat.succ_pos _
  · rwa [hen]
  · rintro front c rfl k hk
    have hlen : (entered (front ++ [.enter c])).length = (entered front).length + 1 := by
      rw [entered_append]
      exact List.length_append
    refine recall_up h hfew ?_ hk (by omega)
    -- entering a command sets `historyPos` behind it
    have hfront := (inv_after front).few (by omega)
    rw [after_append, hlen, ← hfront.2.1]
    rfl

end Ring

/-! ## Sessions that go wrong -/

/-- The command that fills the ring leaves `historyPos` behind the array. -/
theorem pos_of_full {front : List Event} {c : Command} (hfull : (entered front).length = HISTSIZE - 1) :
    (after (front ++ [.enter c])).historyPos = HISTSIZE := by
  have hen := (inv_after front).en
  rw [hfull] at hen
  rw [after_append]
  show (after front).historyEnd + 1 = HISTSIZE
  rw [hen]
  rfl

/-- Somewhere in a session with enough commands there is that command. -/
theorem exists_full {es : List Event} (hmany : HISTSIZE ≤ (entered es).length) :
    ∃ front c, front ++ [.enter c] <+: es ∧ (entered front).length = HISTSIZE - 1 := by
  induction es using List.reverseRecOn with
  | nil => exact absurd hmany (by decide)
  | append_singleton es e ih =>
    by_cases hbefore : HISTSIZE ≤ (entered es).length
    · obtain ⟨front, c, hprefix, hfull⟩ := ih hbefore
      exact ⟨front, c, hprefix.trans (List.prefix_append es [e]), hfull⟩
    · rw [entered_append, List.length_append] at hmany
      cases e with
      | enter c =>
        have hone : (entered [.enter c]).length = 1 := rfl
        exact ⟨es, c, List.prefix_rfl, by omega⟩
      | upKey => exact absurd hmany hbefore
      | downKey => exact absurd hmany hbefore

/-- **The history is in order throughout a session just where fewer than `HISTSIZE` commands are entered**; what it
    lists is right in any session. -/
theorem history_ok_iff (es : List Event) :
    ((∀ front, front <+: es → Ok front) ↔ (entered es).length < HISTSIZE) ∧
      ∀ front, front <+: es → (after front).historySt < HISTSIZE ∧ (after front).historyEnd < HISTSIZE ∧
        (after front).lines = lastLines (entered front) := by
  refine ⟨⟨fun hok => ?_, fun hfew front hprefix => ?_⟩, fun front _ => ?_⟩
  · by_contra hmany
    obtain ⟨front, c, hprefix, hfull⟩ := exists_full (Nat.le_of_not_lt hmany)
    have hpos := (hok _ hprefix).pos
    rw [pos_of_full hfull] at hpos
    exact absurd hpos (Nat.lt_irrefl _)
  · obtain ⟨rest, rfl⟩ := hprefix
    rw [entered_append, List.length_append] at hfew
    exact .of_few ((Nat.le_add_right _ _).trans_lt hfew)
  · have h := inv_after front
    refine ⟨?_, ?_, lines_eq h⟩
    · rw [h.st]
      exact Nat.mod_lt _ (by decide)
    · rw [h.en]
      exact Nat.mod_lt _ (by decide)

/-- A command of one letter -/
def letter (x : UInt8) (h : x ≠ 0) : Command := ⟨[x, 10], le_rfl, Nat.le_of_ble_eq_true rfl, by simp [h.symm]⟩

theorem history_ok_one : ∀ front, front <+: [.enter (letter 97 (by decide)), .upKey, .downKey] → Ok front :=
  ((history_ok_iff [.enter (letter 97 (by decide)), .upKey, .downKey]).1).mpr (by decide)

/-- After 21 commands `historyPos` is no index, and after one more the key up shows a command that is not in the
    ring any more. -/
theorem history_not_ok :
    ¬ Ok (List.replicate 21 (.enter (letter 97 (by decide)))) ∧
      ¬ Ok (List.replicate 2 (.enter (letter 97 (by decide))) ++ List.replicate 20 (.enter (letter 98 (by decide)))) := by
  constructor
  · intro h
    exact absurd h.pos (by decide +kernel)
  · intro h
    have hup := h.recent (List.replicate 2 (.enter (letter 97 (by decide))) ++
      List.replicate 19 (.enter (letter 98 (by decide)))) (letter 98 (by decide)) rfl 1 Nat.one_pos
    exact absurd hup (by decide +kernel)

end Xv6.User.Shell
